import Treewalk.Eval.Exec

/-!
# More fuel

An evaluation that was not given up ends in the same way with more fuel. A computation is below
another one if the other one ends as it does, unless it was given up: `Deferred.Below`.
Continuations keep this as long as they give up after a computation that was given up, and so every
construct keeps it, up to whole evaluations.

`Setting.Ends` says how an evaluation ends, whatever fuel it takes.

Main statements: `Setting.below_exec`, and `Setting.Ends.unique`, an evaluation ends in one way.
-/

namespace Treewalk

variable {ω : Type}

/-- The second computation ends as the first one does, unless the first one was given up. -/
def Deferred.Below (d d' : Deferred (Answer ω)) : Prop :=
  d.value.1 ≠ .exhausted → d'.value = d.value

/-- The second evaluator ends as the first one does, unless the first one was given up. -/
def Evaluator.Below (ev ev' : Evaluator ω) : Prop :=
  ∀ held n env m, (ev held n env m).Below (ev' held n env m)

namespace Deferred.Below

variable {d d' : Deferred (Answer ω)}

theorem refl (d : Deferred (Answer ω)) : d.Below d := fun _ => rfl

theorem exhausted (m : Machine ω) (d : Deferred (Answer ω)) : Below (.done (.exhausted, m)) d :=
  fun h => (h rfl).elim

/-- A continuation that gives up after what was given up. -/
theorem seq (h : d.Below d') {r r' : Answer ω → Deferred (Answer ω)}
    (hr : ∀ a, a.1 ≠ .exhausted → (r a).Below (r' a))
    (hpass : ∀ m, (r (.exhausted, m)).value.1 = .exhausted) : Below (.seq d r) (.seq d' r') := by
  intro hne
  rw [value_seq] at hne ⊢
  have hd : d.value.1 ≠ .exhausted := fun he => hne (by
    rw [show d.value = (.exhausted, d.value.2) from Prod.ext he rfl]
    exact hpass _)
  rw [h hd, value_seq]
  exact hr _ hd hne

theorem thenValue (h : d.Below d') {r r' : Value → Machine ω → Deferred (Answer ω)}
    (hr : ∀ v m, (r v m).Below (r' v m)) : (d.thenValue r).Below (d'.thenValue r') := by
  refine h.seq (fun a ha => ?_) fun m => rfl
  obtain ⟨c, m⟩ := a
  cases c with
  | value v => exact hr v m
  | _ => exact .refl _

theorem map (h : d.Below d') {f : Answer ω → Answer ω}
    (hf : ∀ m, (f (.exhausted, m)).1 = .exhausted) : (d.map f).Below (d'.map f) :=
  h.seq (fun _ _ => .refl _) hf

end Deferred.Below

namespace Setting

variable {S : Setting ω} {ev ev' : Evaluator ω} {held : Held} {env s : ScopeId} {m : Machine ω}

theorem below_within (held : Held) (parent : ScopeId) (m : Machine ω)
    {body body' : ScopeId → Machine ω → Deferred (Answer ω)}
    (hbody : ∀ s m, (body s m).Below (body' s m)) :
    (S.within held parent m body).Below (S.within held parent m body') :=
  (hbody _ _).map fun _ => rfl

theorem below_evaluateOr (h : ev.Below ev') (default : Value) (n : Option Node) :
    (evaluateOr ev held default n env m).Below (evaluateOr ev' held default n env m) := by
  cases n with
  | none => exact .refl _
  | some n => exact h held n env m

theorem below_programRuns (h : ev.Below ev') (last : Value) (body : List Node) :
    (programRuns ev held env last body m).Below (programRuns ev' held env last body m) := by
  induction body generalizing last m with
  | nil => exact .refl _
  | cons n rest ih =>
    refine (h _ n env m).seq (fun a _ => ?_) fun m => rfl
    obtain ⟨c, m⟩ := a
    dsimp only
    cases c.discardLoopSignal with
    | value v => exact ih v
    | _ => exact .refl _

theorem below_blockRuns (h : ev.Below ev') (last : Value) (body : List Node) :
    (blockRuns ev held s last body m).Below (blockRuns ev' held s last body m) := by
  induction body generalizing last m with
  | nil => exact .refl _
  | cons n rest ih => exact (h _ n s m).thenValue fun v m => ih v

theorem below_branch (h : ev.Below ev') (cond thenBranch : Node) (elseBranch : Option Node) :
    (branch ev held cond thenBranch elseBranch env m).Below
      (branch ev' held cond thenBranch elseBranch env m) := by
  refine (h held cond env m).thenValue fun v m => ?_
  split
  · exact h held thenBranch env m
  · exact below_evaluateOr h .null elseBranch

theorem below_binary (h : ev.Below ev') (op : BinaryOperator) (left right : Node) :
    (binary ev held op left right env m).Below (binary ev' held op left right env m) :=
  (h held right env m).thenValue fun _ m => (h _ left env m).thenValue fun _ _ => .refl _

theorem below_unary (h : ev.Below ev') (op : UnaryOperator) (operand : Node) :
    (unary ev held op operand env m).Below (unary ev' held op operand env m) := by
  unfold unary
  split
  · exact .refl _
  · exact (h held operand env m).thenValue fun _ _ => .refl _

theorem below_assignment (h : ev.Below ev') (target : NodeKind) (value : Node) :
    (assignment ev held target value env m).Below (assignment ev' held target value env m) := by
  unfold assignment
  cases target with
  | identifier name =>
    dsimp only
    cases m.store.resolve env name with
    | none => exact .refl _
    | some b =>
      dsimp only
      split
      · exact .refl _
      · exact (h held value env m).thenValue fun _ _ => .refl _
  | _ => exact .refl _

theorem below_member (h : ev.Below ev') (object : Node) (key : MemberKey) :
    (member ev held object key env m).Below (member ev' held object key env m) := by
  refine (h held object env m).thenValue fun o m => ?_
  cases key with
  | named name => exact .refl _
  | computed key => exact (h _ key env m).thenValue fun _ _ => .refl _

theorem below_objectRuns (h : ev.Below ev') (keys : List String) (made : Table Binding)
    (properties : List Property) :
    (objectRuns ev held env keys made properties m).Below
      (objectRuns ev' held env keys made properties m) := by
  induction properties generalizing keys made m with
  | nil => exact .refl _
  | cons property rest ih =>
    obtain ⟨key, _ | n⟩ := property
    · rw [objectRuns, objectRuns]
      cases m.store.shorthand env key with
      | error cause => exact .refl _
      | ok p =>
        dsimp only [addProperty]
        cases made.set? p.1.name p.1 with
        | none => exact .refl _
        | some t => exact ih _ _
    · rw [objectRuns, objectRuns]
      refine (h _ n env m).thenValue fun v m => ?_
      dsimp only [addProperty]
      cases made.set? key ⟨key, false, (m.store.copy v).1⟩ with
      | none => exact .refl _
      | some t => exact ih _ _

/-! ## Calls -/

theorem below_runBody (h : ev.Below ev') (body : List Node) :
    (runBody ev held s body m).Below (runBody ev' held s body m) := by
  induction body generalizing m with
  | nil => exact .refl _
  | cons n rest ih =>
    refine (h _ n s m).seq (fun a _ => ?_) fun m => rfl
    obtain ⟨c, m⟩ := a
    dsimp only
    cases c.discardLoopSignal with
    | value v => exact ih
    | _ => exact .refl _

theorem below_callClosure (h : ev.Below ev') (f : Closure) (args : List Value) :
    (S.callClosure ev held f args m).Below (S.callClosure ev' held f args m) := by
  unfold callClosure
  cases f.arityFault? args.length with
  | some cause => exact .refl _
  | none =>
    dsimp only
    split
    · exact .refl _
    · refine below_within held f.scope m fun s m => ?_
      obtain ⟨σ, _ | cause⟩ := m.store.bindParameters s (f.code.params.zip args)
      · exact (below_runBody h f.code.body).map fun _ => rfl
      · exact .refl _

theorem below_callValue (h : ev.Below ev') (callee : Value) (args : List Value) :
    (S.callValue ev held callee args env m).Below (S.callValue ev' held callee args env m) := by
  cases callee with
  | function f => exact below_callClosure h f args
  | _ => exact .refl _

theorem below_arguments (h : ev.Below ev') {next next' : Held → List Value → Machine ω →
    Deferred (Answer ω)} (hnext : ∀ held values m, (next held values m).Below (next' held values m))
    (values : List Value) (args : List Node) :
    (arguments ev held env next values args m).Below
      (arguments ev' held env next' values args m) := by
  induction args generalizing held values m with
  | nil => exact hnext held values m
  | cons n rest ih => exact (h held n env m).thenValue fun v m => ih _

/-! ## Loops -/

/-- A run of a loop's body, after which the loop may go on. -/
theorem below_loopBody {d d' : Deferred (Answer ω)} (h : d.Below d') (isBlock : Bool)
    {next next' : Machine ω → Deferred (Answer ω)} (hnext : ∀ m, (next m).Below (next' m)) :
    Deferred.Below
      (.seq d fun (c, m) =>
        match c.bodyStatus isBlock with
        | .ok .broke => m.give .null
        | .ok _ => next m
        | .error c => .done (c, m))
      (.seq d' fun (c, m) =>
        match c.bodyStatus isBlock with
        | .ok .broke => m.give .null
        | .ok _ => next' m
        | .error c => .done (c, m)) := by
  refine h.seq (fun a _ => ?_) fun m => by cases isBlock <;> rfl
  obtain ⟨c, m⟩ := a
  dsimp only
  cases c.bodyStatus isBlock with
  | ok status =>
    cases status with
    | broke => exact .refl _
    | _ => exact hnext m
  | error c => exact .refl _

theorem below_whileRuns (h : ev.Below ev') (cond body : Node) {fuel fuel' : Nat}
    (hf : fuel ≤ fuel') : (whileRuns ev held cond body env fuel m).Below
      (whileRuns ev' held cond body env fuel' m) := by
  induction fuel generalizing fuel' m with
  | zero => exact .exhausted m _
  | succ fuel ih =>
    obtain ⟨fuel', rfl⟩ : ∃ k, fuel' = k + 1 := ⟨fuel' - 1, by omega⟩
    refine (h held cond env m).thenValue fun v m => ?_
    split
    · exact below_loopBody (h held body env m) _ fun m => ih (by omega)
    · exact .refl _

theorem below_forRuns (h : ev.Below ev') (cond update : Option Node) (body : Node)
    {fuel fuel' : Nat} (hf : fuel ≤ fuel') : (forRuns ev held cond update body s fuel m).Below
      (forRuns ev' held cond update body s fuel' m) := by
  induction fuel generalizing fuel' m with
  | zero => exact .exhausted m _
  | succ fuel ih =>
    obtain ⟨fuel', rfl⟩ : ∃ k, fuel' = k + 1 := ⟨fuel' - 1, by omega⟩
    refine (below_evaluateOr h _ cond).thenValue fun v m => ?_
    split
    · have hnext : ∀ m,
          ((evaluateOr ev held .null update s m).thenValue fun _ m =>
            forRuns ev held cond update body s fuel m).Below
          ((evaluateOr ev' held .null update s m).thenValue fun _ m =>
            forRuns ev' held cond update body s fuel' m) := fun m =>
        (below_evaluateOr h .null update).thenValue fun _ m => ih (by omega)
      exact below_loopBody (h held body s m) body.isBlock hnext
    · exact .refl _

theorem below_forLoop (h : ev.Below ev') (init cond update : Option Node) (body : Node)
    {fuel fuel' : Nat} (hf : fuel ≤ fuel') :
    (S.forLoop ev fuel held init cond update body env m).Below
      (S.forLoop ev' fuel' held init cond update body env m) :=
  below_within held env m fun _ _ =>
    (below_evaluateOr h _ init).thenValue fun _ _ => below_forRuns h cond update body hf

theorem below_countedRun (h : ev.Below ev') (counter : String) (body : Node) (index : Nat) :
    (S.countedRun ev held counter body env index m).Below
      (S.countedRun ev' held counter body env index m) := by
  refine below_within held env m fun s m => ?_
  cases m.store.declare s counter (.int index) false with
  | error cause => exact .refl _
  | ok p => exact (h _ body s _).map fun _ => rfl

theorem below_countedRuns (h : ev.Below ev') (bound : LoopBound) (counter : String) (body : Node)
    {fuel fuel' : Nat} (hf : fuel ≤ fuel') (index : Nat) :
    (S.countedRuns ev held bound counter body env fuel index m).Below
      (S.countedRuns ev' held bound counter body env fuel' index m) := by
  induction fuel generalizing fuel' index m with
  | zero => exact .exhausted m _
  | succ fuel ih =>
    obtain ⟨fuel', rfl⟩ : ∃ k, fuel' = k + 1 := ⟨fuel' - 1, by omega⟩
    rw [countedRuns, countedRuns]
    split
    · exact below_loopBody (below_countedRun h counter body index) _ fun m => ih (by omega) _
    · exact .refl _

theorem below_countedLoop (h : ev.Below ev') (bound : Node) (counter : Option String) (body : Node)
    {fuel fuel' : Nat} (hf : fuel ≤ fuel') :
    (S.countedLoop ev fuel held bound counter body env m).Below
      (S.countedLoop ev' fuel' held bound counter body env m) := by
  refine (h held bound env m).thenValue fun v m => ?_
  cases LoopBound.ofValue v with
  | error cause => exact .refl _
  | ok b => exact below_countedRuns h b _ body hf 0

/-! ## Nodes -/

theorem below_step (h : ev.Below ev') {fuel fuel' : Nat} (hf : fuel ≤ fuel') (kind : NodeKind) :
    (S.step fuel ev held kind env m).Below (S.step fuel' ev' held kind env m) := by
  cases kind with
  | program body => exact below_programRuns h .null body
  | block body => exact below_within held env m fun _ _ => below_blockRuns h .null body
  | declaration name isConst init =>
    exact (below_evaluateOr h .null init).thenValue fun _ _ => .refl _
  | branch cond thenBranch elseBranch => exact below_branch h cond thenBranch elseBranch
  | whileLoop cond body => exact below_whileRuns h cond body hf
  | forLoop init cond update body => exact below_forLoop h init cond update body hf
  | countedLoop bound counter body => exact below_countedLoop h bound counter body hf
  | returnValue value =>
    rw [step, step]
    exact (below_evaluateOr h .null value).thenValue fun _ _ => .refl _
  | binary op left right => exact below_binary h op left right
  | unary op operand => exact below_unary h op operand
  | assignment target value => exact below_assignment h target.kind value
  | call callee args =>
    exact below_arguments h (fun held args m => (h held callee env m).thenValue fun f m =>
      below_callValue h f args) [] args
  | member object key => exact below_member h object key
  | object properties => exact below_objectRuns h [] _ properties
  | _ => exact .refl _

/-- **More fuel changes no answer.** -/
theorem below_exec (S : Setting ω) {fuel fuel' : Nat} (hf : fuel ≤ fuel') :
    (S.exec fuel).Below (S.exec fuel') := by
  induction fuel generalizing fuel' with
  | zero => exact fun held n env m => .exhausted m _
  | succ fuel ih =>
    obtain ⟨fuel', rfl⟩ : ∃ k, fuel' = k + 1 := ⟨fuel' - 1, by omega⟩
    exact fun held n env m => (below_step (ih (by omega)) (by omega) n.kind).map fun _ => rfl

/-! ## How evaluations end -/

/-- With enough fuel, a node evaluates to an answer. -/
def Ends (S : Setting ω) (held : Held) (n : Node) (env : ScopeId) (m : Machine ω)
    (a : Answer ω) : Prop :=
  a.1 ≠ .exhausted ∧ ∃ fuel, (S.exec fuel held n env m).value = a

namespace Ends

variable {n : Node} {a a' : Answer ω}

theorem of_le {fuel fuel' : Nat} (h : (S.exec fuel held n env m).value.1 ≠ .exhausted)
    (hf : fuel ≤ fuel') :
    (S.exec fuel' held n env m).value = (S.exec fuel held n env m).value :=
  S.below_exec hf held n env m h

/-- All amounts of fuel from some amount on give the answer. -/
theorem exists_forall_le (h : S.Ends held n env m a) :
    ∃ k, ∀ fuel, k ≤ fuel → (S.exec fuel held n env m).value = a := by
  obtain ⟨hne, k, rfl⟩ := h
  exact ⟨k, fun fuel hf => of_le hne hf⟩

/-- An evaluation ends in one way. -/
theorem unique (h : S.Ends held n env m a) (h' : S.Ends held n env m a') : a = a' := by
  obtain ⟨k, hk⟩ := h.exists_forall_le
  obtain ⟨k', hk'⟩ := h'.exists_forall_le
  rw [← hk (max k k') (Nat.le_max_left ..), ← hk' (max k k') (Nat.le_max_right ..)]

end Ends

/-- How a node ends, from how its kind does. -/
theorem ends_iff_step {a : Answer ω} {kind : NodeKind} {line : UInt32} :
    S.Ends held ⟨kind, line⟩ env m a ↔ ∃ fuel c m',
      (S.step fuel (S.exec fuel) held kind env { m with line }).value = (c, m') ∧
        c ≠ .exhausted ∧ a = (c.atLine line, m') := by
  constructor
  · rintro ⟨hne, fuel, rfl⟩
    cases fuel with
    | zero => exact (hne rfl).elim
    | succ fuel =>
      refine ⟨fuel, _, _, rfl, fun he => hne ?_, rfl⟩
      rw [value_exec_succ]
      exact congrArg (Completion.atLine line) he
  · rintro ⟨fuel, c, m', hstep, hne, rfl⟩
    refine ⟨?_, fuel + 1, ?_⟩
    · cases c <;> simp_all [Completion.atLine]
    · rw [value_exec_succ, hstep]

end Setting

end Treewalk
