import Treewalk.Proofs.Scope.Store
import Treewalk.Proofs.Trace.Course

/-!
# Evaluations go by their courses

That all evaluations have a course is proved together with the faithfulness of traces:
`Setting.Traces` ties an evaluation with traces to the evaluation without them, construct by
construct.

* `Setting.traces_stepWith`: every kind of node, over evaluators for its parts.
* `Setting.traces_exec`: an evaluation with traces gives the answer of the evaluation without, and
  its course is that of the traces. `Setting.traces_callValue` is the same of a call.
-/

namespace Treewalk.Setting

variable {ω : Type}

/-- Whether a computation with traces is a computation without, with traces of its course added
to those before it. -/
def Traces (S : Setting ω) (isCall : Bool) (depth : Nat) (m : Machine ω)
    (before : List (Trace ω)) (traced : Deferred (Answer (ω × List (Trace ω))))
    (plain : Deferred (Answer ω)) : Prop :=
  ∃ ts, traced.value = (plain.value.1, plain.value.2.withTraces (before ++ ts)) ∧
    S.Course isCall depth m ts plain.value

/-- Whether an evaluator with traces evaluates as another does without, inside a number of
bodies. -/
def TracesAll (S : Setting ω) (depth : Nat) (traced : Evaluator (ω × List (Trace ω)))
    (plain : Evaluator ω) : Prop :=
  ∀ isCall held n env m before, S.Traces isCall depth m before
    (traced held n env (m.withTraces before)) (plain held n env m)

variable {S : Setting ω} {isCall : Bool} {depth : Nat} {m : Machine ω} {js : List (Trace ω)}
variable {ev₁ : Evaluator (ω × List (Trace ω))} {ev₂ : Evaluator ω} {held : Held}
variable {env s : ScopeId}

/-! ## Steps of a node's own -/

theorem traces_own {c : Completion} (hc : c.IsOwn isCall) (σ : Store) :
    S.Traces isCall depth m js (.done (c, (m.withStore σ).withTraces js))
      (.done (c, m.withStore σ)) :=
  ⟨[], by rw [List.append_nil]; rfl, .own hc σ⟩

theorem traces_give (v : Value) (σ : Store) :
    S.Traces isCall depth m js (((m.withStore σ).withTraces js).give v) ((m.withStore σ).give v) :=
  traces_own (c := .value v) trivial σ

theorem traces_fail {cause : ErrorCause} (hc : cause.isOfCall = true → isCall = true)
    (σ : Store) :
    S.Traces isCall depth m js (((m.withStore σ).withTraces js).fail cause)
      ((m.withStore σ).fail cause) :=
  traces_own (c := .fail cause) ⟨rfl, hc⟩ σ

theorem traces_finish {r : Except ErrorCause Value}
    (hr : ∀ cause, r = .error cause → cause.isOfCall = false) :
    S.Traces isCall depth m js ((m.withTraces js).finish r) (m.finish r) := by
  cases r with
  | ok v => exact traces_give v m.store
  | error cause => exact traces_fail (by simp [hr cause rfl]) m.store

/-! ## Composition -/

/-- An evaluation that starts with a change of the store. -/
theorem Traces.withStore {d₁ : Deferred (Answer (ω × List (Trace ω)))} {d₂ : Deferred (Answer ω)}
    {σ : Store} (h : S.Traces isCall depth (m.withStore σ) js d₁ d₂) :
    S.Traces isCall depth m js d₁ d₂ := by
  obtain ⟨ts, he, hc⟩ := h
  -- The change is a step of its own; any completion but a failure can stand before the rest.
  exact ⟨ts, he, .andThen (Course.own (c := .broke) trivial σ) rfl hc⟩

/-- A computation whose continuation lets a completion pass, or goes on unless it is a failure. -/
theorem traces_seq {d₁ : Deferred (Answer (ω × List (Trace ω)))} {d₂ : Deferred (Answer ω)}
    {r₁ : Answer (ω × List (Trace ω)) → Deferred (Answer (ω × List (Trace ω)))}
    {r₂ : Answer ω → Deferred (Answer ω)} (h : S.Traces isCall depth m js d₁ d₂)
    (hr : ∀ c m js, (r₁ (c, m.withTraces js) = .done (c, m.withTraces js) ∧
        r₂ (c, m) = .done (c, m)) ∨
      c.error? = none ∧ S.Traces isCall depth m js (r₁ (c, m.withTraces js)) (r₂ (c, m))) :
    S.Traces isCall depth m js (.seq d₁ r₁) (.seq d₂ r₂) := by
  obtain ⟨ts, he, hc⟩ := h
  rw [Traces, Deferred.value_seq, Deferred.value_seq, he]
  generalize d₂.value = a at hc ⊢
  obtain ⟨c, m'⟩ := a
  obtain ⟨h₁, h₂⟩ | ⟨hn, us, he', hc'⟩ := hr c m' (js ++ ts)
  · rw [h₁, h₂]
    exact ⟨ts, rfl, hc⟩
  · exact ⟨ts ++ us, by rw [he', List.append_assoc], hc.andThen hn hc'⟩

theorem traces_thenValue {d₁ : Deferred (Answer (ω × List (Trace ω)))} {d₂ : Deferred (Answer ω)}
    {r₁ : Value → Machine (ω × List (Trace ω)) → Deferred (Answer (ω × List (Trace ω)))}
    {r₂ : Value → Machine ω → Deferred (Answer ω)} (h : S.Traces isCall depth m js d₁ d₂)
    (hr : ∀ v m js, S.Traces isCall depth m js (r₁ v (m.withTraces js)) (r₂ v m)) :
    S.Traces isCall depth m js (d₁.thenValue r₁) (d₂.thenValue r₂) := by
  refine traces_seq h fun c m js => ?_
  cases c with
  | value v => exact .inr ⟨rfl, hr v m js⟩
  | _ => exact .inl ⟨rfl, rfl⟩

/-- An evaluation in a new scope, which is left at the end. -/
theorem traces_within {parent : ScopeId}
    {body₁ : ScopeId → Machine (ω × List (Trace ω)) → Deferred (Answer (ω × List (Trace ω)))}
    {body₂ : ScopeId → Machine ω → Deferred (Answer ω)}
    (hb : S.Traces isCall depth (m.withStore (m.store.child parent).2) js
      (body₁ (m.store.child parent).1 ((m.withStore (m.store.child parent).2).withTraces js))
      (body₂ (m.store.child parent).1 (m.withStore (m.store.child parent).2))) :
    S.Traces isCall depth m js (S.traced.within held parent (m.withTraces js) body₁)
      (S.within held parent m body₂) := by
  obtain ⟨ts, he, hc⟩ := hb.withStore
  have he' : (S.traced.within held parent (m.withTraces js) body₁).value =
      S.traced.leaveScope held (m.store.child parent).1
        (body₁ (m.store.child parent).1
          ((m.withStore (m.store.child parent).2).withTraces js)).value := rfl
  have hp : (S.within held parent m body₂).value =
      S.leaveScope held (m.store.child parent).1
        (body₂ (m.store.child parent).1 (m.withStore (m.store.child parent).2)).value := rfl
  rw [Traces, he', hp, he]
  exact ⟨ts, rfl, hc.leave _ _⟩

theorem traces_evaluateOr (hev : S.TracesAll depth ev₁ ev₂) (default : Value) (n : Option Node) :
    S.Traces isCall depth m js (evaluateOr ev₁ held default n env (m.withTraces js))
      (evaluateOr ev₂ held default n env m) := by
  cases n with
  | none => exact traces_give default m.store
  | some n => exact hev isCall held n env m js

/-! ## Statements in a row -/

theorem traces_programRuns (hev : S.TracesAll depth ev₁ ev₂) (last : Value) (body : List Node) :
    S.Traces isCall depth m js (programRuns ev₁ held env last body (m.withTraces js))
      (programRuns ev₂ held env last body m) := by
  induction body generalizing last m js with
  | nil => exact traces_give last m.store
  | cons n rest ih =>
    refine traces_seq (hev isCall _ n env m js) fun c m js => ?_
    cases c with
    | value v => exact .inr ⟨rfl, ih v⟩
    | broke => exact .inr ⟨rfl, ih .null⟩
    | continued => exact .inr ⟨rfl, ih .null⟩
    | _ => exact .inl ⟨rfl, rfl⟩

theorem traces_blockRuns (hev : S.TracesAll depth ev₁ ev₂) (last : Value) (body : List Node) :
    S.Traces isCall depth m js (blockRuns ev₁ held s last body (m.withTraces js))
      (blockRuns ev₂ held s last body m) := by
  induction body generalizing last m js with
  | nil => exact traces_give last m.store
  | cons n rest ih => exact traces_thenValue (hev isCall _ n s m js) fun v m js => ih v

theorem traces_block (hev : S.TracesAll depth ev₁ ev₂) (body : List Node) :
    S.Traces isCall depth m js (S.traced.block ev₁ held body env (m.withTraces js))
      (S.block ev₂ held body env m) :=
  traces_within (traces_blockRuns hev .null body)

/-! ## Variables -/

theorem traces_declare (name : String) (v : Value) (isConst : Bool) :
    S.Traces isCall depth m js (declare name v isConst env (m.withTraces js))
      (declare name v isConst env m) := by
  rw [declare, declare, Machine.store_withTraces]
  cases hd : m.store.declare env name v isConst with
  | ok p => exact traces_give v p.2
  | error cause =>
    obtain ⟨-, rfl⟩ := Store.declare_eq_error hd
    exact traces_fail (by simp [ErrorCause.isOfCall]) m.store

theorem traces_assign (name : String) (v w : Value) :
    S.Traces isCall depth m js
      (match m.store.assign env name v with
        | .error fault => (m.withTraces js).fail (fault.cause name)
        | .ok (_, σ) => ((m.withTraces js).withStore σ).give w)
      (match m.store.assign env name v with
        | .error fault => m.fail (fault.cause name)
        | .ok (_, σ) => (m.withStore σ).give w) := by
  cases m.store.assign env name v with
  | ok p => exact traces_give w p.2
  | error fault => exact traces_fail (by simp [fault.isOfCall_cause]) m.store

theorem traces_update (op : UnaryOperator) (operand : NodeKind) :
    S.Traces isCall depth m js (update op operand env (m.withTraces js))
      (update op operand env m) := by
  unfold update
  cases operand with
  | identifier name =>
    dsimp only [Machine.store_withTraces]
    cases hl : m.store.lookup env name with
    | error cause => exact traces_fail (by simp [Store.isOfCall_of_lookup hl]) m.store
    | ok old =>
      dsimp only
      cases ha : op.apply old with
      | error cause => exact traces_fail (by simp [UnaryOperator.isOfCall_of_apply ha]) m.store
      | ok new => exact traces_assign name new _
  | _ => exact traces_fail (by simp [ErrorCause.isOfCall]) m.store

theorem traces_assignment (hev : S.TracesAll depth ev₁ ev₂) (target : NodeKind) (value : Node) :
    S.Traces isCall depth m js (assignment ev₁ held target value env (m.withTraces js))
      (assignment ev₂ held target value env m) := by
  unfold assignment
  cases target with
  | identifier name =>
    dsimp only [Machine.store_withTraces]
    cases m.store.resolve env name with
    | none => exact traces_fail (by simp [ErrorCause.isOfCall]) m.store
    | some b =>
      dsimp only
      split
      · exact traces_fail (by simp [ErrorCause.isOfCall]) m.store
      · refine traces_thenValue (hev isCall held value env m js) fun v m js => ?_
        rw [Machine.store_withTraces]
        cases m.store.assign env name v with
        | error fault => exact traces_fail (by simp [fault.isOfCall_cause]) m.store
        | ok p => exact traces_give p.1.value p.2
  | _ => exact traces_fail (by simp [ErrorCause.isOfCall]) m.store

/-! ## Expressions -/

theorem traces_branch (hev : S.TracesAll depth ev₁ ev₂) (cond thenBranch : Node)
    (elseBranch : Option Node) :
    S.Traces isCall depth m js (branch ev₁ held cond thenBranch elseBranch env (m.withTraces js))
      (branch ev₂ held cond thenBranch elseBranch env m) := by
  refine traces_thenValue (hev isCall held cond env m js) fun v m js => ?_
  split
  · exact hev isCall held thenBranch env m js
  · exact traces_evaluateOr hev .null elseBranch

theorem traces_operate (op : BinaryOperator) (l r : Value) :
    S.Traces isCall depth m js (operate op l r (m.withTraces js)) (operate op l r m) := by
  unfold operate
  split
  · exact traces_own (c := .panicked) trivial m.store
  · exact traces_finish fun _ h => BinaryOperator.isOfCall_of_apply h

theorem traces_binary (hev : S.TracesAll depth ev₁ ev₂) (op : BinaryOperator)
    (left right : Node) :
    S.Traces isCall depth m js (binary ev₁ held op left right env (m.withTraces js))
      (binary ev₂ held op left right env m) :=
  traces_thenValue (hev isCall held right env m js) fun r m js =>
    traces_thenValue (hev isCall (held.value r) left env m js) fun l _ _ => traces_operate op l r

theorem traces_unary (hev : S.TracesAll depth ev₁ ev₂) (op : UnaryOperator) (operand : Node) :
    S.Traces isCall depth m js (unary ev₁ held op operand env (m.withTraces js))
      (unary ev₂ held op operand env m) := by
  unfold unary
  split
  · exact traces_update op operand.kind
  · exact traces_thenValue (hev isCall held operand env m js) fun _ _ _ =>
      traces_finish fun _ h => UnaryOperator.isOfCall_of_apply h

theorem traces_member (hev : S.TracesAll depth ev₁ ev₂) (object : Node) (key : MemberKey) :
    S.Traces isCall depth m js (member ev₁ held object key env (m.withTraces js))
      (member ev₂ held object key env m) := by
  refine traces_thenValue (hev isCall held object env m js) fun o m js => ?_
  cases key with
  | named name => exact traces_finish fun _ h => Value.isOfCall_of_property h
  | computed key =>
    refine traces_thenValue (hev isCall (held.value o) key env m js) fun k m js => ?_
    refine traces_finish fun cause h => ?_
    cases hk : k.asKey with
    | error e =>
      rw [hk] at h
      cases h
      exact Value.isOfCall_of_asKey hk
    | ok name =>
      rw [hk] at h
      exact Value.isOfCall_of_property h

theorem traces_addProperty {properties : Table Binding} {b : Binding}
    {next₁ : Table Binding → Machine (ω × List (Trace ω)) → Deferred (Answer (ω × List (Trace ω)))}
    {next₂ : Table Binding → Machine ω → Deferred (Answer ω)}
    (hnext : ∀ t, S.Traces isCall depth m js (next₁ t (m.withTraces js)) (next₂ t m)) :
    S.Traces isCall depth m js (addProperty properties b next₁ (m.withTraces js))
      (addProperty properties b next₂ m) := by
  rw [addProperty, addProperty]
  split
  · exact hnext _
  · exact traces_fail (by simp [ErrorCause.isOfCall]) m.store

theorem traces_objectRuns (hev : S.TracesAll depth ev₁ ev₂) (keys : List String)
    (made : Table Binding) (properties : List Property) :
    S.Traces isCall depth m js (objectRuns ev₁ held env keys made properties (m.withTraces js))
      (objectRuns ev₂ held env keys made properties m) := by
  induction properties generalizing keys made m js with
  | nil => exact traces_give _ _
  | cons property rest ih =>
    obtain ⟨key, _ | n⟩ := property
    · rw [objectRuns, objectRuns, Machine.store_withTraces, Store.shorthand]
      cases m.store.resolve env key with
      | none => exact traces_fail (by simp [ErrorCause.isOfCall]) m.store
      | some b => exact (traces_addProperty fun t => ih (keys.insert key) t).withStore
    · rw [objectRuns, objectRuns]
      refine traces_thenValue (hev isCall _ n env m js) fun v m js => ?_
      exact (traces_addProperty (m := m.withStore (m.store.copy v).2)
        fun t => ih (keys.insert key) t).withStore

/-! ## Calls -/

theorem traces_callNative (f : NativeFunction) (args : List Value) :
    S.Traces true depth m js (S.traced.callNative f args env (m.withTraces js))
      (S.callNative f args env m) := by
  cases hc : S.host.call f args env m.store m.world with
  | mk r p =>
    obtain ⟨σ, w⟩ := p
    have h₁ : S.traced.callNative f args env (m.withTraces js) =
        .done (.ofResult r, ({ m with store := σ, world := w } : Machine ω).withTraces
          (js ++ [.native f r σ w])) := by
      simp only [callNative, traced, Host.traced, Machine.withTraces, hc]
      cases r <;> rfl
    have h₂ : S.callNative f args env m =
        .done (.ofResult r, { m with store := σ, world := w }) := by
      simp only [callNative, hc]
      cases r <;> rfl
    rw [h₁, h₂]
    exact ⟨_, rfl, .native hc⟩

theorem traces_runBody (hev : S.TracesAll depth ev₁ ev₂) (body : List Node) :
    S.Traces isCall depth m js (runBody ev₁ held s body (m.withTraces js))
      (runBody ev₂ held s body m) := by
  induction body generalizing m js with
  | nil => exact traces_give .null m.store
  | cons n rest ih =>
    refine traces_seq (hev isCall held n s m js) fun c m js => ?_
    cases c with
    | value v => exact .inr ⟨rfl, ih⟩
    | broke => exact .inr ⟨rfl, ih⟩
    | continued => exact .inr ⟨rfl, ih⟩
    | returned v => exact .inr ⟨rfl, traces_give _ _⟩
    | _ => exact .inl ⟨rfl, rfl⟩

theorem traces_runCall (hev : S.TracesAll (depth + 1) ev₁ ev₂) (body : List Node)
    (hd : m.callDepth < S.config.maxCallDepth) :
    S.Traces isCall depth m js (runCall ev₁ held s body (m.withTraces js))
      (runCall ev₂ held s body m) := by
  have hbody : S.Traces isCall (depth + 1) { m with callDepth := m.callDepth + 1 } js
      (runBody ev₁ held s body
        (({ m with callDepth := m.callDepth + 1 } : Machine ω).withTraces js))
      (runBody ev₂ held s body { m with callDepth := m.callDepth + 1 }) := traces_runBody hev body
  obtain ⟨ts, he, hc⟩ := hbody
  have he' : (runCall ev₁ held s body (m.withTraces js)).value =
      ((runBody ev₁ held s body
        (({ m with callDepth := m.callDepth + 1 } : Machine ω).withTraces js)).value.1,
        { (runBody ev₁ held s body
          (({ m with callDepth := m.callDepth + 1 } : Machine ω).withTraces js)).value.2 with
          callDepth := (runBody ev₁ held s body (({ m with
            callDepth := m.callDepth + 1 } : Machine ω).withTraces js)).value.2.callDepth - 1 }) :=
    rfl
  rw [Traces, he', he]
  exact ⟨ts, rfl, .call hd hc⟩

theorem traces_callClosure (hev : S.TracesAll (depth + 1) ev₁ ev₂) (f : Closure)
    (args : List Value) :
    S.Traces true depth m js (S.traced.callClosure ev₁ held f args (m.withTraces js))
      (S.callClosure ev₂ held f args m) := by
  unfold callClosure
  split
  · exact traces_fail (fun _ => rfl) m.store
  · change S.Traces true depth m js
      (if S.config.maxCallDepth ≤ m.callDepth then
        (m.withTraces js).fail (.stackOverflow S.config.maxCallDepth) else _) _
    split
    · exact traces_fail (fun _ => rfl) m.store
    · next hd =>
      refine traces_within ?_
      rw [Machine.store_withTraces]
      split
      · next σ cause _ =>
        exact traces_fail (m := m.withStore (m.store.child f.scope).2) (fun _ => rfl) σ
      · next σ _ =>
        refine Traces.withStore (m := m.withStore (m.store.child f.scope).2) (σ := σ) ?_
        exact traces_runCall (m := m.withStore σ) hev f.code.body (Nat.lt_of_not_ge hd)

theorem traces_callValue (hev : S.TracesAll (depth + 1) ev₁ ev₂) (callee : Value)
    (args : List Value) :
    S.Traces true depth m js (S.traced.callValue ev₁ held callee args env (m.withTraces js))
      (S.callValue ev₂ held callee args env m) := by
  cases callee with
  | native f => exact traces_callNative f args
  | function f => exact traces_callClosure hev f args
  | _ => exact traces_fail (fun _ => rfl) m.store

theorem traces_arguments (hev : S.TracesAll depth ev₁ ev₂)
    {next₁ : Held → List Value → Machine (ω × List (Trace ω)) →
      Deferred (Answer (ω × List (Trace ω)))}
    {next₂ : Held → List Value → Machine ω → Deferred (Answer ω)}
    (hnext : ∀ held values m js,
      S.Traces isCall depth m js (next₁ held values (m.withTraces js)) (next₂ held values m))
    (values : List Value) (args : List Node) :
    S.Traces isCall depth m js (arguments ev₁ held env next₁ values args (m.withTraces js))
      (arguments ev₂ held env next₂ values args m) := by
  induction args generalizing held values m js with
  | nil => exact hnext held values m js
  | cons n rest ih =>
    exact traces_thenValue (hev isCall held n env m js) fun v m js => ih (values ++ [v])

/-! ## Loops -/

/-- A run of a loop's body, after which the loop may go on. -/
theorem traces_loopBody {isBlock : Bool} {d₁ : Deferred (Answer (ω × List (Trace ω)))}
    {d₂ : Deferred (Answer ω)}
    (next₁ : Machine (ω × List (Trace ω)) → Deferred (Answer (ω × List (Trace ω))))
    (next₂ : Machine ω → Deferred (Answer ω)) (h : S.Traces isCall depth m js d₁ d₂)
    (hnext : ∀ m js, S.Traces isCall depth m js (next₁ (m.withTraces js)) (next₂ m)) :
    S.Traces isCall depth m js
      (.seq d₁ fun (c, m) =>
        match c.bodyStatus isBlock with
        | .ok .broke => m.give .null
        | .ok _ => next₁ m
        | .error c => .done (c, m))
      (.seq d₂ fun (c, m) =>
        match c.bodyStatus isBlock with
        | .ok .broke => m.give .null
        | .ok _ => next₂ m
        | .error c => .done (c, m)) := by
  refine traces_seq h fun c m js => ?_
  cases c with
  | value v => cases isBlock <;> exact .inr ⟨rfl, hnext m js⟩
  | broke =>
    cases isBlock with
    | true => exact .inr ⟨rfl, traces_give .null m.store⟩
    | false => exact .inl ⟨rfl, rfl⟩
  | continued =>
    cases isBlock with
    | true => exact .inr ⟨rfl, hnext m js⟩
    | false => exact .inl ⟨rfl, rfl⟩
  | _ => cases isBlock <;> exact .inl ⟨rfl, rfl⟩

theorem traces_whileRuns (hev : S.TracesAll depth ev₁ ev₂) (cond body : Node) (fuel : Nat) :
    S.Traces isCall depth m js (whileRuns ev₁ held cond body env fuel (m.withTraces js))
      (whileRuns ev₂ held cond body env fuel m) := by
  induction fuel generalizing m js with
  | zero => exact traces_own (c := .exhausted) trivial m.store
  | succ fuel ih =>
    refine traces_thenValue (hev isCall held cond env m js) fun v m js => ?_
    split
    · exact traces_loopBody _ _ (hev isCall held body env m js) fun m js => ih
    · exact traces_give .null m.store

theorem traces_forRuns (hev : S.TracesAll depth ev₁ ev₂) (cond update : Option Node) (body : Node)
    (fuel : Nat) :
    S.Traces isCall depth m js (forRuns ev₁ held cond update body s fuel (m.withTraces js))
      (forRuns ev₂ held cond update body s fuel m) := by
  induction fuel generalizing m js with
  | zero => exact traces_own (c := .exhausted) trivial m.store
  | succ fuel ih =>
    refine traces_thenValue (traces_evaluateOr hev (.bool true) cond) fun v m js => ?_
    split
    · refine traces_loopBody
        (fun m => (evaluateOr ev₁ held .null update s m).thenValue fun _ m =>
          forRuns ev₁ held cond update body s fuel m)
        (fun m => (evaluateOr ev₂ held .null update s m).thenValue fun _ m =>
          forRuns ev₂ held cond update body s fuel m) (hev isCall held body s m js) fun m js => ?_
      exact traces_thenValue (traces_evaluateOr hev .null update) fun _ m js => ih
    · exact traces_give .null m.store

theorem traces_forLoop (hev : S.TracesAll depth ev₁ ev₂) (fuel : Nat)
    (init cond update : Option Node) (body : Node) :
    S.Traces isCall depth m js
      (S.traced.forLoop ev₁ fuel held init cond update body env (m.withTraces js))
      (S.forLoop ev₂ fuel held init cond update body env m) :=
  traces_within (traces_thenValue (traces_evaluateOr hev .null init) fun _ _ _ =>
    traces_forRuns hev cond update body fuel)

theorem traces_countedRun (hev : S.TracesAll depth ev₁ ev₂) (counter : String) (body : Node)
    (index : Nat) :
    S.Traces isCall depth m js
      (S.traced.countedRun ev₁ held counter body env index (m.withTraces js))
      (S.countedRun ev₂ held counter body env index m) := by
  refine traces_within ?_
  generalize hs : m.store.child env = p
  obtain ⟨s, σ⟩ := p
  dsimp only [Machine.store_withTraces, Machine.withStore]
  cases hd : σ.declare s counter (.int index) false with
  | error cause =>
    obtain ⟨-, rfl⟩ := Store.declare_eq_error hd
    exact traces_fail (by simp [ErrorCause.isOfCall]) σ
  | ok p =>
    obtain ⟨b, σ'⟩ := p
    refine Traces.withStore (m := m.withStore σ) (σ := σ') ?_
    refine traces_seq (hev isCall (held.scope s) body s (m.withStore σ') js) fun c m js => ?_
    cases c with
    | value v => exact .inr ⟨rfl, traces_give .null m.store⟩
    | _ => exact .inl ⟨rfl, rfl⟩

theorem traces_countedRuns (hev : S.TracesAll depth ev₁ ev₂) (bound : LoopBound)
    (counter : String) (body : Node) (fuel index : Nat) :
    S.Traces isCall depth m js
      (S.traced.countedRuns ev₁ held bound counter body env fuel index (m.withTraces js))
      (S.countedRuns ev₂ held bound counter body env fuel index m) := by
  induction fuel generalizing index m js with
  | zero => exact traces_own (c := .exhausted) trivial m.store
  | succ fuel ih =>
    rw [countedRuns, countedRuns]
    split
    · exact traces_loopBody _ _ (traces_countedRun hev counter body index) fun m js =>
        ih (index + 1)
    · exact traces_give .null m.store

theorem traces_countedLoop (hev : S.TracesAll depth ev₁ ev₂) (fuel : Nat) (bound : Node)
    (counter : Option String) (body : Node) :
    S.Traces isCall depth m js
      (S.traced.countedLoop ev₁ fuel held bound counter body env (m.withTraces js))
      (S.countedLoop ev₂ fuel held bound counter body env m) := by
  refine traces_thenValue (hev isCall held bound env m js) fun v m js => ?_
  cases hb : LoopBound.ofValue v with
  | error cause => exact traces_fail (by simp [LoopBound.isOfCall_of_ofValue hb]) m.store
  | ok bound => exact traces_countedRuns hev bound _ body fuel 0

/-! ## Nodes -/

theorem traces_stepWith {evBody₁ : Evaluator (ω × List (Trace ω))} {evBody₂ : Evaluator ω}
    (hev : S.TracesAll depth ev₁ ev₂) (hbody : S.TracesAll (depth + 1) evBody₁ evBody₂)
    (fuel : Nat) (kind : NodeKind) :
    S.Traces kind.isCall depth m js
      (S.traced.stepWith fuel ev₁ evBody₁ held kind env (m.withTraces js))
      (S.stepWith fuel ev₂ evBody₂ held kind env m) := by
  cases kind with
  | program body => exact traces_programRuns hev .null body
  | block body => exact traces_block hev body
  | declaration name isConst init =>
    exact traces_thenValue (traces_evaluateOr hev .null init) fun v m js =>
      traces_declare name v isConst
  | function name code => exact traces_declare name _ true
  | branch cond thenBranch elseBranch => exact traces_branch hev cond thenBranch elseBranch
  | whileLoop cond body => exact traces_whileRuns hev cond body fuel
  | forLoop init cond update body => exact traces_forLoop hev fuel init cond update body
  | countedLoop bound counter body => exact traces_countedLoop hev fuel bound counter body
  | breakLoop => exact traces_own (c := .broke) trivial m.store
  | continueLoop => exact traces_own (c := .continued) trivial m.store
  | returnValue value =>
    change S.Traces _ depth m js
      ((evaluateOr ev₁ held .null value env (m.withTraces js)).thenValue fun v m =>
        .done (.returned v, m))
      ((evaluateOr ev₂ held .null value env m).thenValue fun v m => .done (.returned v, m))
    refine traces_thenValue (traces_evaluateOr hev .null value) fun v m js => ?_
    exact traces_own (c := .returned v) trivial m.store
  | binary op left right => exact traces_binary hev op left right
  | unary op operand => exact traces_unary hev op operand
  | assignment target value => exact traces_assignment hev target.kind value
  | call callee args =>
    exact traces_arguments hev (fun held args m js =>
      traces_thenValue (hev true held callee env m js) fun f m js =>
        traces_callValue hbody f args) [] args
  | member object key => exact traces_member hev object key
  | object properties => exact traces_objectRuns hev [] _ properties
  | property p => exact traces_fail (by simp [ErrorCause.isOfCall]) m.store
  | identifier name => exact traces_finish fun _ h => Store.isOfCall_of_lookup h
  | number value isFloat => exact traces_give _ m.store
  | string text => exact traces_give _ m.store

theorem value_trace_succ {fuel : Nat} (hev : S.TracesAll depth (S.trace fuel depth) (S.exec fuel))
    (hbody : S.TracesAll (depth + 1) (S.trace fuel (depth + 1)) (S.exec fuel)) (held : Held)
    (n : Node) (env : ScopeId) (m : Machine ω) (js : List (Trace ω)) :
    ∃ ts c m', (S.exec (fuel + 1) held n env m).value = (c.atLine n.line, m') ∧
      S.Course n.kind.isCall depth { m with line := n.line } ts (c, m') ∧
      (S.trace (fuel + 1) depth held n env (m.withTraces js)).value = (c.atLine n.line,
        m'.withTraces (js ++ [.node n depth env m ts (c.atLine n.line, m')])) := by
  have hstep : S.Traces n.kind.isCall depth { m with line := n.line } []
      (S.traced.stepWith fuel (S.trace fuel depth) (S.trace fuel (depth + 1)) held n.kind env
        (({ m with line := n.line } : Machine ω).withTraces []))
      (S.stepWith fuel (S.exec fuel) (S.exec fuel) held n.kind env { m with line := n.line }) :=
    traces_stepWith hev hbody fuel n.kind
  obtain ⟨ts, he, hc⟩ := hstep
  rw [stepWith_self] at he hc
  have hexec := S.value_exec_succ fuel held n env m
  generalize (S.step fuel (S.exec fuel) held n.kind env { m with line := n.line }).value = a
    at he hc hexec
  obtain ⟨c, m'⟩ := a
  refine ⟨ts, c, m', hexec, hc, ?_⟩
  rw [value_trace, Machine.plain_withTraces, he]
  rfl

/-- An evaluation with traces is the evaluation without, and the trace is that of its course. -/
theorem traces_exec (S : Setting ω) (fuel depth : Nat) :
    S.TracesAll depth (S.trace fuel depth) (S.exec fuel) := by
  induction fuel generalizing depth with
  | zero => exact fun _ _ _ _ m _ => traces_own (c := .exhausted) trivial m.store
  | succ fuel ih =>
    intro isCall held n env m js
    obtain ⟨ts, c, m', hexec, hc, htrace⟩ :=
      value_trace_succ (ih depth) (ih (depth + 1)) held n env m js
    rw [Traces, htrace, hexec]
    exact ⟨_, rfl, .node hc hexec⟩

end Treewalk.Setting
