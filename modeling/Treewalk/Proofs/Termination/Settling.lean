import Treewalk.Eval.Exec
import Treewalk.Proofs.Scope.Codes

/-!
# Evaluations that settle

A computation with fuel settles if it has one answer with all amounts of fuel from some amount on;
the answer has to satisfy a condition. For evaluations the condition is `Completes`: they were not
given up, and have met no code from outside a set that was within reach at the start. An evaluator
that settles on the parts of a node settles on the node, construct by construct, except for loops
without a bound.

* `Settles.seq`: a computation with a continuation settles if both do.
* `Setting.settles_callClosure`: a call settles if the bodies within reach do, one call deeper.
* `Setting.settles_countedLoop`: a loop settles if its bound is a number and its body settles.
-/

namespace Treewalk

/-- Whether all amounts of fuel from some amount on give one answer, of some kind. -/
def Settles {α : Type} (P : α → Prop) (d : Nat → Deferred α) : Prop :=
  ∃ a, P a ∧ ∃ k, ∀ fuel, k ≤ fuel → (d fuel).value = a

namespace Settles

variable {α : Type} {P Q : α → Prop} {d d' : Nat → Deferred α}

theorem done {a : α} (h : P a) : Settles P fun _ => .done a :=
  ⟨a, h, 0, fun _ _ => rfl⟩

/-- Only large amounts of fuel matter. -/
theorem of_le (h : Settles P d) (k : Nat)
    (hd : ∀ fuel, k ≤ fuel → (d' fuel).value = (d fuel).value) : Settles P d' := by
  obtain ⟨a, ha, l, hl⟩ := h
  refine ⟨a, ha, max k l, fun fuel hf => ?_⟩
  rw [hd fuel (by omega), hl fuel (by omega)]

theorem seq {r : Nat → α → Deferred α} (h : Settles P d)
    (hr : ∀ a, P a → Settles Q fun fuel => r fuel a) :
    Settles Q fun fuel => .seq (d fuel) (r fuel) := by
  obtain ⟨a, ha, k, hk⟩ := h
  obtain ⟨b, hb, l, hl⟩ := hr a ha
  refine ⟨b, hb, max k l, fun fuel hf => ?_⟩
  rw [Deferred.value_seq, hk fuel (by omega), hl fuel (by omega)]

theorem map (h : Settles P d) {f : α → α} (hf : ∀ a, P a → Q (f a)) :
    Settles Q fun fuel => (d fuel).map f :=
  h.seq fun a ha => done (hf a ha)

end Settles

/-! ## Code within reach -/

variable {ω : Type}

/-- Whether all code within reach of a machine is in a set, with a number of calls in progress. -/
structure Machine.Confines (codes : ω → Set Code) (C : Set Code) (depth : Nat)
    (m : Machine ω) : Prop where
  store : m.store.codes ⊆ C
  world : codes m.world ⊆ C
  callDepth : m.callDepth = depth

/-- Whether an evaluation was not given up, with all code within reach in a set. -/
structure Completes (codes : ω → Set Code) (C : Set Code) (depth : Nat) (a : Answer ω) :
    Prop where
  completion : a.1 ≠ .exhausted
  values : ∀ v ∈ a.1.values, v.codes ⊆ C
  machine : a.2.Confines codes C depth

/-- Whether an evaluator with fuel settles on a node. -/
def SettlesOn (codes : ω → Set Code) (C : Set Code) (ev : Nat → Evaluator ω) (depth : Nat)
    (n : Node) : Prop :=
  ∀ ⦃held env m⦄, m.Confines codes C depth →
    Settles (Completes codes C depth) fun fuel => ev fuel held n env m

variable {codes : ω → Set Code} {C : Set Code} {depth : Nat} {m : Machine ω}

theorem Machine.Confines.withStore (h : m.Confines codes C depth) {σ : Store} (hσ : σ.codes ⊆ C) :
    (m.withStore σ).Confines codes C depth :=
  ⟨hσ, h.world, h.callDepth⟩

theorem Completes.atLine {c : Completion} (h : Completes codes C depth (c, m)) (line : UInt32) :
    Completes codes C depth (c.atLine line, m) := by
  cases c with
  | failed e => exact ⟨by simp [Completion.atLine], h.values, h.machine⟩
  | _ => exact h

theorem Completes.give (h : m.Confines codes C depth) {v : Value} (hv : v.codes ⊆ C) :
    Completes codes C depth (.value v, m) :=
  ⟨by simp, by simpa [Completion.values] using hv, h⟩

theorem Completes.failed (h : m.Confines codes C depth) (e : EvalError) :
    Completes codes C depth (.failed e, m) :=
  ⟨by simp, by simp [Completion.values], h⟩

/-- The bound that a number stands for. -/
theorem LoopBound.eq_times_of_number {v : Value} {b : LoopBound} (hv : v.type = .number)
    (hb : ofValue v = .ok b) : ∃ count, b = .times count := by
  cases v with
  | number n =>
    unfold ofValue at hb
    dsimp only at hb
    split at hb
    · cases hb
    · split at hb <;> cases hb
      exact ⟨_, rfl⟩
  | _ => cases hv

namespace Setting

variable {config : Config} {host : Host ω} {held : Held} {env s : ScopeId}
variable {ev : Nat → Evaluator ω}

/-! ## Steps of a node's own -/

theorem settles_give (h : m.Confines codes C depth) {v : Value} (hv : v.codes ⊆ C) :
    Settles (Completes codes C depth) fun _ => m.give v :=
  .done (.give h hv)

theorem settles_giveNull (h : m.Confines codes C depth) :
    Settles (Completes codes C depth) fun _ => m.give .null :=
  settles_give h (Value.codes_subset_of_isPlain trivial)

theorem settles_fail (h : m.Confines codes C depth) (cause : ErrorCause) :
    Settles (Completes codes C depth) fun _ => m.fail cause :=
  .done (.failed h _)

theorem settles_finish (h : m.Confines codes C depth) {r : Except ErrorCause Value}
    (hr : ∀ v, r = .ok v → v.codes ⊆ C) :
    Settles (Completes codes C depth) fun _ => m.finish r := by
  cases r with
  | ok v => exact settles_give h (hr v rfl)
  | error cause => exact settles_fail h cause

/-! ## Composition -/

/-- A computation that goes on with a value of which more is known. -/
theorem settles_thenValue_of {P : Answer ω → Prop} {d : Nat → Deferred (Answer ω)}
    {r : Nat → Value → Machine ω → Deferred (Answer ω)} (h : Settles P d)
    (hP : ∀ a, P a → Completes codes C depth a)
    (hr : ∀ v m, P (.value v, m) → Settles (Completes codes C depth) fun fuel => r fuel v m) :
    Settles (Completes codes C depth) fun fuel => (d fuel).thenValue (r fuel) := by
  refine h.seq fun a ha => ?_
  obtain ⟨c, m⟩ := a
  cases c with
  | value v => exact hr v m ha
  | _ => exact .done (hP _ ha)

theorem settles_thenValue {d : Nat → Deferred (Answer ω)}
    {r : Nat → Value → Machine ω → Deferred (Answer ω)} (h : Settles (Completes codes C depth) d)
    (hr : ∀ v m, v.codes ⊆ C → m.Confines codes C depth →
      Settles (Completes codes C depth) fun fuel => r fuel v m) :
    Settles (Completes codes C depth) fun fuel => (d fuel).thenValue (r fuel) :=
  settles_thenValue_of h (fun _ ha => ha) fun v m ha =>
    hr v m (ha.values v List.mem_cons_self) ha.machine

theorem settles_within (h : m.Confines codes C depth) {parent : ScopeId}
    {body : Nat → ScopeId → Machine ω → Deferred (Answer ω)}
    (hbody : ∀ s m, m.Confines codes C depth →
      Settles (Completes codes C depth) fun fuel => body fuel s m) :
    Settles (Completes codes C depth) fun fuel =>
      (releasing config host).within held parent m (body fuel) := by
  refine (hbody _ _ (h.withStore (Store.codes_add_subset h.store _ _ _))).map fun a ha => ?_
  obtain ⟨c, m⟩ := a
  exact ⟨ha.completion, ha.values,
    ha.machine.withStore (Store.codes_leave_subset ha.machine.store _ _)⟩

theorem settles_evaluateOr (h : m.Confines codes C depth) (default : Value)
    (hdefault : default.IsPlain) {n : Option Node} (hn : ∀ p ∈ n, SettlesOn codes C ev depth p) :
    Settles (Completes codes C depth) fun fuel => evaluateOr (ev fuel) held default n env m := by
  cases n with
  | none => exact settles_give h (Value.codes_subset_of_isPlain hdefault)
  | some n => exact hn n rfl h

/-! ## Statements in a row -/

theorem settles_programRuns {body : List Node} (hbody : ∀ p ∈ body, SettlesOn codes C ev depth p)
    (h : m.Confines codes C depth) {last : Value} (hlast : last.codes ⊆ C) :
    Settles (Completes codes C depth) fun fuel => programRuns (ev fuel) held env last body m := by
  induction body generalizing last m with
  | nil => exact settles_give h hlast
  | cons n rest ih =>
    have hrest : ∀ p ∈ rest, SettlesOn codes C ev depth p :=
      fun p hp => hbody p (List.mem_cons_of_mem n hp)
    refine (hbody n List.mem_cons_self h).seq fun a ha => ?_
    obtain ⟨c, m⟩ := a
    have hnull : Value.null.codes ⊆ C := Value.codes_subset_of_isPlain trivial
    cases c with
    | value v => exact ih hrest ha.machine (ha.values v List.mem_cons_self)
    | broke => exact ih hrest ha.machine hnull
    | continued => exact ih hrest ha.machine hnull
    | _ => exact .done ha

theorem settles_blockRuns {body : List Node} (hbody : ∀ p ∈ body, SettlesOn codes C ev depth p)
    (h : m.Confines codes C depth) {last : Value} (hlast : last.codes ⊆ C) :
    Settles (Completes codes C depth) fun fuel => blockRuns (ev fuel) held s last body m := by
  induction body generalizing last m with
  | nil => exact settles_give h hlast
  | cons n rest ih =>
    exact settles_thenValue (hbody n List.mem_cons_self h) fun v m hv h =>
      ih (fun p hp => hbody p (List.mem_cons_of_mem n hp)) h hv

theorem settles_block {body : List Node} (hbody : ∀ p ∈ body, SettlesOn codes C ev depth p)
    (h : m.Confines codes C depth) :
    Settles (Completes codes C depth) fun fuel =>
      (releasing config host).block (ev fuel) held body env m :=
  settles_within h fun _ _ h => settles_blockRuns hbody h (Value.codes_subset_of_isPlain trivial)

/-! ## Variables -/

theorem settles_declare (h : m.Confines codes C depth) (name : String) {v : Value}
    (hv : v.codes ⊆ C) (isConst : Bool) :
    Settles (Completes codes C depth) fun _ => declare name v isConst env m := by
  unfold declare
  cases hd : m.store.declare env name v isConst with
  | ok p => exact settles_give (h.withStore (Store.codes_declare_subset h.store hv hd)) hv
  | error cause => exact settles_fail h cause

theorem settles_update (h : m.Confines codes C depth) (op : UnaryOperator) (operand : NodeKind) :
    Settles (Completes codes C depth) fun _ => update op operand env m := by
  unfold update
  cases operand with
  | identifier name =>
    dsimp only
    cases hl : m.store.lookup env name with
    | error cause => exact settles_fail h cause
    | ok old =>
      dsimp only
      cases ha : op.apply old with
      | error cause => exact settles_fail h cause
      | ok new =>
        have hnew : new.codes ⊆ C :=
          Value.codes_subset_of_isPlain ((Value.Alike.refl_same _).plain_of_unary ha).isPlain
        dsimp only
        cases hs : m.store.assign env name new with
        | error fault => exact settles_fail h _
        | ok p =>
          refine settles_give (h.withStore (Store.codes_assign_subset h.store hnew hs).1) ?_
          split
          · exact hnew
          · exact Store.codes_lookup_subset h.store hl
  | _ => exact settles_fail h _

theorem settles_assignment {value : Node} (hvalue : SettlesOn codes C ev depth value)
    (h : m.Confines codes C depth) (target : NodeKind) :
    Settles (Completes codes C depth) fun fuel => assignment (ev fuel) held target value env m := by
  unfold assignment
  cases target with
  | identifier name =>
    dsimp only
    cases m.store.resolve env name with
    | none => exact settles_fail h _
    | some b =>
      dsimp only
      split
      · exact settles_fail h _
      · refine settles_thenValue (hvalue h) fun v m hv h => ?_
        cases ha : m.store.assign env name v with
        | error fault => exact settles_fail h _
        | ok p =>
          obtain ⟨hσ, hb⟩ := Store.codes_assign_subset h.store hv ha
          exact settles_give (h.withStore hσ) hb
  | _ => exact settles_fail h _

/-! ## Expressions -/

theorem settles_branch {cond thenBranch : Node} {elseBranch : Option Node}
    (hcond : SettlesOn codes C ev depth cond) (hthen : SettlesOn codes C ev depth thenBranch)
    (helse : ∀ p ∈ elseBranch, SettlesOn codes C ev depth p) (h : m.Confines codes C depth) :
    Settles (Completes codes C depth) fun fuel =>
      branch (ev fuel) held cond thenBranch elseBranch env m := by
  refine settles_thenValue (hcond h) fun v m _ h => ?_
  split
  · exact hthen h
  · exact settles_evaluateOr h .null trivial helse

theorem settles_operate (h : m.Confines codes C depth) (op : BinaryOperator) (l r : Value) :
    Settles (Completes codes C depth) fun _ => operate op l r m := by
  unfold operate
  split
  · exact .done ⟨by simp, by simp [Completion.values], h⟩
  · exact settles_finish h fun _ hv =>
      Value.codes_subset_of_isPlain (Likeness.plain_of_binary (L := .same) hv).isPlain

theorem settles_binary {left right : Node} (hleft : SettlesOn codes C ev depth left)
    (hright : SettlesOn codes C ev depth right) (h : m.Confines codes C depth)
    (op : BinaryOperator) :
    Settles (Completes codes C depth) fun fuel => binary (ev fuel) held op left right env m :=
  settles_thenValue (hright h) fun r _ _ h => settles_thenValue (hleft h) fun l _ _ h =>
    settles_operate h op l r

theorem settles_unary {operand : Node} (hoperand : SettlesOn codes C ev depth operand)
    (h : m.Confines codes C depth) (op : UnaryOperator) :
    Settles (Completes codes C depth) fun fuel => unary (ev fuel) held op operand env m := by
  unfold unary
  split
  · exact settles_update h op operand.kind
  · exact settles_thenValue (hoperand h) fun _ _ _ h => settles_finish h fun _ hv =>
      Value.codes_subset_of_isPlain ((Value.Alike.refl_same _).plain_of_unary hv).isPlain

theorem settles_member {owner : Node} (howner : SettlesOn codes C ev depth owner) {key : MemberKey}
    (hkey : ∀ n, key = .computed n → SettlesOn codes C ev depth n)
    (h : m.Confines codes C depth) :
    Settles (Completes codes C depth) fun fuel => member (ev fuel) held owner key env m := by
  refine settles_thenValue (howner h) fun o m ho h => ?_
  cases key with
  | named name => exact settles_finish h fun v hv => (Value.codes_property_subset hv).trans ho
  | computed key =>
    refine settles_thenValue (hkey key rfl h) fun k m _ h => settles_finish h fun v hv => ?_
    cases hk : k.asKey with
    | error e =>
      rw [hk] at hv
      cases hv
    | ok name =>
      rw [hk] at hv
      exact (Value.codes_property_subset hv).trans ho

theorem settles_addProperty (h : m.Confines codes C depth) {made : Table Binding}
    (hmade : ∀ v ∈ made.values, v.codes ⊆ C) {b : Binding} (hb : b.value.codes ⊆ C)
    {next : Nat → Table Binding → Machine ω → Deferred (Answer ω)}
    (hnext : ∀ t, (∀ v ∈ Table.values t, v.codes ⊆ C) →
      Settles (Completes codes C depth) fun fuel => next fuel t m) :
    Settles (Completes codes C depth) fun fuel => addProperty made b (next fuel) m := by
  unfold addProperty
  cases hs : made.set? b.name b with
  | none => exact settles_fail h _
  | some p =>
    refine hnext p.2 fun v hv => ?_
    obtain ⟨q, -, rfl⟩ := Option.map_eq_some_iff.1 hs
    rcases Table.mem_values_write hv with rfl | hv
    · exact hb
    · exact hmade v hv

theorem settles_objectRuns {properties : List Property}
    (hproperties : ∀ p ∈ properties.filterMap Property.value, SettlesOn codes C ev depth p)
    (h : m.Confines codes C depth) (keys : List String) {made : Table Binding}
    (hmade : ∀ v ∈ made.values, v.codes ⊆ C) :
    Settles (Completes codes C depth) fun fuel =>
      objectRuns (ev fuel) held env keys made properties m := by
  induction properties generalizing keys made m with
  | nil =>
    exact .done (.give (h.withStore (σ := (m.store.object made).2) h.store)
      (Value.codes_object_subset.2 hmade))
  | cons property rest ih =>
    obtain ⟨key, _ | n⟩ := property
    · have hrest : ∀ p ∈ rest.filterMap Property.value, SettlesOn codes C ev depth p :=
        fun p hp => hproperties p hp
      simp only [objectRuns, Store.shorthand]
      cases hr : m.store.resolve env key with
      | none => exact settles_fail h _
      | some b =>
        have hb : (m.store.copy b.value).1.codes ⊆ C :=
          (b.value.codes_copy_subset _).trans (Store.codes_resolve_subset h.store hr)
        exact settles_addProperty (h.withStore (σ := (m.store.copy b.value).2) h.store) hmade hb
          fun t ht => ih hrest (h.withStore (σ := (m.store.copy b.value).2) h.store) _ ht
    · have hn : SettlesOn codes C ev depth n := hproperties n (by simp)
      have hrest : ∀ p ∈ rest.filterMap Property.value, SettlesOn codes C ev depth p :=
        fun p hp => hproperties p (List.mem_cons_of_mem n hp)
      simp only [objectRuns]
      refine settles_thenValue (hn h) fun v m hv h => ?_
      exact settles_addProperty (h.withStore (σ := (m.store.copy v).2) h.store) hmade
        ((v.codes_copy_subset _).trans hv) fun t ht =>
          ih hrest (h.withStore (σ := (m.store.copy v).2) h.store) _ ht

/-! ## Calls -/

theorem settles_callNative (hhost : host.BringsNoCode codes) (h : m.Confines codes C depth)
    (f : NativeFunction) {args : List Value} (hargs : ∀ v ∈ args, v.codes ⊆ C) :
    Settles (Completes codes C depth) fun _ => (releasing config host).callNative f args env m := by
  obtain ⟨hr, hσ, hw⟩ := hhost C f args env m.store m.world h.store h.world hargs
  generalize hc : host.call f args env m.store m.world = a at hr hσ hw
  obtain ⟨r, σ, w⟩ := a
  have h' : Machine.Confines codes C depth { m with store := σ, world := w } :=
    ⟨hσ, hw, h.callDepth⟩
  simp only [callNative, releasing, hc]
  cases r with
  | ok v => exact .done (.give h' (hr v rfl))
  | error e => exact .done (.failed h' e)

theorem settles_runBody {body : List Node} (hbody : ∀ p ∈ body, SettlesOn codes C ev depth p)
    (h : m.Confines codes C depth) :
    Settles (Completes codes C depth) fun fuel => runBody (ev fuel) held s body m := by
  induction body generalizing m with
  | nil => exact settles_giveNull h
  | cons n rest ih =>
    have hrest : ∀ p ∈ rest, SettlesOn codes C ev depth p :=
      fun p hp => hbody p (List.mem_cons_of_mem n hp)
    refine (hbody n List.mem_cons_self h).seq fun a ha => ?_
    obtain ⟨c, m⟩ := a
    cases c with
    | value v => exact ih hrest ha.machine
    | broke => exact ih hrest ha.machine
    | continued => exact ih hrest ha.machine
    | returned v =>
      exact .done (.give (ha.machine.withStore (σ := (m.store.copy v).2) ha.machine.store)
        ((v.codes_copy_subset _).trans (ha.values v List.mem_cons_self)))
    | _ => exact .done ha

theorem settles_runCall {body : List Node}
    (hbody : ∀ p ∈ body, SettlesOn codes C ev (depth + 1) p) (h : m.Confines codes C depth) :
    Settles (Completes codes C depth) fun fuel => runCall (ev fuel) held s body m := by
  have h' : Machine.Confines codes C (depth + 1) { m with callDepth := m.callDepth + 1 } :=
    ⟨h.store, h.world, congrArg (· + 1) h.callDepth⟩
  refine (settles_runBody hbody h').map fun a ha => ?_
  obtain ⟨c, m⟩ := a
  exact ⟨ha.completion, ha.values, ha.machine.store, ha.machine.world, by
    have := ha.machine.callDepth
    dsimp only at this ⊢
    omega⟩

theorem settles_callClosure
    (hcode : depth < config.maxCallDepth →
      ∀ c ∈ C, ∀ p ∈ c.body, SettlesOn codes C ev (depth + 1) p)
    (h : m.Confines codes C depth) {f : Closure} (hf : f.code ∈ C) {args : List Value}
    (hargs : ∀ v ∈ args, v.codes ⊆ C) :
    Settles (Completes codes C depth) fun fuel =>
      (releasing config host).callClosure (ev fuel) held f args m := by
  unfold callClosure
  cases f.arityFault? args.length with
  | some cause => exact settles_fail h cause
  | none =>
    dsimp only
    split
    · exact settles_fail h _
    · next hd =>
      have hd : depth < config.maxCallDepth := h.callDepth ▸ Nat.lt_of_not_ge hd
      refine settles_within h fun s m h => ?_
      have hσ : (m.store.bindParameters s (f.code.params.zip args)).1.codes ⊆ C :=
        Store.codes_bindParameters_subset h.store fun b hb => hargs b.2 (List.of_mem_zip hb).2
      generalize m.store.bindParameters s (f.code.params.zip args) = p at hσ ⊢
      obtain ⟨σ, _ | cause⟩ := p
      · exact settles_runCall (hcode hd f.code hf) (h.withStore hσ)
      · exact settles_fail (h.withStore hσ) cause

theorem settles_callValue (hhost : host.BringsNoCode codes)
    (hcode : depth < config.maxCallDepth →
      ∀ c ∈ C, ∀ p ∈ c.body, SettlesOn codes C ev (depth + 1) p)
    (h : m.Confines codes C depth) {callee : Value} (hcallee : callee.codes ⊆ C)
    {args : List Value} (hargs : ∀ v ∈ args, v.codes ⊆ C) :
    Settles (Completes codes C depth) fun fuel =>
      (releasing config host).callValue (ev fuel) held callee args env m := by
  cases callee with
  | native f => exact settles_callNative hhost h f hargs
  | function f =>
    rw [Value.codes_function, Set.singleton_subset_iff] at hcallee
    exact settles_callClosure hcode h hcallee hargs
  | _ => exact settles_fail h _

theorem settles_arguments {args : List Node} (hargs : ∀ p ∈ args, SettlesOn codes C ev depth p)
    (h : m.Confines codes C depth) {values : List Value} (hvalues : ∀ v ∈ values, v.codes ⊆ C)
    {next : Nat → Held → List Value → Machine ω → Deferred (Answer ω)}
    (hnext : ∀ held values m, (∀ v ∈ values, v.codes ⊆ C) → m.Confines codes C depth →
      Settles (Completes codes C depth) fun fuel => next fuel held values m) :
    Settles (Completes codes C depth) fun fuel =>
      arguments (ev fuel) held env (next fuel) values args m := by
  induction args generalizing held values m with
  | nil => exact hnext held values m hvalues h
  | cons n rest ih =>
    refine settles_thenValue (hargs n List.mem_cons_self h) fun v m hv h => ?_
    refine ih (fun p hp => hargs p (List.mem_cons_of_mem n hp)) h fun u hu => ?_
    rcases List.mem_append.1 hu with hu | hu
    · exact hvalues u hu
    · rwa [List.mem_singleton.1 hu]

theorem settles_call (hhost : host.BringsNoCode codes)
    (hcode : depth < config.maxCallDepth →
      ∀ c ∈ C, ∀ p ∈ c.body, SettlesOn codes C ev (depth + 1) p)
    {callee : Node} (hcallee : SettlesOn codes C ev depth callee) {args : List Node}
    (hargs : ∀ p ∈ args, SettlesOn codes C ev depth p) (h : m.Confines codes C depth) :
    Settles (Completes codes C depth) fun fuel =>
      (releasing config host).call (ev fuel) held callee args env m :=
  settles_arguments hargs h (by simp) fun _ _ _ hvalues h =>
    settles_thenValue (hcallee h) fun _ _ hf h => settles_callValue hhost hcode h hf hvalues

/-! ## Loops -/

/-- A run of a loop's body, after which the loop may go on. -/
theorem settles_loopBody (body : Node) {d : Nat → Deferred (Answer ω)}
    {next : Nat → Machine ω → Deferred (Answer ω)} (h : Settles (Completes codes C depth) d)
    (hnext : ∀ m, m.Confines codes C depth →
      Settles (Completes codes C depth) fun fuel => next fuel m) :
    Settles (Completes codes C depth) fun fuel => .seq (d fuel) fun (c, m) =>
      match c.bodyStatus body.isBlock with
      | .ok .broke => m.give .null
      | .ok _ => next fuel m
      | .error c => .done (c, m) := by
  refine h.seq fun a ha => ?_
  obtain ⟨c, m⟩ := a
  generalize body.isBlock = isBlock
  cases c with
  | value v => cases isBlock <;> exact hnext m ha.machine
  | broke =>
    cases isBlock with
    | true => exact settles_giveNull ha.machine
    | false => exact .done ha
  | continued =>
    cases isBlock with
    | true => exact hnext m ha.machine
    | false => exact .done ha
  | _ => cases isBlock <;> exact .done ha

theorem settles_countedRun {body : Node} (hbody : SettlesOn codes C ev depth body)
    (h : m.Confines codes C depth) (counter : String) (index : Nat) :
    Settles (Completes codes C depth) fun fuel =>
      (releasing config host).countedRun (ev fuel) held counter body env index m := by
  refine settles_within h fun s m h => ?_
  cases hd : m.store.declare s counter (.int index) false with
  | error cause => exact settles_fail h cause
  | ok p =>
    have hindex : (Value.int index).codes ⊆ C := Value.codes_subset_of_isPlain trivial
    have hσ : p.2.codes ⊆ C := Store.codes_declare_subset h.store hindex hd
    refine (hbody (h.withStore hσ)).map fun a ha => ?_
    obtain ⟨c, m⟩ := a
    cases c with
    | value v => exact .give ha.machine (Value.codes_subset_of_isPlain (v := .null) trivial)
    | _ => exact ha

/-- The fuel for the runs falls behind that of the evaluator by one at every run. -/
theorem settles_countedRuns {body : Node} (hbody : SettlesOn codes C ev depth body)
    (h : m.Confines codes C depth) (counter : String) (count index spent : Nat) :
    Settles (Completes codes C depth) fun fuel => (releasing config host).countedRuns (ev fuel) held
      (.times count) counter body env (fuel - spent) index m := by
  induction hr : count - index generalizing index spent m with
  | zero =>
    refine (settles_giveNull h).of_le (spent + 1) fun fuel hf => ?_
    have hspent : fuel - spent = fuel - (spent + 1) + 1 := by omega
    rw [hspent]
    exact congrArg Deferred.value (if_neg (by simp; omega))
  | succ remaining ih =>
    have hrun : Settles (Completes codes C depth) fun fuel =>
        (releasing config host).countedRun (ev fuel) held counter body env index m :=
      settles_countedRun hbody h counter index
    have hruns := settles_loopBody body hrun
      fun m h => ih h (index + 1) (spent + 1) (by omega)
    refine hruns.of_le (spent + 1) fun fuel hf => ?_
    have hspent : fuel - spent = fuel - (spent + 1) + 1 := by omega
    rw [hspent]
    exact congrArg Deferred.value (if_pos (by simp; omega))

theorem settles_countedLoop {bound body : Node}
    (hbound : ∀ held env m, m.Confines codes C depth →
      Settles (fun a => Completes codes C depth a ∧ ∀ v, a.1 = .value v → v.type = .number)
        fun fuel => ev fuel held bound env m)
    (hbody : SettlesOn codes C ev depth body) (h : m.Confines codes C depth)
    (counter : Option String) :
    Settles (Completes codes C depth) fun fuel =>
      (releasing config host).countedLoop (ev fuel) fuel held bound counter body env m := by
  refine settles_thenValue_of (hbound held env m h) (fun a ha => ha.1) fun v m ha => ?_
  cases hb : LoopBound.ofValue v with
  | error cause => exact settles_fail ha.1.machine cause
  | ok b =>
    obtain ⟨count, rfl⟩ := LoopBound.eq_times_of_number (ha.2 v rfl) hb
    exact settles_countedRuns hbody ha.1.machine _ count 0 0

end Setting

end Treewalk
