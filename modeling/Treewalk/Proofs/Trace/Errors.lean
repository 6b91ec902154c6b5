import Mathlib.Logic.Relation
import Treewalk.Interpreter
import Treewalk.Native.Workbench
import Treewalk.Proofs.Trace.Exec

/-!
# Errors end evaluations

An evaluation whose part fails ends at once: the part is the last one, the failure is that of the
part, and nothing but the leaving of scopes happens after it. The line of an error is that of the
node that raised it, where nothing in the node failed; only a native can give a line of its own.

`Setting.Outcome` says so of the parts of one node, by induction on its course; the rest follows
by induction on the tree of a trace.

* `Trace.error_of_within`, `Trace.isFinal_of_within`: what a failure inside an evaluation means.
* `Trace.exists_raises`: where an error comes from.
* `Setting.value_exec_of_refusal?`: a call that is refused fails at the line of the call.
* `errors_pass`: errors are never swallowed, rewritten or reordered.
-/

namespace Treewalk

variable {ω : Type} {S : Setting ω}

/-- An error with a line keeps it. -/
theorem EvalError.atLine_of_isSome {e : EvalError} (h : e.line.isSome) (line : UInt32) :
    e.atLine line = e := by
  obtain ⟨cause, _ | l⟩ := e
  · cases h
  · rfl

namespace Setting

/-- Whether scopes were left between two stores, and nothing else happened. -/
def Leaves (S : Setting ω) : Store → Store → Prop :=
  Relation.ReflTransGen fun σ σ' => ∃ outside s, σ' = S.leave outside s σ

/-- A scope that is left keeps its bindings or loses them all. -/
theorem bindings_of_leaves {config : Config} {host : Host ω} {σ σ' : Store}
    (h : (releasing config host).Leaves σ σ') (s : ScopeId) :
    σ'.bindings s = σ.bindings s ∨ σ'.bindings s = .withCapacity 0 := by
  induction h with
  | refl => exact .inl rfl
  | @tail σ₁ σ₂ _ h ih =>
    obtain ⟨outside, t, rfl⟩ := h
    change (σ₁.leave outside t).bindings s = _ ∨ (σ₁.leave outside t).bindings s = _
    obtain he | he := σ₁.leave_cases outside t
    · rw [he, Store.bindings_discard]
      split
      · exact .inr rfl
      · exact ih
    · rwa [he]

/-- How parts of an evaluation bear on its end: if none of them failed, the end is the
evaluation's own; otherwise the last one failed, and its failure is the end. -/
inductive Outcome (S : Setting ω) (isCall : Bool) : List (Trace ω) → Answer ω → Prop
  | own {ts : List (Trace ω)} {a : Answer ω} (hts : ∀ t ∈ ts, t.error? = none)
    (hc : a.1.IsOwn isCall) : Outcome S isCall ts a
  | passed (ts : List (Trace ω)) {t : Trace ω} {e : EvalError} {m : Machine ω}
    (hts : ∀ t ∈ ts, t.error? = none) (ht : t.error? = some e)
    (hcall : t.isNative = true → isCall = true) (hstore : S.Leaves t.store m.store)
    (hworld : m.world = t.world) : Outcome S isCall (ts ++ [t]) (.failed e, m)

theorem Course.outcome {isCall : Bool} {depth : Nat} {m : Machine ω} {ts : List (Trace ω)}
    {a : Answer ω} (h : S.Course isCall depth m ts a) : S.Outcome isCall ts a := by
  induction h with
  | own hc σ => exact .own (by simp) hc
  | andThen h hc h' ih ih' =>
    -- What failed would have failed the completion so far.
    cases ih with
    | passed => cases hc
    | own hts hc =>
      cases ih' with
      | own hus hc' => exact .own (fun t ht => (List.mem_append.1 ht).elim (hts t) (hus t)) hc'
      | passed us hus ht hcall hstore hworld =>
        rw [← List.append_assoc]
        exact .passed _ (fun t ht => (List.mem_append.1 ht).elim (hts t) (hus t)) ht hcall hstore
          hworld
  | leave h outside s ih =>
    cases ih with
    | own hts hc => exact .own hts hc
    | passed ts hts ht hcall hstore hworld =>
      exact .passed ts hts ht hcall (hstore.tail ⟨outside, s, rfl⟩) hworld
  | call hd h ih =>
    cases ih with
    | own hts hc => exact .own hts hc
    | passed ts hts ht hcall hstore hworld => exact .passed ts hts ht hcall hstore hworld
  | @native depth m f args env r σ w h =>
    cases r with
    | ok v => exact .own (by simp [Trace.error?]) trivial
    | error e => exact .passed [] (by simp) rfl (fun _ => rfl) .refl rfl
  | @node isCall fuel depth held n env m m' ts c h he ih =>
    cases c with
    | failed e =>
      exact .passed [] (by simp) rfl (fun h => by cases h) .refl rfl
    | _ => exact .own (by simp [Trace.error?, Completion.atLine]) trivial

end Setting

/-! ## Traces of courses -/

namespace Trace

/-- Whether a trace tells the truth: of a node that it is evaluated so, of a native that the host
answers so. -/
def IsGenuine (S : Setting ω) : Trace ω → Prop
  | node n _ env before _ after => ∃ fuel held, (S.exec fuel held n env before).value = after
  | native f r σ w => ∃ args env σ₀ w₀, S.host.call f args env σ₀ w₀ = (r, σ, w)

/-- Whether the evaluation of a node went by a course. -/
def HasCourse (S : Setting ω) : Trace ω → Prop
  | node n depth _ before parts after =>
    ∃ c, after.1 = c.atLine n.line ∧
      S.Course n.kind.isCall depth { before with line := n.line } parts (c, after.2)
  | native .. => True

/-- Whether something happened last, and after it only scopes were left. -/
structure IsFinal (S : Setting ω) (t whole : Trace ω) : Prop where
  ends : t.Ends whole
  store : S.Leaves t.store whole.store
  world : whole.world = t.world

/-- Whether the evaluation of a node raised an error by a step of its own. -/
inductive Raises : Trace ω → EvalError → Prop
  /-- None of its parts failed, and the error has the line of the node. Only calls are refused. -/
  | own {n : Node} {depth : Nat} {env : ScopeId} {before m : Machine ω} {parts : List (Trace ω)}
    {e : EvalError} (hparts : ∀ p ∈ parts, p.error? = none) (hline : e.line = some n.line)
    (hcall : e.cause.isOfCall = true → n.kind.isCall = true) :
    Raises (node n depth env before parts (.failed e, m)) e
  /-- The native that it called failed. A line that the native gave stays. -/
  | native {n : Node} {depth : Nat} {env : ScopeId} {before m : Machine ω}
    {parts : List (Trace ω)} {f : NativeFunction} {e : EvalError} {σ : Store} {w : ω}
    (hparts : ∀ p ∈ parts, p.error? = none) (hcall : n.kind.isCall = true) :
    Raises (node n depth env before (parts ++ [native f (.error e) σ w])
      (.failed (e.atLine n.line), m)) (e.atLine n.line)

variable {t whole p : Trace ω} {e : EvalError}

theorem error?_node {n : Node} {depth : Nat} {env : ScopeId} {before : Machine ω}
    {parts : List (Trace ω)} {a : Answer ω} :
    (node n depth env before parts a).error? = some e ↔ a.1 = .failed e := by
  obtain ⟨c, m⟩ := a
  cases c <;> simp [error?]

theorem isGenuine_and_hasCourse {isCall : Bool} {depth : Nat} {m : Machine ω}
    {ts : List (Trace ω)} {a : Answer ω} (h : S.Course isCall depth m ts a) :
    ∀ p ∈ ts, p.IsGenuine S ∧ p.HasCourse S := by
  induction h with
  | own => simp
  | andThen _ _ _ ih ih' => exact fun p hp => (List.mem_append.1 hp).elim (ih p) (ih' p)
  | leave _ _ _ ih => exact ih
  | call _ _ ih => exact ih
  | native h => simpa using ⟨⟨_, _, _, _, h⟩, trivial⟩
  | node h he => simpa using ⟨⟨_, _, he⟩, _, rfl, h⟩

theorem HasCourse.parts {n : Node} {depth : Nat} {env : ScopeId} {before : Machine ω}
    {parts : List (Trace ω)} {after : Answer ω}
    (h : (node n depth env before parts after).HasCourse S) :
    ∀ p ∈ parts, p.IsGenuine S ∧ p.HasCourse S :=
  let ⟨_, _, h⟩ := h
  isGenuine_and_hasCourse h

theorem of_within (h : t.Within whole) (hg : whole.IsGenuine S) (hc : whole.HasCourse S) :
    t.IsGenuine S ∧ t.HasCourse S := by
  induction h with
  | self => exact ⟨hg, hc⟩
  | part hp h ih => exact ih (hc.parts _ hp).1 (hc.parts _ hp).2

/-- Errors of nodes have lines. -/
theorem isSome_line_of_hasCourse (hc : whole.HasCourse S) (hn : whole.isNative = false)
    (he : whole.error? = some e) : e.line.isSome := by
  cases whole with
  | native => cases hn
  | node n depth env before parts after =>
    obtain ⟨c, m⟩ := after
    obtain ⟨c', rfl, -⟩ := hc
    cases c' <;> cases he
    rw [EvalError.line_atLine]
    rfl

/-- A part that failed is the last one, and the node failed with it. -/
theorem HasCourse.passed {n : Node} {depth : Nat} {env : ScopeId} {before : Machine ω}
    {parts : List (Trace ω)} {after : Answer ω}
    (h : (node n depth env before parts after).HasCourse S) (hp : p ∈ parts)
    (he : p.error? = some e) :
    ∃ earlier, parts = earlier ++ [p] ∧ (∀ u ∈ earlier, u.error? = none) ∧
      after.1 = .failed (e.atLine n.line) ∧ S.Leaves p.store after.2.store ∧
      after.2.world = p.world := by
  obtain ⟨c, m⟩ := after
  obtain ⟨c', rfl, h⟩ := h
  have ho := h.outcome
  dsimp only at ho
  cases ho with
  | own hts => rw [hts p hp] at he; cases he
  | @passed ts t e' m hts ht hcall hstore hworld =>
    rcases List.mem_append.1 hp with hp | hp
    · rw [hts p hp] at he; cases he
    · obtain rfl := List.mem_singleton.1 hp
      obtain rfl : e' = e := Option.some.inj (ht.symm.trans he)
      exact ⟨ts, rfl, hts, rfl, hstore, hworld⟩

/-- What contains a failure fails, with the same error up to a line that was missing. -/
theorem error_of_within (h : t.Within whole) (hc : whole.HasCourse S) (he : t.error? = some e) :
    whole.error? = some e ∨ ∃ line, whole.error? = some (e.atLine line) := by
  induction h with
  | self => exact .inl he
  | @part n depth env before parts after p hp h ih =>
    have hline : ∀ e', p.error? = some e' →
        (node n depth env before parts after).error? = some (e'.atLine n.line) := by
      intro e' he'
      obtain ⟨-, -, -, ha, -⟩ := hc.passed hp he'
      obtain ⟨c, m⟩ := after
      obtain rfl : c = _ := ha
      rfl
    rcases ih (hc.parts p hp).2 with hp | ⟨line, hp⟩
    · exact .inr ⟨n.line, hline e hp⟩
    · exact .inr ⟨line, by rw [hline _ hp, EvalError.atLine_atLine]⟩

theorem exists_error_of_within (h : t.Within whole) (hc : whole.HasCourse S)
    (he : t.error? = some e) : ∃ e', whole.error? = some e' :=
  (error_of_within h hc he).elim (fun h => ⟨e, h⟩) fun ⟨_, h⟩ => ⟨_, h⟩

/-- What contains a node that failed fails with the same error, whose line is there already. -/
theorem error_of_node_within (h : t.Within whole) (hg : whole.IsGenuine S)
    (hc : whole.HasCourse S) (hn : t.isNative = false) (he : t.error? = some e) :
    whole.error? = some e := by
  have hline := isSome_line_of_hasCourse (of_within h hg hc).2 hn he
  rcases error_of_within h hc he with h | ⟨line, h⟩
  · exact h
  · rwa [EvalError.atLine_of_isSome hline] at h

/-- A node that contains a failure fails with the same error, which has a line then. -/
theorem error_atLine_of_within (h : t.Within whole) (hc : whole.HasCourse S)
    (hn : whole.isNative = false) (he : t.error? = some e) :
    ∃ line, whole.error? = some (e.atLine line) := by
  rcases error_of_within h hc he with h | h
  · have hline := isSome_line_of_hasCourse hc hn h
    exact ⟨0, by rw [h, EvalError.atLine_of_isSome hline]⟩
  · exact h

/-- After a failure nothing happens but that scopes are left. -/
theorem isFinal_of_within (h : t.Within whole) (hc : whole.HasCourse S) (he : t.error? = some e) :
    t.IsFinal S whole := by
  induction h with
  | self => exact ⟨.self, .refl, rfl⟩
  | @part n depth env before parts after p hp h ih =>
    obtain ⟨hends, hstore, hworld⟩ := ih (hc.parts p hp).2
    obtain ⟨e', hp'⟩ := exists_error_of_within h (hc.parts p hp).2 he
    obtain ⟨earlier, hparts, hearlier, -, hleaves, hw⟩ := hc.passed hp hp'
    refine ⟨?_, hstore.trans hleaves, hw.trans hworld⟩
    subst hparts
    refine .last (fun u hu htu => ?_) hends
    obtain ⟨e'', hu'⟩ := exists_error_of_within htu (hc.parts u (List.mem_append_left _ hu)).2 he
    rw [hearlier u hu] at hu'
    cases hu'

/-- An error comes from the innermost node that failed. -/
theorem exists_raises (hc : whole.HasCourse S) (hn : whole.isNative = false)
    (he : whole.error? = some e) : ∃ t : Trace ω, t.Within whole ∧ t.Raises e := by
  induction whole using Trace.induction generalizing e with
  | native => cases hn
  | node n depth env before parts after ih =>
    have hpart := hc.parts
    obtain ⟨c, m⟩ := after
    obtain ⟨c', hc', h⟩ := hc
    obtain rfl : c = _ := hc'
    generalize ha : (c', m) = a at h
    cases h.outcome with
    | own hts hown =>
      subst ha
      cases c' <;> cases he
      exact ⟨_, .self, .own hts (by rw [EvalError.line_atLine, hown.1]; rfl) hown.2⟩
    | @passed ts t e' m' hts ht hcall =>
      cases ha
      cases he
      have hmem : t ∈ ts ++ [t] := List.mem_append_right _ List.mem_cons_self
      cases t with
      | native f r σ w =>
        cases r <;> cases ht
        exact ⟨_, .self, .native hts (hcall rfl)⟩
      | node =>
        obtain ⟨t, hwithin, hraises⟩ := ih _ hmem (hpart _ hmem).2 rfl ht
        have hline := isSome_line_of_hasCourse (hpart _ hmem).2 rfl ht
        exact ⟨t, .part hmem hwithin, by rwa [EvalError.atLine_of_isSome hline]⟩

end Trace

/-! ## Calls that are refused -/

/-- Whether arguments evaluate to values, from left to right. -/
inductive Evaluator.Supplies (ev : Evaluator ω) (env : ScopeId) :
    Held → List Node → Machine ω → List Value → Held → Machine ω → Prop
  | nil {held : Held} {m : Machine ω} : Supplies ev env held [] m [] held m
  | cons {held held' : Held} {n : Node} {rest : List Node} {v : Value} {vs : List Value}
    {m m' m'' : Machine ω} (hn : (ev held n env m).value = (.value v, m'))
    (hrest : Supplies ev env (held.value v) rest m' vs held' m'') :
    Supplies ev env held (n :: rest) m (v :: vs) held' m''

namespace Setting

/-- Why a call of a function is refused before the function's body, if it is: for the number of
arguments, for the depth of calls, or for want of room for the parameters. -/
def refusal? (S : Setting ω) (f : Closure) (args : List Value) (m : Machine ω) :
    Option ErrorCause :=
  match f.arityFault? args.length with
  | some cause => some cause
  | none =>
    if S.config.maxCallDepth ≤ m.callDepth then some (.stackOverflow S.config.maxCallDepth)
    else
      let (s, σ) := m.store.child f.scope
      (σ.bindParameters s (f.code.params.zip args)).2

variable {ev : Evaluator ω} {held held' : Held} {env : ScopeId} {m m₁ m₂ : Machine ω}
variable {args : List Node} {vs : List Value} {f : Closure} {cause : ErrorCause}

theorem value_arguments (h : ev.Supplies env held args m vs held' m₁)
    (next : Held → List Value → Machine ω → Deferred (Answer ω)) (values : List Value) :
    (arguments ev held env next values args m).value = (next held' (values ++ vs) m₁).value := by
  induction h generalizing values with
  | nil => rw [List.append_nil]; rfl
  | @cons held held' n rest v vs m m' m'' hn hrest ih =>
    rw [arguments, Deferred.value_thenValue, hn]
    dsimp only
    rw [ih, List.append_assoc, List.singleton_append]

/-- A call of a function is refused, or runs the function's body in a new scope. -/
theorem callClosure_cases (S : Setting ω) (ev : Evaluator ω) (held : Held) (f : Closure)
    (vs : List Value) (m : Machine ω) :
    (∃ cause, S.refusal? f vs m = some cause ∧
      (S.callClosure ev held f vs m).value.1 = .fail cause) ∨
    (S.refusal? f vs m = none ∧ m.callDepth < S.config.maxCallDepth ∧ ∃ s σ,
      (S.callClosure ev held f vs m).value =
        S.leaveScope held s (runCall ev (held.scope s) s f.code.body (m.withStore σ)).value) := by
  unfold refusal? callClosure
  cases ha : f.arityFault? vs.length with
  | some cause => exact .inl ⟨cause, rfl, rfl⟩
  | none =>
    dsimp only
    split
    · exact .inl ⟨_, rfl, rfl⟩
    · next hd =>
      rw [within, Deferred.value_map]
      generalize m.store.child f.scope = p
      obtain ⟨s, σ⟩ := p
      dsimp only [Machine.withStore]
      obtain ⟨σ', _ | cause⟩ := σ.bindParameters s (f.code.params.zip vs)
      · exact .inr ⟨rfl, Nat.lt_of_not_ge hd, s, σ', rfl⟩
      · exact .inl ⟨cause, rfl, rfl⟩

theorem value_callClosure_of_refusal? (h : S.refusal? f vs m = some cause) :
    (S.callClosure ev held f vs m).value.1 = .fail cause := by
  rcases callClosure_cases S ev held f vs m with ⟨cause', h', hv⟩ | ⟨h', -⟩
  · obtain rfl : cause = cause' := Option.some.inj (h.symm.trans h')
    exact hv
  · cases h.symm.trans h'

/-- A call that is refused fails at the line of the call. -/
theorem value_exec_of_refusal? {fuel : Nat} {n callee : Node} (hn : n.kind = .call callee args)
    (hargs : (S.exec fuel).Supplies env held args { m with line := n.line } vs held' m₁)
    (hf : (S.exec fuel held' callee env m₁).value = (.value (.function f), m₂))
    (hr : S.refusal? f vs m₂ = some cause) :
    (S.exec (fuel + 1) held n env m).value.1 = .failed ⟨cause, some n.line⟩ := by
  rw [value_exec_succ, hn, step, call, value_arguments hargs, Deferred.value_thenValue, hf]
  dsimp only
  rw [List.nil_append, callValue, value_callClosure_of_refusal? hr]
  rfl

end Setting

/-! ## The theorem -/

theorem Completion.result?_eq_error_iff {c : Completion} {e : EvalError} (line : UInt32)
    (hc : ∀ e, c = .failed e → e.line.isSome) :
    c.result? line = some (.error e) ↔ c = .failed e := by
  cases c with
  | failed e' => simp [result?, EvalError.atLine_of_isSome (hc e' rfl)]
  | _ => simp [result?]

theorem Interpreter.result_perform (I : Interpreter ω) (d : Machine ω → Deferred (Answer ω)) :
    (I.perform d).1 = (d I.machine).value.1.result? (d I.machine).value.2.line := by
  rw [perform, Deferred.force_eq_value]

/-- **Errors are never swallowed, rewritten or reordered.** Whatever fails during an evaluation,
in whatever node, called body or native, is the last thing that happens in it, and the evaluation
fails with the same error; scopes are left afterwards, but nothing is printed, declared or assigned.
The error has the line of the innermost node that failed, unless a native gave one. A call that is
refused fails at its own line. What a host gets to see is that error, whatever line the machine was
at before. -/
theorem errors_pass (config : Config) (host : Host ω) (fuel : Nat) (held : Held) (n : Node)
    (env : ScopeId) (m : Machine ω) :
    let S := Setting.releasing config host
    let a := (S.exec (fuel + 1) held n env m).value
    ∃ parts,
      let whole := Trace.node n 0 env m parts a
      (S.trace (fuel + 1) 0 held n env (m.withTraces [])).value = (a.1, a.2.withTraces [whole]) ∧
        (∀ t : Trace ω, t.Within whole → t.IsGenuine S ∧ ∀ e, t.error? = some e →
          t.IsFinal S whole ∧
            (∀ s, a.2.store.bindings s = t.store.bindings s ∨
              a.2.store.bindings s = .withCapacity 0) ∧
            (t.isNative = false → a.1 = .failed e) ∧ ∃ line, a.1 = .failed (e.atLine line)) ∧
        (∀ e, a.1 = .failed e → e.line.isSome ∧ ∃ t : Trace ω, t.Within whole ∧ t.Raises e) ∧
        (∀ callee args, n.kind = .call callee args → ∀ vs held' m₁ f m₂ cause,
          (S.exec fuel).Supplies env held args { m with line := n.line } vs held' m₁ →
          (S.exec fuel held' callee env m₁).value = (.value (.function f), m₂) →
          S.refusal? f vs m₂ = some cause → a.1 = .failed ⟨cause, some n.line⟩) ∧
        ∀ globals line e,
          ((Interpreter.eval ⟨S, globals, { m with line }⟩ (fuel + 1) held n env).1 =
            some (.error e) ↔ a.1 = .failed e) ∧
          ((Interpreter.run ⟨S, env, { m with line }⟩ (fuel + 1) held n).1 =
            some (.error e) ↔ a.1 = .failed e) := by
  intro S a
  obtain ⟨parts, c, m', ha, hcourse, htrace⟩ :=
    Setting.value_trace_succ (S.traces_exec fuel 0) (S.traces_exec fuel 1) held n env m []
  have hc : (Trace.node n 0 env m parts a).HasCourse S := ⟨c, congrArg Prod.fst ha, by
    rwa [show a.2 = m' from congrArg Prod.snd ha]⟩
  have hg : (Trace.node n 0 env m parts a).IsGenuine S := ⟨fuel + 1, held, rfl⟩
  have hline : ∀ e, a.1 = .failed e → e.line.isSome := fun e he =>
    Trace.isSome_line_of_hasCourse hc rfl (Trace.error?_node.2 he)
  refine ⟨parts, ?_, fun t ht => ⟨(Trace.of_within ht hg hc).1, fun e he => ?_⟩,
    fun e he => ⟨hline e he, Trace.exists_raises hc rfl (Trace.error?_node.2 he)⟩,
    fun callee args hn vs held' m₁ f m₂ cause hargs hf hr =>
      Setting.value_exec_of_refusal? hn hargs hf hr, fun globals line e => ⟨?_, ?_⟩⟩
  · rw [htrace, show a = (c.atLine n.line, m') from ha]
    rfl
  · have hfinal := Trace.isFinal_of_within ht hc he
    obtain ⟨line, hwhole⟩ := Trace.error_atLine_of_within ht hc rfl he
    exact ⟨hfinal, Setting.bindings_of_leaves hfinal.store,
      fun hn => Trace.error?_node.1 (Trace.error_of_node_within ht hg hc hn he),
      line, Trace.error?_node.1 hwhole⟩
  · rw [Interpreter.eval, Interpreter.result_perform]
    exact Completion.result?_eq_error_iff _ hline
  · rw [Interpreter.run, Interpreter.eval, Interpreter.result_perform]
    exact Completion.result?_eq_error_iff _ hline

/-- A variable is missing in the body of a function that an operand calls: the error is that of the
body's line, and so is what the host gets. -/
theorem errors_pass_undefined :
    let S := Setting.releasing .standard Workbench.host
    let m : Machine Workbench := ⟨(Store.empty.root 8 8).2, 7, 0, .ofSink .buffer⟩
    let e : EvalError := ⟨.undefinedIdentifier "x", some 2⟩
    let f : Node := ⟨.function "f" ⟨0, [], [⟨.identifier "x", 2⟩]⟩, 1⟩
    let sum : Node := ⟨.binary .add ⟨.string "a", 3⟩ ⟨.call ⟨.identifier "f", 4⟩ [], 4⟩, 3⟩
    let n : Node := ⟨.program [f, sum], 1⟩
    (S.exec 5 .empty n ⟨0⟩ m).value.1 = .failed e ∧
      (∃ t : Trace Workbench, t.Raises e) ∧
        (Interpreter.run ⟨S, ⟨0⟩, { m with line := 9 }⟩ 5 .empty n).1 = some (.error e) := by
  intro S m e f sum n
  have he : (S.exec 5 .empty n ⟨0⟩ m).value.1 = .failed e := by
    have h : (S.exec 5 .empty n ⟨0⟩ m).value.1.error? = some e := by decide +kernel
    exact Completion.eq_failed_of_error? h
  obtain ⟨parts, -, -, hraises, -, hrun⟩ := errors_pass .standard Workbench.host 4 .empty n ⟨0⟩ m
  obtain ⟨-, t, -, ht⟩ := hraises e he
  exact ⟨he, ⟨t, ht⟩, (hrun ⟨0⟩ 9 e).2.2 he⟩

end Treewalk
