import Treewalk.Proofs.Release.Turns
import Treewalk.Proofs.Trace.Errors

/-!
# The depth of calls

The machine counts the calls of functions in progress by hand, one up before a body and one down
after it. The count is balanced over whatever happens in the body, it is always the number of bodies
that a trace shows to be in progress, and it never passes the limit.

* `Setting.Course.callDepth`: the count along a course.
* `Setting.callClosure_overflows_iff`: which calls are refused for their depth.
* `callDepth_balanced`: the counter is balanced and bounded.
-/

namespace Treewalk

variable {ω : Type} {S : Setting ω}

/-- Whether the machine counts the bodies in progress, over a number from before, before and after
the evaluation of a node, and the count is within a limit. -/
def Trace.Counts (base limit : Nat) : Trace ω → Prop
  | node _ depth _ before _ after =>
    before.callDepth = base + depth ∧ after.2.callDepth = base + depth ∧ base + depth ≤ limit
  | native .. => True

namespace Setting

variable {isCall : Bool} {depth : Nat} {held : Held} {env : ScopeId} {m : Machine ω}
variable {ts : List (Trace ω)} {a : Answer ω}

/-- The count is the same before and after, and in between it is that of the bodies. -/
theorem Course.callDepth (h : S.Course isCall depth m ts a) (base : Nat)
    (hm : m.callDepth = base + depth) (hmax : base + depth ≤ S.config.maxCallDepth) :
    a.2.callDepth = base + depth ∧
      ∀ p ∈ ts, ∀ t : Trace ω, t.Within p → t.Counts base S.config.maxCallDepth := by
  induction h with
  | own hc σ => exact ⟨hm, by simp⟩
  | andThen h hc h' ih ih' =>
    obtain ⟨hd, hts⟩ := ih hm hmax
    obtain ⟨hd', hus⟩ := ih' hd hmax
    exact ⟨hd', fun p hp => (List.mem_append.1 hp).elim (hts p) (hus p)⟩
  | leave h outside s ih => exact ih hm hmax
  | @call _ depth m _ _ _ hd h ih =>
    obtain ⟨hd', hts⟩ := ih (congrArg (· + 1) hm) (by omega)
    exact ⟨by dsimp only at hd' ⊢; omega, hts⟩
  | native h =>
    refine ⟨hm, fun p hp t ht => ?_⟩
    obtain rfl := List.mem_singleton.1 hp
    cases ht
    trivial
  | node h he ih =>
    obtain ⟨hd, hts⟩ := ih hm hmax
    refine ⟨hd, fun p hp t ht => ?_⟩
    obtain rfl := List.mem_singleton.1 hp
    cases ht with
    | self => exact ⟨hm, hd, hmax⟩
    | part hp ht => exact hts _ hp t ht

theorem Traces.callDepth {d₁ : Deferred (Answer (ω × List (Trace ω)))} {d₂ : Deferred (Answer ω)}
    (h : S.Traces isCall 0 m [] d₁ d₂) (hm : m.callDepth ≤ S.config.maxCallDepth) :
    d₂.value.2.callDepth = m.callDepth ∧
      ∃ ts, d₁.value = (d₂.value.1, d₂.value.2.withTraces ts) ∧
        ∀ p ∈ ts, ∀ t : Trace ω, t.Within p → t.Counts m.callDepth S.config.maxCallDepth := by
  obtain ⟨ts, he, hc⟩ := h
  obtain ⟨hd, hts⟩ := hc.callDepth m.callDepth rfl hm
  exact ⟨hd, ts, he, hts⟩

theorem callDepth_exec (S : Setting ω) (fuel : Nat) (held : Held) (n : Node) (env : ScopeId)
    (hm : m.callDepth ≤ S.config.maxCallDepth) :
    (S.exec fuel held n env m).value.2.callDepth = m.callDepth :=
  ((S.traces_exec fuel 0 false held n env m []).callDepth hm).1

theorem callDepth_callValue (S : Setting ω) (fuel : Nat) (held : Held) (callee : Value)
    (args : List Value) (env : ScopeId) (hm : m.callDepth ≤ S.config.maxCallDepth) :
    (S.callValue (S.exec fuel) held callee args env m).value.2.callDepth = m.callDepth :=
  have h : S.Traces true 0 m [] _ (S.callValue (S.exec fuel) held callee args env m) :=
    traces_callValue (S.traces_exec fuel 1) callee args
  (h.callDepth hm).1

/-! ## Overflow -/

/-- An error of a function's body is none of the call itself. -/
theorem runCall_ne_fail {fuel : Nat} {s : ScopeId} {body : List Node} {cause : ErrorCause}
    (hd : m.callDepth < S.config.maxCallDepth) (hcause : cause.isOfCall = true) :
    (runCall (S.exec fuel) held s body m).value.1 ≠ .fail cause := by
  have hrun : S.Traces false 0 m [] _ (runCall (S.exec fuel) held s body m) :=
    traces_runCall (S.traces_exec fuel 1) body hd
  obtain ⟨ts, -, h⟩ := hrun
  intro hv
  have hparts := Trace.isGenuine_and_hasCourse h
  generalize (runCall (S.exec fuel) held s body m).value = a at h hv
  cases h.outcome with
  | own hts hc =>
    rw [hv] at hc
    cases hc.2 hcause
  | @passed ts t e m hts ht hcall =>
    cases hv
    cases hn : t.isNative with
    | true => cases hcall hn
    | false => cases Trace.isSome_line_of_hasCourse (hparts t (by simp)).2 hn ht

theorem not_isOfCall_of_bindParameters {σ σ' : Store} {s : ScopeId}
    {bindings : List (String × Value)} {cause : ErrorCause}
    (h : σ.bindParameters s bindings = (σ', some cause)) : cause.isOfCall = false := by
  induction bindings generalizing σ with
  | nil => cases h
  | cons b rest ih =>
    obtain ⟨param, arg⟩ := b
    rw [Store.bindParameters] at h
    dsimp only at h
    split at h
    · exact ih h
    · next hd =>
      cases h
      rw [(Store.declare_eq_error hd).2]
      rfl

variable {f : Closure} {vs : List Value}

/-- A call fails by itself only where it is refused. -/
theorem callClosure_eq_fail_iff {fuel : Nat} {cause : ErrorCause} (hcause : cause.isOfCall = true) :
    (S.callClosure (S.exec fuel) held f vs m).value.1 = .fail cause ↔
      S.refusal? f vs m = some cause := by
  rcases callClosure_cases S (S.exec fuel) held f vs m with ⟨cause', hr, hv⟩ | ⟨hr, hd, s, σ, hv⟩
  · rw [hr, hv]
    simp [Completion.fail, EvalError.ofCause]
  · rw [hr, hv]
    exact iff_of_false (runCall_ne_fail (m := m.withStore σ) hd hcause) (by simp)

theorem refusal?_eq_stackOverflow_iff (hm : m.callDepth ≤ S.config.maxCallDepth) :
    S.refusal? f vs m = some (.stackOverflow S.config.maxCallDepth) ↔
      vs.length = f.arity ∧ m.callDepth = S.config.maxCallDepth := by
  unfold refusal? Closure.arityFault?
  by_cases ha : vs.length = f.arity
  · simp only [ha, if_true, true_and]
    by_cases hd : S.config.maxCallDepth ≤ m.callDepth
    · simp [Nat.le_antisymm hm hd]
    · simp only [hd, if_false]
      refine iff_of_false (fun h => ?_) (fun h => hd h.ge)
      have := not_isOfCall_of_bindParameters (Prod.ext rfl h)
      cases this
  · simp [ha]

end Setting

/-! ## Turns of a host -/

namespace Interpreter

variable {I : Interpreter ω}

theorem callDepth_perform {d : Machine ω → Deferred (Answer ω)}
    (h : (d I.machine).value.2.callDepth = I.machine.callDepth) :
    (I.perform d).2.setting = I.setting ∧
      (I.perform d).2.machine.callDepth = I.machine.callDepth := by
  rw [perform, Deferred.force_eq_value]
  exact ⟨rfl, h⟩

theorem callDepth_serve (hm : I.machine.callDepth ≤ I.setting.config.maxCallDepth) (t : Turn) :
    (I.serve t).2.setting = I.setting ∧
      (I.serve t).2.machine.callDepth = I.machine.callDepth := by
  obtain ⟨fuel, holding, request⟩ := t
  cases request with
  | run n => exact callDepth_perform (Setting.callDepth_exec _ _ _ _ _ hm)
  | eval n env => exact callDepth_perform (Setting.callDepth_exec _ _ _ _ _ hm)
  | call callee args => exact callDepth_perform (Setting.callDepth_callValue _ _ _ _ _ _ hm)
  | root => exact ⟨rfl, rfl⟩
  | child => exact ⟨rfl, rfl⟩

/-- The count is the same before all turns. -/
theorem callDepth_turns (hm : I.machine.callDepth ≤ I.setting.config.maxCallDepth) (K : Holding)
    (ts : List Turn) : (I.turns K ts).2.1.machine.callDepth = I.machine.callDepth := by
  induction ts generalizing I K with
  | nil => rfl
  | cons t rest ih =>
    obtain ⟨hs, hd⟩ := callDepth_serve hm t
    rw [turns]
    dsimp only
    rw [ih (by rw [hs, hd]; exact hm), hd]

end Interpreter

/-- **The counter of calls is balanced and bounded.** Evaluations and calls leave it as they find
it, however they end. At every node on the way it is the number of bodies in progress, which is at
most the limit. A call of a function fails for its depth exactly if it has the right number of
arguments while as many bodies as the limit allows are in progress. Every turn of a host starts with
no call in progress. -/
theorem callDepth_balanced (S : Setting ω) (fuel : Nat) (held : Held) (n : Node) (callee : Value)
    (args : List Value) (env : ScopeId) (m : Machine ω)
    (hm : m.callDepth ≤ S.config.maxCallDepth) :
    let a := (S.exec fuel held n env m).value
    let b := (S.callValue (S.exec fuel) held callee args env m).value
    a.2.callDepth = m.callDepth ∧ b.2.callDepth = m.callDepth ∧
      (∃ ts, (S.trace fuel 0 held n env (m.withTraces [])).value = (a.1, a.2.withTraces ts) ∧
        ∀ p ∈ ts, ∀ t : Trace ω, t.Within p → t.Counts m.callDepth S.config.maxCallDepth) ∧
      (∃ ts, (S.traced.callValue (S.trace fuel 1) held callee args env (m.withTraces [])).value =
          (b.1, b.2.withTraces ts) ∧
        ∀ p ∈ ts, ∀ t : Trace ω, t.Within p → t.Counts m.callDepth S.config.maxCallDepth) ∧
      (∀ f, callee = .function f → (b.1 = .fail (.stackOverflow S.config.maxCallDepth) ↔
        args.length = f.arity ∧ m.callDepth = S.config.maxCallDepth)) ∧
      ∀ globals σ line w K ts,
        (Interpreter.turns ⟨S, globals, ⟨σ, line, 0, w⟩⟩ K ts).2.1.machine.callDepth = 0 := by
  intro a b
  obtain ⟨ha, hta⟩ := (S.traces_exec fuel 0 false held n env m []).callDepth hm
  have hcall : S.Traces true 0 m []
      (S.traced.callValue (S.trace fuel 1) held callee args env (m.withTraces []))
      (S.callValue (S.exec fuel) held callee args env m) :=
    Setting.traces_callValue (S.traces_exec fuel 1) callee args
  obtain ⟨hb, htb⟩ := hcall.callDepth hm
  refine ⟨ha, hb, hta, htb, ?_, fun globals σ line w K ts =>
    Interpreter.callDepth_turns (Nat.zero_le _) K ts⟩
  rintro f rfl
  exact (Setting.callClosure_eq_fail_iff rfl).trans (Setting.refusal?_eq_stackOverflow_iff hm)

/-- With one call allowed, a call from within the body of a function is refused. -/
theorem callDepth_balanced_limit :
    let S := Setting.releasing { Config.standard with maxCallDepth := 1 } Workbench.host
    let m : Machine Workbench := ⟨(Store.empty.root 8 8).2, 7, 1, .ofSink .buffer⟩
    let f : Closure := ⟨"f", ⟨0, [], [⟨.string "a", 2⟩]⟩, ⟨0⟩⟩
    let b := (S.callValue (S.exec 5) .empty (.function f) [] ⟨0⟩ m).value
    m.callDepth ≤ S.config.maxCallDepth ∧ b.1 = .fail (.stackOverflow 1) ∧ b.2.callDepth = 1 := by
  intro S m f b
  have hm : m.callDepth ≤ S.config.maxCallDepth := by decide
  obtain ⟨-, hb, -, -, hoverflow, -⟩ :=
    callDepth_balanced S 5 .empty ⟨.breakLoop, 1⟩ (.function f) [] ⟨0⟩ m hm
  exact ⟨hm, (hoverflow f rfl).2 ⟨rfl, rfl⟩, hb⟩

end Treewalk
