import Treewalk.Proofs.Matching.Simulation
import Treewalk.Proofs.Release.Turns
import Treewalk.Proofs.Scope.Build

/-!
# Like interpreters, turn by turn

Two hosts that ask like things of interpreters that match get results that match, and the
interpreters match afterwards, turn by turn: `Interpreter.Matches.serve`, for lists of turns
`Interpreter.Matches.turns`. A new interpreter matches itself: `Builder.matches_of_build`.
-/

namespace Treewalk

variable {ω : Type} {L : Likeness} {World : ω → ω → Prop}

/-- Interpreters with the same limits and on the same host, whose machines match. -/
structure Interpreter.Matches (L : Likeness) (World : ω → ω → Prop) (config : Config)
    (host : Host ω) (I J : Interpreter ω) : Prop where
  left : I.setting = .releasing config host
  right : J.setting = .releasing config host
  globals_eq : I.globals = J.globals
  machines : I.machine.Matches L World J.machine

/-- What hosts keep: the same scopes, and values that match. -/
structure Holding.Matches (L : Likeness) (K K' : Holding) : Prop where
  scopes_eq : K.scopes = K'.scopes
  values : List.Forall₂ (Value.Matches L) K.values K'.values

/-- Requests to do the same with like nodes and with values that match. -/
inductive Request.Matches (L : Likeness) : Request → Request → Prop
  | run {n n' : Node} (h : L.Nodes n n') : Matches L (.run n) (.run n')
  | eval {n n' : Node} (h : L.Nodes n n') (env : ScopeId) : Matches L (.eval n env) (.eval n' env)
  | call {f g : Value} (hf : f.Matches L g) {args args' : List Value}
    (hargs : List.Forall₂ (Value.Matches L) args args') : Matches L (.call f args) (.call g args')
  | root (capacity childCapacity : Nat) :
    Matches L (.root capacity childCapacity) (.root capacity childCapacity)
  | child (parent : ScopeId) : Matches L (.child parent) (.child parent)

/-- Turns with requests that match. -/
structure Turn.Matches (L : Likeness) (t u : Turn) : Prop where
  fuel_eq : t.fuel = u.fuel
  holding : t.holding.Matches L u.holding
  request : t.request.Matches L u.request

/-- Outcomes that match. -/
inductive Outcome.Matches (L : Likeness) : Outcome → Outcome → Prop
  | result {r r' : Option (Except EvalError Value)} (h : Option.Rel L.Results r r') :
    Matches L (.result r) (.result r')
  | scope (s : ScopeId) : Matches L (.scope s) (.scope s)

/-! ## What hosts hold -/

theorem Held.Matches.values {h₁ h₂ : Held} (h : h₁.Matches L h₂) {vs ws : List Value}
    (hvs : List.Forall₂ (Value.Matches L) vs ws) :
    Held.Matches L (h₁.values vs) (h₂.values ws) :=
  List.rel_foldl (P := Held.Matches L) (R := Value.Matches L) (fun _ _ h _ _ hv => h.value hv) h hvs

namespace Holding.Matches

variable {K K' : Holding}

theorem held (h : K.Matches L K') (globals : ScopeId) :
    (K.held globals).Matches L (K'.held globals) := by
  have hscopes : ∀ ss : List ScopeId,
      Held.Matches L (ss.foldl Held.scope .empty) (ss.foldl Held.scope .empty) := by
    intro ss
    refine List.rel_foldl (P := Held.Matches L) (R := Eq) ?_ .empty
      (List.forall₂_same.2 fun _ _ => rfl)
    rintro _ _ h s _ rfl
    exact h.scope s
  rw [Holding.held, Holding.held, h.scopes_eq]
  exact (hscopes _).values h.values

theorem learn (h : K.Matches L K') {o o' : Outcome} (ho : o.Matches L o') :
    (K.learn o).Matches L (K'.learn o') := by
  cases ho with
  | scope s => exact ⟨congrArg (s :: ·) h.scopes_eq, h.values⟩
  | result hr =>
    cases hr with
    | none => exact h
    | some hr =>
      cases hr with
      | ok hv => exact ⟨h.scopes_eq, .cons hv h.values⟩
      | error he => exact h

end Holding.Matches

/-! ## Turns -/

namespace Interpreter.Matches

variable {config : Config} {host : Host ω} {I J : Interpreter ω} {t u : Turn}

theorem perform (h : I.Matches L World config host J) {d d' : Machine ω → Deferred (Answer ω)}
    (hd : Answers L World (d I.machine).value (d' J.machine).value) :
    Option.Rel L.Results (I.perform d).1 (J.perform d').1 ∧
      (I.perform d).2.Matches L World config host (J.perform d').2 := by
  rw [Interpreter.perform, Interpreter.perform, Deferred.force_eq_value, Deferred.force_eq_value]
  exact ⟨hd.results, h.left, h.right, h.globals_eq, hd.machines⟩

/-- Like requests have like outcomes and leave interpreters that match. -/
theorem serve (h : I.Matches L World config host J) (hh : host.Respects L World)
    (ht : t.Matches L u) :
    (I.serve t).1.Matches L (J.serve u).1 ∧
      (I.serve t).2.Matches L World config host (J.serve u).2 := by
  obtain ⟨fuel, K, request⟩ := t
  obtain ⟨fuel', K', request'⟩ := u
  obtain ⟨rfl, hK, hr⟩ := ht
  have hheld : (K.held I.globals).Matches L (K'.held J.globals) := by
    rw [h.globals_eq]
    exact hK.held J.globals
  have heval : ∀ {n n' : Node}, L.Nodes n n' → ∀ env,
      Option.Rel L.Results (I.eval fuel (K.held I.globals) n env).1
          (J.eval fuel (K'.held J.globals) n' env).1 ∧
        (I.eval fuel (K.held I.globals) n env).2.Matches L World config host
          (J.eval fuel (K'.held J.globals) n' env).2 := by
    intro n n' hn env
    refine h.perform ?_
    rw [h.left, h.right]
    exact hh.exec hheld h.machines hn fuel env
  cases hr with
  | run hn =>
    obtain ⟨hr, h'⟩ := heval hn I.globals
    dsimp only [Interpreter.serve, Interpreter.run]
    rw [← h.globals_eq] at hr h' ⊢
    exact ⟨.result hr, h'⟩
  | eval hn env =>
    obtain ⟨hr, h'⟩ := heval hn env
    exact ⟨.result hr, h'⟩
  | @call f g hf args args' hargs =>
    have hcall : Option.Rel L.Results (I.call fuel (K.held I.globals) f args).1
          (J.call fuel (K'.held J.globals) g args').1 ∧
        (I.call fuel (K.held I.globals) f args).2.Matches L World config host
          (J.call fuel (K'.held J.globals) g args').2 := by
      refine h.perform ?_
      rw [h.left, h.right, ← h.globals_eq]
      rw [← h.globals_eq] at hheld
      exact hh.callValue (hheld.values (.cons hf hargs)) h.machines hf hargs fuel I.globals
    exact ⟨.result hcall.1, hcall.2⟩
  | root capacity childCapacity =>
    obtain ⟨hs, hσ⟩ := h.machines.store.add capacity none childCapacity
    dsimp only [Interpreter.serve, Store.root]
    rw [hs]
    exact ⟨.scope _, h.left, h.right, h.globals_eq, { h.machines with store := hσ }⟩
  | child parent =>
    obtain ⟨hs, hσ⟩ := h.machines.store.child parent
    dsimp only [Interpreter.serve]
    rw [hs]
    exact ⟨.scope _, h.left, h.right, h.globals_eq, { h.machines with store := hσ }⟩

/-- So do lists of turns. -/
theorem turns (h : I.Matches L World config host J) (hh : host.Respects L World) {K K' : Holding}
    (hK : K.Matches L K') {ts us : List Turn} (ht : List.Forall₂ (Turn.Matches L) ts us) :
    List.Forall₂ (Outcome.Matches L) (I.turns K ts).1 (J.turns K' us).1 ∧
      (I.turns K ts).2.1.Matches L World config host (J.turns K' us).2.1 ∧
        (I.turns K ts).2.2.Matches L (J.turns K' us).2.2 := by
  induction ht generalizing I J K K' with
  | nil => exact ⟨.nil, h, hK⟩
  | cons ht _ ih =>
    obtain ⟨ho, h'⟩ := h.serve hh ht
    obtain ⟨hos, h'', hK'⟩ := ih h' (ht.holding.learn ho)
    exact ⟨.cons ho hos, h'', hK'⟩

end Interpreter.Matches

/-! ## Building -/

namespace Builder

variable {b : Builder} {print printLine : NativeFunction} {σ σ' : Store} {s globals : ScopeId}

theorem plain_of_mem_constants {p : String × Value} (h : p ∈ b.constants print printLine) :
    L.Plain p.2 := by
  refine ⟨isPlain_of_mem_constants h, fun n hn => ?_⟩
  rcases List.mem_append.1 h with h | h
  · simp only [prelude, List.mem_cons, List.not_mem_nil, or_false] at h
    rcases h with rfl | rfl | rfl <;> cases hn
  · obtain ⟨f, -, rfl⟩ := List.mem_map.1 h
    cases hn

theorem matches_of_declareAll {constants : List (String × Value)} (h : σ.Matches L σ)
    (hc : ∀ p ∈ constants, L.Plain p.2) (hd : declareAll σ s constants = .ok σ') :
    σ'.Matches L σ' := by
  induction constants generalizing σ with
  | nil =>
    cases hd
    exact h
  | cons p rest ih =>
    have hp := h.declare (.plain (hc p List.mem_cons_self)) s p.1 true
    rw [declareAll] at hd
    generalize σ.declare s p.1 p.2 true = r at hp hd
    cases hp with
    | ok hσ => exact ih hσ (fun p hp => hc p (List.mem_cons_of_mem _ hp)) hd
    | error cause => cases hd
    | excused hx => exact hx.elim

/-- The store of a new interpreter matches itself: it binds no numbers. -/
theorem matches_of_build (hb : b.build print printLine .empty = .ok (globals, σ)) :
    σ.Matches L σ := by
  obtain ⟨-, hd⟩ := build_eq_ok.1 hb
  exact matches_of_declareAll (Store.Matches.empty.add _ _ _).2
    (fun p hp => plain_of_mem_constants hp) hd

end Builder

end Treewalk
