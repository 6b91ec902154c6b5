import Treewalk.Proofs.Simulation.Exec
import Treewalk.Proofs.Trace.Exec

/-!
# What holds all along an evaluation

What is known of an evaluation by a simulation of it by itself is known of its end. An evaluation
that writes traces takes what it is from the start of each node on, so with traces it is known of
all moments that they show: a simulation need only allow a node to start without traces and to add
its own at the end.

* `Simulation.answers_stepWith`: steps with evaluators of their own for the bodies of functions.
* `Simulation.Records`: what a simulation has to allow.

Main statement: `Simulation.Records.follows_trace`, evaluators that write traces keep to it.
-/

namespace Treewalk.Simulation

section

variable {ω₁ ω₂ : Type} {S₁ : Setting ω₁} {S₂ : Setting ω₂} {sim : Simulation S₁ S₂}
variable {ev₁ ev₁' : Evaluator ω₁} {ev₂ ev₂' : Evaluator ω₂} {Γ : Context} {s : ScopeId}
variable {m₁ : Machine ω₁} {m₂ : Machine ω₂}

/-- A step with evaluators of their own for the bodies of functions. -/
theorem answers_stepWith (hev : sim.Follows ev₁ ev₂) (hbody : sim.Follows ev₁' ev₂') (fuel : Nat)
    {n n' : Node} (hn : sim.like.Nodes n n') (h : sim.Agree Γ m₁ m₂) (hs : sim.Holds Γ s)
    (ho : sim.Suits n.kind s) :
    sim.Answers Γ (S₁.stepWith fuel ev₁ ev₁' (sim.leftHeld Γ) n.kind s m₁).value
      (S₂.stepWith fuel ev₂ ev₂' (sim.rightHeld Γ) n'.kind (sim.twin s) m₂).value := by
  have hstep := answers_step hev fuel hn h hs ho
  have hk := sim.like.kind hn
  generalize n.kind = kind at hk hstep ho
  generalize n'.kind = kind' at hk hstep
  cases hk with
  | call hc hargs => exact answers_call hev hbody hc hargs h hs ho
  | _ => exact hstep

end

variable {ω : Type} {S : Setting ω}

/-- Whether a simulation is of one evaluation by itself, and lets each node start without traces
and add what happened during it. -/
structure Records (sim : Simulation S.traced S.traced) : Prop where
  node_eq {n n' : Node} : sim.like.Nodes n n' → n = n'
  twin_eq (s : ScopeId) : sim.twin s = s
  line (line : UInt32) : sim.like.Lines line line
  same {Γ : Context} {m₁ m₂ : Machine (ω × List (Trace ω))} : sim.Agree Γ m₁ m₂ →
    m₁ = m₂ ∧ sim.leftHeld Γ = sim.rightHeld Γ
  start {Γ : Context} {m : Machine (ω × List (Trace ω))} (n : Node) : sim.Agree Γ m m →
    let start := ({ m.plain with line := n.line } : Machine ω).withTraces []
    sim.Agree Γ start start
  record {Γ Δ : Context} {m : Machine (ω × List (Trace ω))} {fuel depth : Nat} {held : Held}
    {n : Node} {env : ScopeId} {parts : List (Trace ω)} {a : Answer ω} : sim.Agree Γ m m →
      (S.exec fuel held n env m.plain).value = a → Completion.Pair sim.like a.1 a.1 Δ →
        sim.Agree (Δ ++ Γ) (a.2.withTraces parts) (a.2.withTraces parts) →
          let final := a.2.withTraces (m.world.2 ++ [.node n depth env m.plain parts a])
          sim.Agree (Δ ++ Γ) final final

/-- **Evaluators that write traces keep to a simulation** that allows traces to be written. -/
theorem Records.follows_trace {sim : Simulation S.traced S.traced} (h : sim.Records)
    (fuel depth : Nat) : sim.Follows (S.trace fuel depth) (S.trace fuel depth) := by
  induction fuel generalizing depth with
  | zero => exact fun Γ n n' s m₁ m₂ _ ha _ _ => answers_pair .exhausted ha
  | succ fuel ih =>
    intro Γ n n' env m₁ m₂ hn ha hs ho
    obtain ⟨rfl, hheld⟩ := h.same ha
    have hstep := answers_stepWith (ih depth) (ih (depth + 1)) fuel hn (h.start n ha) hs ho
    obtain rfl := h.node_eq hn
    rw [h.twin_eq, ← hheld] at hstep ⊢
    obtain ⟨ts, hexec, -⟩ := S.traces_exec (fuel + 1) depth false (sim.leftHeld Γ) n env m₁.plain
      m₁.world.2
    have htrace := S.value_trace fuel depth (sim.leftHeld Γ) n env m₁
    generalize (S.traced.stepWith fuel (S.trace fuel depth) (S.trace fuel (depth + 1))
      (sim.leftHeld Γ) n.kind env
      (({ m₁.plain with line := n.line } : Machine ω).withTraces [])).value = r at hstep htrace
    have hplain : (S.exec (fuel + 1) (sim.leftHeld Γ) n env m₁.plain).value =
        (r.1.atLine n.line, r.2.plain) := by
      obtain ⟨hc, hm⟩ := Prod.mk.inj (hexec.symm.trans htrace)
      exact Prod.ext hc (congrArg Machine.plain hm)
    rw [htrace]
    obtain ⟨e, he, hx⟩ | ⟨Δ, hp, hag⟩ := hstep
    · exact .inl ⟨e.atLine n.line, congrArg (·.atLine n.line) he, hx⟩
    · have hp := hp.atLine (h.line n.line)
      exact .inr ⟨Δ, hp, h.record ha hplain hp hag⟩

end Treewalk.Simulation
