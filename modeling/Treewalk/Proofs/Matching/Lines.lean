import Treewalk.Proofs.Matching.Turns
import Treewalk.Proofs.Trace.Depth
import Treewalk.Proofs.Workbench.Matching

/-!
# Lines are only for messages

Two programs that are the same but for the lines of their nodes do the same: in two interpreters
that are the same up to lines they end in the same value or in an error of the same cause, they
print the same, and they leave the same bindings, up to the lines in the bodies of functions. The
line that an interpreter is at when it starts has no part in an evaluation at all.

* `Node.Relined`, nodes that are the same up to lines, and `Likeness.relined`.
* `Setting.exec_line`: an evaluation does not depend on the line of the machine.

Main statement: `lines_inert`.
-/

namespace Treewalk

/-- Nodes that are the same but for their lines and the lines of their parts. -/
inductive Node.Relined : Node → Node → Prop
  | mk {kind kind' : NodeKind} (h : kind.Matches Relined kind') (line line' : UInt32) :
    Relined ⟨kind, line⟩ ⟨kind', line'⟩

theorem Node.Relined.kind {n n' : Node} (h : n.Relined n') : n.kind.Matches Relined n'.kind := by
  cases h with
  | mk h => exact h

/-- Lines may differ, and an error is known by its cause. -/
def Likeness.relined : Likeness where
  Nodes := Node.Relined
  Lines _ _ := True
  Errors e e' := e.cause = e'.cause
  Numbers _ := True
  Panics := True
  kind h := h.kind
  line _ := trivial
  literal _ _ := trivial
  ofCause _ := rfl
  atLine he _ := he
  int _ := trivial
  negate _ := trivial
  step _ _ := trivial
  arithmetic _ _ _ := trivial
  panics _ _ := trivial

variable {ω : Type}

namespace Setting

/-- An evaluation starts at the line of its node, whatever line the machine was at. -/
theorem exec_line (S : Setting ω) (fuel : Nat) (held : Held) (n : Node) (env : ScopeId)
    (m : Machine ω) (line : UInt32) :
    S.exec (fuel + 1) held n env m = S.exec (fuel + 1) held n env { m with line := line } := rfl

end Setting

/-- Evaluations on machines that differ in their line only. -/
theorem Interpreter.eval_congr {I J : Interpreter ω} (hS : I.setting = J.setting)
    (hσ : I.machine.store = J.machine.store) (hw : I.machine.world = J.machine.world)
    (hd : I.machine.callDepth = J.machine.callDepth) (fuel : Nat) (held : Held) (n : Node)
    (env : ScopeId) :
    (I.eval fuel held n env).1 = (J.eval fuel held n env).1 ∧
      (I.eval fuel held n env).2.machine.store = (J.eval fuel held n env).2.machine.store ∧
        (I.eval fuel held n env).2.machine.world = (J.eval fuel held n env).2.machine.world := by
  obtain ⟨S, globals, σ, line, callDepth, w⟩ := I
  obtain ⟨S', globals', σ', line', callDepth', w'⟩ := J
  dsimp only at hS hσ hw hd
  subst hS hσ hw hd
  simp only [Interpreter.eval, Interpreter.perform, Deferred.force_eq_value]
  cases fuel with
  | zero => exact ⟨rfl, rfl, rfl⟩
  | succ fuel =>
    rw [S.exec_line fuel held n env ⟨σ, line, callDepth, w⟩ line']
    exact ⟨rfl, rfl, rfl⟩

/-- No turn changes the setting. -/
theorem Interpreter.setting_turns (I : Interpreter ω) (K : Holding) (ts : List Turn) :
    (I.turns K ts).2.1.setting = I.setting := by
  induction ts generalizing I K with
  | nil => rfl
  | cons t rest ih =>
    obtain ⟨fuel, holding, request⟩ := t
    rw [turns]
    dsimp only
    rw [ih]
    cases request <;> rfl

variable {α : Type} {host : Host ω} {World : ω → ω → Prop} {printed : ω → α}

/-- **Lines are only for messages.** Requests that are the same up to lines, of interpreters that
are the same up to lines, come to the same up to lines: to values with the same code, or to errors
of one cause. The same is printed, and the interpreters are the same up to lines again. Whatever was
asked of two interpreters before, if their stores and worlds are the same, then evaluations have the
same outcome and leave the same stores and worlds. -/
theorem lines_inert (hh : host.Respects .relined World)
    (hp : ∀ w w', World w w' → printed w = printed w') (config : Config) :
    (∀ (I J : Interpreter ω) (t u : Turn), I.Matches .relined World config host J →
      t.Matches .relined u →
        (I.serve t).1.Matches .relined (J.serve u).1 ∧
          (I.serve t).2.Matches .relined World config host (J.serve u).2 ∧
            printed (I.serve t).2.machine.world = printed (J.serve u).2.machine.world) ∧
      ∀ globals globals' σ σ' line line' w w' K K' ts us,
        let S := Setting.releasing config host
        let I := (Interpreter.turns ⟨S, globals, ⟨σ, line, 0, w⟩⟩ K ts).2.1
        let J := (Interpreter.turns ⟨S, globals', ⟨σ', line', 0, w'⟩⟩ K' us).2.1
        I.machine.store = J.machine.store → I.machine.world = J.machine.world →
          ∀ fuel held n env, (I.eval fuel held n env).1 = (J.eval fuel held n env).1 ∧
            (I.eval fuel held n env).2.machine.store = (J.eval fuel held n env).2.machine.store ∧
              (I.eval fuel held n env).2.machine.world =
                (J.eval fuel held n env).2.machine.world := by
  constructor
  · intro I J t u hI ht
    obtain ⟨ho, h⟩ := hI.serve hh ht
    exact ⟨ho, h, hp _ _ h.machines.world⟩
  · intro globals globals' σ σ' line line' w w' K K' ts us S I J hσ hw fuel held n env
    have hd : I.machine.callDepth = J.machine.callDepth := by
      rw [Interpreter.callDepth_turns (Nat.zero_le _), Interpreter.callDepth_turns (Nat.zero_le _)]
    have hS : I.setting = J.setting := by
      rw [Interpreter.setting_turns, Interpreter.setting_turns]
    exact Interpreter.eval_congr hS hσ hw hd fuel held n env

/-- A function that fails on the workbench, at one line and at another. -/
theorem lines_inert_workbench :
    let n (line : UInt32) : Node := ⟨.program
      [⟨.function "f" ⟨0, [], [⟨.identifier "x", line⟩]⟩, line⟩,
        ⟨.call ⟨.identifier "f", line⟩ [], line⟩], line⟩
    let I (line : UInt32) : Interpreter Workbench :=
      ⟨.releasing .standard Workbench.host, ⟨0⟩,
        ⟨(Store.empty.root 8 8).2, line, 0, .ofSink .buffer⟩⟩
    let t (line : UInt32) : Turn := ⟨6, ⟨[], []⟩, .run (n line)⟩
    let error? (o : Outcome) : Option EvalError :=
      match o with
      | .result (some (.error e)) => some e
      | _ => none
    ((I 1).serve (t 2)).1.Matches .relined ((I 3).serve (t 4)).1 ∧
      error? ((I 1).serve (t 2)).1 = some ⟨.undefinedIdentifier "x", some 2⟩ ∧
        error? ((I 3).serve (t 4)).1 = some ⟨.undefinedIdentifier "x", some 4⟩ := by
  intro n I t error?
  have hn : ∀ line line', (n line).Relined (n line') := fun line line' =>
    .mk (.program (.cons (.mk (.function (.mk (.cons (.mk (.identifier "x") _ _) .nil))) _ _)
      (.cons (.mk (.call (.mk (.identifier "f") _ _) .nil) _ _) .nil))) _ _
  have hI : ∀ line line', (I line).Matches .relined (Workbench.Matches .relined) .standard
      Workbench.host (I line') := fun line line' =>
    ⟨rfl, rfl, rfl, trivial, rfl, (Store.Matches.empty.add 8 none 8).2,
      Workbench.matches_ofSink .buffer⟩
  have ht : ∀ line line', (t line).Matches .relined (t line') := fun line line' =>
    ⟨rfl, ⟨rfl, .nil⟩, .run (hn line line')⟩
  have hp : ∀ w w' : Workbench, w.Matches .relined w' → w.output = w'.output :=
    fun _ _ h => h.output_eq
  have h := (lines_inert (Workbench.respects fun _ => trivial) hp .standard).1 (I 1) (I 3) (t 2)
    (t 4) (hI 1 3) (ht 2 4)
  exact ⟨h.1, by decide +kernel, by decide +kernel⟩

end Treewalk
