import Treewalk.Proofs.Limits.Simulation
import Treewalk.Proofs.Scope.Build
import Treewalk.Proofs.Workbench.Layout

/-!
# Limits are only limits

An interpreter that is built and run with higher limits does what it does with lower ones, unless
with the lower ones it fails for want of room: `limits_unobservable`. Building declares the same
names on both sides, so it ends in stores that are the same up to layout, by
`Builder.resized_of_build`.
-/

namespace Treewalk

/-! ## Building -/

namespace Builder

variable {P : Pairing} {σ₁ σ₂ σ₁' : Store} {s : ScopeId}

theorem resized_of_declareAll {constants : List (String × Value)} (h : σ₁.Resized P σ₂)
    (hc : ∀ p ∈ constants, p.2.IsPlain) (hd : declareAll σ₁ s constants = .ok σ₁') :
    ∃ σ₂', declareAll σ₂ s constants = .ok σ₂' ∧ σ₁'.Resized P σ₂' := by
  induction constants generalizing σ₁ σ₂ with
  | nil =>
    cases hd
    exact ⟨σ₂, rfl, h⟩
  | cons p rest ih =>
    obtain ⟨name, v⟩ := p
    rw [declareAll] at hd
    cases hd₁ : σ₁.declare s name v true with
    | error cause => simp [hd₁] at hd
    | ok q =>
      rw [hd₁] at hd
      have hv : v.IsPlain := hc (name, v) List.mem_cons_self
      obtain ⟨b, σ₂', hd₂, h'⟩ := h.declare hv.resized hd₁
      rw [declareAll, hd₂]
      exact ih h' (fun p hp => hc p (List.mem_cons_of_mem _ hp)) hd

theorem isLimit_of_declareAll {constants : List (String × Value)} {cause : ErrorCause}
    (hd : declareAll σ₁ s constants = .error cause) : cause.IsLimit := by
  induction constants generalizing σ₁ with
  | nil => cases hd
  | cons p rest ih =>
    obtain ⟨name, v⟩ := p
    rw [declareAll] at hd
    cases hd₁ : σ₁.declare s name v true with
    | error cause' =>
      rw [hd₁] at hd
      cases hd
      obtain ⟨-, rfl⟩ := Store.declare_eq_error hd₁
      trivial
    | ok q =>
      rw [hd₁] at hd
      exact ih hd

variable {b : Builder} {c c' : Config} {print printLine : NativeFunction} {globals : ScopeId}

/-- Building fails only for want of room. -/
theorem isLimit_of_build {cause : ErrorCause}
    (hb : b.build print printLine σ₁ = .error cause) : cause.IsLimit :=
  isLimit_of_declareAll (build_eq_error.1 hb)

/-- What can be built with lower limits can be built with higher ones. -/
theorem resized_of_build (hc : c.AtMost c') (h : σ₁.Resized P σ₂)
    (hb : (b.withConfig c).build print printLine σ₁ = .ok (globals, σ₁')) :
    ∃ σ₂', (b.withConfig c').build print printLine σ₂ = .ok (globals, σ₂') ∧
      σ₁'.Resized P σ₂' := by
  obtain ⟨hglobals, hd⟩ := build_eq_ok.1 hb
  obtain ⟨hid, hroot⟩ := h.add hc.globalCapacity hc.scopeCapacity none
  obtain ⟨σ₂', hd', h'⟩ := resized_of_declareAll hroot
    (fun p hp => isPlain_of_mem_constants hp) hd
  exact ⟨σ₂', build_eq_ok.2 ⟨hid.symm.trans hglobals, hd'⟩, h'⟩

end Builder

/-! ## Running -/

variable {ω α : Type} {host : Host ω} {World : Pairing → ω → ω → Prop} {printed : ω → α}

/-- New interpreters with different limits are matched. No objects are paired yet. -/
theorem matched_of_build (hh : host.IgnoresLayout World printed) {b : Builder} {c c' : Config}
    {print printLine : NativeFunction} {globals : ScopeId} {σ₁ σ₂ : Store} {w : ω}
    (hw : World (fun _ _ => False) w w) (hσ : σ₁.Resized (fun _ _ => False) σ₂)
    (hb₁ : (b.withConfig c).build print printLine .empty = .ok (globals, σ₁))
    (hb₂ : (b.withConfig c').build print printLine .empty = .ok (globals, σ₂)) :
    Matched host World (Held.empty.scope globals) (fun _ _ => False)
      (fun _ => .withCapacity 0) (fun _ => .withCapacity 0) [] σ₁ w σ₂ w := by
  have hbase : ∀ {T : ObjectId → Table Binding} {n : Nat}, (Held.empty.scope globals).Obeys T n :=
    fun t v hv => by simp at hv
  have hworld : ∀ {T : ObjectId → Table Binding} {n : Nat}, (host.held w).Obeys T n := by
    intro T n s v hv
    obtain ⟨v', hvv⟩ := exists_of_forall₂ ((hh.held hw).objects s) hv
    cases hvv with
    | leaf hleaf => exact Value.obeys_of_type_ne hleaf
    | object hid => exact hid.elim
  have hidentities : ∀ {σ : Store} {c : Config} {vs : Set Value},
      (b.withConfig c).build print printLine .empty = .ok (globals, σ) → (∀ v, v ∉ vs) →
        Identities (fun _ => .withCapacity 0) σ vs (Held.empty.scope globals) (host.held w) := by
    intro σ c vs hb hvs
    have hf := Builder.isFresh_of_build Store.isFresh_empty hb
    exact ⟨fun t v hv => (hf.plain t v hv).obeys, fun v hv => (hvs v hv).elim, hbase, hworld⟩
  exact
    { fits := ⟨biUnique_iff.2 (by simp), fun _ _ h => h.elim⟩
      stores := hσ
      context := fun v w hm => (List.not_mem_nil hm).elim
      world := hw
      left := hidentities hb₁ fun v ⟨w, hm⟩ => (List.not_mem_nil hm).elim
      right := hidentities hb₂ fun w ⟨v, hm⟩ => (List.not_mem_nil hm).elim }

/-- What a host sees of answers that correspond. -/
theorem ends_of_answers {hh : host.IgnoresLayout World printed} {c c' : Config}
    {hc : c.AtMost c'} {globals : ScopeId} {a₁ a₂ : Answer ω}
    (h : (limitsSimulation hc hh globals).Answers [] a₁ a₂) :
    (∃ e, a₁.1.result? a₁.2.line = some (.error e) ∧ e.cause.IsLimit) ∨
      ∃ P : Pairing, Relator.BiUnique P ∧
        Option.Rel (Corresponds (fun _ => False) (Value.Resized P))
          (a₁.1.result? a₁.2.line) (a₂.1.result? a₂.2.line) ∧
        a₁.2.line = a₂.2.line ∧ printed a₁.2.world = printed a₂.2.world ∧
          (a₁.2.store.bindings globals).Resized (Value.Resized P)
            (a₂.2.store.bindings globals) := by
  obtain ⟨e, he, hl⟩ | ⟨Δ, hp, hline, -, P, T₁, T₂, hm⟩ := h
  · refine .inl ⟨e.atLine a₁.2.line, by rw [he]; rfl, ?_⟩
    rwa [EvalError.cause_atLine]
  · refine .inr ⟨P, hm.fits.biUnique, ?_, hline, hh.printed_eq hm.world, hm.stores.bindings globals⟩
    have hnull : Value.Resized P .null .null := .leaf (by simp [Value.type])
    rw [← hline]
    generalize a₁.1 = c₁ at hp ⊢
    generalize a₂.1 = c₂ at hp ⊢
    cases hp with
    | value v w => exact .some (.ok (hm.context v w List.mem_cons_self))
    | returned v w => exact .some (.ok (hm.context v w List.mem_cons_self))
    | broke => exact .some (.ok hnull)
    | continued => exact .some (.ok hnull)
    | failed he =>
      obtain rfl := he
      exact .some (.error _)
    | panicked | exhausted => exact .none

/-- **Limits are only limits.** What is built and run with some limits fails for want of room, or it
ends in the same way with all higher limits: in the same value up to the layout of tables or the
same error, with the same text printed and the same global bindings up to layout. -/
theorem limits_unobservable (hh : host.IgnoresLayout World printed) {c c' : Config}
    (hc : c.AtMost c') (b : Builder) (print printLine : NativeFunction) {w : ω}
    (hw : World (fun _ _ => False) w w) (fuel : Nat) (n : Node) :
    match (b.withConfig c).build print printLine .empty with
    | .error cause => cause.IsLimit
    | .ok (globals, σ₁) =>
      ∃ σ₂, (b.withConfig c').build print printLine .empty = .ok (globals, σ₂) ∧
        let held := Held.empty.scope globals
        let I : Interpreter ω := ⟨.releasing c host, globals, ⟨σ₁, 0, 0, w⟩⟩
        let J : Interpreter ω := ⟨.releasing c' host, globals, ⟨σ₂, 0, 0, w⟩⟩
        let a := I.run fuel held n
        let b := J.run fuel held n
        (∃ e, a.1 = some (.error e) ∧ e.cause.IsLimit) ∨ ∃ P : Pairing, Relator.BiUnique P ∧
          Option.Rel (Corresponds (fun _ => False) (Value.Resized P)) a.1 b.1 ∧
            a.2.machine.line = b.2.machine.line ∧
              printed a.2.machine.world = printed b.2.machine.world ∧
                (a.2.machine.store.bindings globals).Resized (Value.Resized P)
                  (b.2.machine.store.bindings globals) := by
  have hempty : Store.Resized (fun _ _ => False) .empty .empty :=
    ⟨rfl, fun _ => rfl, fun _ => rfl, fun _ => .withCapacity _ 0 0, fun _ => Nat.le_refl _,
      fun _ => Nat.le_refl _⟩
  cases hb : (b.withConfig c).build print printLine .empty with
  | error cause => exact Builder.isLimit_of_build hb
  | ok p =>
    obtain ⟨globals, σ₁⟩ := p
    obtain ⟨σ₂, hb', hσ⟩ := Builder.resized_of_build hc hempty hb
    refine ⟨σ₂, hb', ?_⟩
    have hm := matched_of_build hh hw hσ hb hb'
    have hag : (limitsSimulation hc hh globals).Agree [] ⟨σ₁, 0, 0, w⟩ ⟨σ₂, 0, 0, w⟩ :=
      ⟨rfl, rfl, _, _, _, hm⟩
    have ha := Simulation.follows_exec (limitsSimulation hc hh globals) fuel (n := n) rfl hag
      (.inl trivial : Context.Holds _ [] globals) (.inl trivial)
    simp only [Interpreter.run, Interpreter.eval, Interpreter.perform, Deferred.force_eq_value]
    exact ends_of_answers ha

/-- A program that makes an object and prints on the workbench, with tables that just suffice and
with standard ones. -/
theorem limits_unobservable_workbench :
    let c : Config :=
      { Config.standard with globalCapacity := 5, scopeCapacity := 1, objectCapacity := 1 }
    let b : Builder := Builder.start.withPrinting
    let w : Workbench := ((Workbench.ofSink .buffer).newNative "print" .print).2
    let n : Node := ⟨.block
      [⟨.declaration "x" false (some ⟨.object [⟨"a", some ⟨.string "b", 1⟩⟩], 1⟩), 1⟩,
        ⟨.call ⟨.identifier "print", 2⟩ [⟨.string "hi", 2⟩], 2⟩], 1⟩
    ∃ globals σ₁ σ₂,
      (b.withConfig c).build ⟨0, "print"⟩ ⟨1, "println"⟩ .empty = .ok (globals, σ₁) ∧
        (b.withConfig .standard).build ⟨0, "print"⟩ ⟨1, "println"⟩ .empty = .ok (globals, σ₂) ∧
          let held := Held.empty.scope globals
          let I : Interpreter Workbench :=
            ⟨.releasing c Workbench.objectFreeHost, globals, ⟨σ₁, 0, 0, w⟩⟩
          let J : Interpreter Workbench :=
            ⟨.releasing .standard Workbench.objectFreeHost, globals, ⟨σ₂, 0, 0, w⟩⟩
          (I.run 6 held n).1.any Except.isOk = true ∧
            (I.run 6 held n).2.machine.world.output = (J.run 6 held n).2.machine.world.output := by
  intro c b w n
  have hc : c.AtMost .standard := ⟨by decide, by decide, by decide, by decide, rfl⟩
  have hw : Workbench.Resized (fun _ _ => False) w w := ⟨rfl, rfl, .nil, .empty _, rfl⟩
  have hok : ((b.withConfig c).build ⟨0, "print"⟩ ⟨1, "println"⟩ .empty).toOption.any (fun p =>
      ((Interpreter.run ⟨.releasing c Workbench.objectFreeHost, p.1, ⟨p.2, 0, 0, w⟩⟩ 6
        (Held.empty.scope p.1) n).1.any Except.isOk)) = true := by decide +kernel
  have h := limits_unobservable Workbench.ignoresLayout hc b ⟨0, "print"⟩ ⟨1, "println"⟩ hw 6 n
  cases hb : (b.withConfig c).build ⟨0, "print"⟩ ⟨1, "println"⟩ .empty with
  | error cause => simp [hb, Except.toOption] at hok
  | ok p =>
    obtain ⟨globals, σ₁⟩ := p
    rw [hb] at h hok
    obtain ⟨σ₂, hb', ⟨e, he, -⟩ | ⟨P, -, -, -, hprinted, -⟩⟩ := h
    · dsimp only [Except.toOption, Option.any_some] at hok
      simp [he, Except.isOk, Except.toBool] at hok
    · exact ⟨globals, σ₁, σ₂, rfl, hb', hok, hprinted⟩

end Treewalk
