import Treewalk.Proofs.Native.Registry
import Treewalk.Proofs.Scope.Build
import Treewalk.Proofs.Table.Bindings

/-!
# The globals of a built interpreter

A builder is set up in steps, and what it builds from is kept in its limits, its sink and a map
from names to natives. The global table is the table of constants that are set in turn: those of
the language, then all natives in the order of their names. So it depends on nothing else, and what
it has for a name is the native of the name, or else the constant of the language.

* `Builder.registered?` is the native registered last under a name, `Builder.natives_setUp`.
* `Builder.globals_eq`: building makes the table of the global bindings, or fails.
* `Builder.get?_globals`: what the table has for a name.

Main statement: `globals_exact`.
-/

namespace Treewalk

namespace Builder

/-! ## Steps of setting up -/

/-- A step of setting up a builder. -/
inductive Step where
  | config (c : Config)
  | sink (o : Sink)
  | natives (r : Registry)
  | native (f : NativeFunction)
  | printing
  deriving DecidableEq

/-- The builder after a step. -/
def perform (b : Builder) : Step → Builder
  | .config c => b.withConfig c
  | .sink o => b.withSink o
  | .natives r => b.withNatives r
  | .native f => b.withNative f
  | .printing => b.withPrinting

/-- The builder after steps in turn. -/
def setUp (steps : List Step) : Builder := steps.foldl perform start

/-- Registries that steps add are ones that can be made. -/
def Step.IsMade : Step → Prop
  | natives r => r.Made
  | _ => True

/-- The native that a step registers under a name. -/
def Step.native? (name : String) : Step → Option NativeFunction
  | natives r => r.get? name
  | native f => if f.name = name then some f else none
  | _ => none

/-- The native that was registered last under a name. -/
def registered? (steps : List Step) (name : String) : Option NativeFunction :=
  steps.reverse.findSome? (Step.native? name)

variable {steps : List Step}

theorem setUp_append_singleton (steps : List Step) (step : Step) :
    setUp (steps ++ [step]) = (setUp steps).perform step :=
  List.foldl_append

theorem registered?_append_singleton (steps : List Step) (step : Step) (name : String) :
    registered? (steps ++ [step]) name = (step.native? name).or (registered? steps name) := by
  rw [registered?, List.reverse_append, List.reverse_singleton, List.singleton_append,
    List.findSome?_cons, registered?]
  cases step.native? name <;> rfl

/-- The natives of a builder are those that were registered last. -/
theorem natives_setUp (h : ∀ step ∈ steps, step.IsMade) :
    (setUp steps).natives.Made ∧
      ∀ name, (setUp steps).natives.get? name = registered? steps name := by
  induction steps using List.reverseRecOn with
  | nil => exact ⟨.empty, fun name => rfl⟩
  | append_singleton steps step ih =>
    obtain ⟨hmade, hget⟩ := ih fun p hp => h p (List.mem_append_left _ hp)
    have hstep : step.IsMade := h step (List.mem_append_right _ (List.mem_singleton.2 rfl))
    rw [setUp_append_singleton]
    simp only [registered?_append_singleton, ← hget]
    cases step with
    | natives r => exact ⟨hmade.merge hstep, hstep.isSorted.get?_merge _⟩
    | native f =>
      refine ⟨hmade.insert f, fun name => ?_⟩
      rw [perform, withNative, Registry.get?_insert, Step.native?]
      split <;> rfl
    | _ => exact ⟨hmade, fun name => rfl⟩

theorem printing_setUp (steps : List Step) : (setUp steps).printing = true ↔ .printing ∈ steps := by
  induction steps using List.reverseRecOn with
  | nil => simp [setUp, start]
  | append_singleton steps step ih =>
    rw [setUp_append_singleton, List.mem_append, ← ih, List.mem_singleton]
    cases step <;> simp [perform, withConfig, withSink, withNatives, withNative, withPrinting]

/-! ## All natives -/

variable {b b' : Builder} {print printLine print' printLine' : NativeFunction}

theorem made_allNatives (h : b.natives.Made) (print printLine : NativeFunction) :
    (b.allNatives print printLine).Made := by
  rw [allNatives]
  split
  · exact (h.insert print).insert printLine
  · exact h

/-- The natives that print come before all others of their names. -/
theorem get?_allNatives (b : Builder) (print printLine : NativeFunction) (name : String) :
    (b.allNatives print printLine).get? name =
      if b.printing = true ∧ printLine.name = name then some printLine
      else if b.printing = true ∧ print.name = name then some print
      else b.natives.get? name := by
  rw [allNatives]
  cases b.printing with
  | false => simp
  | true => simp [Registry.get?_insert]

/-! ## The bindings that are set -/

/-- The constant with a name and a value. -/
def constant (p : String × Value) : Binding := ⟨p.1, true, p.2⟩

/-- The bindings that building sets, in order. -/
def globalBindings (b : Builder) (print printLine : NativeFunction) : List Binding :=
  (b.constants print printLine).map constant

/-- Declaring constants sets them in the table of the scope. -/
theorem declareAll_bindings (σ : Store) (s : ScopeId) (ps : List (String × Value)) :
    (declareAll σ s ps).map (fun σ' => σ'.bindings s) =
      ((ps.map constant).foldlM (fun (t : Table Binding) b => (t.set? b.name b).map Prod.snd)
        (σ.bindings s)).elim (.error (.tableOverflow (σ.bindings s).capacity)) .ok := by
  induction ps generalizing σ with
  | nil => rfl
  | cons p rest ih =>
    rw [declareAll, Store.declare, List.map_cons, List.foldlM_cons, Table.set?, constant]
    cases hp : (σ.bindings s).place? p.1 with
    | none => rfl
    | some q =>
      have hwrite : (σ.place s q p.1 ⟨p.1, true, p.2⟩).bindings s =
          (σ.bindings s).write q p.1 ⟨p.1, true, p.2⟩ := by
        rw [Store.bindings_place, if_pos rfl]
      dsimp only
      rw [ih, hwrite, Table.capacity_write]
      rfl

/-- The table of the global scope that building makes. -/
def globals (b : Builder) (print printLine : NativeFunction) (σ : Store) :
    Except ErrorCause (Table Binding) :=
  (b.build print printLine σ).map fun r => r.2.bindings r.1

/-- **Building makes the table of the global bindings**, or fails because one does not fit. -/
theorem globals_eq (b : Builder) (print printLine : NativeFunction) (σ : Store) :
    b.globals print printLine σ =
      (Table.ofBindings? b.config.globalCapacity (b.globalBindings print printLine)).elim
        (.error (.tableOverflow b.config.globalCapacity)) .ok := by
  have hnew : (σ.root b.config.globalCapacity b.config.scopeCapacity).2.bindings
      (σ.root b.config.globalCapacity b.config.scopeCapacity).1 =
        .withCapacity b.config.globalCapacity :=
    (Store.bindings_add ..).trans (if_pos rfl)
  have h := declareAll_bindings (σ.root b.config.globalCapacity b.config.scopeCapacity).2
    (σ.root b.config.globalCapacity b.config.scopeCapacity).1 (b.constants print printLine)
  rw [hnew, Table.capacity_withCapacity] at h
  rw [globals, build_eq, Table.ofBindings?, globalBindings, ← h]
  cases declareAll (σ.root b.config.globalCapacity b.config.scopeCapacity).2
    (σ.root b.config.globalCapacity b.config.scopeCapacity).1 (b.constants print printLine) <;> rfl

theorem globals_eq_ok {σ : Store} {t : Table Binding} : b.globals print printLine σ = .ok t ↔
    Table.ofBindings? b.config.globalCapacity (b.globalBindings print printLine) = some t := by
  rw [globals_eq]
  cases Table.ofBindings? b.config.globalCapacity (b.globalBindings print printLine) <;> simp

/-! ## What the table has for a name -/

/-- The value of a global: the native of the name, or else the constant of the language. -/
def global? (b : Builder) (print printLine : NativeFunction) (name : String) : Option Value :=
  (((b.allNatives print printLine).get? name).map .native).or (prelude.lookup name)

theorem lastNamed?_natives {r : Registry} (h : r.IsSorted) (name : String) :
    lastNamed? ((r.natives.map fun f => (f.name, Value.native f)).map constant) name =
      (r.get? name).map fun f => ⟨name, true, .native f⟩ := by
  rw [lastNamed?, List.map_map, ← List.map_reverse, List.find?_map]
  have hfind : r.natives.reverse.find? ((fun b : Binding => decide (b.name = name)) ∘
      constant ∘ fun f => (f.name, Value.native f)) = r.get? name :=
    h.find?_reverse name
  rw [hfind]
  cases hget : r.get? name with
  | none => rfl
  | some f =>
    obtain ⟨-, rfl⟩ := h.get?_eq_some_iff.1 hget
    rfl

theorem lastNamed?_prelude (name : String) :
    lastNamed? (prelude.map constant) name =
      (prelude.lookup name).map fun v => ⟨name, true, v⟩ := by
  simp only [lastNamed?, prelude, constant, List.map_cons, List.map_nil, List.reverse_cons,
    List.reverse_nil, List.nil_append, List.cons_append, List.find?_cons, List.find?_nil,
    List.lookup_cons, List.lookup_nil]
  -- The names differ, so from the end as from the start at most one of them is the name asked for.
  grind

/-- **What the global table has for a name.** -/
theorem get?_globals (h : b.natives.Made) {σ : Store} {t : Table Binding}
    (ht : b.globals print printLine σ = .ok t) (name : String) :
    t.get? name = (b.global? print printLine name).map fun v => ⟨name, true, v⟩ := by
  rw [(Table.ofBindings?_spec (globals_eq_ok.1 ht)).2.2, globalBindings, constants, List.map_append,
    lastNamed?_append_list, lastNamed?_natives (made_allNatives h print printLine).isSorted,
    lastNamed?_prelude, global?, Option.map_or, Option.map_map]
  rfl

/-- Builders with one capacity and one map from names to natives build one table. -/
theorem globals_congr (h : b.natives.Made) (h' : b'.natives.Made)
    (hcapacity : b.config.globalCapacity = b'.config.globalCapacity)
    (hnatives : ∀ name, (b.allNatives print printLine).get? name =
      (b'.allNatives print' printLine').get? name) (σ σ' : Store) :
    b.globals print printLine σ = b'.globals print' printLine' σ' := by
  have hall : b.allNatives print printLine = b'.allNatives print' printLine' :=
    (made_allNatives h print printLine).isSorted.ext
      (made_allNatives h' print' printLine').isSorted hnatives
  rw [globals_eq, globals_eq, hcapacity, globalBindings, globalBindings, constants,
    constants, hall]

/-! ## Globals after steps -/

/-- A table has the globals that steps ask for and nothing else, with the natives that print made
under two numbers. -/
structure IsGlobals (steps : List Step) (i j : Nat) (t : Table Binding) : Prop where
  names : ∀ name, name ∈ t.keys ↔ name ∈ ["null", "true", "false"] ∨
    (registered? steps name).isSome ∨ (.printing ∈ steps ∧ name ∈ ["print", "println"])
  nodup : t.keys.Nodup
  constant : ∀ name b, (name, b) ∈ t.entries → b.name = name ∧ b.isConst = true
  printing : .printing ∈ steps →
    t.get? "print" = some ⟨"print", true, .native ⟨i, "print"⟩⟩ ∧
      t.get? "println" = some ⟨"println", true, .native ⟨j, "println"⟩⟩
  registered : ∀ name f, registered? steps name = some f →
    ¬(.printing ∈ steps ∧ name ∈ ["print", "println"]) →
      t.get? name = some ⟨name, true, .native f⟩
  prelude : ∀ name v, (name, v) ∈ prelude → registered? steps name = none →
    t.get? name = some ⟨name, true, v⟩

variable {i j : Nat}

theorem get?_allNatives_setUp (h : ∀ step ∈ steps, step.IsMade) (i j : Nat) (name : String) :
    ((setUp steps).allNatives ⟨i, "print"⟩ ⟨j, "println"⟩).get? name =
      if .printing ∈ steps ∧ "println" = name then some ⟨j, "println"⟩
      else if .printing ∈ steps ∧ "print" = name then some ⟨i, "print"⟩
      else registered? steps name := by
  rw [get?_allNatives, (natives_setUp h).2]
  simp only [printing_setUp]

theorem isSome_lookup_prelude (name : String) :
    (Builder.prelude.lookup name).isSome ↔ name ∈ ["null", "true", "false"] := by
  rw [← Option.isSome_map (f := fun v => (⟨name, true, v⟩ : Binding)), ← lastNamed?_prelude,
    isSome_lastNamed?]
  rfl

/-- **What is built has the globals that the steps ask for.** -/
theorem isGlobals_of_globals (h : ∀ step ∈ steps, step.IsMade) {σ : Store} {t : Table Binding}
    (ht : (setUp steps).globals ⟨i, "print"⟩ ⟨j, "println"⟩ σ = .ok t) :
    IsGlobals steps i j t := by
  have hwell : t.WellFormed := (Table.ofBindings?_spec (globals_eq_ok.1 ht)).1
  have hget := get?_globals (natives_setUp h).1 ht
  simp only [global?, get?_allNatives_setUp h] at hget
  refine ⟨fun name => ?_, hwell.nodup_keys, fun name b hmem => ?_, fun hp => ?_,
    fun name f hf hn => ?_, fun name v hv hnone => ?_⟩
  · rw [hwell.mem_keys_iff, hget, Option.isSome_map, Option.isSome_or, Bool.or_eq_true,
      isSome_lookup_prelude, Option.isSome_map]
    grind
  · rw [hwell.mem_entries, hget] at hmem
    obtain ⟨v, -, rfl⟩ := Option.map_eq_some_iff.1 hmem
    exact ⟨rfl, rfl⟩
  · rw [hget, hget]
    simp [hp]
  · have hlast : ¬(.printing ∈ steps ∧ "println" = name) := fun ⟨hp, he⟩ => hn ⟨hp, by simp [← he]⟩
    have hfirst : ¬(.printing ∈ steps ∧ "print" = name) := fun ⟨hp, he⟩ => hn ⟨hp, by simp [← he]⟩
    rw [hget, if_neg hlast, if_neg hfirst, hf]
    rfl
  · rw [hget, hnone]
    simp only [Builder.prelude, List.mem_cons, List.not_mem_nil, or_false, Prod.mk.injEq] at hv
    obtain ⟨rfl, rfl⟩ | ⟨rfl, rfl⟩ | ⟨rfl, rfl⟩ := hv <;> simp [Builder.prelude, List.lookup_cons]

end Builder

open Builder in
/-- **A built interpreter has exactly the globals it was given.** What was set up in steps has the
globals that the steps ask for. The global table, slot for slot, and whether there is one, depend
only on the capacity and on the native of each name. Registries list each name once, in strict
order, and merge as maps in which the second has precedence. -/
theorem globals_exact {steps : List Step} (h : ∀ step ∈ steps, step.IsMade) (i j : Nat) :
    (∀ σ t, (setUp steps).globals ⟨i, "print"⟩ ⟨j, "println"⟩ σ = .ok t →
      IsGlobals steps i j t) ∧
    (∀ steps', (∀ step ∈ steps', Step.IsMade step) → ∀ i' j',
      (setUp steps).config.globalCapacity = (setUp steps').config.globalCapacity →
      (∀ name, ((setUp steps).allNatives ⟨i, "print"⟩ ⟨j, "println"⟩).get? name =
        ((setUp steps').allNatives ⟨i', "print"⟩ ⟨j', "println"⟩).get? name) →
      ∀ σ σ', (setUp steps).globals ⟨i, "print"⟩ ⟨j, "println"⟩ σ =
        (setUp steps').globals ⟨i', "print"⟩ ⟨j', "println"⟩ σ') ∧
    (∀ name, (setUp steps).natives.get? name = registered? steps name) ∧
    (∀ r : Registry, r.Made →
      r.names.Pairwise (· < ·) ∧ ∀ name, name ∈ r.names ↔ (r.get? name).isSome) ∧
    (∀ r s : Registry, r.Made → s.Made → ∀ name,
      (r.merge s).get? name = (s.get? name).or (r.get? name)) := by
  obtain ⟨hmade, hregistered⟩ := natives_setUp h
  refine ⟨fun σ t ht => isGlobals_of_globals h ht, ?_, hregistered, ?_, ?_⟩
  · intro steps' h' i' j' hcapacity hnatives σ σ'
    exact globals_congr hmade (natives_setUp h').1 hcapacity hnatives σ σ'
  · exact fun r hr => ⟨hr.isSorted, fun name => Registry.mem_names_iff⟩
  · exact fun r s _ hs name => hs.isSorted.get?_merge r name

open Builder in
/-- A constant of the language and a native that prints are registered over, in another order. -/
theorem globals_exact_overlapping :
    let steps : List Step := [.printing,
      .natives ((Registry.empty.insert ⟨0, "true"⟩).insert ⟨1, "print"⟩), .native ⟨2, "true"⟩]
    let steps' : List Step := [.native ⟨2, "true"⟩, .printing]
    ∃ t, (setUp steps).globals ⟨3, "print"⟩ ⟨4, "println"⟩ .empty = .ok t ∧
      (setUp steps').globals ⟨3, "print"⟩ ⟨4, "println"⟩ .empty = .ok t ∧
      t.get? "true" = some ⟨"true", true, .native ⟨2, "true"⟩⟩ ∧
      t.get? "print" = some ⟨"print", true, .native ⟨3, "print"⟩⟩ ∧
      t.get? "null" = some ⟨"null", true, .null⟩ := by
  intro steps steps'
  have hsteps : ∀ step ∈ steps, step.IsMade := by
    simp [steps, Step.IsMade, (Registry.Made.empty.insert _).insert _]
  have hsteps' : ∀ step ∈ steps', step.IsMade := by simp [steps', Step.IsMade]
  obtain ⟨hglobals, hcongr, -⟩ := globals_exact hsteps 3 4
  obtain ⟨t, ht⟩ : ∃ t, Table.ofBindings? (setUp steps).config.globalCapacity
      ((setUp steps).globalBindings ⟨3, "print"⟩ ⟨4, "println"⟩) = some t :=
    Table.exists_ofBindings? (by decide +kernel)
  have hbuilt : (setUp steps).globals ⟨3, "print"⟩ ⟨4, "println"⟩ .empty = .ok t :=
    globals_eq_ok.2 ht
  have hnatives : (setUp steps).allNatives ⟨3, "print"⟩ ⟨4, "println"⟩ =
      (setUp steps').allNatives ⟨3, "print"⟩ ⟨4, "println"⟩ := by decide +kernel
  have hgiven := hglobals .empty t hbuilt
  refine ⟨t, hbuilt, ?_, hgiven.registered _ _ (by decide +kernel) (by simp),
    (hgiven.printing (by simp [steps])).1,
    hgiven.prelude _ _ (by simp [prelude]) (by decide +kernel)⟩
  rw [← hcongr steps' hsteps' 3 4 rfl (fun name => by rw [hnatives]) .empty .empty]
  exact hbuilt

end Treewalk
