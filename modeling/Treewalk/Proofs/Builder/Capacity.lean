import Treewalk.Proofs.Builder.Globals

/-!
# When the globals fit

Building sets the constants of the language, then the natives in the order of their names, and a
full table takes nothing, also no name that it has. So the globals fit if there is room for one
more name, and if they fill the table they fit unless what is set last has a name that was set
before. As natives have distinct names, that is a native with the name of a constant.

* `Builder.globalNames` are the names to be bound.
* `Builder.exists_globals_iff`: when there is a global table.

Main statement: `build_succeeds_iff`.
-/

namespace Treewalk

namespace Builder

/-- The names that building binds: those of the constants of the language and of all natives. -/
def globalNames (b : Builder) (print printLine : NativeFunction) : Finset String :=
  {"null", "true", "false"} ∪ b.natives.names.toFinset ∪
    if b.printing then {print.name, printLine.name} else ∅

/-- Whether the native that is set last has the name of a constant of the language. -/
def EndsOnConstant (b : Builder) (print printLine : NativeFunction) : Prop :=
  ∃ name ∈ (b.allNatives print printLine).names.getLast?, name ∈ ["null", "true", "false"]

variable {b : Builder} {print printLine : NativeFunction}

theorem mem_names_allNatives {name : String} :
    name ∈ (b.allNatives print printLine).names ↔
      name ∈ b.natives.names ∨ b.printing = true ∧ (name = print.name ∨ name = printLine.name) := by
  rw [Registry.mem_names_iff, get?_allNatives, Registry.mem_names_iff]
  grind

theorem map_name_globalBindings (b : Builder) (print printLine : NativeFunction) :
    (b.globalBindings print printLine).map BindingOf.name =
      ["null", "true", "false"] ++ (b.allNatives print printLine).names := by
  rw [globalBindings, constants, List.map_append, List.map_append, List.map_map, List.map_map,
    List.map_map]
  rfl

theorem toFinset_globalBindings (b : Builder) (print printLine : NativeFunction) :
    ((b.globalBindings print printLine).map BindingOf.name).toFinset =
      b.globalNames print printLine := by
  ext name
  rw [map_name_globalBindings, List.mem_toFinset, List.mem_append, mem_names_allNatives,
    globalNames]
  cases b.printing <;> simp <;> grind

/-- What is set last has a name that was set before just if it is a native with the name of a
constant of the language. -/
theorem exists_last (h : b.natives.Made) (print printLine : NativeFunction) :
    ∃ init last, b.globalBindings print printLine = init ++ [last] ∧
      (last.name ∈ init.map BindingOf.name ↔ b.EndsOnConstant print printLine) := by
  have hnodup := (made_allNatives h print printLine).isSorted.nodup_names
  rw [globalBindings, constants, EndsOnConstant, Registry.names] at *
  rcases List.eq_nil_or_concat (b.allNatives print printLine).natives with hnil | ⟨fs, f, hfs⟩
  · rw [hnil]
    exact ⟨[⟨"null", true, .null⟩, ⟨"true", true, .bool true⟩], ⟨"false", true, .bool false⟩, rfl,
      by simp⟩
  · rw [hfs] at hnodup ⊢
    refine ⟨prelude.map constant ++ (fs.map fun f => (f.name, .native f)).map constant,
      constant (f.name, .native f), by simp, ?_⟩
    have hnew : f.name ∉ fs.map NativeFunction.name := by
      rw [List.map_concat, List.nodup_concat] at hnodup
      exact hnodup.1
    have hnames : (prelude.map constant ++
        (fs.map fun f => (f.name, Value.native f)).map constant).map BindingOf.name =
          ["null", "true", "false"] ++ fs.map NativeFunction.name := by
      rw [List.map_append, List.map_map, List.map_map, List.map_map]
      rfl
    change f.name ∈ _ ↔ _
    rw [hnames, List.mem_append, or_iff_left hnew, List.map_concat, List.concat_eq_append,
      List.getLast?_concat]
    simp

/-- **When there is a global table.** -/
theorem exists_globals_iff (h : b.natives.Made) {σ : Store} :
    (∃ t, b.globals print printLine σ = .ok t) ↔
      (b.globalNames print printLine).card < b.config.globalCapacity ∨
        ((b.globalNames print printLine).card = b.config.globalCapacity ∧
          ¬b.EndsOnConstant print printLine) := by
  obtain ⟨init, last, hlast, hends⟩ := exists_last h print printLine
  simp only [globals_eq_ok, ← toFinset_globalBindings, ← hends, hlast]
  exact Table.exists_ofBindings?_iff_card last

/-- Building fails with nothing but the capacity. -/
theorem cause_of_build {cause : ErrorCause} {σ : Store}
    (h : b.build print printLine σ = .error cause) :
    cause = .tableOverflow b.config.globalCapacity := by
  have heq := globals_eq b print printLine σ
  rw [globals, h] at heq
  cases ht : Table.ofBindings? b.config.globalCapacity (b.globalBindings print printLine) with
  | none => rw [ht] at heq; exact Except.error.inj heq
  | some t => rw [ht] at heq; cases heq

end Builder

/-- **Building fails only if the globals do not fit.** It succeeds if the names to be bound are
fewer than the slots, and if they are as many unless the native that is set last has the name of a
constant of the language. Otherwise it fails with the capacity. -/
theorem build_succeeds_iff {b : Builder} (h : b.natives.Made) (i j : Nat) (σ : Store) :
    ((∃ s σ', b.build ⟨i, "print"⟩ ⟨j, "println"⟩ σ = .ok (s, σ')) ↔
      (b.globalNames ⟨i, "print"⟩ ⟨j, "println"⟩).card < b.config.globalCapacity ∨
        ((b.globalNames ⟨i, "print"⟩ ⟨j, "println"⟩).card = b.config.globalCapacity ∧
          ¬b.EndsOnConstant ⟨i, "print"⟩ ⟨j, "println"⟩)) ∧
    ((¬∃ s σ', b.build ⟨i, "print"⟩ ⟨j, "println"⟩ σ = .ok (s, σ')) →
      b.build ⟨i, "print"⟩ ⟨j, "println"⟩ σ = .error (.tableOverflow b.config.globalCapacity)) := by
  rw [← Builder.exists_globals_iff h (σ := σ), Builder.globals]
  cases hb : b.build ⟨i, "print"⟩ ⟨j, "println"⟩ σ with
  | ok r =>
    have hr : ∃ s σ', r = (s, σ') := ⟨r.1, r.2, rfl⟩
    simp [Except.map, hr]
  | error cause =>
    rw [Builder.cause_of_build hb]
    simp [Except.map]

/-- Three names of natives with the three constants fill six slots. -/
theorem build_succeeds_iff_filled :
    let b : Builder := ⟨⟨6, 64, 64, 100, "iteration"⟩, .silent, Registry.empty.insert ⟨0, "zeta"⟩,
      true⟩
    b.natives.Made ∧ ∃ s σ', b.build ⟨1, "print"⟩ ⟨2, "println"⟩ .empty = .ok (s, σ') := by
  intro b
  have hmade : b.natives.Made := Registry.Made.empty.insert _
  have hlast : (b.allNatives ⟨1, "print"⟩ ⟨2, "println"⟩).names.getLast? = some "zeta" := by
    decide +kernel
  refine ⟨hmade, (build_succeeds_iff hmade 1 2 .empty).1.2 (.inr ⟨by decide +kernel, ?_⟩)⟩
  simp [Builder.EndsOnConstant, hlast]

/-- **That the names fit is not enough**: a native named like a constant of the language is set
last, in a table that is full of the constants, and is rejected. -/
theorem build_rejects_last_overwrite :
    let b : Builder := ⟨⟨3, 64, 64, 100, "iteration"⟩, .console, Registry.empty.insert ⟨0, "null"⟩,
      false⟩
    ¬((∃ s σ', b.build ⟨1, "print"⟩ ⟨2, "println"⟩ .empty = .ok (s, σ')) ↔
      (b.globalNames ⟨1, "print"⟩ ⟨2, "println"⟩).card ≤ b.config.globalCapacity) := by
  intro b h
  have hfits : (b.globalNames ⟨1, "print"⟩ ⟨2, "println"⟩).card ≤ b.config.globalCapacity := by
    decide +kernel
  obtain ⟨s, σ', hb⟩ := h.2 hfits
  have hglobals : b.globals ⟨1, "print"⟩ ⟨2, "println"⟩ .empty = .ok (σ'.bindings s) := by
    rw [Builder.globals, hb]
    rfl
  have hnone : (Table.ofBindings? b.config.globalCapacity
      (b.globalBindings ⟨1, "print"⟩ ⟨2, "println"⟩)).isNone = true := by decide +kernel
  rw [Builder.globals_eq_ok.1 hglobals] at hnone
  cases hnone

end Treewalk
