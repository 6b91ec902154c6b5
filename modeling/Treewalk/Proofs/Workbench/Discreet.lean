import Treewalk.Proofs.Splice.Simulation
import Treewalk.Proofs.Workbench.Effects

/-!
# Natives of the workbench that cannot tell an empty scope

The natives of the workbench see the texts, the types and the equality of values. Texts and types do
not depend on scopes, and values are equal if they are with the scopes renamed to their twins. The
scope of a call is seen by some of the natives only; a workbench with none of these does the same
where an empty scope is left out: `Workbench.ignoresEmptyScopes`.
-/

namespace Treewalk

/-! ## What natives see of values -/

namespace Value

variable {f : ScopeId → ScopeId}

/-- Texts do not show scopes. -/
@[simp] theorem text_rename (f : ScopeId → ScopeId) (v : Value) : (v.rename f).text = v.text := by
  induction v using Value.induction with
  | leaf v hv =>
    cases v with
    | function g => exact congrArg (fun name => "[Function " ++ name ++ "]") rfl
    | object => exact (hv rfl).elim
    | _ => exact congrArg text (IsPlain.rename_eq (by trivial) f)
  | object id t ih =>
    obtain ⟨⟨slots⟩, count⟩ := t
    have hslots : slotTexts (slots.map (Slot.map (BindingOf.rename f))) = slotTexts slots :=
      slotTexts_map (rename f) ih
    rw [rename, renameSlots_eq_map]
    unfold text
    rw [hslots]

@[simp] theorem number?_rename (f : ScopeId → ScopeId) (v : Value) :
    (v.rename f).number? = v.number? := by
  cases v <;> rfl

@[simp] theorem string?_rename (f : ScopeId → ScopeId) (v : Value) :
    (v.rename f).string? = v.string? := by
  cases v <;> rfl

/-- Values are equal if they are with the scopes renamed, provided that no two scopes of theirs
become one. -/
theorem same_rename {v w : Value} (h : ∀ s t, v.mentions s = true → w.mentions t = true →
    (f s = f t ↔ s = t)) : (v.rename f).same (w.rename f) = v.same w := by
  induction v using Value.induction generalizing w with
  | leaf v hv =>
    cases v with
    | object => exact (hv rfl).elim
    | function g =>
      cases w with
      | function g' =>
        have hs : (f g.scope == f g'.scope) = (g.scope == g'.scope) := by
          rw [Bool.eq_iff_iff, beq_iff_eq, beq_iff_eq]
          exact h _ _ (mentions_function.2 rfl) (mentions_function.2 rfl)
        simp only [rename_function, same, Closure.same, hs]
      | _ => rfl
    | _ => cases w <;> rfl
  | object id t ih =>
    cases w with
    | object id' u =>
      rw [rename_object, rename_object, same_object, same_object]
      refine Table.sameBy_map _ t u fun key b c hb hc => ?_
      have hv := Table.value_mem_values hb
      have hbc := ih b.value hv fun s s' hs hs' =>
        h s s' (mentions_object.2 ⟨_, hv, hs⟩)
          (mentions_object.2 ⟨_, Table.mem_values_of_get? hc, hs'⟩)
      simp only [BindingOf.same, BindingOf.rename, BindingOf.withValue, hbc]
    | _ => rfl

end Value

/-- Whether a native does not look at the scope that it is called from, and binds no names. -/
def Builtin.isDiscreet : Builtin → Bool
  | .capture | .define _ | .defineGlobal | .hasLocal | .depth | .localSize => false
  | _ => true

namespace Workbench

open Splice

/-- Workbenches that have done the same, with the scopes in values renamed to their twins. All of
their natives are discreet. -/
structure Spliced (p : Splice) (w w' : Workbench) : Prop where
  builtins_eq : w'.builtins = w.builtins
  discreet : ∀ b ∈ w.builtins, b.isDiscreet = true
  output_eq : w'.output = w.output
  notes_eq : w'.notes = w.notes.map (Value.rename p.twin)
  held : w.held.Spliced p w'.held
  captured_eq : w'.captured = w.captured

/-- What a native does beside an empty scope and where it is left out. -/
structure Even (p : Splice) (a b : Except EvalError Value × Store × Workbench) : Prop where
  results : b.1 = a.1.map (Value.rename p.twin)
  admits : ∀ v, a.1 = .ok v → p.Admits v
  stores : a.2.1.Spliced p b.2.1
  worlds : a.2.2.Spliced p b.2.2

variable {p : Splice} {σ₁ σ₂ : Store} {b b' : Workbench} {v w : Value} {args : List Value}

theorem Spliced.note (hb : b.Spliced p b') (v : Value) :
    (b.note v).Spliced p (b'.note (v.rename p.twin)) where
  builtins_eq := hb.builtins_eq
  discreet := hb.discreet
  output_eq := hb.output_eq
  notes_eq := by rw [Workbench.note, Workbench.note, hb.notes_eq, Array.map_push]
  held := hb.held.value v
  captured_eq := hb.captured_eq

theorem argument_rename (f : ScopeId → ScopeId) (args : List Value) (i : Nat) :
    (args.map (Value.rename f))[i]?.getD .null = (args[i]?.getD .null).rename f := by
  rw [List.getElem?_map]
  cases args[i]? <;> rfl

theorem admits_argument (hargs : ∀ v ∈ args, p.Admits v) (i : Nat) :
    p.Admits (args[i]?.getD .null) := by
  obtain hv | hnull := mem_or_null args i
  · exact hargs _ hv
  · rw [hnull]
    exact admits_of_isPlain trivial

theorem joined_rename (f : ScopeId → ScopeId) (args : List Value) :
    joined (args.map (Value.rename f)) = joined args := by
  simp only [joined, List.map_map, Function.comp_def, Value.text_rename]

theorem nameOf_rename (f : ScopeId → ScopeId) (v : Value) : nameOf (v.rename f) = nameOf v := by
  rw [nameOf, nameOf, Value.string?_rename]

theorem lineOf_rename (f : ScopeId → ScopeId) (v : Value) : lineOf (v.rename f) = lineOf v := by
  rw [lineOf, lineOf, Value.number?_rename]

theorem even_ok (hσ : σ₁.Spliced p σ₂) (hb : b.Spliced p b') (hv : p.Admits v) :
    Even p (.ok v, σ₁, b) (.ok (v.rename p.twin), σ₂, b') :=
  ⟨rfl, fun _ he => Except.ok.inj he ▸ hv, hσ, hb⟩

theorem even_plain (hσ : σ₁.Spliced p σ₂) (hb : b.Spliced p b') (hv : v.IsPlain) :
    Even p (.ok v, σ₁, b) (.ok v, σ₂, b') := by
  have h := even_ok hσ hb (admits_of_isPlain hv)
  rwa [hv.rename_eq] at h

theorem even_error (hσ : σ₁.Spliced p σ₂) (hb : b.Spliced p b') (e : EvalError) :
    Even p (.error e, σ₁, b) (.error e, σ₂, b') :=
  ⟨rfl, fun _ he => (by cases he), hσ, hb⟩

theorem even_assignName (hσ : σ₁.Spliced p σ₂) (hb : b.Spliced p b') (name : Value)
    (hv : p.Admits v) (s : ScopeId) :
    Even p (assignName name v s σ₁ b)
      (assignName (name.rename p.twin) (v.rename p.twin) (p.twin s) σ₂ b') := by
  rw [assignName, assignName, nameOf_rename]
  cases nameOf name with
  | error e => exact even_error hσ hb e
  | ok name =>
    have ha := hσ.assign s hv name
    dsimp only
    generalize σ₁.assign s name v = r₁ at ha
    generalize σ₂.assign (p.twin s) name (v.rename p.twin) = r₂ at ha
    cases ha with
    | ok hσ => exact even_ok hσ hb hv
    | error fault => exact even_error hσ hb _
    | excused hx => exact hx.elim

theorem even_lookup (hσ : σ₁.Spliced p σ₂) (hb : b.Spliced p b') (s : ScopeId) (name : String) :
    Even p (.ok (((σ₁.resolve s name).map BindingOf.value).getD .null), σ₁, b)
      (.ok (((σ₂.resolve (p.twin s) name).map BindingOf.value).getD .null), σ₂, b') := by
  rw [hσ.resolve_twin]
  cases hr : σ₁.resolve s name with
  | none => exact even_plain hσ hb trivial
  | some old => exact even_ok hσ hb (hσ.binds.resolve hr)

/-- A discreet native does the same on both sides. -/
theorem even_run (hσ : σ₁.Spliced p σ₂) (hb : b.Spliced p b') {builtin : Builtin}
    (hd : builtin.isDiscreet = true) (hargs : ∀ v ∈ args, p.Admits v) (env : ScopeId) :
    Even p (b.run builtin args env σ₁)
      (b'.run builtin (args.map (Value.rename p.twin)) (p.twin env) σ₂) := by
  have ha := admits_argument hargs 0
  have ha' := admits_argument hargs 1
  unfold run
  simp only [argument_rename, joined_rename, look]
  generalize args[0]?.getD .null = x at ha
  generalize args[1]?.getD .null = y at ha'
  cases builtin with
  | capture | define | defineGlobal | hasLocal | depth | localSize => cases hd
  | print => exact even_plain hσ { hb with output_eq := by rw [hb.output_eq] } trivial
  | printLine => exact even_plain hσ { hb with output_eq := by rw [hb.output_eq] } trivial
  | note => exact even_ok hσ (hb.note x) ha
  | fail => exact even_error hσ hb _
  | failAt =>
    rw [lineOf_rename, Value.text_rename]
    exact even_error hσ hb _
  | lookup =>
    rw [nameOf_rename]
    cases nameOf x with
    | error e => exact even_error hσ hb e
    | ok name => exact even_lookup hσ hb env name
  | assign => exact even_assignName hσ hb x ha' env
  | typeOf =>
    rw [Value.type_rename]
    exact even_plain hσ hb trivial
  | isTruthy =>
    rw [← (Value.alike_rename p.twin x).isTruthy_eq]
    exact even_plain hσ hb trivial
  | numberOf =>
    rw [Value.number?_rename]
    cases x.number? with
    | none => exact even_plain hσ hb trivial
    | some n => exact even_plain hσ hb trivial
  | same =>
    have hne : ∀ {v : Value}, p.Admits v → ∀ s, v.mentions s = true → s ≠ p.extra := by
      rintro v hv s hs rfl
      exact Bool.false_ne_true (hv.symm.trans hs)
    have hxy : (x.rename p.twin).same (y.rename p.twin) = x.same y :=
      Value.same_rename fun s t hs ht => twin_inj (hne ha s hs) (hne ha' t ht)
    rw [hxy]
    exact even_plain hσ hb trivial
  | identity => exact even_ok hσ hb ha
  | count =>
    rw [List.length_map]
    exact even_plain hσ hb trivial
  | makeNative =>
    rw [nameOf_rename]
    cases nameOf x with
    | error e => exact even_error hσ hb e
    | ok name =>
      simp only [newNative, hb.builtins_eq]
      refine even_plain hσ { hb with builtins_eq := rfl, discreet := fun c hc => ?_ } trivial
      rcases Array.mem_push.1 hc with hc | rfl
      · exact hb.discreet c hc
      · rfl

/-- **Discreet natives cannot tell an empty scope.** -/
theorem ignoresEmptyScopes : host.IgnoresEmptyScopes Spliced Workbench.output where
  printed_eq hb := hb.output_eq.symm
  held hb := hb.held
  call {p σ₁ σ₂} f {args} env {b b'} hσ hb hargs := by
    have h : Even p (call f args env σ₁ b)
        (call f (args.map (Value.rename p.twin)) (p.twin env) σ₂ b') := by
      rw [call, call, hb.builtins_eq]
      cases hf : b.builtins[f.number]? with
      | none => exact even_error hσ hb _
      | some builtin =>
        exact even_run hσ hb (hb.discreet builtin (Array.mem_of_getElem? hf)) hargs env
    exact ⟨h.results, h.admits, h.stores, h.worlds⟩

end Workbench

end Treewalk
