import Treewalk.Proofs.Matching.Turns
import Treewalk.Proofs.Workbench.Effects

/-!
# Natives of the workbench see no code

The natives of the workbench see the texts, the types and the equality of values, and none of these
depends on the code in functions but for its label. So they keep to every likeness that lets a line
be like itself: `Workbench.respects`.
-/

namespace Treewalk

variable {L : Likeness} {v w v' w' : Value}

/-! ## What natives see of values -/

namespace Value

variable {slots slots' : List (Slot Binding)} {t u : Table Binding}

theorem slotTexts_eq (hs : List.Forall₂ (Slot.Matches (Matches L)) slots slots')
    (hv : ∀ v ∈ slots.filterMap Slot.value?, ∀ {w : Value}, v.Matches L w → v.text = w.text) :
    slotTexts slots = slotTexts slots' := by
  induction hs with
  | nil => rfl
  | cons h _ ih =>
    cases h with
    | empty | tombstone => exact ih hv
    | occupied key name isConst hvw =>
      simp only [slotTexts, hv _ List.mem_cons_self hvw,
        ih fun v hm => hv v (List.mem_cons_of_mem _ hm)]

/-- Slots are compared with a table by look-ups, which find matching bindings on both sides. -/
theorem sameSlots_eq (hs : List.Forall₂ (Slot.Matches (Matches L)) slots slots')
    (hv : ∀ v ∈ slots.filterMap Slot.value?, ∀ {w v' w' : Value}, v.Matches L w →
      v'.Matches L w' → v.same v' = w.same w') (htu : t.Matches L u) :
    sameSlots slots t = sameSlots slots' u := by
  induction hs with
  | nil => rfl
  | cons h _ ih =>
    cases h with
    | empty | tombstone => exact ih hv
    | @occupied key name isConst v w hvw =>
      have hb := htu.get? key
      rw [sameSlots, sameSlots, ih fun v hm => hv v (List.mem_cons_of_mem _ hm)]
      generalize t.get? key = b at hb
      generalize u.get? key = c at hb
      cases hb with
      | none => rfl
      | some hb =>
        simp only [Option.any_some, hb.name, hb.isConst, hv v List.mem_cons_self hvw hb.value]

end Value

namespace Value.Matches

theorem text_eq (h : v.Matches L w) : v.text = w.text := by
  induction v using Value.induction generalizing w with
  | leaf v hv =>
    cases h with
    | plain => rfl
    | function h => exact congrArg (fun name => "[Function " ++ name ++ "]") h.name
    | object => exact (hv rfl).elim
  | object id t ih =>
    obtain ⟨u, rfl, htu⟩ := h.exists_of_object
    have hcount : t.count = u.count := htu.count_eq
    obtain ⟨⟨slots⟩, count⟩ := t
    obtain ⟨⟨slots'⟩, count'⟩ := u
    obtain rfl : count = count' := hcount
    unfold text
    rw [slotTexts_eq htu.slots ih]

/-- Values are equal on both sides or on none. -/
theorem same_eq (h : v.Matches L w) (h' : v'.Matches L w') : v.same v' = w.same w' := by
  induction v using Value.induction generalizing w v' w' with
  | leaf v hv =>
    cases h with
    | object => exact (hv rfl).elim
    | plain h =>
      cases h' with
      | plain => rfl
      | function | object => cases v <;> first | rfl | exact h.isPlain.elim
    | function h =>
      cases h' with
      | @plain v' h' => cases v' <;> first | rfl | exact h'.isPlain.elim
      | object => rfl
      | function h' =>
        simp only [same, Closure.same, h.name, h'.name, h.scope, h'.scope, h.code.label_eq,
          h'.code.label_eq]
  | object id t ih =>
    obtain ⟨u, rfl, htu⟩ := h.exists_of_object
    cases h' with
    | @plain v' h' => cases v' <;> first | rfl | exact h'.isPlain.elim
    | function => rfl
    | @object id' n slots slots' h' =>
      have hother : Table.Matches L ⟨⟨slots⟩, n⟩ ⟨⟨slots'⟩, n⟩ := ⟨h', rfl⟩
      have hcount : t.count = u.count := htu.count_eq
      obtain ⟨⟨slots⟩, count⟩ := t
      obtain ⟨⟨slots'⟩, count'⟩ := u
      obtain rfl : count = count' := hcount
      simp only [same, Table.size, sameSlots_eq htu.slots ih hother]

/-- Arithmetic takes both values for the same number. -/
theorem number?_eq (h : v.Matches L w) : v.number? = w.number? := by cases h <;> rfl

theorem string?_eq (h : v.Matches L w) : v.string? = w.string? := by cases h <;> rfl

/-- The number that a value is taken for matches itself. -/
theorem ofNumber? (h : v.Matches L w) :
    Value.Matches L ((v.number?.map .number).getD .null) ((w.number?.map .number).getD .null) := by
  rw [← h.number?_eq]
  cases h with
  | plain h =>
    cases v with
    | number n => exact .plain h
    | bool b => exact .plain (.int _)
    | _ => exact .plain .null
  | function | object => exact .plain .null

end Value.Matches

namespace Workbench

/-- Workbenches that have printed the same, with values noted that match. -/
structure Matches (L : Likeness) (w w' : Workbench) : Prop where
  builtins_eq : w.builtins = w'.builtins
  output_eq : w.output = w'.output
  notes : List.Forall₂ (Value.Matches L) w.notes.toList w'.notes.toList
  held : w.held.Matches L w'.held
  captured_eq : w.captured = w'.captured

/-- What a native of the workbench does on both sides. -/
structure Alike (L : Likeness) (a b : Except EvalError Value × Store × Workbench) : Prop where
  results : L.Results a.1 b.1
  stores : a.2.1.Matches L b.2.1
  worlds : a.2.2.Matches L b.2.2

theorem matches_ofSink (sink : Sink) : Matches L (.ofSink sink) (.ofSink sink) :=
  ⟨rfl, rfl, .nil, .empty, rfl⟩

section

variable {σ₁ σ₂ : Store} {b b' : Workbench} {args args' : List Value} {e : EvalError}

theorem Matches.note (hb : b.Matches L b') (hv : v.Matches L w) :
    (b.note v).Matches L (b'.note w) where
  builtins_eq := hb.builtins_eq
  output_eq := hb.output_eq
  notes := by
    simp only [Workbench.note, Array.toList_push]
    exact List.rel_append hb.notes (.cons hv .nil)
  held := hb.held.value hv
  captured_eq := hb.captured_eq

theorem argument (hargs : List.Forall₂ (Value.Matches L) args args') (i : Nat) :
    Value.Matches L (args[i]?.getD .null) (args'[i]?.getD .null) := by
  induction hargs generalizing i with
  | nil => exact .plain .null
  | cons hv _ ih =>
    cases i with
    | zero => exact hv
    | succ i => exact ih i

theorem joined_eq (hargs : List.Forall₂ (Value.Matches L) args args') :
    joined args = joined args' := by
  rw [joined, joined, map_eq_of_forall₂ hargs fun _ _ _ hv => hv.text_eq]

theorem nameOf_eq (hv : v.Matches L w) : nameOf v = nameOf w := by
  rw [nameOf, nameOf, hv.string?_eq]

theorem lineOf_eq (hv : v.Matches L w) : lineOf v = lineOf w := by
  rw [lineOf, lineOf, hv.number?_eq]

theorem alike_failure (hσ : σ₁.Matches L σ₂) (hb : b.Matches L b') (message : String) :
    Alike L (.error (failure message), σ₁, b) (.error (failure message), σ₂, b') :=
  ⟨.error (L.ofCause _), hσ, hb⟩

theorem alike_ok (hσ : σ₁.Matches L σ₂) (hb : b.Matches L b') (hv : v.Matches L w) :
    Alike L (.ok v, σ₁, b) (.ok w, σ₂, b') :=
  ⟨.ok hv, hσ, hb⟩

theorem alike_plain (hσ : σ₁.Matches L σ₂) (hb : b.Matches L b') (hv : L.Plain v) :
    Alike L (.ok v, σ₁, b) (.ok v, σ₂, b') :=
  alike_ok hσ hb (.plain hv)

theorem failure_of_nameOf (h : nameOf v = .error e) : ∃ message, e = failure message := by
  rw [nameOf] at h
  split at h <;> cases h
  exact ⟨_, rfl⟩

theorem alike_bindName (hσ : σ₁.Matches L σ₂) (hb : b.Matches L b') (hn : v'.Matches L w')
    (hv : v.Matches L w) (isConst : Bool) (s : ScopeId) :
    Alike L (bindName v' v isConst s σ₁ b) (bindName w' w isConst s σ₂ b') := by
  rw [bindName, bindName, nameOf_eq hn]
  cases hname : nameOf w' with
  | error e =>
    obtain ⟨message, rfl⟩ := failure_of_nameOf hname
    exact alike_failure hσ hb message
  | ok name =>
    have hd := hσ.declare hv s name isConst
    dsimp only
    generalize σ₁.declare s name v isConst = p at hd
    generalize σ₂.declare s name w isConst = q at hd
    cases hd with
    | ok hσ => exact alike_ok hσ hb hv
    | error cause => exact ⟨.error (L.ofCause cause), hσ, hb⟩
    | excused hx => exact hx.elim

theorem alike_assignName (hσ : σ₁.Matches L σ₂) (hb : b.Matches L b') (hn : v'.Matches L w')
    (hv : v.Matches L w) (s : ScopeId) :
    Alike L (assignName v' v s σ₁ b) (assignName w' w s σ₂ b') := by
  rw [assignName, assignName, nameOf_eq hn]
  cases hname : nameOf w' with
  | error e =>
    obtain ⟨message, rfl⟩ := failure_of_nameOf hname
    exact alike_failure hσ hb message
  | ok name =>
    have ha := hσ.assign hv s name
    dsimp only
    generalize σ₁.assign s name v = p at ha
    generalize σ₂.assign s name w = q at ha
    cases ha with
    | ok hσ => exact alike_ok hσ hb hv
    | error fault => exact ⟨.error (L.ofCause _), hσ, hb⟩
    | excused hx => exact hx.elim

/-- A native does the same on both sides. -/
theorem alike_run (hlines : ∀ line, L.Lines line line) (hσ : σ₁.Matches L σ₂)
    (hb : b.Matches L b') (builtin : Builtin)
    (hargs : List.Forall₂ (Value.Matches L) args args') (env : ScopeId) :
    Alike L (b.run builtin args env σ₁) (b'.run builtin args' env σ₂) := by
  have ha := argument hargs 0
  have ha' := argument hargs 1
  cases builtin with
  | print =>
    dsimp only [run]
    rw [joined_eq hargs, hb.output_eq]
    exact alike_plain hσ { hb with output_eq := rfl } .null
  | printLine =>
    dsimp only [run]
    rw [joined_eq hargs, hb.output_eq]
    exact alike_plain hσ { hb with output_eq := rfl } .null
  | note => exact alike_ok hσ (hb.note ha) ha
  | capture =>
    dsimp only [run]
    rw [hb.captured_eq]
    exact alike_plain hσ { hb with captured_eq := rfl } .null
  | fail =>
    dsimp only [run, look]
    rw [joined_eq hargs]
    exact alike_failure hσ hb _
  | failAt =>
    dsimp only [run, look]
    rw [lineOf_eq ha, ha'.text_eq]
    exact ⟨.error (L.atLine (L.ofCause _) (hlines _)), hσ, hb⟩
  | define isConst => exact alike_bindName hσ hb ha ha' isConst env
  | defineGlobal =>
    dsimp only [run]
    rw [Store.global, Store.global, hσ.chain_eq]
    exact alike_bindName hσ hb ha ha' false _
  | lookup =>
    dsimp only [run, look]
    rw [nameOf_eq ha]
    cases hname : nameOf (args'[0]?.getD .null) with
    | error e =>
      obtain ⟨message, rfl⟩ := failure_of_nameOf hname
      exact alike_failure hσ hb message
    | ok name =>
      have hr := hσ.resolve env name
      dsimp only [Except.map]
      generalize σ₁.resolve env name = p at hr
      generalize σ₂.resolve env name = q at hr
      cases hr with
      | none => exact alike_plain hσ hb .null
      | some hr => exact alike_ok hσ hb hr.value
  | assign => exact alike_assignName hσ hb ha ha' env
  | hasLocal =>
    dsimp only [run, look]
    rw [nameOf_eq ha]
    simp only [(hσ.bindings env).contains_eq]
    cases hname : nameOf (args'[0]?.getD .null) with
    | error e =>
      obtain ⟨message, rfl⟩ := failure_of_nameOf hname
      exact alike_failure hσ hb message
    | ok name => exact alike_plain hσ hb (.bool _)
  | depth =>
    dsimp only [run, look]
    rw [Store.depth, Store.depth, hσ.chain_eq]
    exact alike_plain hσ hb (.int _)
  | localSize =>
    dsimp only [run, look]
    rw [Table.size, Table.size, (hσ.bindings env).count_eq]
    exact alike_plain hσ hb (.int _)
  | typeOf =>
    dsimp only [run, look]
    rw [ha.type_eq]
    exact alike_plain hσ hb (.string _)
  | isTruthy =>
    dsimp only [run, look]
    rw [ha.alike.isTruthy_eq]
    exact alike_plain hσ hb (.bool _)
  | numberOf => exact alike_ok hσ hb ha.ofNumber?
  | same =>
    dsimp only [run, look]
    rw [ha.same_eq ha']
    exact alike_plain hσ hb (.bool _)
  | identity => exact alike_ok hσ hb ha
  | count =>
    dsimp only [run, look]
    rw [hargs.length_eq]
    exact alike_plain hσ hb (.int _)
  | makeNative =>
    dsimp only [run]
    rw [nameOf_eq ha]
    cases hname : nameOf (args'[0]?.getD .null) with
    | error e =>
      obtain ⟨message, rfl⟩ := failure_of_nameOf hname
      exact alike_failure hσ hb message
    | ok name =>
      simp only [newNative, hb.builtins_eq]
      exact alike_plain hσ { hb with builtins_eq := rfl } ⟨trivial, fun _ h => by cases h⟩

/-- **The natives of the workbench keep to every likeness** in which a line is like itself. -/
theorem respects (hlines : ∀ line, L.Lines line line) : host.Respects L (Matches L) where
  held hb := hb.held
  call {σ₁ σ₂} f {args args'} env {b b'} hargs hσ hb := by
    have h : Alike L (call f args env σ₁ b) (call f args' env σ₂ b') := by
      rw [call, call, hb.builtins_eq]
      split
      · exact alike_run hlines hσ hb _ hargs env
      · exact alike_failure hσ hb _
    exact ⟨h.results, h.stores, h.worlds⟩

end

end Workbench

end Treewalk
