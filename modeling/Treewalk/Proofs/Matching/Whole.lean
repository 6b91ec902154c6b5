import Treewalk.Proofs.Matching.Turns
import Treewalk.Proofs.Number.Whole
import Treewalk.Proofs.Scope.Binds

/-!
# Programs and heaps with whole numbers

All numerals of a program that go without the tag may be whole numbers, and so may all numbers in
the values of a heap. This is a property of one evaluation, but it is put as a likeness that lets
nothing differ: what matches by it is the same and has the property, `Value.matches_whole_iff` and
`Store.matches_whole_iff`. So what is known of like evaluations can be used for it.
-/

namespace Treewalk

/-- Whether all numerals without the tag in a node are whole numbers. -/
inductive Node.IsWhole : Node → Prop
  | mk {n : Node}
    (numeral : ∀ raw, n.kind = .number raw false → raw.isIntegral = true)
    (children : ∀ c ∈ n.kind.children, IsWhole c) : IsWhole n

/-- Whether all numbers in a value are whole if they go without the tag, and so are all numerals in
the code of its functions. -/
structure Value.IsWhole (v : Value) : Prop where
  numbers : ∀ n, Nested (.number n) v → n.IsWhole
  code : ∀ f, Nested (.function f) v → ∀ n ∈ f.code.body, n.IsWhole

/-- Whether all values bound in a store are of whole numbers. -/
def Store.IsWhole (σ : Store) : Prop := σ.Binds Value.IsWhole

/-- Whether all objects held are of whole numbers. -/
def Held.IsWhole (h : Held) : Prop := ∀ s, ∀ v ∈ h.objectsFor s, v.IsWhole

/-- Whether a request uses whole numbers only. -/
def Request.IsWhole : Request → Prop
  | .run n => n.IsWhole
  | .eval n _ => n.IsWhole
  | .call callee args => ∀ v ∈ callee :: args, v.IsWhole
  | .root .. => True
  | .child _ => True

/-- Whether a host uses and keeps whole numbers only. -/
structure Turn.IsWhole (t : Turn) : Prop where
  request : t.request.IsWhole
  kept : ∀ v ∈ t.holding.values, v.IsWhole

/-! ## The likeness -/

theorem Node.IsWhole.child {n c : Node} (h : n.IsWhole) (hc : c ∈ n.kind.children) :
    c.IsWhole := by
  cases h with
  | mk _ children => exact children c hc

/-- A numeral is a whole number. -/
theorem Node.IsWhole.numeral {n : Node} (h : n.IsWhole) {raw : Binary64} {isFloat : Bool}
    (hn : n.kind = .number raw isFloat) : (Number.tagged raw isFloat).IsWhole := by
  refine Number.isWhole_tagged fun ht _ => ?_
  subst ht
  cases h with
  | mk numeral _ => exact numeral raw hn

/-- Nothing differs, and all numbers are whole. -/
def Likeness.whole : Likeness where
  Nodes n n' := n.IsWhole ∧ n = n'
  Lines line line' := line = line'
  Errors e e' := e = e'
  Numbers := Number.IsWhole
  Panics := False
  kind := by
    rintro n _ ⟨hn, rfl⟩
    exact NodeKind.matches_self fun c hc => ⟨hn.child hc, rfl⟩
  line := by
    rintro n _ ⟨-, rfl⟩
    rfl
  literal h hn := h.1.numeral hn
  ofCause := same.ofCause
  atLine := @same.atLine
  int := Number.isWhole_int
  negate h := h.negate
  step delta h := h.step delta
  arithmetic := Number.isWhole_arithmetic
  panics := Number.IsWhole.not_panics

/-! ## Values -/

namespace Value

variable {v w : Value}

theorem nested_of_type_ne {x : Value} (h : v.type ≠ .object) (hx : Nested x v) : x = v := by
  cases hx with
  | self => rfl
  | bound => exact (h rfl).elim

theorem isWhole_object {id : ObjectId} {t : Table Binding} :
    (object id t).IsWhole ↔ ∀ v ∈ t.values, v.IsWhole := by
  constructor
  · intro h v hv
    exact ⟨fun n hn => h.numbers n (.bound hv hn), fun f hf => h.code f (.bound hv hf)⟩
  · intro h
    constructor
    · rintro n (_ | ⟨hv, hn⟩)
      exact (h _ hv).numbers n hn
    · rintro f (_ | ⟨hv, hf⟩)
      exact (h _ hv).code f hf

theorem isWhole_of_plain (h : Likeness.whole.Plain v) : v.IsWhole := by
  have hv : v.type ≠ .object := by
    cases v <;> first | exact (show False from h.isPlain).elim | simp [type]
  constructor
  · intro n hn
    exact h.numbers n (nested_of_type_ne hv hn).symm
  · intro f hf
    obtain rfl := nested_of_type_ne hv hf
    exact (show False from h.isPlain).elim

theorem isWhole_function {f : Closure} :
    (function f).IsWhole ↔ ∀ n ∈ f.code.body, n.IsWhole := by
  have hf : (function f).type ≠ .object := by simp [type]
  constructor
  · exact fun h => h.code f .self
  · intro h
    constructor
    · intro n hn
      cases nested_of_type_ne hf hn
    · intro g hg
      cases nested_of_type_ne hf hg
      exact h

theorem closures_whole_iff {f g : Closure} :
    Likeness.whole.Closures f g ↔ (function f).IsWhole ∧ f = g := by
  obtain ⟨name, ⟨label, params, body⟩, scope⟩ := f
  obtain ⟨name', ⟨label', params', body'⟩, scope'⟩ := g
  rw [isWhole_function]
  constructor
  · rintro ⟨rfl, rfl, hc⟩
    cases hc with
    | mk h =>
      obtain ⟨hbody, heq⟩ := (List.forall₂_and_left _ _).1 h
      rw [List.forall₂_eq_eq_eq] at heq
      subst heq
      exact ⟨hbody, rfl⟩
  · rintro ⟨h, he⟩
    cases he
    exact ⟨rfl, rfl, .mk (List.forall₂_same.2 fun n hn => ⟨h n hn, rfl⟩)⟩

theorem slots_whole_iff {slots slots' : List (Slot Binding)}
    (h : ∀ v ∈ slots.filterMap Slot.value?, ∀ w, v.Matches .whole w ↔ v.IsWhole ∧ v = w) :
    List.Forall₂ (Slot.Matches (Matches .whole)) slots slots' ↔
      (∀ v ∈ slots.filterMap Slot.value?, v.IsWhole) ∧ slots = slots' := by
  constructor
  · intro hs
    induction hs with
    | nil => exact ⟨by simp, rfl⟩
    | cons hs _ ih =>
      cases hs with
      | empty | tombstone =>
        obtain ⟨hw, rfl⟩ := ih h
        exact ⟨hw, rfl⟩
      | @occupied key name isConst v w hvw =>
        obtain ⟨hw, rfl⟩ := ih fun v hm => h v (List.mem_cons_of_mem _ hm)
        obtain ⟨hv, rfl⟩ : v.IsWhole ∧ v = w := (h v List.mem_cons_self w).1 hvw
        exact ⟨List.forall_mem_cons.2 ⟨hv, hw⟩, rfl⟩
  · rintro ⟨hw, rfl⟩
    refine List.forall₂_same.2 fun slot hm => ?_
    cases slot with
    | empty => exact .empty
    | tombstone => exact .tombstone
    | occupied key b =>
      obtain ⟨name, isConst, v⟩ := b
      have hv : v ∈ slots.filterMap Slot.value? := List.mem_filterMap.2 ⟨_, hm, rfl⟩
      exact .occupied key name isConst ((h v hv v).2 ⟨hw v hv, rfl⟩)

/-- What matches a value with whole numbers is the value. -/
theorem matches_whole_iff : v.Matches .whole w ↔ v.IsWhole ∧ v = w := by
  induction v using Value.induction generalizing w with
  | leaf v hv =>
    constructor
    · intro h
      cases h with
      | plain h => exact ⟨isWhole_of_plain h, rfl⟩
      | function h =>
        obtain ⟨hf, rfl⟩ := closures_whole_iff.1 h
        exact ⟨hf, rfl⟩
      | object => exact (hv rfl).elim
    · rintro ⟨h, rfl⟩
      cases v with
      | object => exact (hv rfl).elim
      | function f => exact .function (closures_whole_iff.2 ⟨h, rfl⟩)
      | number n => exact .plain (.number (h.numbers n .self))
      | _ => exact .plain ⟨trivial, fun _ hn => by cases hn⟩
  | object id t ih =>
    have hslots : ∀ slots', List.Forall₂ (Slot.Matches (Matches .whole)) t.slots.toList slots' ↔
        (∀ v ∈ t.slots.toList.filterMap Slot.value?, v.IsWhole) ∧ t.slots.toList = slots' :=
      fun _ => slots_whole_iff fun v hv _ => ih v hv
    rw [isWhole_object]
    constructor
    · intro h
      obtain ⟨u, rfl, htu⟩ := h.exists_of_object
      obtain ⟨hw, he⟩ := (hslots u.slots.toList).1 htu.slots
      have hcount : t.count = u.count := htu.count_eq
      obtain ⟨⟨slots⟩, count⟩ := t
      obtain ⟨⟨slots'⟩, count'⟩ := u
      cases he
      cases hcount
      exact ⟨hw, rfl⟩
    · rintro ⟨hw, rfl⟩
      exact Matches.object_iff.2 ⟨rfl, (hslots t.slots.toList).2 ⟨hw, rfl⟩, rfl⟩

/-- Lists of values that match one by one. -/
theorem forall₂_whole_iff {vs ws : List Value} :
    List.Forall₂ (Matches .whole) vs ws ↔ (∀ v ∈ vs, v.IsWhole) ∧ vs = ws := by
  have he : Matches .whole = fun v w => v.IsWhole ∧ v = w := by
    funext v w
    exact propext matches_whole_iff
  rw [he, List.forall₂_and_left, List.forall₂_eq_eq_eq]

end Value

/-! ## Stores and handles -/

theorem Table.matches_whole_iff {t u : Table Binding} :
    t.Matches .whole u ↔ (∀ v ∈ t.values, v.IsWhole) ∧ t = u := by
  have hslots : List.Forall₂ (Slot.Matches (Value.Matches .whole)) t.slots.toList u.slots.toList ↔
      (∀ v ∈ t.values, v.IsWhole) ∧ t.slots.toList = u.slots.toList :=
    Value.slots_whole_iff fun v _ w => Value.matches_whole_iff
  constructor
  · rintro ⟨h, hcount⟩
    obtain ⟨hw, he⟩ := hslots.1 h
    exact ⟨hw, congrArg₂ Table.mk (Array.toList_inj.1 he) hcount⟩
  · rintro ⟨hw, rfl⟩
    exact ⟨hslots.2 ⟨hw, rfl⟩, rfl⟩

theorem Scope.matches_whole_iff {a b : Scope} :
    a.Matches .whole b ↔ (∀ v ∈ a.bindings.values, v.IsWhole) ∧ a = b := by
  constructor
  · rintro ⟨ht, hp, hc, hd⟩
    obtain ⟨hw, ht⟩ := Table.matches_whole_iff.1 ht
    cases a
    cases b
    cases ht
    cases hp
    cases hc
    cases hd
    exact ⟨hw, rfl⟩
  · rintro ⟨hw, rfl⟩
    exact ⟨Table.matches_whole_iff.2 ⟨hw, rfl⟩, rfl, rfl, rfl⟩

/-- What matches a store with whole numbers is the store. -/
theorem Store.matches_whole_iff {σ σ' : Store} :
    σ.Matches .whole σ' ↔ σ.IsWhole ∧ σ = σ' := by
  constructor
  · intro h
    refine ⟨fun s => (Table.matches_whole_iff.1 (h.bindings s)).1, ?_⟩
    have hscopes : σ.scopes = σ'.scopes := Array.ext_getElem? fun i => by
      have hi := h.scopes i
      generalize σ.scopes[i]? = a at hi
      generalize σ'.scopes[i]? = b at hi
      cases hi with
      | none => rfl
      | some hi => rw [(Scope.matches_whole_iff.1 hi).2]
    obtain ⟨scopes, nextObject, holders, noted⟩ := σ
    obtain ⟨scopes', nextObject', holders', noted'⟩ := σ'
    obtain rfl : scopes = scopes' := hscopes
    obtain rfl : nextObject = nextObject' := h.nextObject_eq
    obtain rfl : holders = holders' := h.holders_eq
    rfl
  · rintro ⟨h, rfl⟩
    refine ⟨fun i => ?_, rfl, rfl⟩
    cases hi : σ.scopes[i]? with
    | none => exact .none
    | some scope =>
      have hb := h ⟨i⟩
      rw [Store.bindings, hi] at hb
      exact .some (Scope.matches_whole_iff.2 ⟨hb, rfl⟩)

theorem Held.IsWhole.matches {h : Held} (hh : h.IsWhole) : h.Matches .whole h :=
  ⟨fun _ => rfl, fun s => Value.forall₂_whole_iff.2 ⟨hh s, rfl⟩⟩

theorem Turn.IsWhole.matches {t : Turn} (h : t.IsWhole) : t.Matches .whole t := by
  refine ⟨rfl, ⟨rfl, Value.forall₂_whole_iff.2 ⟨h.kept, rfl⟩⟩, ?_⟩
  have hr := h.request
  generalize t.request = r at hr
  cases r with
  | run n => exact .run (show Likeness.whole.Nodes n n from ⟨hr, rfl⟩)
  | eval n env => exact .eval (show Likeness.whole.Nodes n n from ⟨hr, rfl⟩) env
  | call callee args =>
    obtain ⟨hc, ha⟩ := List.forall_mem_cons.1 hr
    exact .call (Value.matches_whole_iff.2 ⟨hc, rfl⟩) (Value.forall₂_whole_iff.2 ⟨ha, rfl⟩)
  | root capacity childCapacity => exact .root capacity childCapacity
  | child parent => exact .child parent

end Treewalk
