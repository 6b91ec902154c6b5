import Treewalk.Proofs.Scope.Places
import Treewalk.Proofs.Simulation.Likeness
import Treewalk.Proofs.Value.Copy

/-!
# Values of two like evaluations

Values match if they are the same up to what a likeness lets differ: objects with one identity and
matching slots, functions whose code matches, and otherwise the same plain value. Tables match slot
by slot, so that a search takes the same course in both.

* `Table.Matches.find?_eq`, `Table.Matches.place?_eq`: searches end at the same slot.
* `Table.Matches.write`: a write of matching values on both sides.
* `Value.Matches.scopes_eq`, `Value.Matches.copy`, `Value.Matches.captures_eq`: the functions on
  values that go through objects.
-/

namespace Treewalk

/-- Slots that are both live, under one key and with related values, or both not live and alike. -/
inductive Slot.Matches (R : Value → Value → Prop) : Slot Binding → Slot Binding → Prop
  | empty : Matches R .empty .empty
  | tombstone : Matches R .tombstone .tombstone
  | occupied (key name : String) (isConst : Bool) {v w : Value} (h : R v w) :
    Matches R (.occupied key ⟨name, isConst, v⟩) (.occupied key ⟨name, isConst, w⟩)

/-- Values that are the same up to what a likeness lets differ. -/
inductive Value.Matches (L : Likeness) : Value → Value → Prop
  | plain {v : Value} (h : L.Plain v) : Matches L v v
  | function {f g : Closure} (h : L.Closures f g) : Matches L (.function f) (.function g)
  | object (id : ObjectId) (count : Nat) {slots slots' : List (Slot Binding)}
    (h : List.Forall₂ (Slot.Matches (Matches L)) slots slots') :
    Matches L (.object id ⟨⟨slots⟩, count⟩) (.object id ⟨⟨slots'⟩, count⟩)

/-- Tables whose slots match one by one, with the same count. -/
structure Table.Matches (L : Likeness) (t u : Table Binding) : Prop where
  slots : List.Forall₂ (Slot.Matches (Value.Matches L)) t.slots.toList u.slots.toList
  count_eq : t.count = u.count

/-- Bindings of one name, equally constant, with values that match. -/
structure BindingOf.Matches (L : Likeness) (b c : Binding) : Prop where
  name : b.name = c.name
  isConst : b.isConst = c.isConst
  value : b.value.Matches L c.value

/-- A function of the members of related lists that is the same for members that are related. -/
theorem map_eq_of_forall₂ {α β γ : Type} {R : α → β → Prop} {f : α → γ} {g : β → γ} {as : List α}
    {bs : List β} (h : List.Forall₂ R as bs) (hfg : ∀ a ∈ as, ∀ b, R a b → f a = g b) :
    as.map f = bs.map g := by
  induction h with
  | nil => rfl
  | cons hab _ ih =>
    rw [List.map_cons, List.map_cons, hfg _ List.mem_cons_self _ hab,
      ih fun a hm => hfg a (List.mem_cons_of_mem _ hm)]

variable {L : Likeness} {v w : Value}

/-! ## Tables -/

namespace Slot.Matches

variable {R : Value → Value → Prop} {slot slot' : Slot Binding}

theorem isOccupied_eq (h : slot.Matches R slot') : slot.isOccupied = slot'.isOccupied := by
  cases h <;> rfl

theorem askKey_eq (h : slot.Matches R slot') (key : String) (i : Nat) :
    Table.askKey key i slot = Table.askKey key i slot' := by
  cases h <;> rfl

theorem value? (h : slot.Matches R slot') : Option.Rel R slot.value? slot'.value? := by
  cases h with
  | empty | tombstone => exact .none
  | occupied key name isConst hv => exact .some hv

end Slot.Matches

namespace Table.Matches

variable {t u : Table Binding}

theorem withCapacity (n : Nat) : (Table.withCapacity n).Matches L (Table.withCapacity n) where
  slots := List.forall₂_same.2 fun slot hs => by
    rw [Table.withCapacity, Array.toList_replicate] at hs
    rw [List.eq_of_mem_replicate hs]
    exact .empty
  count_eq := rfl

theorem capacity_eq (h : t.Matches L u) : t.capacity = u.capacity := by
  have hlen := h.slots.length_eq
  rwa [Array.length_toList, Array.length_toList] at hlen

/-- The slots of one index. -/
theorem slot (h : t.Matches L u) (i : Nat) :
    (t.slot i).Matches (Value.Matches L) (u.slot i) := by
  have hc : t.slots.size = u.slots.size := h.capacity_eq
  rw [Table.slot, Table.slot, Array.getD_eq_getD_getElem?, Array.getD_eq_getD_getElem?]
  by_cases hi : i < t.slots.size
  · have hi' : i < u.slots.size := hc ▸ hi
    rw [Array.getElem?_eq_getElem hi, Array.getElem?_eq_getElem hi']
    exact (List.forall₂_iff_get.1 h.slots).2 i hi hi'
  · have hi' : ¬i < u.slots.size := hc ▸ hi
    rw [Array.getElem?_eq_none (Nat.le_of_not_lt hi), Array.getElem?_eq_none (Nat.le_of_not_lt hi')]
    exact .empty

/-- Searches for a key end at the same slot. -/
theorem find?_eq (h : t.Matches L u) (key : String) : t.find? key = u.find? key :=
  find?_congr h.capacity_eq fun i => (h.slot i).askKey_eq key i

theorem contains_eq (h : t.Matches L u) (key : String) : t.contains key = u.contains key := by
  rw [contains, contains, h.find?_eq]

theorem values (h : t.Matches L u) : List.Forall₂ (Value.Matches L) t.values u.values :=
  List.rel_filterMap (fun _ _ hs => hs.value?) h.slots

theorem isFull_eq (h : t.Matches L u) : t.isFull = u.isFull := by
  rw [isFull, isFull, h.capacity_eq, h.count_eq]

/-- A key is set in the same slot, if it can be set. -/
theorem place?_eq (h : t.Matches L u) (key : String) : t.place? key = u.place? key := by
  have hoccupied : ∀ i, (t.slot i).isOccupied = (u.slot i).isOccupied :=
    fun i => (h.slot i).isOccupied_eq
  have hfree : t.free? key = u.free? key := Option.ext fun i => by
    rw [free?_eq_some_iff, free?_eq_some_iff, h.capacity_eq]
    simp only [hoccupied]
  rw [place?, place?, h.isFull_eq, h.find?_eq, hfree]

/-- A live key is found in the same slot, with a binding that matches. -/
theorem locate? (h : t.Matches L u) (key : String) :
    Option.Rel (fun p q => p.1 = q.1 ∧ p.2.Matches L q.2) (t.locate? key) (u.locate? key) := by
  rw [Table.locate?, Table.locate?, h.find?_eq]
  cases u.find? key with
  | none => exact .none
  | some i =>
    have hs := h.slot i
    simp only [Option.bind_eq_bind, Option.bind_some]
    generalize t.slot i = s at hs
    generalize u.slot i = s' at hs
    cases hs with
    | empty | tombstone => exact .none
    | occupied key name isConst hv => exact .some ⟨rfl, rfl, rfl, hv⟩

theorem get? (h : t.Matches L u) (key : String) :
    Option.Rel (BindingOf.Matches L) (t.get? key) (u.get? key) := by
  have hl := h.locate? key
  rw [Table.get?, Table.get?]
  generalize t.locate? key = p at hl
  generalize u.locate? key = q at hl
  cases hl with
  | none => exact .none
  | some hb => exact .some hb.2

/-- A write of matching bindings into one slot on both sides. -/
theorem write (h : t.Matches L u) {b c : Binding} (hbc : b.Matches L c) (p : SetOutcome × Nat)
    (key : String) : (t.write p key b).Matches L (u.write p key c) where
  slots := by
    obtain ⟨name, isConst, v⟩ := b
    obtain ⟨name', isConst', w⟩ := c
    obtain ⟨rfl, rfl, hvw⟩ := hbc
    obtain ⟨hlen, hslots⟩ := List.forall₂_iff_get.1 h.slots
    rw [slots_write, slots_write, Table.put, Table.put, Array.toList_setIfInBounds,
      Array.toList_setIfInBounds]
    refine List.forall₂_iff_get.2 ⟨by simpa using hlen, fun j hj hj' => ?_⟩
    rw [List.length_set] at hj hj'
    simp only [List.get_eq_getElem, List.getElem_set]
    split
    · exact .occupied key _ _ hvw
    · exact hslots j hj hj'
  count_eq := by
    rw [Table.write, Table.write, h.capacity_eq]
    split
    · exact congrArg p.1.recount h.count_eq
    · exact h.count_eq

end Table.Matches

/-! ## Values -/

namespace Value.Matches

theorem object_iff {i j : ObjectId} {t u : Table Binding} :
    Value.Matches L (.object i t) (.object j u) ↔ i = j ∧ t.Matches L u := by
  constructor
  · intro h
    cases h with
    | plain h => exact h.isPlain.elim
    | object _ count h => exact ⟨rfl, h, rfl⟩
  · rintro ⟨rfl, h, hcount⟩
    obtain ⟨⟨slots⟩, count⟩ := t
    obtain ⟨⟨slots'⟩, count'⟩ := u
    obtain rfl : count = count' := hcount
    exact .object i count h

theorem alike (h : v.Matches L w) : v.Alike L w := by
  cases h with
  | plain h => exact .plain h
  | function h => exact .functions h.name h.code
  | object id count h => exact .objects id id _ _

theorem closures {f g : Closure} (h : Value.Matches L (.function f) (.function g)) :
    L.Closures f g := by
  cases h with
  | plain h => exact h.isPlain.elim
  | function h => exact h

theorem type_eq (h : v.Matches L w) : v.type = w.type := h.alike.type_eq

/-- A value that is no object matches one that is no object. -/
theorem of_type_ne (h : v.Matches L w) (hv : v.type ≠ .object) : w.type ≠ .object :=
  h.type_eq ▸ hv

/-- What matches an object is an object. -/
theorem exists_of_object {id : ObjectId} {t : Table Binding} (h : Matches L (.object id t) w) :
    ∃ u, w = .object id u ∧ t.Matches L u := by
  cases w with
  | object j u =>
    obtain ⟨rfl, htu⟩ := object_iff.1 h
    exact ⟨u, rfl, htu⟩
  | _ => cases h.type_eq

theorem scope?_eq (h : v.Matches L w) : v.scope? = w.scope? := by
  cases h with
  | plain => rfl
  | function h => exact congrArg some h.scope
  | object => rfl

theorem objectId?_eq (h : v.Matches L w) : v.objectId? = w.objectId? := by
  cases h <;> rfl

theorem scopes_eq (h : v.Matches L w) : v.scopes = w.scopes := by
  induction v using Value.induction generalizing w with
  | leaf v hv =>
    cases h with
    | plain => rfl
    | function h => exact congrArg (fun s => [s]) h.scope
    | object => exact (hv rfl).elim
  | object id t ih =>
    obtain ⟨u, rfl, htu⟩ := h.exists_of_object
    rw [scopes_object, scopes_object, List.flatMap_def, List.flatMap_def,
      map_eq_of_forall₂ htu.values fun v hv w hvw => ih v hv hvw]

theorem mentions_eq (h : v.Matches L w) (s : ScopeId) : v.mentions s = w.mentions s := by
  rw [mentions, mentions, h.scopes_eq]

/-- The handles captured are as many on both sides. -/
theorem captures_eq (h : v.Matches L w) (s : ScopeId) (owned : ObjectId → Bool) :
    v.captures s owned = w.captures s owned := by
  induction v using Value.induction generalizing w with
  | leaf v hv =>
    cases h with
    | plain => rfl
    | function h => rw [captures, captures, h.scope]
    | object => exact (hv rfl).elim
  | object id t ih =>
    obtain ⟨u, rfl, htu⟩ := h.exists_of_object
    rw [captures_object, captures_object, sumOf, sumOf,
      map_eq_of_forall₂ htu.values fun v hv w hvw => ih v hv hvw]

end Value.Matches

/-! ## Copies -/

/-- Copies of matching slots match, and use up as many numbers. -/
theorem CopiedSlots.matches {slots slots' copies copies' : List (Slot Binding)} {n m m' : Nat}
    (h : List.Forall₂ (Slot.Matches (Value.Matches L)) slots slots')
    (hv : ∀ v ∈ slots.filterMap Slot.value?, ∀ w n, v.Matches L w →
      (v.copy n).2 = (w.copy n).2 ∧ (v.copy n).1.Matches L (w.copy n).1)
    (hc : CopiedSlots slots n copies m) (hc' : CopiedSlots slots' n copies' m') :
    m = m' ∧ List.Forall₂ (Slot.Matches (Value.Matches L)) copies copies' := by
  induction h generalizing n copies copies' m m' with
  | nil =>
    cases hc
    cases hc'
    exact ⟨rfl, .nil⟩
  | cons hs _ ih =>
    cases hs with
    | empty =>
      cases hc with
      | empty hc =>
        cases hc' with
        | empty hc' =>
          obtain ⟨hm, hr⟩ := ih hv hc hc'
          exact ⟨hm, .cons .empty hr⟩
    | tombstone =>
      cases hc with
      | tombstone hc =>
        cases hc' with
        | tombstone hc' =>
          obtain ⟨hm, hr⟩ := ih hv hc hc'
          exact ⟨hm, .cons .tombstone hr⟩
    | @occupied key name isConst v w hvw =>
      cases hc with
      | occupied _ _ hc =>
        cases hc' with
        | occupied _ _ hc' =>
          obtain ⟨hn, hcopy⟩ := hv v List.mem_cons_self w n hvw
          dsimp only at hc hc'
          rw [← hn] at hc'
          obtain ⟨hm, hr⟩ := ih (fun v hm => hv v (List.mem_cons_of_mem _ hm)) hc hc'
          exact ⟨hm, .cons (.occupied key name isConst hcopy) hr⟩

/-- Copies of matching values match, and use up as many numbers. -/
theorem Value.Matches.copy (h : v.Matches L w) (n : Nat) :
    (v.copy n).2 = (w.copy n).2 ∧ (v.copy n).1.Matches L (w.copy n).1 := by
  induction v using Value.induction generalizing w n with
  | leaf v hv =>
    rw [copy_leaf hv, copy_leaf (h.of_type_ne hv)]
    exact ⟨rfl, h⟩
  | object id t ih =>
    obtain ⟨u, rfl, htu⟩ := h.exists_of_object
    obtain ⟨t', m, hc, he⟩ := copy_object id t n
    obtain ⟨u', m', hc', he'⟩ := copy_object id u n
    obtain ⟨rfl, hr⟩ :=
      CopiedSlots.matches htu.slots (fun v hv w n hvw => ih v hv hvw n) hc.slots hc'.slots
    have hcount : t'.count = u'.count := hc.count_eq.trans (htu.count_eq.trans hc'.count_eq.symm)
    rw [he, he']
    exact ⟨rfl, object_iff.2 ⟨rfl, hr, hcount⟩⟩

/-! ## Places -/

/-- Places that match, with the same objects searched. -/
structure Places.Matches (L : Likeness) (p q : Places) : Prop where
  values : List.Forall₂ (Value.Matches L) p.values q.values
  searched : p.searched = q.searched

theorem Places.Matches.foldl {vs ws : List Value} (hvs : List.Forall₂ (Value.Matches L) vs ws)
    (hadd : ∀ v ∈ vs, ∀ w p q, v.Matches L w → Places.Matches L p q →
      Places.Matches L (p.add v) (q.add w)) {p q : Places} (h : p.Matches L q) :
    Places.Matches L (vs.foldl Places.add p) (ws.foldl Places.add q) := by
  induction hvs generalizing p q with
  | nil => exact h
  | @cons v w vs ws hv _ ih =>
    exact ih (fun v hm => hadd v (List.mem_cons_of_mem _ hm)) (hadd v List.mem_cons_self w p q hv h)

/-- Matching values taken on both sides. -/
theorem Places.Matches.add {p q : Places} (h : p.Matches L q) (hvw : v.Matches L w) :
    Places.Matches L (p.add v) (q.add w) := by
  induction v using Value.induction generalizing w p q with
  | leaf v hv =>
    rw [add_leaf p hv, add_leaf q (hvw.of_type_ne hv)]
    exact ⟨.cons hvw h.values, h.searched⟩
  | object id t ih =>
    obtain ⟨u, rfl, htu⟩ := hvw.exists_of_object
    rw [add_object, add_object, h.searched]
    split
    · exact ⟨.cons hvw h.values, rfl⟩
    · exact .foldl htu.values (fun v hv w p q hvw hp => ih v hv hp hvw) ⟨.cons hvw h.values, rfl⟩

end Treewalk
