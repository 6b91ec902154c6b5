import Treewalk.Proofs.Table.Extensional
import Treewalk.Session

/-!
# Tables that stay in step

Operations on tables do not depend on values. So tables that are the same but for what a map of the
values forgets answer every sequence of operations with the same answers, but for what it forgets,
and stay the same slot for slot. What operations write may be anything, provided that what is
forgotten of the values before it is all that it depends on: `Operation.Respects`.

A host keeps tables under names. A table under one name and its copy under another each see the
operations on their own name only: `Table.AsCopy`.

* `Table.perform_inStep`: one operation on both tables.
* `Table.get?_run` and `Table.answersAt_eq`: what operations do to the table under one name.

Main statement: `Table.asCopy`.
-/

namespace Treewalk

theorem Named.get?_set_of_ne {α : Type} (m : Named α) {name x : String} (h : x ≠ name) (a : α) :
    (m.set name a).get? x = m.get? x := by
  have hlookup : ∀ entries : List (String × α),
      (entries.filter (·.1 ≠ name)).lookup x = entries.lookup x := by
    intro entries
    induction entries with
    | nil => rfl
    | cons e rest ih =>
      obtain ⟨k, v⟩ := e
      by_cases hk : k = name
      · subst hk
        rw [List.filter_cons_of_neg (by simp), ih, List.lookup_cons, beq_eq_false_iff_ne.2 h]
      · rw [List.filter_cons_of_pos (by simpa using hk), List.lookup_cons, List.lookup_cons, ih]
  rw [get?, set, List.lookup_cons, beq_eq_false_iff_ne.2 h]
  exact hlookup m.entries

namespace Table

variable {α β : Type}

/-- The answer with its values changed. -/
def Reply.map (g : α → β) : Reply α → Reply β
  | .full capacity => .full capacity
  | .done outcome => .done outcome
  | .value v => .value (v.map g)
  | .holds b => .holds b
  | .count n => .count n
  | .entries es => .entries (es.map fun e => (e.1, g e.2))
  | .keys ks => .keys ks

/-- Whether what an operation writes depends on the value before only by what a map keeps. -/
def Operation.Respects (g : α → β) : Operation α → Prop
  | .write _ f => ∀ v w, g v = g w → g (f v) = g (f w)
  | _ => True

variable {g : α → β} {t u : Table α} {op : Operation α} {ops : List (Operation α)}

/-! ## Operations -/

/-- A key is live in both tables, in one slot with values that are the same but for what is
forgotten, or in none. -/
theorem locate?_inStep (h : u.map g = t.map g) (key : String) :
    (u.locate? key = none ∧ t.locate? key = none) ∨
      ∃ i v w, u.locate? key = some (i, w) ∧ t.locate? key = some (i, v) ∧ g w = g v := by
  have hl : (u.locate? key).map (fun p => (p.1, g p.2)) =
      (t.locate? key).map fun p => (p.1, g p.2) := by
    rw [← locate?_map, ← locate?_map, h]
  cases hu : u.locate? key with
  | none =>
    rw [hu] at hl
    exact .inl ⟨rfl, Option.map_eq_none_iff.1 hl.symm⟩
  | some p =>
    rw [hu] at hl
    obtain ⟨q, hq, he⟩ := Option.map_eq_some_iff.1 hl.symm
    obtain ⟨hi, hv⟩ := Prod.mk.inj he
    exact .inr ⟨p.1, q.2, p.2, rfl, by rw [hq, ← hi], hv.symm⟩

theorem map_write_inStep (h : u.map g = t.map g) (p : SetOutcome × Nat) (key : String)
    {v w : α} (hvw : g w = g v) : (u.write p key w).map g = (t.write p key v).map g := by
  rw [map_write, map_write, h, hvw]

theorem map_clear_inStep (h : u.map g = t.map g) (i : Nat) :
    (u.clear i).map g = (t.clear i).map g := by
  rw [map_clear, map_clear, h]

/-- **One operation** is answered the same by both tables and keeps them in step. -/
theorem perform_inStep (h : u.map g = t.map g) (hop : op.Respects g) :
    (u.perform op).1.map g = (t.perform op).1.map g ∧
      (u.perform op).2.map g = (t.perform op).2.map g := by
  have hget : ∀ key, (u.get? key).map g = (t.get? key).map g := fun key => by
    rw [← get?_map, ← get?_map, h]
  cases op with
  | set key v =>
    have hset : (u.set? key v).map (fun p => (p.1, p.2.map g)) =
        (t.set? key v).map fun p => (p.1, p.2.map g) := by
      rw [← set?_map, ← set?_map, h]
    have hcapacity : u.capacity = t.capacity := by rw [← capacity_map g, h, capacity_map]
    rw [perform, perform]
    cases hu : u.set? key v with
    | none =>
      rw [hu] at hset
      rw [Option.map_eq_none_iff.1 hset.symm, hcapacity]
      exact ⟨rfl, h⟩
    | some p =>
      rw [hu] at hset
      obtain ⟨q, hq, he⟩ := Option.map_eq_some_iff.1 hset.symm
      obtain ⟨ho, ht⟩ := Prod.mk.inj he
      rw [hq]
      exact ⟨congrArg Reply.done ho.symm, ht.symm⟩
  | get key => exact ⟨congrArg Reply.value (hget key), h⟩
  | write key f =>
    refine ⟨congrArg Reply.value (hget key), ?_⟩
    rw [perform, perform, modify?, modify?]
    obtain ⟨hu, ht⟩ | ⟨i, v, w, hu, ht, hvw⟩ := locate?_inStep h key
    · rw [hu, ht]
      exact h
    · rw [hu, ht]
      exact map_write_inStep h (.overwritten, i) key (hop w v hvw)
  | has key =>
    refine ⟨congrArg Reply.holds ?_, h⟩
    rw [← contains_map g, h, contains_map]
  | delete key =>
    rw [perform, perform, erase?, erase?]
    obtain ⟨hu, ht⟩ | ⟨i, v, w, hu, ht, hvw⟩ := locate?_inStep h key
    · rw [hu, ht]
      exact ⟨rfl, h⟩
    · rw [hu, ht]
      exact ⟨congrArg (fun x => Reply.value (some x)) hvw, map_clear_inStep h i⟩
  | size =>
    refine ⟨congrArg Reply.count ?_, h⟩
    rw [← size_map g, h, size_map]
  | entries =>
    refine ⟨congrArg Reply.entries ?_, h⟩
    rw [Multiset.map_coe, Multiset.map_coe, ← entries_map, ← entries_map, h]
  | keys =>
    refine ⟨congrArg Reply.keys ?_, h⟩
    rw [← keys_map g, h, keys_map]

/-- Operations in turn are answered the same. -/
theorem replies_inStep (h : u.map g = t.map g) (hops : ∀ op ∈ ops, op.Respects g) :
    (u.replies ops).map (Reply.map g) = (t.replies ops).map (Reply.map g) := by
  induction ops generalizing t u with
  | nil => rfl
  | cons op ops ih =>
    obtain ⟨hop, hrest⟩ := List.forall_mem_cons.1 hops
    obtain ⟨hr, ht⟩ := perform_inStep h hop
    rw [replies, replies, List.map_cons, List.map_cons, hr, ih ht hrest]

/-- Operations in turn keep tables in step. -/
theorem after_inStep (h : u.map g = t.map g) (hops : ∀ op ∈ ops, op.Respects g) :
    (u.after ops).map g = (t.after ops).map g := by
  induction ops generalizing t u with
  | nil => exact h
  | cons op ops ih =>
    obtain ⟨hop, hrest⟩ := List.forall_mem_cons.1 hops
    exact ih (perform_inStep h hop).2 hrest

/-! ## Tables under names -/

/-- Tables under names after one operation on the table of a name, with the answer. Nothing happens
if there is no table. -/
def performAt (m : Named (Table α)) (name : String) (op : Operation α) :
    Option (Reply α) × Named (Table α) :=
  match m.get? name with
  | some t => (some (t.perform op).1, m.set name (t.perform op).2)
  | none => (none, m)

/-- Tables under names after operations in turn. -/
def run (m : Named (Table α)) : List (String × Operation α) → Named (Table α)
  | [] => m
  | (name, op) :: rest => run (performAt m name op).2 rest

/-- The answers of the table under a name to operations in turn. -/
def answersAt (x : String) (m : Named (Table α)) : List (String × Operation α) → List (Reply α)
  | [] => []
  | (name, op) :: rest =>
    (if name = x then (performAt m name op).1.toList else []) ++
      answersAt x (performAt m name op).2 rest

/-- The operations on a name. -/
def operationsAt (x : String) (steps : List (String × Operation α)) : List (Operation α) :=
  steps.filterMap fun step => if step.1 = x then some step.2 else none

variable {m : Named (Table α)} {x y name : String} {steps : List (String × Operation α)}

theorem operationsAt_cons (x name : String) (op : Operation α)
    (steps : List (String × Operation α)) : operationsAt x ((name, op) :: steps) =
      if name = x then op :: operationsAt x steps else operationsAt x steps := by
  rw [operationsAt, List.filterMap_cons]
  by_cases h : name = x
  · simp [h, operationsAt]
  · simp [h, operationsAt]

theorem performAt_self (h : m.get? x = some t) (op : Operation α) :
    (performAt m x op).1 = some (t.perform op).1 ∧
      (performAt m x op).2.get? x = some (t.perform op).2 := by
  rw [performAt, h]
  exact ⟨rfl, m.get?_set_self x _⟩

theorem get?_performAt_of_ne (h : x ≠ name) (m : Named (Table α)) (op : Operation α) :
    (performAt m name op).2.get? x = m.get? x := by
  rw [performAt]
  cases m.get? name with
  | none => rfl
  | some t => exact m.get?_set_of_ne h _

/-- **A table sees the operations on its own name**, and no others. -/
theorem get?_run (h : m.get? x = some t) :
    (run m steps).get? x = some (t.after (operationsAt x steps)) := by
  induction steps generalizing m t with
  | nil => exact h
  | cons step rest ih =>
    obtain ⟨name, op⟩ := step
    rw [run, operationsAt_cons]
    by_cases hname : name = x
    · subst hname
      rw [if_pos rfl]
      exact ih (performAt_self h op).2
    · rw [if_neg hname]
      exact ih ((get?_performAt_of_ne (Ne.symm hname) m op).trans h)

theorem answersAt_eq (h : m.get? x = some t) :
    answersAt x m steps = t.replies (operationsAt x steps) := by
  induction steps generalizing m t with
  | nil => rfl
  | cons step rest ih =>
    obtain ⟨name, op⟩ := step
    rw [answersAt, operationsAt_cons]
    by_cases hname : name = x
    · subst hname
      obtain ⟨hreply, htable⟩ := performAt_self h op
      rw [if_pos rfl, if_pos rfl, hreply, ih htable, replies]
      rfl
    · rw [if_neg hname, if_neg hname, ih ((get?_performAt_of_ne (Ne.symm hname) m op).trans h)]
      rfl

theorem respects_of_mem_operationsAt (h : ∀ step ∈ steps, step.2.Respects g)
    (hop : op ∈ operationsAt x steps) : op.Respects g := by
  obtain ⟨step, hstep, he⟩ := List.mem_filterMap.1 hop
  split at he
  · exact Option.some.inj he ▸ h step hstep
  · cases he

/-! ## Copies -/

/-- The table under a second name is a copy of a table under the first, but for what a map of the
values forgets: whatever operations on both names come in turn, both answer those on their own name
as the original would alone, and hold slot for slot what it would. -/
structure AsCopy (g : α → β) (m : Named (Table α)) (x y : String) (t : Table α) : Prop where
  answers_original : ∀ steps, answersAt x m steps = t.replies (operationsAt x steps)
  table_original : ∀ steps, (run m steps).get? x = some (t.after (operationsAt x steps))
  answers_copy : ∀ steps, (∀ step ∈ steps, step.2.Respects g) →
    (answersAt y m steps).map (Reply.map g) = (t.replies (operationsAt y steps)).map (Reply.map g)
  table_copy : ∀ steps, (∀ step ∈ steps, step.2.Respects g) →
    ((run m steps).get? y).map (Table.map g) = some ((t.after (operationsAt y steps)).map g)

/-- **A table that is the same but for what is forgotten is a copy.** -/
theorem asCopy (hne : x ≠ y) (hx : m.get? x = some t) (h : u.map g = t.map g) :
    AsCopy g (m.set y u) x y t := by
  have hx : (m.set y u).get? x = some t := (m.get?_set_of_ne hne u).trans hx
  have hy : (m.set y u).get? y = some u := m.get?_set_self y u
  refine ⟨fun steps => answersAt_eq hx, fun steps => get?_run hx, fun steps hsteps => ?_,
    fun steps hsteps => ?_⟩
  · rw [answersAt_eq hy]
    exact replies_inStep h fun op => respects_of_mem_operationsAt hsteps
  · rw [get?_run hy]
    exact congrArg some (after_inStep h fun op => respects_of_mem_operationsAt hsteps)

end Table

end Treewalk
