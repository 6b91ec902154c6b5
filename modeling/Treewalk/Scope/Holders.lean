import Std.Data.TreeMap
import Std.Data.TreeSet
import Treewalk.Value.Basic

/-!
# Who may hold a scope

An index from scopes to the scopes that may hold handles to them, so that the holders of one scope
are found without a look at all the others. The index may name more scopes than there are holders,
never fewer: a note is made for every handle that is written and erased only with its holder.

Main statements: `mem_of_note` and `mem_of_erase` say what a note and its removal do.
-/

namespace Treewalk

/-- Scopes in the order of their age. -/
instance : Ord ScopeId := ⟨fun a b => compare a.index b.index⟩

instance : Std.TransOrd ScopeId := inferInstanceAs (Std.TransCmp (compareOn ScopeId.index))

instance : Std.LawfulEqOrd ScopeId where
  eq_of_compare {a b} h := by
    have hi : a.index = b.index := Std.LawfulEqOrd.eq_of_compare (α := Nat) h
    cases a; cases b; exact congrArg _ hi

/-- A set of scopes. -/
abbrev ScopeSet := Std.TreeSet ScopeId

/-- For every scope, the scopes that may hold handles to it. -/
structure Holders where
  sets : Std.TreeMap ScopeId ScopeSet

namespace Holders

/-- The index without notes. -/
def empty : Holders := ⟨∅⟩

/-- The scopes that may hold handles to a scope. -/
def of (h : Holders) (s : ScopeId) : ScopeSet := h.sets.getD s ∅

/-- Notes that a scope holds a handle to another. -/
def note (h : Holders) (holder s : ScopeId) : Holders :=
  ⟨h.sets.insert s ((h.of s).insert holder)⟩

/-- Notes that a scope holds handles to others. -/
def noteAll (h : Holders) (holder : ScopeId) (scopes : List ScopeId) : Holders :=
  scopes.foldl (fun h s => h.note holder s) h

/-- Removes the note that a scope holds a handle to another. -/
def erase (h : Holders) (holder s : ScopeId) : Holders :=
  let rest := (h.of s).erase holder
  ⟨if rest.isEmpty then h.sets.erase s else h.sets.insert s rest⟩

theorem mem_of_note {h : Holders} {holder s t u : ScopeId} :
    t ∈ (h.note holder s).of u ↔ (s = u ∧ holder = t) ∨ t ∈ h.of u := by
  rw [of, note, Std.TreeMap.getD_insert]
  simp only [Std.LawfulEqCmp.compare_eq_iff_eq]
  split
  · next hu =>
    subst hu
    simp [Std.TreeSet.mem_insert, of]
  · next hu => simp [hu, of]

theorem mem_of_noteAll {h : Holders} {holder t u : ScopeId} {scopes : List ScopeId} :
    t ∈ (h.noteAll holder scopes).of u ↔ (u ∈ scopes ∧ holder = t) ∨ t ∈ h.of u := by
  induction scopes generalizing h with
  | nil => simp [noteAll]
  | cons s rest ih =>
    rw [noteAll, List.foldl_cons, ← noteAll, ih, mem_of_note, List.mem_cons]
    grind

theorem mem_of_erase {h : Holders} {holder s t u : ScopeId} :
    t ∈ (h.erase holder s).of u ↔ t ∈ h.of u ∧ ¬(s = u ∧ holder = t) := by
  have hsets : (h.erase holder s).of u = if s = u then
      (if ((h.of s).erase holder).isEmpty then ∅ else (h.of s).erase holder) else h.of u := by
    rw [of, erase]
    split <;> simp only [Std.TreeMap.getD_erase, Std.TreeMap.getD_insert,
      Std.LawfulEqCmp.compare_eq_iff_eq] <;> split <;> simp_all [of]
  rw [hsets]
  split
  · next hu =>
    subst hu
    have hmem : t ∈ (h.of s).erase holder ↔ t ∈ h.of s ∧ ¬(s = s ∧ holder = t) := by
      simp [Std.TreeSet.mem_erase, and_comm]
    split
    · next he =>
      rw [← hmem]
      simp [Std.TreeSet.isEmpty_iff_forall_not_mem.1 he t]
    · exact hmem
  · next hu => simp [hu]

end Holders

end Treewalk
