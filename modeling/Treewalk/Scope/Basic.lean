import Treewalk.Error
import Treewalk.Scope.Holders
import Treewalk.Value.Copy
import Treewalk.Value.Handles

/-!
# Scopes

A store holds scopes by identity. A scope has a table of bindings and, unless it is a root, a
parent; parents are older than their children. Names are looked up along the chain of a scope: the
scope itself, its parent, and so on to the root.

A scope holds handles to its parent and to the scopes in its bindings. The store keeps an index of
holders beside the scopes, which names every holder: `Store.noted`. A scope that was discarded
holds nothing.

* `Store.chain` is the list of scopes from a scope to its root.
* `Store.resolve` gives the binding of the first scope on the chain that has the name.
* `Store.declare` binds a name in one scope, `Store.assign` changes the value of the binding that
  `resolve` finds.
-/

namespace Treewalk

/-- A scope. All scopes below it get tables of one capacity. -/
structure Scope where
  bindings : Table Binding
  parent : Option ScopeId
  childCapacity : Nat
  /-- Whether nothing can reach the scope any more. -/
  isDiscarded : Bool

/-- Whether a scope holds a handle to another. -/
def Scope.holds (scope : Scope) (s : ScopeId) : Bool :=
  !scope.isDiscarded && (scope.parent == some s || scope.bindings.mentions s)

/-- All scopes made so far, and the supply of object numbers. Scopes are never renumbered. -/
structure Store where
  scopes : Array Scope
  nextObject : Nat
  holders : Holders
  /-- The index names every holder. -/
  noted : ∀ (t s : ScopeId) (scope : Scope),
    scopes[t.index]? = some scope → scope.holds s → t ∈ holders.of s

/-- Why a variable cannot be assigned. -/
inductive AssignFault where
  | undefined
  | const
  deriving DecidableEq, Repr

/-- The cause to report for a name that cannot be assigned. -/
def AssignFault.cause (name : String) : AssignFault → ErrorCause
  | .undefined => .undefinedIdentifier name
  | .const => .constReassignment name

namespace Store

/-- A store without scopes. -/
def empty : Store := ⟨#[], 0, .empty, by simp⟩

/-- The bindings of a scope. -/
def bindings (σ : Store) (s : ScopeId) : Table Binding :=
  match σ.scopes[s.index]? with
  | some scope => scope.bindings
  | none => .withCapacity 0

/-- The parent of a scope. -/
def parent? (σ : Store) (s : ScopeId) : Option ScopeId :=
  σ.scopes[s.index]?.bind Scope.parent

/-- The capacity of the tables below a scope. -/
def childCapacity (σ : Store) (s : ScopeId) : Nat :=
  match σ.scopes[s.index]? with
  | some scope => scope.childCapacity
  | none => 0

/-- Whether a scope holds a handle to another. -/
def holds (σ : Store) (t s : ScopeId) : Bool := σ.scopes[t.index]?.any (·.holds s)

/-- The index names every holder. -/
theorem mem_holders_of_holds {σ : Store} {t s : ScopeId} (h : σ.holds t s) :
    t ∈ σ.holders.of s := by
  cases hs : σ.scopes[t.index]? with
  | none => simp [holds, hs] at h
  | some scope => exact σ.noted t s scope hs (by simpa [holds, hs] using h)

/-! ### Making scopes -/

/-- Adds an empty scope. -/
def add (σ : Store) (capacity : Nat) (parent : Option ScopeId) (childCapacity : Nat) :
    ScopeId × Store :=
  let s : ScopeId := ⟨σ.scopes.size⟩
  (s, { σ with
    scopes := σ.scopes.push ⟨.withCapacity capacity, parent, childCapacity, false⟩
    holders := σ.holders.noteAll s parent.toList
    noted := by
      intro t u scope ht hu
      rw [Holders.mem_of_noteAll]
      rw [Array.getElem?_push] at ht
      split at ht
      · next hi =>
        cases ht
        left
        refine ⟨?_, ?_⟩
        · simpa [Scope.holds] using hu
        · cases t; exact congrArg _ hi.symm
      · exact .inr (σ.noted t u scope ht hu) })

/-- Adds a root scope with the capacity of its own table and that of all tables below. -/
def root (σ : Store) (capacity childCapacity : Nat) : ScopeId × Store :=
  σ.add capacity none childCapacity

/-- Adds an empty scope below another. -/
def child (σ : Store) (parent : ScopeId) : ScopeId × Store :=
  let capacity := σ.childCapacity parent
  σ.add capacity (some parent) capacity

/-! ### Changing scopes -/

/-- Writes a binding into a slot of a scope, as a new one or over the binding there. -/
def place (σ : Store) (s : ScopeId) (p : Table.SetOutcome × Nat) (key : String) (b : Binding) :
    Store :=
  { σ with
    scopes := σ.scopes.modify s.index fun scope =>
      { scope with bindings := scope.bindings.write p key b }
    holders := σ.holders.noteAll s b.value.scopes
    noted := by
      intro t u scope ht hu
      rw [Holders.mem_of_noteAll]
      rw [Array.getElem?_modify] at ht
      split at ht
      · next hi =>
        obtain ⟨old, hold, rfl⟩ := Option.map_eq_some_iff.1 ht
        simp only [Scope.holds, Bool.and_eq_true, Bool.or_eq_true] at hu
        obtain ⟨hd, hp | hm⟩ := hu
        · exact .inr (σ.noted t u old hold (by simp_all [Scope.holds]))
        · rcases mentions_write hm with hm | hm
          · exact .inr (σ.noted t u old hold (by simp_all [Scope.holds]))
          · refine .inl ⟨by simpa [Value.mentions] using hm, ?_⟩
            cases s; cases t; exact congrArg _ hi
      · exact .inr (σ.noted t u scope ht hu) }

/-- Drops the bindings of a scope. -/
def clear (σ : Store) (s : ScopeId) : Store :=
  { σ with
    scopes := σ.scopes.modify s.index fun scope => { scope with bindings := .withCapacity 0 }
    noted := by
      intro t u scope ht hu
      rw [Array.getElem?_modify] at ht
      split at ht
      · obtain ⟨old, hold, rfl⟩ := Option.map_eq_some_iff.1 ht
        refine σ.noted t u old hold ?_
        simp_all [Scope.holds]
      · exact σ.noted t u scope ht hu }

/-- Drops all that a scope holds. -/
def discard (σ : Store) (s : ScopeId) : Store :=
  let parent := σ.parent? s
  { σ with
    scopes := σ.scopes.modify s.index fun scope =>
      { scope with bindings := .withCapacity 0, isDiscarded := true }
    holders := (s :: parent.toList).foldl (fun h u => h.erase s u) σ.holders
    noted := by
      intro t u scope ht hu
      rw [Array.getElem?_modify] at ht
      split at ht
      · obtain ⟨old, hold, rfl⟩ := Option.map_eq_some_iff.1 ht
        simp [Scope.holds] at hu
      · next hi =>
        have hne : s ≠ t := fun h => hi (congrArg ScopeId.index h)
        have hmem := σ.noted t u scope ht hu
        cases parent <;> simp [Holders.mem_of_erase, hne, hmem] }

/-! ### Chains -/

/-- The scopes from a scope to its root. -/
def chain (σ : Store) (s : ScopeId) : List ScopeId :=
  match σ.parent? s with
  | some parent => if parent.index < s.index then s :: σ.chain parent else [s]
  | none => [s]
termination_by s.index

/-- The root of a scope's chain. -/
def global (σ : Store) (s : ScopeId) : ScopeId := (σ.chain s).getLastD s

/-- The number of scopes above a scope. -/
def depth (σ : Store) (s : ScopeId) : Nat := (σ.chain s).length - 1

/-- The nearest scope on the chain that binds a name. -/
def owner? (σ : Store) (s : ScopeId) (name : String) : Option ScopeId :=
  (σ.chain s).find? fun t => (σ.bindings t).contains name

/-- The nearest binding of a name. -/
def resolve (σ : Store) (s : ScopeId) (name : String) : Option Binding :=
  (σ.chain s).findSome? fun t => (σ.bindings t).get? name

/-- The value of a name. -/
def lookup (σ : Store) (s : ScopeId) (name : String) : Except ErrorCause Value :=
  match σ.resolve s name with
  | some b => .ok b.value
  | none => .error (.undefinedIdentifier name)

/-! ### Writing -/

/-- Binds a name in a scope itself, over a binding that the scope may have for it. -/
@[inline] def declare (σ : Store) (s : ScopeId) (name : String) (value : Value) (isConst : Bool) :
    Except ErrorCause (Binding × Store) :=
  let b : Binding := ⟨name, isConst, value⟩
  match (σ.bindings s).place? name with
  | some p => .ok (b, σ.place s p name b)
  | none => .error (.tableOverflow (σ.bindings s).capacity)

/-- Changes the value of the nearest binding of a name, unless it is constant. -/
@[inline] def assign (σ : Store) (s : ScopeId) (name : String) (value : Value) :
    Except AssignFault (Binding × Store) :=
  match σ.owner? s name with
  | none => .error .undefined
  | some t =>
    match (σ.bindings t).locate? name with
    | none => .error .undefined
    | some (i, b) =>
      if b.isConst then .error .const
      else
        let b := b.withValue value
        .ok (b, σ.place t (.overwritten, i) name b)

/-- A copy of a value with objects of its own. -/
def copy (σ : Store) (v : Value) : Value × Store :=
  let (v, next) := v.copy σ.nextObject
  (v, { σ with nextObject := next })

/-- A new object. -/
def object (σ : Store) (properties : Table Binding) : Value × Store :=
  (.object ⟨σ.nextObject⟩ properties, { σ with nextObject := σ.nextObject + 1 })

/-! ### First facts -/

theorem chain_of_parent {σ : Store} {s p : ScopeId} (h : σ.parent? s = some p)
    (hlt : p.index < s.index) : σ.chain s = s :: σ.chain p := by
  rw [chain, h]; simp [hlt]

theorem chain_of_root {σ : Store} {s : ScopeId} (h : σ.parent? s = none) : σ.chain s = [s] := by
  rw [chain, h]

theorem chain_ne_nil (σ : Store) (s : ScopeId) : σ.chain s ≠ [] := by
  rw [chain]; split
  · split <;> simp
  · simp

@[simp] theorem parent?_place (σ : Store) (s t : ScopeId) (p : Table.SetOutcome × Nat)
    (key : String) (b : Binding) : (σ.place s p key b).parent? t = σ.parent? t := by
  simp only [parent?, place, Array.getElem?_modify]
  split
  · cases σ.scopes[t.index]? <;> rfl
  · rfl

end Store

end Treewalk
