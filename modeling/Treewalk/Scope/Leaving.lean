import Treewalk.Scope.Liveness

/-!
# Leaving a scope

A function declared in a scope and bound in it holds a handle to the scope that holds the function.
A scope is given up by giving up a handle to it. If all its other handles sit in its own bindings,
nothing else can reach it, and the knot is undone.

Handles are counted from their places: the bindings of live scopes, the values held outside the
store, and the properties of objects at places. An object at several places holds its properties
once. In its own bindings a scope is searched for handles to it, and the objects there that are at
no other place; objects with another owner are not.

* `Store.handleCount` counts the handles to a scope.
* `Store.close` gives up a handle that stays: it drops the bindings of a scope that holds itself.
* `Store.leave` gives up a handle for good: it discards a scope that nothing else can reach.
-/

namespace Treewalk

/-- The scope that a function value holds a handle to. -/
def Value.scope? : Value → Option ScopeId
  | .function f => some f.scope
  | _ => none

/-- The identity of an object. -/
def Value.objectId? : Value → Option ObjectId
  | .object id _ => some id
  | _ => none

/-! ### Places -/

/-- The values at all places found so far, and the objects whose properties are among them. -/
structure Places where
  values : List Value
  searched : List ObjectId

mutual

/-- Adds a place that holds a value. The properties of an object are added with it the first
time. -/
def Places.add (p : Places) : Value → Places
  | .object id ⟨⟨slots⟩, count⟩ =>
    let values := .object id ⟨⟨slots⟩, count⟩ :: p.values
    if p.searched.contains id then ⟨values, p.searched⟩
    else Places.addSlots ⟨values, id :: p.searched⟩ slots
  | v => ⟨v :: p.values, p.searched⟩

/-- Adds the bindings in the live slots of a table. -/
def Places.addSlots (p : Places) : List (Slot Binding) → Places
  | [] => p
  | .occupied _ ⟨_, _, v⟩ :: rest => (p.add v).addSlots rest
  | _ :: rest => p.addSlots rest

end

/-- Adds a place if there is a handle to a scope in it. -/
def Places.addFor (s : ScopeId) (p : Places) (v : Value) : Places :=
  if v.mentions s then p.add v else p

/-- Adds the bindings of a table with handles to a scope in them. -/
def Places.addTableFor (s : ScopeId) (p : Places) (t : Table Binding) : Places :=
  t.slots.foldl (fun p slot =>
    match slot with
    | .occupied _ b => p.addFor s b.value
    | _ => p) p

/-! ### Counting handles -/

mutual

/-- The handles to a scope in a value, where an object is searched only if it qualifies. -/
def Value.captures (s : ScopeId) (owned : ObjectId → Bool) : Value → Nat
  | .function f => if f.scope = s then 1 else 0
  | .object id ⟨⟨slots⟩, _⟩ => if owned id then slotCaptures s owned slots else 0
  | _ => 0

/-- The handles to a scope in the bindings of live slots. -/
def slotCaptures (s : ScopeId) (owned : ObjectId → Bool) : List (Slot Binding) → Nat
  | [] => 0
  | .occupied _ ⟨_, _, v⟩ :: rest => v.captures s owned + slotCaptures s owned rest
  | _ :: rest => slotCaptures s owned rest

end

/-- The handles to a scope besides the one that is given up. -/
structure HandleCount where
  all : Nat
  /-- Those in the scope's own bindings, outside objects with another owner. -/
  own : Nat
  deriving DecidableEq, Repr

namespace Store

/-- The values at places with handles to a scope in them, in live scopes and outside the store. -/
def places (σ : Store) (outside : List Held) (live : List ScopeId) (s : ScopeId) : List Value :=
  let outer := outside.foldl (fun p h => (h.objectsFor s).foldl Places.add p) ⟨[], []⟩
  (live.foldl (fun p t => p.addTableFor s (σ.bindings t)) outer).values

/-- Counts the handles to a scope. Those held outside the store come without the one that is
given up. -/
def handleCount (σ : Store) (outside : List Held) (s : ScopeId) : HandleCount :=
  let live := σ.liveHolders outside s
  let places := σ.places outside live s
  let direct := outside.foldr (fun h n => h.count s + n) 0
  let children := live.countP (σ.parent? · = some s)
  let owned := fun id => places.countP (·.objectId? = some id) = 1
  { all := direct + children + places.countP (·.scope? = some s)
    own := if live.contains s then slotCaptures s owned (σ.bindings s).slots.toList else 0 }

/-- Drops the bindings of a scope if it holds itself and nothing but a handle that is given up
holds it as well. -/
def close (σ : Store) (outside : List Held) (s : ScopeId) : Store :=
  let count := σ.handleCount outside s
  if count.own ≠ 0 ∧ count.all = count.own then σ.clear s else σ

/-- Discards a scope if at most itself holds it besides a handle that is given up for good. -/
def leave (σ : Store) (outside : List Held) (s : ScopeId) : Store :=
  let count := σ.handleCount outside s
  if count.all = count.own then σ.discard s else σ

end Store

end Treewalk
