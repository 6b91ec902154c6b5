import Treewalk.Scope.Basic
import Treewalk.Scope.Held

/-!
# Which scopes are alive

A scope is alive while something holds a handle to it: the host or an evaluation in progress, or a
scope that is alive. So a scope is dropped if nothing outside the store holds it and every scope
that holds it is dropped, and scopes that hold each other in a circle stay alive.

A search follows the holders of a scope backward. Verdicts are kept, so no scope is searched twice;
a scope that the search meets again while it is being searched is on a circle, and alive.

* `Store.isDropped` is the verdict on one scope.
* `Store.liveHolders` lists the scopes alive that hold another.
-/

namespace Treewalk

/-- Whether a handle to a scope is held outside the store, by any of several parties. -/
def isHeld (outside : List Held) (s : ScopeId) : Bool := outside.any (·.mentions s)

/-- Verdicts on scopes: whether they are alive. -/
abbrev Verdicts := Std.TreeMap ScopeId Bool

namespace Store

/-- Whether one of the scopes that hold another is alive, by a search for one scope. -/
def anyAlive (σ : Store) (search : ScopeId → Verdicts → Bool × Verdicts) (s : ScopeId) :
    List ScopeId → Verdicts → Bool × Verdicts
  | [], known => (false, known)
  | t :: rest, known =>
    if σ.holds t s then
      match search t known with
      | (true, known) => (true, known)
      | (false, known) => anyAlive σ search s rest known
    else anyAlive σ search s rest known

/-- Whether a scope is alive. While its holders are searched it counts as alive. -/
def search (σ : Store) (outside : List Held) :
    (fuel : Nat) → ScopeId → Verdicts → Bool × Verdicts
  | 0, _, known => (true, known)
  | fuel + 1, s, known =>
    match known.get? s with
    | some verdict => (verdict, known)
    | none =>
      if isHeld outside s then (true, known.insert s true)
      else
        let (verdict, known) :=
          σ.anyAlive (search σ outside fuel) s (σ.holders.of s).toList (known.insert s true)
        (verdict, known.insert s verdict)

/-- Fuel for a search: a scope is searched once, so a search goes no deeper than there are
scopes. -/
def depthBound (σ : Store) : Nat := σ.scopes.size + 1

/-- The scopes of a list that are alive, with the verdicts after the search. -/
def filterAlive (σ : Store) (outside : List Held) :
    List ScopeId → Verdicts → List ScopeId × Verdicts
  | [], known => ([], known)
  | t :: rest, known =>
    let (verdict, known) := σ.search outside σ.depthBound t known
    let (alive, known) := filterAlive σ outside rest known
    (if verdict then t :: alive else alive, known)

/-- The scopes alive that hold a scope, which is itself taken to be alive. -/
def liveHolders (σ : Store) (outside : List Held) (s : ScopeId) : List ScopeId :=
  let holders := (σ.holders.of s).toList.filter (σ.holds · s)
  (σ.filterAlive outside holders ((∅ : Verdicts).insert s true)).1

/-- Whether nothing holds a handle to a scope any more, for each scope of a list. -/
def areDropped (σ : Store) (outside : List Held) (scopes : List ScopeId) : List Bool :=
  let verdicts := scopes.foldl (fun known s => (σ.search outside σ.depthBound s known).2) ∅
  scopes.map fun s => !verdicts.getD s true

/-- Whether nothing holds a handle to a scope any more. -/
def isDropped (σ : Store) (outside : List Held) (s : ScopeId) : Bool :=
  !(σ.search outside σ.depthBound s ∅).1

end Store

end Treewalk
