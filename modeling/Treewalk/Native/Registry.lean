import Treewalk.Scope.Basic
import Treewalk.Text.Structured

/-!
# Registries of native functions

A registry holds natives by name, with one native a name. It stands for a map without an order,
whose names are sorted when they are asked for; here the order is kept whenever a native is put in.
The order in a map is never seen: what is found under a name, the names and what is installed are
the same either way. Installing a registry binds every native as a constant.

Main statement: `get?_insert`, the native registered last under a name is the one found.
-/

namespace Treewalk

/-- Natives in the order of their names. -/
structure Registry where
  natives : List NativeFunction
  deriving DecidableEq, Repr

namespace Registry

/-- A registry without natives. -/
def empty : Registry := ⟨[]⟩

/-- Puts a native at its place in a sorted list, over one of the same name. -/
def place (f : NativeFunction) : List NativeFunction → List NativeFunction
  | [] => [f]
  | g :: rest =>
    if f.name < g.name then f :: g :: rest
    else if f.name = g.name then f :: rest
    else g :: place f rest

/-- Registers a native, over one of the same name. -/
def insert (r : Registry) (f : NativeFunction) : Registry := ⟨place f r.natives⟩

/-- Registers every native of another registry. -/
def merge (r other : Registry) : Registry := other.natives.foldl insert r

/-- The native with a name. -/
def get? (r : Registry) (name : String) : Option NativeFunction :=
  r.natives.find? (·.name = name)

/-- The registered names, sorted. -/
def names (r : Registry) : List String := r.natives.map NativeFunction.name

/-- The number of natives. -/
def size (r : Registry) : Nat := r.natives.length

/-- Whether there are no natives. -/
def isEmpty (r : Registry) : Bool := r.natives.isEmpty

/-- The structured text of a registry. -/
def inspect (r : Registry) : String := Text.braced (r.names.map Text.quoted)

theorem find?_place (f : NativeFunction) (name : String) (fs : List NativeFunction) :
    (place f fs).find? (·.name = name) =
      if f.name = name then some f else fs.find? (·.name = name) := by
  induction fs with
  | nil => by_cases h : f.name = name <;> simp [place, h]
  | cons g rest ih =>
    rw [place]
    split
    · by_cases h : f.name = name <;> simp [List.find?_cons, h]
    · split
      · next heq =>
        by_cases h : f.name = name
        · simp [h]
        · have hg : ¬g.name = name := fun hg => h (heq.trans hg)
          simp [h, hg]
      · next hne =>
        rw [List.find?_cons, List.find?_cons, ih]
        by_cases h : f.name = name
        · have hg : ¬g.name = name := fun hg => hne (h.trans hg.symm)
          simp [h, hg]
        · simp [h]

/-- The native registered last under a name is the one found. -/
theorem get?_insert (r : Registry) (f : NativeFunction) (name : String) :
    (r.insert f).get? name = if f.name = name then some f else r.get? name :=
  find?_place f name r.natives

end Registry

/-- Binds natives as constants, in order, until one does not fit. -/
def Store.installAll (σ : Store) (s : ScopeId) : List NativeFunction → Store × Option ErrorCause
  | [] => (σ, none)
  | f :: rest =>
    match σ.declare s f.name (.native f) true with
    | .ok (_, σ) => σ.installAll s rest
    | .error cause => (σ, some cause)

/-- Binds every native of a registry as a constant, in the order of the names. -/
def Store.install (σ : Store) (s : ScopeId) (r : Registry) : Store × Option ErrorCause :=
  σ.installAll s r.natives

end Treewalk
