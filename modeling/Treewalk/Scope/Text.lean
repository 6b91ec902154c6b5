import Treewalk.Scope.Basic
import Treewalk.Text.Structured

/-!
# The text of a scope

A scope shows its depth and the names bound in it, in the order of the slots, but no values: a
value may lead back to the scope.
-/

namespace Treewalk

open Text (entry list quoted record)

/-- The structured text of a scope. -/
def Store.inspect (σ : Store) (s : ScopeId) : String :=
  record "Environment"
    [entry "depth" (toString (σ.depth s)),
      entry "names" (list ((σ.bindings s).keys.map quoted)), ".."]

/-- The structured text of a handle that does not keep its scope alive. -/
def weakHandleText (alive : Bool) : String :=
  Text.applied "WeakEnvironment" (entry "alive" (Text.bool alive))

end Treewalk
