/-!
# Configuration

The limits of an interpreter and the name of the counter that a loop binds unless the program
names one.
-/

namespace Treewalk

/-- The limits of an interpreter. -/
structure Config where
  globalCapacity : Nat
  scopeCapacity : Nat
  objectCapacity : Nat
  maxCallDepth : Nat
  loopVariable : String
  deriving DecidableEq, Repr

namespace Config

/-- The capacity of a global scope unless set otherwise. -/
def defaultGlobalCapacity : Nat := 256

/-- The capacity of other scopes unless set otherwise. -/
def defaultScopeCapacity : Nat := 64

/-- The limits unless set otherwise. -/
def standard : Config where
  globalCapacity := defaultGlobalCapacity
  scopeCapacity := defaultScopeCapacity
  objectCapacity := 64
  maxCallDepth := 10000
  loopVariable := "iteration"

end Config

end Treewalk
