import Treewalk.Interpreter
import Treewalk.Proofs.Scope.Leaving

/-!
# The turns of a host

A host works with an interpreter turn by turn: it evaluates a node in the global scope or in a scope
that it keeps, calls a value, or makes a scope. Between the turns it keeps scopes and values, and it
may drop or look up some at every turn.

A host comes by scopes and values in honest ways only: `Interpreter.Sees` are the scopes that it can
get to by the handles that it keeps, `Interpreter.Knows` the values that it can find there.
`Interpreter.IsLegal` says so of a list of turns.
-/

namespace Treewalk

/-- What a host keeps. -/
structure Holding where
  scopes : List ScopeId
  values : List Value

/-- What a host asks of an interpreter. -/
inductive Request where
  /-- Evaluates a node in the global scope. -/
  | run (n : Node)
  | eval (n : Node) (env : ScopeId)
  | call (callee : Value) (args : List Value)
  /-- Makes a root scope. -/
  | root (capacity childCapacity : Nat)
  | child (parent : ScopeId)

/-- What a host gets from an interpreter. -/
inductive Outcome where
  | result (r : Option (Except EvalError Value))
  | scope (s : ScopeId)

/-- A request, with the fuel for it and what the host keeps meanwhile. -/
structure Turn where
  fuel : Nat
  holding : Holding
  request : Request

/-- The handles of a host, with that to the global scope. -/
def Holding.held (K : Holding) (globals : ScopeId) : Held :=
  ((globals :: K.scopes).foldl Held.scope .empty).values K.values

/-- What a host has after an outcome. -/
def Holding.learn (K : Holding) : Outcome → Holding
  | .result (some (.ok v)) => ⟨K.scopes, v :: K.values⟩
  | .result _ => K
  | .scope s => ⟨s :: K.scopes, K.values⟩

namespace Interpreter

variable {ω : Type}

/-- The interpreter with another store. -/
def withStore (I : Interpreter ω) (σ : Store) : Interpreter ω :=
  { I with machine := I.machine.withStore σ }

/-- Does what is asked. -/
def serve (I : Interpreter ω) (t : Turn) : Outcome × Interpreter ω :=
  let held := t.holding.held I.globals
  match t.request with
  | .run n => let (r, I) := I.run t.fuel held n; (.result r, I)
  | .eval n env => let (r, I) := I.eval t.fuel held n env; (.result r, I)
  | .call callee args => let (r, I) := I.call t.fuel held callee args; (.result r, I)
  | .root capacity childCapacity =>
    let (s, σ) := I.machine.store.root capacity childCapacity
    (.scope s, I.withStore σ)
  | .child parent =>
    let (s, σ) := I.machine.store.child parent
    (.scope s, I.withStore σ)

/-- Does what is asked in some turns, and tells what the host has at the end. -/
def turns (I : Interpreter ω) (K : Holding) : List Turn → List Outcome × Interpreter ω × Holding
  | [] => ([], I, K)
  | t :: rest =>
    let (o, I) := I.serve t
    let (os, I, K) := I.turns (t.holding.learn o) rest
    (o :: os, I, K)

/-- The scopes that the handles of a host and of its world lead to. -/
def Sees (I : Interpreter ω) (K : Holding) : ScopeId → Prop :=
  I.machine.store.Reaches fun s =>
    (K.held I.globals).IsRoot s ∨ (I.setting.host.held I.machine.world).IsRoot s

/-- The values that a host can find: those kept and those bound in scopes that it sees, with all
objects nested in them, and values without objects. -/
inductive Knows (I : Interpreter ω) (K : Holding) : Value → Prop
  | kept {v : Value} (h : v ∈ K.values) : Knows I K v
  | noted {v : Value} {s : ScopeId}
    (h : v ∈ (I.setting.host.held I.machine.world).objectsFor s)
    (hs : ∀ u, v.mentions u = true → I.Sees K u) : Knows I K v
  | bound {v : Value} {s : ScopeId} (hs : I.Sees K s)
    (hv : v ∈ (I.machine.store.bindings s).values) : Knows I K v
  | nested {v w : Value} (h : Knows I K w) (hv : v.Nested w) : Knows I K v
  | leaf {v : Value} (hv : v.type ≠ .object) (hs : ∀ s, v.mentions s = true → I.Sees K s) :
    Knows I K v

/-- Whether a request uses only scopes that the host keeps and values that it knows. -/
def Allows (I : Interpreter ω) (K : Holding) (kept : Holding) : Request → Prop
  | .run _ => True
  | .eval _ env => env ∈ I.globals :: kept.scopes
  | .call callee args => ∀ v ∈ callee :: args, I.Knows K v
  | .root .. => True
  | .child parent => parent ∈ I.globals :: kept.scopes

/-- Whether a host that had something can come to a turn. -/
structure Permits (I : Interpreter ω) (K : Holding) (t : Turn) : Prop where
  scopes : ∀ s ∈ t.holding.scopes, I.Sees K s
  values : ∀ v ∈ t.holding.values, I.Knows K v
  request : I.Allows K t.holding t.request

/-- Whether a host that has something can come to all of some turns. -/
def IsLegal (I : Interpreter ω) (K : Holding) : List Turn → Prop
  | [] => True
  | t :: rest => I.Permits K t ∧ (I.serve t).2.IsLegal (t.holding.learn (I.serve t).1) rest

end Interpreter

end Treewalk
