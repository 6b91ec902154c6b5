import Treewalk.Interpreter
import Treewalk.Native.Workbench

/-!
# Sessions

A host that works with an interpreter keeps scopes, values and weak handles by name. A slot holds
a handle to a scope, or a guard of a scope that was entered, by which it is left when the slot is
dropped or filled anew. Everything that a session keeps counts as held outside the store; a weak
handle does not.

* `Session.start` builds an interpreter with the natives of the workbench.
* `Session.hold` fills a slot and `Session.drop` empties it.
* `Session.report` is what the host learns from an evaluation.
-/

namespace Treewalk

/-- What a slot holds. -/
structure Hold where
  scope : ScopeId
  isGuard : Bool
  deriving DecidableEq, Repr

/-- Contents by name, the one set last first. -/
structure Named (α : Type) where
  entries : List (String × α)

namespace Named

variable {α : Type}

/-- No contents. -/
def empty : Named α := ⟨[]⟩

/-- The content of a name. -/
def get? (m : Named α) (name : String) : Option α := m.entries.lookup name

/-- The contents without a name. -/
def erase (m : Named α) (name : String) : Named α := ⟨m.entries.filter (·.1 ≠ name)⟩

/-- The contents with a name set. -/
def set (m : Named α) (name : String) (a : α) : Named α := ⟨(name, a) :: (m.erase name).entries⟩

/-- All contents. -/
def values (m : Named α) : List α := m.entries.map Prod.snd

@[simp] theorem get?_set_self (m : Named α) (name : String) (a : α) :
    (m.set name a).get? name = some a := by
  simp [get?, set]

end Named

/-- An interpreter with what its host keeps. -/
structure Session where
  interpreter : Interpreter Workbench
  slots : Named Hold
  kept : Named Value
  weak : Named ScopeId

/-- What a host learns from an evaluation. -/
structure Report where
  result : Except EvalError Value
  /-- The line of the node entered last. -/
  line : UInt32
  printed : String
  notes : List Value

namespace Session

/-- Registers new natives of the workbench. -/
def registry (w : Workbench) (entries : List (String × Builtin)) : Registry × Workbench :=
  entries.foldl (fun (r, w) (name, b) =>
    let (f, w) := w.newNative name b
    (r.insert f, w)) (.empty, w)

/-- Builds an interpreter. The natives of later registries replace those of the same names. -/
def start (b : Builder) (registries : List (List (String × Builtin))) :
    Except ErrorCause Session :=
  let add := fun ((b, w) : Builder × Workbench) entries =>
    let (r, w) := registry w entries
    (b.withNatives r, w)
  let (b, w) := registries.foldl add (b, .ofSink b.sink)
  let (print, w) := w.newNative "print" .print
  let (printLine, w) := w.newNative "println" .printLine
  match b.build print printLine .empty with
  | .error cause => .error cause
  | .ok (globals, σ) =>
    let setting := Setting.releasing b.config Workbench.host
    .ok ⟨⟨setting, globals, ⟨σ, 0, 0, w⟩⟩, .empty, .empty, .empty⟩

/-- The scopes made so far. -/
def store (s : Session) : Store := s.interpreter.machine.store

/-- The host's world. -/
def world (s : Session) : Workbench := s.interpreter.machine.world

/-- The session with another store. -/
def withStore (s : Session) (σ : Store) : Session :=
  { s with interpreter.machine.store := σ }

/-- The session with another world. -/
def withWorld (s : Session) (w : Workbench) : Session :=
  { s with interpreter.machine.world := w }

/-- The handles that the session holds. -/
def held (s : Session) : Held :=
  let scopes := s.interpreter.globals :: s.slots.values.map Hold.scope
  (scopes.foldl Held.scope .empty).values s.kept.values

/-- All handles outside the store. -/
def outside (s : Session) : List Held := [s.held, s.world.held]

/-! ### Slots -/

/-- The scope of a slot. -/
def scope? (s : Session) (name : String) : Option ScopeId := (s.slots.get? name).map Hold.scope

/-- Gives up what a slot held. By a guard its scope is left. -/
def release (s : Session) (h : Hold) : Session :=
  if h.isGuard then s.withStore (s.store.leave s.outside h.scope) else s

/-- Fills a slot, then gives up what it held before. -/
def hold (s : Session) (name : String) (h : Hold) : Session :=
  let filled := { s with slots := s.slots.set name h }
  match s.slots.get? name with
  | some old => filled.release old
  | none => filled

/-- Fills a slot with a handle. -/
def holdScope (s : Session) (name : String) (scope : ScopeId) : Session :=
  s.hold name ⟨scope, false⟩

/-- Empties a slot; tells whether there was something in it. -/
def drop (s : Session) (name : String) : Bool × Session :=
  match s.slots.get? name with
  | some old => (true, { s with slots := s.slots.erase name }.release old)
  | none => (false, s)

/-- Closes the scope of a slot by the slot's own handle. -/
def close (s : Session) (name : String) : Session :=
  match s.scope? name with
  | some scope =>
    let others := { s with slots := s.slots.erase name }.outside
    s.withStore (s.store.close others scope)
  | none => s

/-- Fills a slot with a new root scope. -/
def newRoot (s : Session) (name : String) (capacity childCapacity : Nat) : Session :=
  let (scope, σ) := s.store.root capacity childCapacity
  (s.withStore σ).holdScope name scope

/-- Fills a slot with a handle or a guard of a new scope below another. -/
def newChild (s : Session) (name : String) (parent : ScopeId) (isGuard : Bool) : Session :=
  let (scope, σ) := s.store.child parent
  (s.withStore σ).hold name ⟨scope, isGuard⟩

/-- Whether nothing keeps a scope alive any more. -/
def isDropped (s : Session) (scope : ScopeId) : Bool := s.store.isDropped s.outside scope

/-- Whether nothing keeps the scopes alive any more that natives remembered. -/
def capturedDropped (s : Session) : List Bool :=
  s.store.areDropped s.outside s.world.captured.toList

/-! ### Values -/

/-- Keeps a value under a name. -/
def keep (s : Session) (name : String) (v : Value) : Session :=
  { s with kept := s.kept.set name v }

/-- Forgets a value; tells whether there was one. -/
def forget (s : Session) (name : String) : Bool × Session :=
  ((s.kept.get? name).isSome, { s with kept := s.kept.erase name })

/-- A new object, its properties set in order. -/
def newObject (s : Session) (capacity : Nat) (properties : List Binding) : Value × Session :=
  let set := fun (t : Table Binding) (b : Binding) =>
    match t.set? b.name b with
    | some (_, t) => t
    | none => t
  let (v, σ) := s.store.object (properties.foldl set (.withCapacity capacity))
  (v, s.withStore σ)

/-- A new native that counts its arguments. -/
def newNative (s : Session) (name : String) : Value × Session :=
  let (f, w) := s.world.newNative name .count
  (.native f, s.withWorld w)

/-- A new function in the scope of a slot, or else in a new root scope. -/
def newFunction (s : Session) (name : String) (code : Code) (slot : Option String) :
    Value × Session :=
  match slot.bind s.scope? with
  | some scope => (.function ⟨name, code, scope⟩, s)
  | none =>
    let (scope, σ) := s.store.root Config.defaultGlobalCapacity Config.defaultScopeCapacity
    (.function ⟨name, code, scope⟩, s.withStore σ)

/-- A copy of a value with objects of its own. -/
def copy (s : Session) (v : Value) : Value × Session :=
  let (v, σ) := s.store.copy v
  (v, s.withStore σ)

/-! ### Evaluation -/

/-- What the host learns from an evaluation. What was printed and noted is handed over. -/
def report (s : Session) (r : Interpreter.Result Workbench) : Option Report × Session :=
  let (result?, interpreter) := r
  let (printed, world) := interpreter.machine.world.takeOutput
  let (notes, world) := world.takeNotes
  (result?.map fun result => ⟨result, interpreter.machine.line, printed, notes⟩,
    { s with interpreter := interpreter }.withWorld world)

/-- Evaluates a node in the global scope. -/
def run (s : Session) (n : Node) : Option Report × Session :=
  s.report (s.interpreter.run Interpreter.plenty s.held n)

/-- Evaluates a node in a scope. -/
def eval (s : Session) (n : Node) (scope : ScopeId) : Option Report × Session :=
  s.report (s.interpreter.eval Interpreter.plenty s.held n scope)

/-- Calls a value. -/
def call (s : Session) (callee : Value) (args : List Value) : Option Report × Session :=
  s.report (s.interpreter.call Interpreter.plenty s.held callee args)

/-- Calls a native from a scope. -/
def callNative (s : Session) (f : NativeFunction) (args : List Value) (scope : ScopeId) :
    Except EvalError Value × Session :=
  let (r, σ, w) := Workbench.call f args scope s.store s.world
  (r, (s.withStore σ).withWorld w)

end Session

end Treewalk
