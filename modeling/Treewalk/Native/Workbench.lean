import Treewalk.Eval.Machine
import Treewalk.Output
import Treewalk.Value.Equality
import Treewalk.Value.Text

/-!
# The workbench

A host for trying out programs. Its natives print, note values, look into the scope that they are
called from, and fail on demand. Every native has a number, under which the workbench knows what it
does; a new native never equals another.
-/

namespace Treewalk

/-- What a native of the workbench does. -/
inductive Builtin where
  /-- Prints the arguments, joined with spaces. -/
  | print
  /-- Prints the arguments as a line. -/
  | printLine
  /-- Notes the first argument and gives it. -/
  | note
  /-- Remembers the scope of the call without keeping it alive. -/
  | capture
  /-- Fails with the arguments, joined with spaces, as message. -/
  | fail
  /-- Fails at the line that the first argument gives with the second as message. -/
  | failAt
  /-- Binds the first argument as a name to the second. -/
  | define (isConst : Bool)
  | defineGlobal
  | lookup
  | assign
  | hasLocal
  | depth
  | localSize
  | typeOf
  | isTruthy
  | numberOf
  | same
  | identity
  /-- Counts the arguments. -/
  | count
  /-- Makes a native, named by the first argument, that counts its arguments. -/
  | makeNative
  deriving DecidableEq, Repr

/-- The world of the workbench. -/
structure Workbench where
  /-- What the natives do, by number. -/
  builtins : Array Builtin
  output : Output
  /-- The values noted, the first one first. -/
  notes : Array Value
  /-- The handles in the values noted. -/
  held : Held
  /-- The scopes remembered, the first one first. -/
  captured : Array ScopeId

namespace Workbench

/-- A workbench without natives. -/
def ofSink (sink : Sink) : Workbench := ⟨#[], .ofSink sink, #[], .empty, #[]⟩

/-- Makes a native. -/
def newNative (w : Workbench) (name : String) (b : Builtin) : NativeFunction × Workbench :=
  (⟨w.builtins.size, name⟩, { w with builtins := w.builtins.push b })

/-- Notes a value. -/
def note (w : Workbench) (v : Value) : Workbench :=
  { w with notes := w.notes.push v, held := w.held.value v }

/-- The values noted, and the workbench without them. -/
def takeNotes (w : Workbench) : List Value × Workbench :=
  (w.notes.toList, { w with notes := #[], held := .empty })

/-- What was printed, and the workbench without it. -/
def takeOutput (w : Workbench) : String × Workbench :=
  let (text, output) := w.output.take
  (text, { w with output := output })

/-- The texts of values, joined with spaces. -/
def joined (args : List Value) : String := " ".intercalate (args.map Value.text)

/-- The error with the workbench's own words. -/
def failure (message : String) : EvalError := .ofCause (.native message)

/-- An argument as a name. -/
def nameOf (v : Value) : Except EvalError String :=
  match v.string? with
  | some name => .ok name
  | none => .error (failure "bad argument")

/-- The line that a value stands for; words of 32 bits wrap around. -/
def lineOf (v : Value) : UInt32 :=
  let line := (v.number?.map Number.toInt).getD 0
  UInt32.ofNat (line % 2 ^ 32).toNat

/-- A look at the store. -/
def look (r : Except EvalError Value) (σ : Store) (w : Workbench) :
    Except EvalError Value × Store × Workbench := (r, σ, w)

/-- Binds a name and gives the value. -/
def bindName (name value : Value) (isConst : Bool) (s : ScopeId) (σ : Store) (w : Workbench) :
    Except EvalError Value × Store × Workbench :=
  match nameOf name with
  | .error e => (.error e, σ, w)
  | .ok name =>
    match σ.declare s name value isConst with
    | .ok (_, σ) => (.ok value, σ, w)
    | .error cause => (.error (.ofCause cause), σ, w)

/-- Assigns a name and gives the value. -/
def assignName (name value : Value) (s : ScopeId) (σ : Store) (w : Workbench) :
    Except EvalError Value × Store × Workbench :=
  match nameOf name with
  | .error e => (.error e, σ, w)
  | .ok name =>
    match σ.assign s name value with
    | .ok (_, σ) => (.ok value, σ, w)
    | .error fault => (.error (.ofCause (fault.cause name)), σ, w)

/-- What a native does with its arguments in the scope of the call. -/
def run (w : Workbench) (b : Builtin) (args : List Value) (env : ScopeId) (σ : Store) :
    Except EvalError Value × Store × Workbench :=
  let a := args[0]?.getD .null
  let b' := args[1]?.getD .null
  match b with
  | .print => (.ok .null, σ, { w with output := w.output.print (joined args) })
  | .printLine => (.ok .null, σ, { w with output := w.output.printLine (joined args) })
  | .note => (.ok a, σ, w.note a)
  | .capture => (.ok .null, σ, { w with captured := w.captured.push env })
  | .fail => look (.error (failure (joined args))) σ w
  | .failAt => look (.error ((failure b'.text).atLine (lineOf a))) σ w
  | .define isConst => bindName a b' isConst env σ w
  | .defineGlobal => bindName a b' false (σ.global env) σ w
  | .lookup =>
    look ((nameOf a).map fun name => ((σ.resolve env name).map BindingOf.value).getD .null) σ w
  | .assign => assignName a b' env σ w
  | .hasLocal => look ((nameOf a).map fun name => .bool ((σ.bindings env).contains name)) σ w
  | .depth => look (.ok (.int (σ.depth env))) σ w
  | .localSize => look (.ok (.int (σ.bindings env).size)) σ w
  | .typeOf => look (.ok (.string a.type.name)) σ w
  | .isTruthy => look (.ok (.bool a.isTruthy)) σ w
  | .numberOf => look (.ok ((a.number?.map .number).getD .null)) σ w
  | .same => look (.ok (.bool (a.same b'))) σ w
  | .identity => look (.ok a) σ w
  | .count => look (.ok (.int args.length)) σ w
  | .makeNative =>
    match nameOf a with
    | .error e => (.error e, σ, w)
    | .ok name =>
      let (f, w) := w.newNative name .count
      (.ok (.native f), σ, w)

/-- Calls a native by its number. -/
def call (f : NativeFunction) (args : List Value) (env : ScopeId) (σ : Store) (w : Workbench) :
    Except EvalError Value × Store × Workbench :=
  match w.builtins[f.number]? with
  | some b => w.run b args env σ
  | none => (.error (failure "unknown native"), σ, w)

/-- The workbench as a host. Only noted values keep scopes alive. -/
def host : Host Workbench := ⟨call, held⟩

end Workbench

end Treewalk
