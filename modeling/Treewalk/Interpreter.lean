import Treewalk.Eval.Exec
import Treewalk.Native.Registry
import Treewalk.Output

/-!
# Interpreters

A builder collects the limits, the sink for printed text and the natives; building makes the global
scope with the constants of the language and all natives. An interpreter evaluates nodes and calls
values, one after the other, on the machine that is left by the one before.

* `Builder.build` makes the global scope.
* `Completion.result?` is what a host sees of a completion.
* `Interpreter.run`, `Interpreter.eval` and `Interpreter.call` are the host's ways in.
-/

namespace Treewalk

/-- What an interpreter is built from. -/
structure Builder where
  config : Config
  sink : Sink
  natives : Registry
  /-- Whether the natives that print are wanted. -/
  printing : Bool

namespace Builder

/-- The builder with standard limits, the console and no natives. -/
def start : Builder := ⟨.standard, .console, .empty, false⟩

/-- Sets the limits. -/
def withConfig (b : Builder) (config : Config) : Builder := { b with config := config }

/-- Sets the sink. -/
def withSink (b : Builder) (sink : Sink) : Builder := { b with sink := sink }

/-- Adds the natives of a registry, over those of the same names. -/
def withNatives (b : Builder) (r : Registry) : Builder := { b with natives := b.natives.merge r }

/-- Adds a native, over one of the same name. -/
def withNative (b : Builder) (f : NativeFunction) : Builder :=
  { b with natives := b.natives.insert f }

/-- Asks for the natives that print. -/
def withPrinting (b : Builder) : Builder := { b with printing := true }

/-- The constants of the language. -/
def prelude : List (String × Value) :=
  [("null", .null), ("true", .bool true), ("false", .bool false)]

/-- Binds constants, in order, until one does not fit. -/
def declareAll (σ : Store) (s : ScopeId) : List (String × Value) → Except ErrorCause Store
  | [] => .ok σ
  | (name, v) :: rest =>
    match σ.declare s name v true with
    | .ok (_, σ) => declareAll σ s rest
    | .error cause => .error cause

/-- All natives: those collected, and over them the two that print if they are wanted. -/
def allNatives (b : Builder) (print printLine : NativeFunction) : Registry :=
  if b.printing then (b.natives.insert print).insert printLine else b.natives

/-- Makes the global scope. It fails only if its bindings do not fit. -/
def build (b : Builder) (print printLine : NativeFunction) (σ : Store) :
    Except ErrorCause (ScopeId × Store) :=
  let (s, σ) := σ.root b.config.globalCapacity b.config.scopeCapacity
  match declareAll σ s prelude with
  | .error cause => .error cause
  | .ok σ =>
    match σ.install s (b.allNatives print printLine) with
    | (_, some cause) => .error cause
    | (σ, none) => .ok (s, σ)

end Builder

/-- What a host sees of a completion: a value or an error, with a line in any case. Signals that
nothing took are null; nothing is seen of an evaluation that panicked or was given up. -/
def Completion.result? (line : UInt32) : Completion → Option (Except EvalError Value)
  | .value v => some (.ok v)
  | .returned v => some (.ok v)
  | .broke => some (.ok .null)
  | .continued => some (.ok .null)
  | .failed e => some (.error (e.atLine line))
  | .panicked | .exhausted => none

/-- A global scope with a machine to evaluate on. -/
structure Interpreter (ω : Type) where
  setting : Setting ω
  globals : ScopeId
  machine : Machine ω

namespace Interpreter

variable {ω : Type}

/-- A result with the interpreter after it. -/
abbrev Result (ω : Type) := Option (Except EvalError Value) × Interpreter ω

/-- Fuel for evaluations that are meant to end. -/
def plenty : Nat := 10 ^ 15

/-- Runs a computation on the interpreter's machine. -/
def perform (I : Interpreter ω) (d : Machine ω → Deferred (Answer ω)) : Result ω :=
  let (c, m) := (d I.machine).force
  (c.result? m.line, { I with machine := m })

/-- Evaluates a node in a scope. -/
def eval (I : Interpreter ω) (fuel : Nat) (held : Held) (n : Node) (env : ScopeId) :
    Result ω :=
  I.perform (I.setting.exec fuel held n env)

/-- Evaluates a node in the global scope. -/
def run (I : Interpreter ω) (fuel : Nat) (held : Held) (n : Node) : Result ω :=
  I.eval fuel held n I.globals

/-- Calls a value as if from the global scope. -/
def call (I : Interpreter ω) (fuel : Nat) (held : Held) (callee : Value)
    (args : List Value) : Result ω :=
  I.perform (I.setting.callValue (I.setting.exec fuel) (held.values (callee :: args)) callee args
    I.globals)

end Interpreter

end Treewalk
