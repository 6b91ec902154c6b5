import Treewalk.Eval.Call
import Treewalk.Eval.Loop
import Treewalk.Value.Binary
import Treewalk.Value.Property
import Treewalk.Value.Unary

/-!
# Evaluation of nodes

`Setting.exec` evaluates a node with fuel, which bounds the nesting of nodes and the runs of loops.
Each kind of node has a definition of its own over the evaluator for its parts; `step` chooses
among them. An error gets the line of the innermost node that it leaves.

Operands are evaluated in the order of the definitions: of a binary operator the right one first,
of a call the arguments before the callee. Values that wait for later parts stay held.

Main statement: `value_exec_succ`, the equation of a node with fuel.
-/

namespace Treewalk

/-- The property that copies a variable, with its constancy. -/
def Store.shorthand (σ : Store) (s : ScopeId) (name : String) :
    Except ErrorCause (Binding × Store) :=
  match σ.resolve s name with
  | none => .error (.undefinedIdentifier name)
  | some b =>
    let (v, σ) := σ.copy b.value
    .ok (⟨name, b.isConst, v⟩, σ)

namespace Setting

variable {ω : Type}

/-- Statements in the scope at hand. Signals that no loop takes are dropped one by one. -/
def programRuns (evaluate : Evaluator ω) (held : Held) (env : ScopeId) (last : Value) :
    List Node → Machine ω → Deferred (Answer ω)
  | [], m => m.give last
  | n :: rest, m =>
    .seq (evaluate (held.value last) n env m) fun (c, m) =>
      match c.discardLoopSignal with
      | .value v => programRuns evaluate held env v rest m
      | c => .done (c, m)

/-- Statements of a block; the value is that of the last one. -/
def blockRuns (evaluate : Evaluator ω) (held : Held) (s : ScopeId) (last : Value) :
    List Node → Machine ω → Deferred (Answer ω)
  | [], m => m.give last
  | n :: rest, m =>
    (evaluate (held.value last) n s m).thenValue fun v m =>
      blockRuns evaluate held s v rest m

/-- A block, in a new scope. -/
def block (S : Setting ω) (evaluate : Evaluator ω) (held : Held) (body : List Node)
    (env : ScopeId) (m : Machine ω) : Deferred (Answer ω) :=
  S.within held env m fun s m => blockRuns evaluate (held.scope s) s .null body m

/-- Binds a name in the scope at hand and gives the value. -/
def declare (name : String) (v : Value) (isConst : Bool) (env : ScopeId) (m : Machine ω) :
    Deferred (Answer ω) :=
  match m.store.declare env name v isConst with
  | .ok (_, σ) => (m.withStore σ).give v
  | .error cause => m.fail cause

/-- A condition with one or two branches. -/
def branch (evaluate : Evaluator ω) (held : Held) (cond thenBranch : Node)
    (elseBranch : Option Node) (env : ScopeId) (m : Machine ω) : Deferred (Answer ω) :=
  (evaluate held cond env m).thenValue fun v m =>
    if v.isTruthy then evaluate held thenBranch env m
    else evaluateOr evaluate held .null elseBranch env m

/-- A binary operator on two values. -/
def operate (op : BinaryOperator) (left right : Value) (m : Machine ω) : Deferred (Answer ω) :=
  if op.panics left right then .done (.panicked, m) else m.finish (op.apply left right)

/-- A binary operator, its right operand first. -/
def binary (evaluate : Evaluator ω) (held : Held) (op : BinaryOperator) (left right : Node)
    (env : ScopeId) (m : Machine ω) : Deferred (Answer ω) :=
  (evaluate held right env m).thenValue fun r m =>
    (evaluate (held.value r) left env m).thenValue fun l m => operate op l r m

/-- An increment or decrement of a variable. -/
def update (op : UnaryOperator) (operand : NodeKind) (env : ScopeId) (m : Machine ω) :
    Deferred (Answer ω) :=
  match operand with
  | .identifier name =>
    match m.store.lookup env name with
    | .error cause => m.fail cause
    | .ok old =>
      match op.apply old with
      | .error cause => m.fail cause
      | .ok new =>
        match m.store.assign env name new with
        | .error fault => m.fail (fault.cause name)
        | .ok (_, σ) => (m.withStore σ).give (if op.isPrefixUpdate then new else old)
  | _ => m.fail (.invalidLvalue op)

/-- A unary operator. -/
def unary (evaluate : Evaluator ω) (held : Held) (op : UnaryOperator) (operand : Node)
    (env : ScopeId) (m : Machine ω) : Deferred (Answer ω) :=
  if op.isUpdate then update op operand.kind env m
  else (evaluate held operand env m).thenValue fun v m => m.finish (op.apply v)

/-- An assignment. The target is checked before the value is evaluated. -/
def assignment (evaluate : Evaluator ω) (held : Held) (target : NodeKind) (value : Node)
    (env : ScopeId) (m : Machine ω) : Deferred (Answer ω) :=
  match target with
  | .identifier name =>
    match m.store.resolve env name with
    | none => m.fail (.undefinedIdentifier name)
    | some b =>
      if b.isConst then m.fail (.constReassignment name)
      else
        (evaluate held value env m).thenValue fun v m =>
          match m.store.assign env name v with
          | .error fault => m.fail (fault.cause name)
          | .ok (b, σ) => (m.withStore σ).give b.value
  | kind => m.fail (.invalidAssignmentTarget kind.name)

/-- The values of arguments, from left to right, each held while the next are evaluated. -/
def arguments (evaluate : Evaluator ω) (held : Held) (env : ScopeId)
    (next : Held → List Value → Machine ω → Deferred (Answer ω)) (values : List Value) :
    List Node → Machine ω → Deferred (Answer ω)
  | [], m => next held values m
  | n :: rest, m =>
    (evaluate held n env m).thenValue fun v m =>
      arguments evaluate (held.value v) env next (values ++ [v]) rest m

/-- A call: the arguments, then the callee, then the call itself. -/
def call (S : Setting ω) (evaluate : Evaluator ω) (held : Held) (callee : Node)
    (args : List Node) (env : ScopeId) (m : Machine ω) : Deferred (Answer ω) :=
  arguments evaluate held env (fun held args m =>
    (evaluate held callee env m).thenValue fun f m =>
      S.callValue evaluate (held.value f) f args env m) [] args m

/-- A property of an object. -/
def member (evaluate : Evaluator ω) (held : Held) (object : Node) (key : MemberKey)
    (env : ScopeId) (m : Machine ω) : Deferred (Answer ω) :=
  (evaluate held object env m).thenValue fun o m =>
    match key with
    | .named name => m.finish (o.property name)
    | .computed key =>
      (evaluate (held.value o) key env m).thenValue fun k m =>
        m.finish (k.asKey.bind o.property)

/-- Puts a property into the table of an object that is being made. -/
def addProperty (properties : Table Binding) (b : Binding)
    (next : Table Binding → Machine ω → Deferred (Answer ω)) (m : Machine ω) :
    Deferred (Answer ω) :=
  match properties.set? b.name b with
  | some (_, properties) => next properties m
  | none => m.fail (.tableOverflow properties.capacity)

/-- The properties of an object in order, those made so far held. The keys are those of the
properties made so far. -/
def objectRuns (evaluate : Evaluator ω) (held : Held) (env : ScopeId) (keys : List String)
    (properties : Table Binding) : List Property → Machine ω → Deferred (Answer ω)
  | [], m =>
    let (v, σ) := m.store.object properties
    (m.withStore σ).give v
  | ⟨key, none⟩ :: rest, m =>
    match m.store.shorthand env key with
    | .error cause => m.fail cause
    | .ok (b, σ) =>
      addProperty properties b
        (fun properties m => objectRuns evaluate held env (keys.insert key) properties rest m)
        (m.withStore σ)
  | ⟨key, some n⟩ :: rest, m =>
    let made := keys.filterMap fun key => (properties.get? key).map BindingOf.value
    (evaluate (held.values made) n env m).thenValue fun v m =>
      let (v, σ) := m.store.copy v
      addProperty properties ⟨key, false, v⟩
        (fun properties m => objectRuns evaluate held env (keys.insert key) properties rest m)
        (m.withStore σ)

/-- Evaluates a kind of node over an evaluator for its parts. -/
def step (S : Setting ω) (fuel : Nat) (evaluate : Evaluator ω) (held : Held)
    (kind : NodeKind) (env : ScopeId) (m : Machine ω) : Deferred (Answer ω) :=
  match kind with
  | .program body => programRuns evaluate held env .null body m
  | .block body => S.block evaluate held body env m
  | .declaration name isConst init =>
    (evaluateOr evaluate held .null init env m).thenValue fun v m => declare name v isConst env m
  | .function name code => declare name (.function ⟨name, code, env⟩) true env m
  | .branch cond thenBranch elseBranch => branch evaluate held cond thenBranch elseBranch env m
  | .whileLoop cond body => whileRuns evaluate held cond body env fuel m
  | .forLoop init cond update body => S.forLoop evaluate fuel held init cond update body env m
  | .countedLoop bound counter body => S.countedLoop evaluate fuel held bound counter body env m
  | .breakLoop => .done (.broke, m)
  | .continueLoop => .done (.continued, m)
  | .returnValue value =>
    (evaluateOr evaluate held .null value env m).thenValue fun v m => .done (.returned v, m)
  | .binary op left right => binary evaluate held op left right env m
  | .unary op operand => unary evaluate held op operand env m
  | .assignment target value => assignment evaluate held target.kind value env m
  | .call callee args => S.call evaluate held callee args env m
  | .member object key => member evaluate held object key env m
  | .object properties =>
    objectRuns evaluate held env [] (.withCapacity S.config.objectCapacity) properties m
  | .property p => m.fail (.unsupportedNode (NodeKind.property p).name)
  | .identifier name => m.finish (m.store.lookup env name)
  | .number value isFloat => m.give (.number (.tagged value isFloat))
  | .string s => m.give (.string s)

/-- Evaluates a node. Without fuel the evaluation is given up. -/
def exec (S : Setting ω) : (fuel : Nat) → Evaluator ω
  | 0 => fun _ _ _ m => .done (.exhausted, m)
  | fuel + 1 => fun held n env m =>
    (S.step fuel (exec S fuel) held n.kind env { m with line := n.line }).map
      fun (c, m) => (c.atLine n.line, m)

@[simp] theorem value_exec_zero (S : Setting ω) (held : Held) (n : Node) (env : ScopeId)
    (m : Machine ω) : (S.exec 0 held n env m).value = (.exhausted, m) := rfl

theorem value_exec_succ (S : Setting ω) (fuel : Nat) (held : Held) (n : Node)
    (env : ScopeId) (m : Machine ω) :
    (S.exec (fuel + 1) held n env m).value =
      let (c, m) := (S.step fuel (S.exec fuel) held n.kind env { m with line := n.line }).value
      (c.atLine n.line, m) := rfl

end Setting

end Treewalk
