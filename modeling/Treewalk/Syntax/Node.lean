import Treewalk.Binary64.Basic
import Treewalk.Syntax.Operator

/-!
# Syntax trees

Statements and expressions are one type: every statement can stand where a value is wanted. A node
carries the line that it came from. Every function declaration carries a label of its own, so that
two closures can be told apart by the code they run; equality of trees ignores labels and compares
numbers as numbers.
-/

namespace Treewalk

mutual

/-- A node of a syntax tree with its line. -/
structure Node where
  kind : NodeKind
  line : UInt32

/-- What a node is, with its parts. -/
inductive NodeKind where
  /-- Statements evaluated in the environment at hand. -/
  | program (body : List Node)
  /-- Statements evaluated in a scope of their own. -/
  | block (body : List Node)
  | declaration (name : String) (isConst : Bool) (init : Option Node)
  | function (name : String) (code : Code)
  | branch (cond thenBranch : Node) (elseBranch : Option Node)
  | whileLoop (cond body : Node)
  | forLoop (init cond update : Option Node) (body : Node)
  /-- A loop with a bound and a counter variable. -/
  | countedLoop (bound : Node) (counter : Option String) (body : Node)
  | breakLoop
  | continueLoop
  | returnValue (value : Option Node)
  | binary (op : BinaryOperator) (left right : Node)
  | unary (op : UnaryOperator) (operand : Node)
  | assignment (target value : Node)
  | call (callee : Node) (args : List Node)
  | member (object : Node) (key : MemberKey)
  | object (properties : List Property)
  /-- A property outside an object, which has no value. -/
  | property (property : Property)
  | identifier (name : String)
  | number (value : Binary64) (isFloat : Bool)
  | string (value : String)

/-- The code of a function. The label is unique to the declaration. -/
structure Code where
  label : Nat
  params : List String
  body : List Node

/-- The key of a member access: a name, or a node that gives one. -/
inductive MemberKey where
  | named (name : String)
  | computed (key : Node)

/-- An entry of an object. Without a value it copies the variable of its name. -/
structure Property where
  key : String
  value : Option Node

end

namespace Node

/-- Whether the node is a block, which alone puts a loop's body under the loop's control. -/
def isBlock (n : Node) : Bool :=
  match n.kind with
  | .block _ => true
  | _ => false

end Node

/-- What messages call a node of this kind. -/
def NodeKind.name : NodeKind → String
  | .program _ => "program"
  | .block _ => "block"
  | .declaration .. => "variable declaration"
  | .function .. => "function declaration"
  | .branch .. => "if statement"
  | .whileLoop .. => "while loop"
  | .forLoop .. => "for loop"
  | .countedLoop .. => "loop statement"
  | .breakLoop => "break"
  | .continueLoop => "continue"
  | .returnValue _ => "return"
  | .binary .. => "binary expression"
  | .unary .. => "unary expression"
  | .assignment .. => "assignment"
  | .call .. => "call expression"
  | .member .. => "member access"
  | .object _ => "object literal"
  | .property _ => "property literal"
  | .identifier _ => "identifier"
  | .number .. => "numeric literal"
  | .string _ => "string literal"

/-! ### Equality -/

mutual

/-- Equality of trees, lines included. Labels of functions do not count. -/
def Node.same : Node → Node → Bool
  | ⟨k, l⟩, ⟨k', l'⟩ => k.same k' && l == l'

/-- Equality of two nodes without their own lines. -/
def NodeKind.same : NodeKind → NodeKind → Bool
  | .program b, .program b' => sameNodes b b'
  | .block b, .block b' => sameNodes b b'
  | .declaration n c i, .declaration n' c' i' => n == n' && c == c' && sameOption i i'
  | .function n c, .function n' c' => n == n' && c.same c'
  | .branch c t e, .branch c' t' e' => c.same c' && t.same t' && sameOption e e'
  | .whileLoop c b, .whileLoop c' b' => c.same c' && b.same b'
  | .forLoop i c u b, .forLoop i' c' u' b' =>
    sameOption i i' && sameOption c c' && sameOption u u' && b.same b'
  | .countedLoop n c b, .countedLoop n' c' b' => n.same n' && c == c' && b.same b'
  | .breakLoop, .breakLoop => true
  | .continueLoop, .continueLoop => true
  | .returnValue v, .returnValue v' => sameOption v v'
  | .binary o l r, .binary o' l' r' => o == o' && l.same l' && r.same r'
  | .unary o x, .unary o' x' => o == o' && x.same x'
  | .assignment t v, .assignment t' v' => t.same t' && v.same v'
  | .call c as, .call c' as' => c.same c' && sameNodes as as'
  | .member o k, .member o' k' => o.same o' && k.same k'
  | .object ps, .object ps' => sameProperties ps ps'
  | .property p, .property p' => p.same p'
  | .identifier n, .identifier n' => n == n'
  | .number v f, .number v' f' => v.equal v' && f == f'
  | .string s, .string s' => s == s'
  | _, _ => false

/-- Equality of code. -/
def Code.same : Code → Code → Bool
  | ⟨_, ps, b⟩, ⟨_, ps', b'⟩ => ps == ps' && sameNodes b b'

/-- Equality of member keys. -/
def MemberKey.same : MemberKey → MemberKey → Bool
  | .named n, .named n' => n == n'
  | .computed k, .computed k' => k.same k'
  | _, _ => false

/-- Equality of properties. -/
def Property.same : Property → Property → Bool
  | ⟨k, v⟩, ⟨k', v'⟩ => k == k' && sameOption v v'

/-- Equality of lists of nodes. -/
def sameNodes : List Node → List Node → Bool
  | [], [] => true
  | n :: ns, n' :: ns' => n.same n' && sameNodes ns ns'
  | _, _ => false

/-- Equality of lists of properties. -/
def sameProperties : List Property → List Property → Bool
  | [], [] => true
  | p :: ps, p' :: ps' => p.same p' && sameProperties ps ps'
  | _, _ => false

/-- Equality of optional nodes. -/
def sameOption : Option Node → Option Node → Bool
  | none, none => true
  | some n, some n' => n.same n'
  | _, _ => false

end

end Treewalk
