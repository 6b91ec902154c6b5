import Treewalk.Binary64.Shortest
import Treewalk.Syntax.Node
import Treewalk.Text.Structured

/-!
# The text of a syntax tree

Every node shows its kind with all parts, then its line. Numbers are shown in their shortest
digits.
-/

namespace Treewalk

open Text (quoted list entry record applied optional bool)

mutual

/-- The text of a node: its kind and its line. -/
def Node.text : Node → String
  | ⟨kind, line⟩ => kind.text ++ " @ line " ++ toString line

/-- The text of a node without its line. -/
def NodeKind.text : NodeKind → String
  | .program body => record "Program" [entry "body" (list (nodeTexts body))]
  | .block body => record "Block" [entry "body" (list (nodeTexts body))]
  | .declaration name isConst init =>
    record "VarDecl" [entry "name" (quoted name), entry "is_const" (bool isConst),
      entry "init" (optional (optionText init))]
  | .function name code => record "FunctionDecl" (entry "name" (quoted name) :: code.fieldTexts)
  | .branch cond thenBranch elseBranch =>
    record "If" [entry "cond" cond.text, entry "then_branch" thenBranch.text,
      entry "else_branch" (optional (optionText elseBranch))]
  | .whileLoop cond body => record "While" [entry "cond" cond.text, entry "body" body.text]
  | .forLoop init cond update body =>
    record "For" [entry "init" (optional (optionText init)),
      entry "cond" (optional (optionText cond)), entry "update" (optional (optionText update)),
      entry "body" body.text]
  | .countedLoop bound counter body =>
    record "Loop" [entry "bound" bound.text, entry "binding" (optional (counter.map quoted)),
      entry "body" body.text]
  | .breakLoop => "Break"
  | .continueLoop => "Continue"
  | .returnValue value => applied "Return" (optional (optionText value))
  | .binary op left right =>
    record "Binary" [entry "op" op.name, entry "left" left.text, entry "right" right.text]
  | .unary op operand => record "Unary" [entry "op" op.name, entry "operand" operand.text]
  | .assignment target value =>
    record "Assignment" [entry "target" target.text, entry "value" value.text]
  | .call callee args =>
    record "Call" [entry "callee" callee.text, entry "args" (list (nodeTexts args))]
  | .member object key =>
    record "MemberAccess" [entry "object" object.text, entry "key" key.text]
  | .object properties => applied "ObjectLiteral" (list (propertyTexts properties))
  | .property property => applied "PropertyLiteral" property.text
  | .identifier name => applied "Identifier" (quoted name)
  | .number value isFloat =>
    record "Number" [entry "value" value.shortestText, entry "is_float" (bool isFloat)]
  | .string value => applied "Str" (quoted value)

/-- The fields that a function's code adds to its declaration. -/
def Code.fieldTexts : Code → List String
  | ⟨_, params, body⟩ =>
    [entry "params" (list (params.map quoted)), entry "body" (list (nodeTexts body))]

/-- The text of a member key. -/
def MemberKey.text : MemberKey → String
  | .named name => applied "Static" (quoted name)
  | .computed key => applied "Computed" key.text

/-- The text of a property. -/
def Property.text : Property → String
  | ⟨key, value⟩ =>
    record "Property" [entry "key" (quoted key), entry "value" (optional (optionText value))]

/-- The texts of the nodes of a list. -/
def nodeTexts : List Node → List String
  | [] => []
  | n :: ns => n.text :: nodeTexts ns

/-- The texts of the properties of a list. -/
def propertyTexts : List Property → List String
  | [] => []
  | p :: ps => p.text :: propertyTexts ps

/-- The text of an optional node, if it is there. -/
def optionText : Option Node → Option String
  | none => none
  | some n => some n.text

end

end Treewalk
