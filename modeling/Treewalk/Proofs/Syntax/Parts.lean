import Treewalk.Syntax.Node

/-!
# The parts of a node

The nodes directly below a node, and those of them that the evaluation of the node evaluates where
they stand. The body of a function is evaluated where the function is called, the target of an
assignment and the operand of an update are never evaluated, and a property outside an object has
no value.

Some parts are evaluated in the scope at hand and some in a scope that the node makes. A node
declares nothing at its own level if no name can be bound by it in the scope at hand.

* `NodeKind.children`, the nodes directly below, `NodeKind.parts`, those that are evaluated, and
  `NodeKind.inPlace`, those that are evaluated in the scope at hand.
* `NodeKind.DeclaresNothing`, and `NodeKind.declaresNothing_of_isBlock`: a block declares nothing.
-/

namespace Treewalk.NodeKind

/-- The nodes directly below. -/
def children : NodeKind → List Node
  | .program body => body
  | .block body => body
  | .declaration _ _ init => init.toList
  | .function _ code => code.body
  | .branch cond thenBranch elseBranch => cond :: thenBranch :: elseBranch.toList
  | .whileLoop cond body => [cond, body]
  | .forLoop init cond update body => init.toList ++ cond.toList ++ update.toList ++ [body]
  | .countedLoop bound _ body => [bound, body]
  | .returnValue value => value.toList
  | .binary _ left right => [right, left]
  | .unary _ operand => [operand]
  | .assignment target value => [target, value]
  | .call callee args => args ++ [callee]
  | .member owner (.named _) => [owner]
  | .member owner (.computed key) => [owner, key]
  | .object properties => properties.filterMap Property.value
  | .property p => p.value.toList
  | .breakLoop | .continueLoop | .identifier _ | .number .. | .string _ => []

/-- The nodes evaluated where they stand, in the order of their evaluation. -/
def parts : NodeKind → List Node
  | .function .. => []
  | .unary op operand => if op.isUpdate then [] else [operand]
  | .assignment _ value => [value]
  | .property _ => []
  | kind => kind.children

/-- Whether all that a node evaluates is evaluated in a scope that the node makes. -/
def opensScope : NodeKind → Bool
  | .block _ | .forLoop .. => true
  | _ => false

/-- The parts evaluated in the scope at hand. -/
def inPlace : NodeKind → List Node
  | .block _ | .forLoop .. => []
  | .countedLoop bound _ _ => [bound]
  | kind => kind.parts

/-- Whether a node itself binds a name in the scope at hand. -/
def declares : NodeKind → Bool
  | .declaration .. | .function .. => true
  | _ => false

/-- Whether neither a node nor what it evaluates in the scope at hand binds a name there. -/
inductive DeclaresNothing : NodeKind → Prop
  | intro {kind : NodeKind} (self : kind.declares = false)
    (inPlace : ∀ n ∈ kind.inPlace, DeclaresNothing n.kind) : DeclaresNothing kind

theorem DeclaresNothing.declares_eq {kind : NodeKind} (h : kind.DeclaresNothing) :
    kind.declares = false := by
  obtain ⟨hd, -⟩ := h
  exact hd

theorem DeclaresNothing.of_inPlace {kind : NodeKind} (h : kind.DeclaresNothing) {n : Node}
    (hn : n ∈ kind.inPlace) : n.kind.DeclaresNothing := by
  obtain ⟨-, hp⟩ := h
  exact hp n hn

theorem declaresNothing_of_isBlock {n : Node} (h : n.isBlock = true) :
    n.kind.DeclaresNothing := by
  obtain ⟨kind, line⟩ := n
  cases kind <;> cases h
  exact .intro rfl fun n hn => nomatch hn

end Treewalk.NodeKind
