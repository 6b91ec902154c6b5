import Mathlib.Data.List.Forall2
import Mathlib.Data.Option.Basic
import Treewalk.Proofs.Syntax.Parts

/-!
# Nodes with related parts

A relation on nodes is carried to the kinds of nodes: two kinds match if they are made the same
way from the same names, operators, numbers and texts, and of parts that are related one by one.
The lines of nodes have no part in it.

* `NodeKind.Matches`, with `Code.Matches`, `MemberKey.Matches` and `Property.Matches`.
* `NodeKind.matches_self`: a kind matches itself if its parts are related to themselves.
-/

namespace Treewalk

variable {R : Node → Node → Prop}

/-- Code under one label with related statements. -/
inductive Code.Matches (R : Node → Node → Prop) : Code → Code → Prop
  | mk {label : Nat} {params : List String} {body body' : List Node}
    (h : List.Forall₂ R body body') : Matches R ⟨label, params, body⟩ ⟨label, params, body'⟩

/-- Keys that are one name, or given by related nodes. -/
inductive MemberKey.Matches (R : Node → Node → Prop) : MemberKey → MemberKey → Prop
  | named (name : String) : Matches R (.named name) (.named name)
  | computed {key key' : Node} (h : R key key') : Matches R (.computed key) (.computed key')

/-- Properties under one key with related values. -/
inductive Property.Matches (R : Node → Node → Prop) : Property → Property → Prop
  | mk {key : String} {value value' : Option Node} (h : Option.Rel R value value') :
    Matches R ⟨key, value⟩ ⟨key, value'⟩

/-- Kinds of nodes made the same way of related parts. -/
inductive NodeKind.Matches (R : Node → Node → Prop) : NodeKind → NodeKind → Prop
  | program {body body' : List Node} (h : List.Forall₂ R body body') :
    Matches R (.program body) (.program body')
  | block {body body' : List Node} (h : List.Forall₂ R body body') :
    Matches R (.block body) (.block body')
  | declaration {name : String} {isConst : Bool} {init init' : Option Node}
    (h : Option.Rel R init init') :
    Matches R (.declaration name isConst init) (.declaration name isConst init')
  | function {name : String} {code code' : Code} (h : code.Matches R code') :
    Matches R (.function name code) (.function name code')
  | branch {cond cond' thenBranch thenBranch' : Node} {elseBranch elseBranch' : Option Node}
    (hc : R cond cond') (ht : R thenBranch thenBranch') (he : Option.Rel R elseBranch elseBranch') :
    Matches R (.branch cond thenBranch elseBranch) (.branch cond' thenBranch' elseBranch')
  | whileLoop {cond cond' body body' : Node} (hc : R cond cond') (hb : R body body') :
    Matches R (.whileLoop cond body) (.whileLoop cond' body')
  | forLoop {init init' cond cond' update update' : Option Node} {body body' : Node}
    (hi : Option.Rel R init init') (hc : Option.Rel R cond cond')
    (hu : Option.Rel R update update') (hb : R body body') :
    Matches R (.forLoop init cond update body) (.forLoop init' cond' update' body')
  | countedLoop {bound bound' body body' : Node} {counter : Option String} (hn : R bound bound')
    (hb : R body body') :
    Matches R (.countedLoop bound counter body) (.countedLoop bound' counter body')
  | breakLoop : Matches R .breakLoop .breakLoop
  | continueLoop : Matches R .continueLoop .continueLoop
  | returnValue {value value' : Option Node} (h : Option.Rel R value value') :
    Matches R (.returnValue value) (.returnValue value')
  | binary {op : BinaryOperator} {left left' right right' : Node} (hl : R left left')
    (hr : R right right') : Matches R (.binary op left right) (.binary op left' right')
  | unary {op : UnaryOperator} {operand operand' : Node} (h : R operand operand') :
    Matches R (.unary op operand) (.unary op operand')
  | assignment {target target' value value' : Node} (ht : R target target')
    (hv : R value value') : Matches R (.assignment target value) (.assignment target' value')
  | call {callee callee' : Node} {args args' : List Node} (hc : R callee callee')
    (ha : List.Forall₂ R args args') : Matches R (.call callee args) (.call callee' args')
  | member {object object' : Node} {key key' : MemberKey} (ho : R object object')
    (hk : key.Matches R key') : Matches R (.member object key) (.member object' key')
  | object {properties properties' : List Property}
    (h : List.Forall₂ (Property.Matches R) properties properties') :
    Matches R (.object properties) (.object properties')
  | property {p p' : Property} (h : p.Matches R p') : Matches R (.property p) (.property p')
  | identifier (name : String) : Matches R (.identifier name) (.identifier name)
  | number (value : Binary64) (isFloat : Bool) :
    Matches R (.number value isFloat) (.number value isFloat)
  | string (text : String) : Matches R (.string text) (.string text)

/-! ## What matching kinds share -/

theorem NodeKind.Matches.isBlock_eq {n n' : Node} (h : n.kind.Matches R n'.kind) :
    n.isBlock = n'.isBlock := by
  obtain ⟨kind, line⟩ := n
  obtain ⟨kind', line'⟩ := n'
  cases h <;> rfl

theorem Code.Matches.label_eq {c d : Code} (h : c.Matches R d) : c.label = d.label := by
  cases h
  rfl

theorem Code.Matches.eq {c d : Code} (h : c.Matches (· = ·) d) : c = d := by
  cases h with
  | mk h =>
    rw [List.forall₂_eq_eq_eq] at h
    rw [h]

/-! ## Kinds that match themselves -/

theorem optionRel_self {n : Option Node} (h : ∀ n' ∈ n.toList, R n' n') : Option.Rel R n n := by
  cases n with
  | none => exact .none
  | some n => exact .some (h n List.mem_cons_self)

theorem Property.matches_self {p : Property} (h : ∀ n ∈ p.value.toList, R n n) :
    p.Matches R p := by
  obtain ⟨key, value⟩ := p
  exact .mk (optionRel_self h)

/-- A kind matches itself if its parts are related to themselves. -/
theorem NodeKind.matches_self {kind : NodeKind} (h : ∀ n ∈ kind.children, R n n) :
    kind.Matches R kind := by
  cases kind with
  | program body => exact .program (List.forall₂_same.2 h)
  | block body => exact .block (List.forall₂_same.2 h)
  | declaration name isConst init => exact .declaration (optionRel_self h)
  | function name code =>
    obtain ⟨label, params, body⟩ := code
    exact .function (.mk (List.forall₂_same.2 h))
  | branch cond thenBranch elseBranch =>
    rw [children, List.forall_mem_cons, List.forall_mem_cons] at h
    exact .branch h.1 h.2.1 (optionRel_self h.2.2)
  | whileLoop cond body =>
    rw [children, List.forall_mem_cons, List.forall_mem_singleton] at h
    exact .whileLoop h.1 h.2
  | forLoop init cond update body =>
    simp only [children, List.forall_mem_append, List.forall_mem_singleton] at h
    obtain ⟨⟨⟨hi, hc⟩, hu⟩, hb⟩ := h
    exact .forLoop (optionRel_self hi) (optionRel_self hc) (optionRel_self hu) hb
  | countedLoop bound counter body =>
    rw [children, List.forall_mem_cons, List.forall_mem_singleton] at h
    exact .countedLoop h.1 h.2
  | breakLoop => exact .breakLoop
  | continueLoop => exact .continueLoop
  | returnValue value => exact .returnValue (optionRel_self h)
  | binary op left right =>
    rw [children, List.forall_mem_cons, List.forall_mem_singleton] at h
    exact .binary h.2 h.1
  | unary op operand => exact .unary (h operand List.mem_cons_self)
  | assignment target value =>
    rw [children, List.forall_mem_cons, List.forall_mem_singleton] at h
    exact .assignment h.1 h.2
  | call callee args =>
    rw [children, List.forall_mem_append, List.forall_mem_singleton] at h
    exact .call h.2 (List.forall₂_same.2 h.1)
  | member object key =>
    cases key with
    | named name => exact .member (h object List.mem_cons_self) (.named name)
    | computed key =>
      rw [children, List.forall_mem_cons, List.forall_mem_singleton] at h
      exact .member h.1 (.computed h.2)
  | object properties =>
    refine .object (List.forall₂_same.2 fun p hp => Property.matches_self fun n hn => ?_)
    exact h n (List.mem_filterMap.2 ⟨p, hp, Option.mem_toList.1 hn⟩)
  | property p => exact .property (Property.matches_self h)
  | identifier name => exact .identifier name
  | number value isFloat => exact .number value isFloat
  | string text => exact .string text

end Treewalk
