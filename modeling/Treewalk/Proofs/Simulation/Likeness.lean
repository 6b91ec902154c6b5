import Treewalk.Eval.LoopBound
import Treewalk.Proofs.Syntax.Matching
import Treewalk.Value.Binary
import Treewalk.Value.Property
import Treewalk.Value.Unary

/-!
# Values that stand for each other

Two evaluations side by side need not run the same tree. A likeness says in what their nodes, their
lines and the errors that they raise may differ, and which numbers they compute with: the numbers
of literals and those that operators make. It also says whether operators may panic on these
numbers. `Likeness.same` lets nothing differ.

Values are alike if a program can tell them apart only by a look into objects or into the code of
functions. Operators do neither.

* `Value.Alike.unary_eq` and `Value.Alike.binary_eq`: operators give the same result on both sides.
* `Value.Alike.plain_of_unary` and `Likeness.plain_of_binary`: which is plain, with numbers like
  those of the operands.
* `Value.Alike.panics_eq` and `Value.Alike.panics`: they panic on both sides, if the numbers are
  such that they can.
-/

namespace Treewalk

/-- A value without handles and without an identity. -/
def Value.IsPlain : Value → Prop
  | .object .. | .function _ => False
  | _ => True

/-- What may differ between two evaluations, and the numbers that they compute with. -/
structure Likeness where
  Nodes : Node → Node → Prop
  Lines : UInt32 → UInt32 → Prop
  Errors : EvalError → EvalError → Prop
  Numbers : Number → Prop
  /-- Whether operators may panic. -/
  Panics : Prop
  kind {n n' : Node} : Nodes n n' → n.kind.Matches Nodes n'.kind
  line {n n' : Node} : Nodes n n' → Lines n.line n'.line
  literal {n n' : Node} {raw : Binary64} {isFloat : Bool} : Nodes n n' →
    n.kind = .number raw isFloat → Numbers (.tagged raw isFloat)
  ofCause (cause : ErrorCause) : Errors (.ofCause cause) (.ofCause cause)
  atLine {e e' : EvalError} {line line' : UInt32} : Errors e e' → Lines line line' →
    Errors (e.atLine line) (e'.atLine line')
  int (i : Int) : Numbers (.int i)
  negate {n : Number} : Numbers n → Numbers n.negate
  step {n : Number} (delta : Int) : Numbers n → Numbers (n.step delta)
  arithmetic (raw : Binary64) (a b : Number) : Numbers (.arithmetic raw a b)
  panics {op : BinaryOperator} {a b : Number} : Numbers b → op.numericPanics a b = true → Panics

namespace Likeness

/-- Nothing differs, whatever numbers there are. -/
def same : Likeness where
  Nodes n n' := n = n'
  Lines line line' := line = line'
  Errors e e' := e = e'
  Numbers _ := True
  Panics := True
  kind := by
    rintro n _ rfl
    exact NodeKind.matches_self fun _ _ => rfl
  line := by
    rintro n _ rfl
    rfl
  literal _ _ := trivial
  ofCause _ := rfl
  atLine := by
    rintro e _ line _ rfl rfl
    rfl
  int _ := trivial
  negate _ := trivial
  step _ _ := trivial
  arithmetic _ _ _ := trivial
  panics _ _ := trivial

variable (L : Likeness)

/-- Functions of one name, declared in one scope, whose code matches. -/
structure Closures (f g : Closure) : Prop where
  name : f.name = g.name
  scope : f.scope = g.scope
  code : f.code.Matches L.Nodes g.code

/-- A plain value, which is one of the numbers if it is a number. -/
structure Plain (v : Value) : Prop where
  isPlain : v.IsPlain
  numbers : ∀ n, v = .number n → L.Numbers n

variable {L}

theorem Closures.eq {f g : Closure} (h : same.Closures f g) : f = g := by
  obtain ⟨name, code, scope⟩ := f
  obtain ⟨name', code', scope'⟩ := g
  obtain ⟨rfl, rfl, hc⟩ := h
  obtain rfl : code = code' := hc.eq
  rfl

theorem Closures.refl_same (f : Closure) : same.Closures f f := by
  obtain ⟨name, ⟨label, params, body⟩, scope⟩ := f
  exact ⟨rfl, rfl, .mk (List.forall₂_same.2 fun _ _ => rfl)⟩

theorem Plain.null : L.Plain .null := ⟨trivial, fun _ h => by cases h⟩

theorem Plain.bool (b : Bool) : L.Plain (.bool b) := ⟨trivial, fun _ h => by cases h⟩

theorem Plain.string (s : String) : L.Plain (.string s) := ⟨trivial, fun _ h => by cases h⟩

theorem Plain.number {n : Number} (h : L.Numbers n) : L.Plain (.number n) :=
  ⟨trivial, fun _ hn => Value.number.inj hn ▸ h⟩

theorem Plain.int (i : Int) : L.Plain (.int i) := .number (L.int i)

end Likeness

/-- Values that a program can tell apart only by a look into objects and into code. -/
inductive Value.Alike (L : Likeness) : Value → Value → Prop
  | plain {v : Value} (h : L.Plain v) : Alike L v v
  | objects (i j : ObjectId) (t u : Table Binding) : Alike L (.object i t) (.object j u)
  | functions {f g : Closure} (name : f.name = g.name) (code : f.code.Matches L.Nodes g.code) :
    Alike L (.function f) (.function g)

namespace Value.Alike

variable {L : Likeness} {v w v' w' r : Value}

theorem refl_same (v : Value) : Alike .same v v := by
  cases v with
  | object i t => exact .objects i i t t
  | function f => exact .functions rfl (Likeness.Closures.refl_same f).code
  | _ => exact .plain ⟨trivial, fun _ _ => trivial⟩

theorem type_eq (h : v.Alike L w) : v.type = w.type := by cases h <;> rfl

theorem isTruthy_eq (h : v.Alike L w) : v.isTruthy = w.isTruthy := by cases h <;> rfl

theorem asKey_eq (h : v.Alike L w) : v.asKey = w.asKey := by cases h <;> rfl

theorem loopBound_eq (h : v.Alike L w) : LoopBound.ofValue v = LoopBound.ofValue w := by
  cases h <;> rfl

/-- Operators see no more of an object than that it is one, and so with functions. -/
theorem unary_eq (h : v.Alike L w) (op : UnaryOperator) : op.apply v = op.apply w := by
  cases h with
  | plain => rfl
  | objects | functions => cases op <;> rfl

theorem binary_eq (h : v.Alike L w) (h' : v'.Alike L w') (op : BinaryOperator) :
    op.apply v v' = op.apply w w' := by
  have hb : op.byType v v' = op.byType w w' := by
    cases h with
    | @plain v =>
      cases h' with
      | plain => rfl
      | objects | functions => cases v <;> cases op <;> rfl
    | objects | functions =>
      cases h' with
      | @plain v' => cases v' <;> cases op <;> rfl
      | objects | functions => rfl
  rw [BinaryOperator.apply, BinaryOperator.apply, h.isTruthy_eq, h'.isTruthy_eq, hb]

theorem panics_eq (h : v.Alike L w) (h' : v'.Alike L w') (op : BinaryOperator) :
    op.panics v v' = op.panics w w' := by
  cases h with
  | @plain v =>
    cases h' with
    | plain => rfl
    | objects | functions => cases v <;> rfl
  | objects | functions => rfl

/-- Operators panic only on numbers that allow it. -/
theorem panics (h : v.Alike L w) {op : BinaryOperator} {l : Value}
    (hp : op.panics l v = true) : L.Panics := by
  obtain ⟨a, b, -, hb, hp⟩ := BinaryOperator.numbers_of_panics hp
  refine L.panics (b := b) ?_ hp
  cases h with
  | @plain v hv =>
    cases v with
    | number n =>
      obtain rfl : n = b := Option.some.inj hb
      exact hv.numbers n rfl
    | bool c =>
      obtain rfl : Number.ofBool c = b := Option.some.inj hb
      exact L.int _
    | _ => cases hb
  | objects | functions => cases hb

theorem plain_of_unary {op : UnaryOperator} (h : v.Alike L w) (hr : op.apply v = .ok r) :
    L.Plain r := by
  cases op with
  | not =>
    cases hr
    exact .bool _
  | plus | neg | preIncrement | postIncrement | preDecrement | postDecrement =>
    cases v with
    | number n =>
      obtain @⟨_, ⟨-, hn⟩⟩ := h
      have hn := hn n rfl
      cases hr
      first
        | exact .number hn
        | exact .number (L.negate hn)
        | exact .number (L.step _ hn)
    | _ => cases hr

end Value.Alike

namespace Likeness

variable {L : Likeness} {op : BinaryOperator} {l r v : Value}

theorem plain_of_numeric {a b : Number} (h : op.numeric a b = .ok v) : L.Plain v := by
  cases op with
  | add | sub | mul =>
    cases h
    exact .number (L.arithmetic _ _ _)
  | div =>
    rw [BinaryOperator.numeric] at h
    split at h <;> cases h
    exact .number (L.arithmetic _ _ _)
  | mod =>
    rw [BinaryOperator.numeric] at h
    split at h
    · cases h
    · split at h <;> cases h
      exact .int _
  | _ =>
    cases h
    exact .bool _

theorem plain_of_withString (h : op.withString l r = .ok v) : L.Plain v := by
  unfold BinaryOperator.withString at h
  split at h <;> cases h
  all_goals first
    | exact .string _
    | exact .bool _

/-- What operators make of two values is plain. -/
theorem plain_of_binary (h : op.apply l r = .ok v) : L.Plain v := by
  rw [BinaryOperator.apply] at h
  split at h
  · cases h
    exact .bool _
  · unfold BinaryOperator.byType at h
    split at h
    · exact plain_of_numeric h
    · exact plain_of_numeric h
    · exact plain_of_numeric h
    · exact plain_of_withString h
    · exact plain_of_withString h
    · cases h
      exact .bool _
    · cases h

end Likeness

end Treewalk
