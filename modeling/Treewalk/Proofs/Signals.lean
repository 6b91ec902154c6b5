import Treewalk.Eval.Exec
import Treewalk.Native.Workbench
import Treewalk.Proofs.Syntax.Parts

/-!
# Where control signals can come from

The signals for loops and calls are confined by the syntax. `Node.Exposes` says from which nodes a
signal can come: from the statement that raises it, and from every node that evaluates such a node
in place without taking the signal. A program takes the signals for loops, a loop takes those of a
body that is a block, and a call takes all.

* `Setting.emits_step`: a signal with which a kind of node ends is its own or comes from a part
  that lets it pass.
* `signals_confined`: a node that ends with a signal exposes it; a call never ends with one.
-/

namespace Treewalk

/-- The ways of leaving a node for an enclosing loop or call. -/
inductive Signal where
  | broke
  | continued
  | returned
  deriving DecidableEq, Repr

/-- Whether the signal is for a loop. -/
def Signal.isForLoop : Signal → Bool
  | broke | continued => true
  | returned => false

/-- The signal that a completion is. -/
def Completion.signal? : Completion → Option Signal
  | broke => some .broke
  | continued => some .continued
  | returned _ => some .returned
  | _ => none

namespace NodeKind

/-- The signal that a statement is there to raise. -/
def signal? : NodeKind → Option Signal
  | .breakLoop => some .broke
  | .continueLoop => some .continued
  | .returnValue _ => some .returned
  | _ => none

/-- The body of a loop, if a signal passes from it: a body that is a block is under the control of
the loop. -/
def bodyPassing (x : Signal) (body : Node) : List Node :=
  if x.isForLoop && body.isBlock then [] else [body]

/-- The parts from which a signal passes. -/
def passing (x : Signal) : NodeKind → List Node
  | .program body => if x.isForLoop then [] else body
  | .whileLoop cond body => cond :: bodyPassing x body
  | .forLoop init cond update body =>
    init.toList ++ cond.toList ++ update.toList ++ bodyPassing x body
  | .countedLoop bound _ body => bound :: bodyPassing x body
  | kind => kind.parts

end NodeKind

/-- Whether a signal can come from a node: the node raises it, or a part from which it passes
exposes it. -/
inductive Node.Exposes (x : Signal) : Node → Prop
  | own {n : Node} (h : n.kind.signal? = some x) : Exposes x n
  | part {n p : Node} (hp : p ∈ n.kind.passing x) (h : Exposes x p) : Exposes x n

/-- No program exposes a signal for a loop. -/
theorem Node.not_exposes_program {x : Signal} {n : Node} {body : List Node}
    (hn : n.kind = .program body) (hx : x.isForLoop = true) : ¬n.Exposes x := by
  intro h
  cases h with
  | own h =>
    rw [hn] at h
    cases h
  | part hp _ => simp [hn, NodeKind.passing, hx] at hp

variable {ω : Type} {x : Signal} {m : Machine ω}

@[simp] theorem Completion.signal?_atLine (c : Completion) (line : UInt32) :
    (c.atLine line).signal? = c.signal? := by
  cases c <;> rfl

@[simp] theorem Completion.signal?_dropValue (c : Completion) :
    c.dropValue.signal? = c.signal? := by
  cases c <;> rfl

/-- A loop lets pass what is no signal for it, and every signal from a body that is no block. -/
theorem Completion.eq_of_bodyStatus {isBlock : Bool} {c d : Completion}
    (h : c.bodyStatus isBlock = .error d) :
    d = c ∧ ∀ x, c.signal? = some x → (x.isForLoop && isBlock) = false := by
  cases isBlock <;> cases c <;>
    simp_all [bodyStatus, loopStatus, signal?, Signal.isForLoop]

/-! ## Composition -/

namespace Deferred

/-- Whether a computation ends with a signal. -/
def Emits (d : Deferred (Answer ω)) (x : Signal) : Prop := d.value.1.signal? = some x

theorem not_emits_give (v : Value) : ¬(m.give v).Emits x := by
  simp [Emits, Machine.give, Completion.signal?]

theorem not_emits_fail (cause : ErrorCause) : ¬(m.fail cause).Emits x := by
  simp [Emits, Machine.fail, Completion.fail, Completion.signal?]

theorem not_emits_finish (r : Except ErrorCause Value) : ¬(m.finish r).Emits x := by
  cases r with
  | ok v => exact not_emits_give v
  | error cause => exact not_emits_fail cause

theorem not_emits_exhausted : ¬(done (.exhausted, m)).Emits x := by
  simp [Emits, Completion.signal?]

theorem not_emits_operate (op : BinaryOperator) (l r : Value) :
    ¬(Setting.operate op l r m).Emits x := by
  unfold Setting.operate
  split
  · simp [Emits, Completion.signal?]
  · exact not_emits_finish _

theorem emits_thenValue {first : Deferred (Answer ω)}
    {rest : Value → Machine ω → Deferred (Answer ω)} (h : (first.thenValue rest).Emits x) :
    first.Emits x ∨ ∃ v m, (rest v m).Emits x := by
  rw [Emits, value_thenValue] at h
  split at h
  · next v m _ => exact .inr ⟨v, m, h⟩
  · exact .inl h

/-- A signal passes from a loop's body unless the loop controls the body. -/
theorem emits_loopBody {isBlock : Bool} {body : Deferred (Answer ω)}
    (next : Machine ω → Deferred (Answer ω))
    (h : (seq body fun (c, m) =>
      match c.bodyStatus isBlock with
      | .ok .broke => m.give .null
      | .ok _ => next m
      | .error c => .done (c, m)).Emits x) :
    body.Emits x ∧ (x.isForLoop && isBlock) = false ∨ ∃ m, (next m).Emits x := by
  rw [Emits, value_seq] at h
  rw [Emits]
  generalize body.value = a at h ⊢
  obtain ⟨c, m⟩ := a
  dsimp only at h ⊢
  split at h
  · exact (not_emits_give .null h).elim
  · exact .inr ⟨m, h⟩
  · next d hd =>
    obtain ⟨rfl, hx⟩ := Completion.eq_of_bodyStatus hd
    exact .inl ⟨h, hx x h⟩

end Deferred

open Deferred

/-- Whether an evaluator can end a node with a signal. -/
def Evaluator.Emits (ev : Evaluator ω) (x : Signal) (n : Node) : Prop :=
  ∃ held env m, (ev held n env m).Emits x

namespace Setting

variable {S : Setting ω} {ev : Evaluator ω} {held : Held} {env s : ScopeId}

theorem emits_within {parent : ScopeId} {body : ScopeId → Machine ω → Deferred (Answer ω)}
    (h : (S.within held parent m body).Emits x) : ∃ s m, (body s m).Emits x :=
  ⟨_, _, h⟩

theorem emits_evaluateOr {default : Value} {n : Option Node}
    (h : (evaluateOr ev held default n env m).Emits x) : ∃ p ∈ n.toList, ev.Emits x p := by
  cases n with
  | none => exact (not_emits_give default h).elim
  | some p => exact ⟨p, List.mem_cons_self, held, env, m, h⟩

/-! ## Statements in a row -/

theorem emits_programRuns {last : Value} {body : List Node}
    (h : (programRuns ev held env last body m).Emits x) :
    x.isForLoop = false ∧ ∃ p ∈ body, ev.Emits x p := by
  induction body generalizing last m with
  | nil => exact (not_emits_give last h).elim
  | cons n rest ih =>
    have hrest : ∀ {v m}, (programRuns ev held env v rest m).Emits x →
        x.isForLoop = false ∧ ∃ p ∈ n :: rest, ev.Emits x p := fun h =>
      (ih h).imp_right fun ⟨p, hp, he⟩ => ⟨p, List.mem_cons_of_mem n hp, he⟩
    rw [programRuns, Emits, value_seq] at h
    cases hd : (ev (held.value last) n env m).value with
    | mk c m' =>
      rw [hd] at h
      cases c with
      | value v => exact hrest h
      | broke => exact hrest h
      | continued => exact hrest h
      | returned v =>
        have hx : some Signal.returned = some x := h
        cases hx
        exact ⟨rfl, n, List.mem_cons_self, _, env, m, by rw [Emits, hd]; rfl⟩
      | failed e => simp [Completion.discardLoopSignal, Completion.signal?] at h
      | panicked | exhausted => simp [Completion.discardLoopSignal, Completion.signal?] at h

theorem emits_blockRuns {last : Value} {body : List Node}
    (h : (blockRuns ev held s last body m).Emits x) : ∃ p ∈ body, ev.Emits x p := by
  induction body generalizing last m with
  | nil => exact (not_emits_give last h).elim
  | cons n rest ih =>
    rcases emits_thenValue h with hn | ⟨v, m, h⟩
    · exact ⟨n, List.mem_cons_self, _, s, m, hn⟩
    · obtain ⟨p, hp, he⟩ := ih h
      exact ⟨p, List.mem_cons_of_mem n hp, he⟩

/-! ## Calls -/

/-- A body of a function takes all signals. -/
theorem not_emits_runBody {body : List Node} : ¬(runBody ev held s body m).Emits x := by
  induction body generalizing m with
  | nil => exact not_emits_give .null
  | cons n rest ih =>
    rw [runBody, Emits, value_seq]
    obtain ⟨c, m'⟩ := (ev held n s m).value
    cases c with
    | value v => exact ih
    | broke => exact ih
    | continued => exact ih
    | returned v => exact not_emits_give _
    | failed e => simp [Completion.discardLoopSignal, Completion.signal?]
    | panicked | exhausted => simp [Completion.discardLoopSignal, Completion.signal?]

/-- **No signal leaves a call**, whatever evaluates the body. -/
theorem not_emits_callValue (callee : Value) (args : List Value) :
    ¬(S.callValue ev held callee args env m).Emits x := by
  cases callee with
  | native f =>
    rw [callValue, callNative, Emits]
    rcases S.host.call f args env m.store m.world with ⟨_ | v, σ, w⟩ <;>
      simp [Completion.signal?]
  | function f =>
    rw [callValue, callClosure]
    split
    · exact not_emits_fail _
    · split
      · exact not_emits_fail _
      · intro h
        obtain ⟨s, m, h⟩ := emits_within h
        split at h
        · exact not_emits_fail _ h
        · exact not_emits_runBody h
  | _ => exact not_emits_fail _

theorem emits_arguments {next : Held → List Value → Machine ω → Deferred (Answer ω)}
    {values : List Value} {args : List Node}
    (h : (arguments ev held env next values args m).Emits x) :
    (∃ p ∈ args, ev.Emits x p) ∨ ∃ held values m, (next held values m).Emits x := by
  induction args generalizing held values m with
  | nil => exact .inr ⟨held, values, m, h⟩
  | cons n rest ih =>
    rcases emits_thenValue h with hn | ⟨v, m', h⟩
    · exact .inl ⟨n, List.mem_cons_self, held, env, m, hn⟩
    · exact (ih h).imp_left fun ⟨p, hp, he⟩ => ⟨p, List.mem_cons_of_mem n hp, he⟩

theorem emits_call {callee : Node} {args : List Node}
    (h : (S.call ev held callee args env m).Emits x) : ∃ p ∈ args ++ [callee], ev.Emits x p := by
  rcases emits_arguments h with ⟨p, hp, he⟩ | ⟨held, values, m, h⟩
  · exact ⟨p, List.mem_append_left _ hp, he⟩
  · rcases emits_thenValue h with hc | ⟨f, m, h⟩
    · exact ⟨callee, List.mem_append_right _ List.mem_cons_self, _, _, _, hc⟩
    · exact (not_emits_callValue f values h).elim

/-! ## Expressions -/

theorem not_emits_declare {name : String} {v : Value} {isConst : Bool} :
    ¬(declare name v isConst env m).Emits x := by
  rw [declare]
  split
  · exact not_emits_give v
  · exact not_emits_fail _

theorem not_emits_update {op : UnaryOperator} {operand : NodeKind} :
    ¬(update op operand env m).Emits x := by
  unfold update
  split
  · split
    · exact not_emits_fail _
    · split
      · exact not_emits_fail _
      · split
        · exact not_emits_fail _
        · exact not_emits_give _
  · exact not_emits_fail _

theorem emits_unary {op : UnaryOperator} {operand : Node}
    (h : (unary ev held op operand env m).Emits x) :
    ∃ p ∈ (NodeKind.unary op operand).parts, ev.Emits x p := by
  rw [unary] at h
  rw [NodeKind.parts]
  split at h
  · exact (not_emits_update h).elim
  · next hop =>
    rw [if_neg hop]
    rcases emits_thenValue h with h | ⟨v, m, h⟩
    · exact ⟨operand, List.mem_cons_self, held, env, m, h⟩
    · exact (not_emits_finish _ h).elim

theorem emits_assignment {target : NodeKind} {value : Node}
    (h : (assignment ev held target value env m).Emits x) : ev.Emits x value := by
  unfold assignment at h
  split at h
  · split at h
    · exact (not_emits_fail _ h).elim
    · split at h
      · exact (not_emits_fail _ h).elim
      · rcases emits_thenValue h with h | ⟨v, m, h⟩
        · exact ⟨held, env, m, h⟩
        · split at h
          · exact (not_emits_fail _ h).elim
          · exact (not_emits_give _ h).elim
  · exact (not_emits_fail _ h).elim

theorem emits_branch {cond thenBranch : Node} {elseBranch : Option Node}
    (h : (branch ev held cond thenBranch elseBranch env m).Emits x) :
    ∃ p ∈ cond :: thenBranch :: elseBranch.toList, ev.Emits x p := by
  rcases emits_thenValue h with h | ⟨v, m, h⟩
  · exact ⟨cond, List.mem_cons_self, held, env, m, h⟩
  · split at h
    · exact ⟨thenBranch, by simp, held, env, m, h⟩
    · obtain ⟨p, hp, he⟩ := emits_evaluateOr h
      exact ⟨p, by simp [hp], he⟩

theorem emits_binary {op : BinaryOperator} {left right : Node}
    (h : (binary ev held op left right env m).Emits x) : ∃ p ∈ [right, left], ev.Emits x p := by
  rcases emits_thenValue h with h | ⟨r, m, h⟩
  · exact ⟨right, by simp, held, env, m, h⟩
  · rcases emits_thenValue h with h | ⟨l, m, h⟩
    · exact ⟨left, by simp, _, env, m, h⟩
    · exact (not_emits_operate op l r h).elim

theorem emits_member {object : Node} {key : MemberKey}
    (h : (member ev held object key env m).Emits x) :
    ∃ p ∈ (NodeKind.member object key).parts, ev.Emits x p := by
  rcases emits_thenValue h with h | ⟨o, m, h⟩
  · refine ⟨object, ?_, held, env, m, h⟩
    cases key <;> exact List.mem_cons_self
  · cases key with
    | named name => exact (not_emits_finish _ h).elim
    | computed key =>
      rcases emits_thenValue h with h | ⟨k, m, h⟩
      · exact ⟨key, by simp [NodeKind.parts, NodeKind.children], _, env, m, h⟩
      · exact (not_emits_finish _ h).elim

theorem emits_addProperty {properties : Table Binding} {b : Binding}
    {next : Table Binding → Machine ω → Deferred (Answer ω)}
    (h : (addProperty properties b next m).Emits x) : ∃ t m, (next t m).Emits x := by
  rw [addProperty] at h
  split at h
  · next t _ => exact ⟨t, m, h⟩
  · exact (not_emits_fail _ h).elim

theorem emits_objectRuns {keys : List String} {made : Table Binding} {properties : List Property}
    (h : (objectRuns ev held env keys made properties m).Emits x) :
    ∃ p ∈ properties.filterMap Property.value, ev.Emits x p := by
  induction properties generalizing keys made m with
  | nil => exact (not_emits_give _ h).elim
  | cons property rest ih =>
    obtain ⟨key, _ | n⟩ := property
    · rw [objectRuns] at h
      split at h
      · exact (not_emits_fail _ h).elim
      · obtain ⟨t, m, h⟩ := emits_addProperty h
        exact ih h
    · rw [objectRuns] at h
      rcases emits_thenValue h with h | ⟨v, m, h⟩
      · exact ⟨n, by simp, _, env, m, h⟩
      · obtain ⟨t, m, h⟩ := emits_addProperty h
        obtain ⟨p, hp, he⟩ := ih h
        exact ⟨p, by simp [hp], he⟩

/-! ## Loops -/

theorem mem_bodyPassing {body : Node} (h : (x.isForLoop && body.isBlock) = false) :
    body ∈ NodeKind.bodyPassing x body := by
  rw [NodeKind.bodyPassing, h]
  exact List.mem_cons_self

theorem emits_whileRuns {cond body : Node} {fuel : Nat}
    (h : (whileRuns ev held cond body env fuel m).Emits x) :
    ∃ p ∈ cond :: NodeKind.bodyPassing x body, ev.Emits x p := by
  induction fuel generalizing m with
  | zero => exact (not_emits_exhausted h).elim
  | succ fuel ih =>
    rcases emits_thenValue h with h | ⟨v, m, h⟩
    · exact ⟨cond, List.mem_cons_self, held, env, m, h⟩
    · split at h
      · rcases emits_loopBody _ h with ⟨h, hx⟩ | ⟨m, h⟩
        · exact ⟨body, List.mem_cons_of_mem cond (mem_bodyPassing hx), held, env, m, h⟩
        · exact ih h
      · exact (not_emits_give _ h).elim

theorem emits_forRuns {cond update : Option Node} {body : Node} {fuel : Nat}
    (h : (forRuns ev held cond update body s fuel m).Emits x) :
    ∃ p ∈ cond.toList ++ update.toList ++ NodeKind.bodyPassing x body, ev.Emits x p := by
  induction fuel generalizing m with
  | zero => exact (not_emits_exhausted h).elim
  | succ fuel ih =>
    rcases emits_thenValue h with h | ⟨v, m, h⟩
    · obtain ⟨p, hp, he⟩ := emits_evaluateOr h
      exact ⟨p, by simp [hp], he⟩
    · split at h
      · rcases emits_loopBody (fun m =>
          (evaluateOr ev held .null update s m).thenValue fun _ m =>
            forRuns ev held cond update body s fuel m) h with ⟨h, hx⟩ | ⟨m, h⟩
        · exact ⟨body, List.mem_append_right _ (mem_bodyPassing hx), held, s, m, h⟩
        · rcases emits_thenValue h with h | ⟨v, m, h⟩
          · obtain ⟨p, hp, he⟩ := emits_evaluateOr h
            exact ⟨p, by simp [hp], he⟩
          · exact ih h
      · exact (not_emits_give _ h).elim

theorem emits_forLoop {fuel : Nat} {init cond update : Option Node} {body : Node}
    (h : (S.forLoop ev fuel held init cond update body env m).Emits x) :
    ∃ p ∈ init.toList ++ cond.toList ++ update.toList ++ NodeKind.bodyPassing x body,
      ev.Emits x p := by
  obtain ⟨s, m, h⟩ := emits_within h
  rcases emits_thenValue h with h | ⟨v, m, h⟩
  · obtain ⟨p, hp, he⟩ := emits_evaluateOr h
    exact ⟨p, by simp [hp], he⟩
  · obtain ⟨p, hp, he⟩ := emits_forRuns h
    simp only [List.append_assoc] at hp ⊢
    exact ⟨p, List.mem_append_right _ hp, he⟩

theorem emits_countedRun {counter : String} {body : Node} {index : Nat}
    (h : (S.countedRun ev held counter body env index m).Emits x) : ev.Emits x body := by
  obtain ⟨s, m, h⟩ := emits_within h
  split at h
  · exact (not_emits_fail _ h).elim
  · next σ _ =>
    refine ⟨held.scope s, s, m.withStore σ, ?_⟩
    rw [Emits, value_map] at h
    rw [Emits]
    generalize (ev (held.scope s) body s (m.withStore σ)).value = a at h ⊢
    rwa [Completion.signal?_dropValue] at h

theorem emits_countedRuns {bound : LoopBound} {counter : String} {body : Node}
    {fuel index : Nat}
    (h : (S.countedRuns ev held bound counter body env fuel index m).Emits x) :
    ∃ p ∈ NodeKind.bodyPassing x body, ev.Emits x p := by
  induction fuel generalizing index m with
  | zero => exact (not_emits_exhausted h).elim
  | succ fuel ih =>
    rw [countedRuns] at h
    split at h
    · rcases emits_loopBody _ h with ⟨h, hx⟩ | ⟨m, h⟩
      · exact ⟨body, mem_bodyPassing hx, emits_countedRun h⟩
      · exact ih h
    · exact (not_emits_give _ h).elim

theorem emits_countedLoop {fuel : Nat} {bound : Node} {counter : Option String} {body : Node}
    (h : (S.countedLoop ev fuel held bound counter body env m).Emits x) :
    ∃ p ∈ bound :: NodeKind.bodyPassing x body, ev.Emits x p := by
  rcases emits_thenValue h with h | ⟨v, m, h⟩
  · exact ⟨bound, List.mem_cons_self, held, env, m, h⟩
  · split at h
    · exact (not_emits_fail _ h).elim
    · obtain ⟨p, hp, he⟩ := emits_countedRuns h
      exact ⟨p, List.mem_cons_of_mem bound hp, he⟩

/-! ## Nodes -/

/-- A signal with which a kind of node ends is its own, or that of a part from which it passes. -/
theorem emits_step {fuel : Nat} {kind : NodeKind} (h : (S.step fuel ev held kind env m).Emits x) :
    kind.signal? = some x ∨ ∃ p ∈ kind.passing x, ev.Emits x p := by
  cases kind with
  | program body =>
    obtain ⟨hx, he⟩ := emits_programRuns h
    refine .inr ?_
    rw [NodeKind.passing, hx]
    exact he
  | block body =>
    rw [step, block] at h
    obtain ⟨s, m, h⟩ := emits_within h
    exact .inr (emits_blockRuns h)
  | declaration name isConst init =>
    rcases emits_thenValue h with h | ⟨v, m, h⟩
    · exact .inr (emits_evaluateOr h)
    · exact (not_emits_declare h).elim
  | function name code => exact (not_emits_declare h).elim
  | branch cond thenBranch elseBranch => exact .inr (emits_branch h)
  | whileLoop cond body => exact .inr (emits_whileRuns h)
  | forLoop init cond update body => exact .inr (emits_forLoop h)
  | countedLoop bound counter body => exact .inr (emits_countedLoop h)
  | breakLoop => exact .inl h
  | continueLoop => exact .inl h
  | returnValue value =>
    rw [step] at h
    rcases emits_thenValue h with h | ⟨v, m, h⟩
    · exact .inr (emits_evaluateOr h)
    · exact .inl h
  | binary op left right => exact .inr (emits_binary h)
  | unary op operand => exact .inr (emits_unary h)
  | assignment target value => exact .inr ⟨value, List.mem_cons_self, emits_assignment h⟩
  | call callee args => exact .inr (emits_call h)
  | member object key => exact .inr (emits_member h)
  | object properties => exact .inr (emits_objectRuns h)
  | property p => exact (not_emits_fail _ h).elim
  | identifier name => exact (not_emits_finish _ h).elim
  | number value isFloat => exact (not_emits_give _ h).elim
  | string text => exact (not_emits_give _ h).elim

/-- A node that ends with a signal exposes it. -/
theorem exposes_of_emits_exec {fuel : Nat} {n : Node} (h : (S.exec fuel).Emits x n) :
    n.Exposes x := by
  induction fuel generalizing n with
  | zero =>
    obtain ⟨held, env, m, h⟩ := h
    exact (not_emits_exhausted h).elim
  | succ fuel ih =>
    obtain ⟨held, env, m, h⟩ := h
    rw [Emits, value_exec_succ, Completion.signal?_atLine] at h
    rcases emits_step h with hk | ⟨p, hp, he⟩
    · exact .own hk
    · exact .part hp (ih he)

end Setting

/-- **Control signals are confined by the syntax.** A node that ends with a signal exposes it; a
program never ends with a signal for a loop; a call, of whatever value, never ends with a signal. -/
theorem signals_confined (S : Setting ω) (fuel : Nat) (held : Held) (n : Node) (env : ScopeId)
    (m : Machine ω) :
    (∀ x, (S.exec fuel held n env m).value.1.signal? = some x → n.Exposes x) ∧
      (∀ body, n.kind = .program body →
        (S.exec fuel held n env m).value.1.isLoopSignal = false) ∧
        ∀ callee args,
          (S.callValue (S.exec fuel) held callee args env m).value.1.signal? = none := by
  have hexposes : ∀ x, (S.exec fuel held n env m).value.1.signal? = some x → n.Exposes x :=
    fun x h => Setting.exposes_of_emits_exec ⟨held, env, m, h⟩
  refine ⟨hexposes, fun body hn => ?_, fun callee args => ?_⟩
  · generalize (S.exec fuel held n env m).value.1 = c at hexposes ⊢
    cases c with
    | broke => exact (Node.not_exposes_program hn rfl (hexposes .broke rfl)).elim
    | continued => exact (Node.not_exposes_program hn rfl (hexposes .continued rfl)).elim
    | _ => rfl
  · exact Option.eq_none_iff_forall_ne_some.2 fun x => Setting.not_emits_callValue callee args

/-- A loop whose body is no block lets a break pass, out of the block around it and up to the
program. -/
theorem signals_confined_break :
    let S := Setting.releasing .standard Workbench.host
    let m : Machine Workbench := ⟨(Store.empty.root 8 8).2, 0, 0, .ofSink .buffer⟩
    let loop : Node := ⟨.whileLoop ⟨.string "on", 1⟩ ⟨.breakLoop, 1⟩, 1⟩
    let block : Node := ⟨.block [loop], 1⟩
    let program : Node := ⟨.program [block], 1⟩
    (S.exec 4 .empty block ⟨0⟩ m).value.1.signal? = some .broke ∧ block.Exposes .broke ∧
      (S.exec 5 .empty program ⟨0⟩ m).value.1.isLoopSignal = false := by
  intro S m loop block program
  have hbreak : (S.exec 4 .empty block ⟨0⟩ m).value.1.signal? = some .broke := by decide +kernel
  exact ⟨hbreak, (signals_confined S 4 .empty block ⟨0⟩ m).1 .broke hbreak,
    (signals_confined S 5 .empty program ⟨0⟩ m).2.1 [block] rfl⟩

end Treewalk
