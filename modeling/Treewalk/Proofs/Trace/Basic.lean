import Treewalk.Eval.Exec

/-!
# Traces of evaluations

What happens during an evaluation, as a tree: under every node that is evaluated stand the
evaluations of its parts and the calls of natives, in their order. `Setting.trace` evaluates nodes
as `Setting.exec` does and writes the tree beside the world of the host. It is made of the same
steps over another evaluator, so that no evaluation of a part is missed.

The evaluator of a trace knows how many bodies of functions it is in: the statements of a body are
evaluated by an evaluator of their own, one body deeper. The machine's count of calls has no part
in this.

* `Trace.Within` is the order of the tree, `Trace.Ends` says that a part was the last one in it.
* `Setting.stepWith_self`: a step with one evaluator for all parts is a step.
* `Setting.value_trace`: the trace of a node, by way of its step.
-/

namespace Treewalk

/-- What happened during an evaluation. -/
inductive Trace (ω : Type) where
  /-- The evaluation of a node inside a number of bodies, with what happened during it. -/
  | node (n : Node) (depth : Nat) (env : ScopeId) (before : Machine ω) (parts : List (Trace ω))
    (after : Answer ω)
  /-- The call of a native, with the store and the world after it. -/
  | native (f : NativeFunction) (result : Except EvalError Value) (store : Store) (world : ω)

namespace Trace

variable {ω : Type}

/-- Induction on traces, by way of the parts of a node. -/
theorem induction {motive : Trace ω → Prop}
    (node : ∀ n depth env before parts after, (∀ p ∈ parts, motive p) →
      motive (.node n depth env before parts after))
    (native : ∀ f result store world, motive (.native f result store world)) : ∀ t, motive t
  | .node n depth env before parts after =>
    node n depth env before parts after fun p _ => induction node native p
  | .native f result store world => native f result store world

/-- Whether something happened during something else, or is the same. -/
inductive Within (t : Trace ω) : Trace ω → Prop
  | self : Within t t
  | part {n : Node} {depth : Nat} {env : ScopeId} {before : Machine ω} {parts : List (Trace ω)}
    {after : Answer ω} {p : Trace ω} (hp : p ∈ parts) (h : Within t p) :
    Within t (.node n depth env before parts after)

/-- Whether something was the last thing that happened during something else: no other node was
evaluated after it and no native called, nor did it happen before. -/
inductive Ends (t : Trace ω) : Trace ω → Prop
  | self : Ends t t
  | last {n : Node} {depth : Nat} {env : ScopeId} {before : Machine ω} {earlier : List (Trace ω)}
    {p : Trace ω} {after : Answer ω} (hearlier : ∀ u ∈ earlier, ¬Within t u) (h : Ends t p) :
    Ends t (.node n depth env before (earlier ++ [p]) after)

section

variable {P : Trace ω → Prop} {ts us : List (Trace ω)}

/-! What holds of everything that happened during some things. -/

theorem forall_within_nil : ∀ p ∈ ([] : List (Trace ω)), ∀ t : Trace ω, t.Within p → P t :=
  fun _ hp => (List.not_mem_nil hp).elim

theorem forall_within_append (h : ∀ p ∈ ts, ∀ t : Trace ω, t.Within p → P t)
    (h' : ∀ p ∈ us, ∀ t : Trace ω, t.Within p → P t) :
    ∀ p ∈ ts ++ us, ∀ t : Trace ω, t.Within p → P t :=
  fun p hp => (List.mem_append.1 hp).elim (h p) (h' p)

theorem forall_within_node {n : Node} {depth : Nat} {env : ScopeId} {before : Machine ω}
    {after : Answer ω} (h : ∀ p ∈ ts, ∀ t : Trace ω, t.Within p → P t)
    (hn : P (.node n depth env before ts after)) :
    ∀ p ∈ [node n depth env before ts after], ∀ t : Trace ω, t.Within p → P t := by
  refine List.forall_mem_singleton.2 fun t ht => ?_
  cases ht with
  | self => exact hn
  | part hp ht => exact h _ hp t ht

theorem forall_within_native {f : NativeFunction} {r : Except EvalError Value} {σ : Store} {w : ω}
    (h : P (.native f r σ w)) :
    ∀ p ∈ [native f r σ w], ∀ t : Trace ω, t.Within p → P t := by
  refine List.forall_mem_singleton.2 fun t ht => ?_
  cases ht
  exact h

end

/-- Whether this is the call of a native. -/
def isNative : Trace ω → Bool
  | native .. => true
  | node .. => false

/-- The error with which a node or a native failed. -/
def error? : Trace ω → Option EvalError
  | node _ _ _ _ _ (.failed e, _) => some e
  | native _ (.error e) _ _ => some e
  | _ => none

/-- The store after what happened. -/
def store : Trace ω → Store
  | node _ _ _ _ _ a => a.2.store
  | native _ _ σ _ => σ

/-- The world after what happened. -/
def world : Trace ω → ω
  | node _ _ _ _ _ a => a.2.world
  | native _ _ _ w => w

end Trace

variable {ω : Type}

/-! ## Machines with traces -/

namespace Machine

/-- The machine with traces beside the world. -/
def withTraces (m : Machine ω) (ts : List (Trace ω)) : Machine (ω × List (Trace ω)) :=
  ⟨m.store, m.line, m.callDepth, m.world, ts⟩

@[simp] theorem store_withTraces (m : Machine ω) (ts : List (Trace ω)) :
    (m.withTraces ts).store = m.store := rfl

/-- The machine without the traces. -/
def plain (m : Machine (ω × List (Trace ω))) : Machine ω :=
  ⟨m.store, m.line, m.callDepth, m.world.1⟩

@[simp] theorem plain_withTraces (m : Machine ω) (ts : List (Trace ω)) :
    (m.withTraces ts).plain = m := rfl

end Machine

/-- The host, with a trace of every call. -/
def Host.traced (host : Host ω) : Host (ω × List (Trace ω)) where
  call f args env σ w :=
    let (r, σ, w') := host.call f args env σ w.1
    (r, σ, w', w.2 ++ [.native f r σ w'])
  held w := host.held w.1

namespace Setting

/-- The setting with the natives traced. -/
def traced (S : Setting ω) : Setting (ω × List (Trace ω)) := ⟨S.config, S.host.traced, S.leave⟩

/-- A step with an evaluator of its own for the bodies of the functions that a call calls. -/
def stepWith (S : Setting ω) (fuel : Nat) (evaluate evaluateBody : Evaluator ω) (held : Held)
    (kind : NodeKind) (env : ScopeId) (m : Machine ω) : Deferred (Answer ω) :=
  match kind with
  | .call callee args =>
    arguments evaluate held env (fun held args m =>
      (evaluate held callee env m).thenValue fun f m =>
        S.callValue evaluateBody (held.value f) f args env m) [] args m
  | kind => S.step fuel evaluate held kind env m

theorem stepWith_self (S : Setting ω) (fuel : Nat) (evaluate : Evaluator ω) (held : Held)
    (kind : NodeKind) (env : ScopeId) (m : Machine ω) :
    S.stepWith fuel evaluate evaluate held kind env m = S.step fuel evaluate held kind env m := by
  cases kind <;> rfl

/-- Evaluates a node inside a number of bodies, and adds its trace to those before it. -/
def trace (S : Setting ω) : (fuel depth : Nat) → Evaluator (ω × List (Trace ω))
  | 0, _ => fun _ _ _ m => .done (.exhausted, m)
  | fuel + 1, depth => fun held n env m =>
    let before := m.plain
    let start := { before with line := n.line }
    (S.traced.stepWith fuel (trace S fuel depth) (trace S fuel (depth + 1)) held n.kind env
      (start.withTraces [])).map fun (c, m') =>
        let after := (c.atLine n.line, m'.plain)
        (after.1, after.2.withTraces (m.world.2 ++ [.node n depth env before m'.world.2 after]))

/-- The parts of a node are evaluated with no traces before theirs, and what happened during its
step stands under it. -/
theorem value_trace (S : Setting ω) (fuel depth : Nat) (held : Held) (n : Node) (env : ScopeId)
    (m : Machine (ω × List (Trace ω))) :
    (S.trace (fuel + 1) depth held n env m).value =
      let r := (S.traced.stepWith fuel (S.trace fuel depth) (S.trace fuel (depth + 1)) held n.kind
        env (({ m.plain with line := n.line } : Machine ω).withTraces [])).value
      (r.1.atLine n.line, r.2.plain.withTraces (m.world.2 ++
        [.node n depth env m.plain r.2.world.2 (r.1.atLine n.line, r.2.plain)])) := rfl

end Setting

end Treewalk
