import Treewalk.Proofs.Matching.Numbers
import Treewalk.Proofs.Syntax.Parts
import Treewalk.Proofs.Termination.Settling
import Treewalk.Proofs.Workbench.Codes

/-!
# Programs without unbounded loops

A program whose loops are all limited by numerals comes to an end, however its functions call each
other, if that holds of the code within reach as well: each call in progress leaves fewer calls to
the limit, and without calls every evaluation is one of smaller nodes or of fewer runs. The end can
be a panic only where there are fractions without the tag.

* `Node.IsBounded` says that no node runs a loop but with a numeral for a bound.
* `Setting.settles_step`: a kind of node settles if the nodes directly below do, and, one call
  deeper, the bodies within reach.
* `Setting.settles_exec`: by induction on the calls left below the limit, then on nodes.
* `bounded_terminates`: the depth limit makes programs without unbounded loops terminate.
* `bounded_panicked_half`: a remainder by one half without the tag panics.
-/

namespace Treewalk

/-! ## Bounded code -/

/-- Whether a node is a numeral. -/
def Node.isNumeral (n : Node) : Bool :=
  match n.kind with
  | .number .. => true
  | _ => false

/-- Whether a kind of node is no loop, or one with a numeral for a bound. -/
def NodeKind.isLimited : NodeKind → Bool
  | .whileLoop .. | .forLoop .. => false
  | .countedLoop bound _ _ => bound.isNumeral
  | _ => true

/-- Whether all loops in a node have numerals for bounds, those in functions declared there
included. -/
inductive Node.IsBounded : Node → Prop
  | intro {n : Node} (hkind : n.kind.isLimited = true)
    (hchildren : ∀ p ∈ n.kind.children, IsBounded p) : IsBounded n

/-- The code whose loops all have numerals for bounds. -/
def Code.bounded : Set Code := {c | ∀ n ∈ c.body, n.IsBounded}

/-! ## Nodes -/

variable {ω : Type} {codes : ω → Set Code} {config : Config} {host : Host ω} {depth : Nat}

namespace Setting

/-- A node settles if its kind does. -/
theorem settlesOn_of_step {S : Setting ω} {C : Set Code} {n : Node}
    (h : ∀ held env m, m.Confines codes C depth →
      Settles (Completes codes C depth) fun fuel => S.step fuel (S.exec fuel) held n.kind env m) :
    SettlesOn codes C S.exec depth n := by
  intro held env m hm
  have hm' : Machine.Confines codes C depth { m with line := n.line } :=
    ⟨hm.store, hm.world, hm.callDepth⟩
  obtain ⟨⟨c, m'⟩, ha, k, hk⟩ := h held env _ hm'
  refine ⟨(c.atLine n.line, m'), ha.atLine n.line, k + 1, fun fuel hf => ?_⟩
  obtain ⟨j, rfl⟩ : ∃ j, fuel = j + 1 := ⟨fuel - 1, by omega⟩
  rw [value_exec_succ, hk j (by omega)]

/-- A numeral evaluates to a number. -/
theorem settles_numeral {S : Setting ω} {C : Set Code} {n : Node} (hn : n.isNumeral = true)
    {held : Held} {env : ScopeId} {m : Machine ω} (hm : m.Confines codes C depth) :
    Settles (fun a => Completes codes C depth a ∧ ∀ v, a.1 = .value v → v.type = .number)
      fun fuel => S.exec fuel held n env m := by
  obtain ⟨kind, line⟩ := n
  cases kind with
  | number value isFloat =>
    have hm' : Machine.Confines codes C depth { m with line := line } :=
      ⟨hm.store, hm.world, hm.callDepth⟩
    refine ⟨(.value (.number (.tagged value isFloat)), { m with line := line }),
      ⟨.give hm' (Value.codes_subset_of_isPlain trivial), fun v hv => ?_⟩, 1, fun fuel hf => ?_⟩
    · cases hv
      rfl
    · obtain ⟨j, rfl⟩ : ∃ j, fuel = j + 1 := ⟨fuel - 1, by omega⟩
      rfl
  | _ => cases hn

variable {kind : NodeKind} {held : Held} {env : ScopeId} {m : Machine ω}

theorem settles_step (hhost : host.BringsNoCode codes) (hkind : kind.isLimited = true)
    (hbounded : ∀ p ∈ kind.children, p.IsBounded)
    (hchildren : ∀ p ∈ kind.children,
      SettlesOn codes Code.bounded (releasing config host).exec depth p)
    (hcode : depth < config.maxCallDepth → ∀ c ∈ Code.bounded, ∀ p ∈ c.body,
      SettlesOn codes Code.bounded (releasing config host).exec (depth + 1) p)
    (hm : m.Confines codes Code.bounded depth) :
    Settles (Completes codes Code.bounded depth) fun fuel =>
      (releasing config host).step fuel ((releasing config host).exec fuel) held kind env m := by
  cases kind with
  | program body =>
    exact settles_programRuns hchildren hm (Value.codes_subset_of_isPlain trivial)
  | block body => exact settles_block hchildren hm
  | declaration name isConst init =>
    refine settles_thenValue (settles_evaluateOr hm .null trivial fun p hp =>
      hchildren p (Option.mem_toList.2 hp)) fun v m hv hm => settles_declare hm name hv isConst
  | function name code =>
    refine settles_declare hm name ?_ true
    rw [Value.codes_function, Set.singleton_subset_iff]
    exact hbounded
  | branch cond thenBranch elseBranch =>
    exact settles_branch (hchildren _ (by simp [NodeKind.children]))
      (hchildren _ (by simp [NodeKind.children]))
      (fun p hp => hchildren p (by simp [NodeKind.children, Option.mem_def.1 hp])) hm
  | whileLoop cond body => cases hkind
  | forLoop init cond update body => cases hkind
  | countedLoop bound counter body =>
    exact settles_countedLoop (fun held env m hm => settles_numeral hkind hm)
      (hchildren _ (by simp [NodeKind.children])) hm counter
  | breakLoop => exact .done ⟨by simp, by simp [Completion.values], hm⟩
  | continueLoop => exact .done ⟨by simp, by simp [Completion.values], hm⟩
  | returnValue value =>
    refine settles_thenValue (settles_evaluateOr hm .null trivial fun p hp =>
      hchildren p (Option.mem_toList.2 hp)) fun v m hv hm => .done ⟨by simp, ?_, hm⟩
    simpa [Completion.values] using hv
  | binary op left right =>
    exact settles_binary (hchildren _ (by simp [NodeKind.children]))
      (hchildren _ (by simp [NodeKind.children])) hm op
  | unary op operand => exact settles_unary (hchildren _ (by simp [NodeKind.children])) hm op
  | assignment target value =>
    exact settles_assignment (hchildren _ (by simp [NodeKind.children])) hm target.kind
  | call callee args =>
    exact settles_call hhost hcode (hchildren _ (by simp [NodeKind.children]))
      (fun p hp => hchildren p (by simp [NodeKind.children, hp])) hm
  | member owner key =>
    refine settles_member (hchildren _ ?_) (fun n hn => hchildren _ ?_) hm
    · cases key <;> simp [NodeKind.children]
    · subst hn
      simp [NodeKind.children]
  | object properties => exact settles_objectRuns hchildren hm [] (by simp)
  | property p => exact settles_fail hm _
  | identifier name => exact settles_finish hm fun v hv => Store.codes_lookup_subset hm.store hv
  | number value isFloat => exact settles_give hm (Value.codes_subset_of_isPlain trivial)
  | string text => exact settles_give hm (Value.codes_subset_of_isPlain trivial)

/-- Bounded nodes settle while all code within reach is bounded. -/
theorem settles_exec (hhost : host.BringsNoCode codes) {n : Node} (hn : n.IsBounded) :
    SettlesOn codes Code.bounded (releasing config host).exec depth n := by
  induction hr : config.maxCallDepth - depth generalizing depth n with
  | zero =>
    induction hn with
    | intro hkind hbounded ih =>
      exact settlesOn_of_step fun held env m hm =>
        settles_step hhost hkind hbounded ih (fun hd => by omega) hm
  | succ remaining ihdepth =>
    induction hn with
    | intro hkind hbounded ih =>
      exact settlesOn_of_step fun held env m hm =>
        settles_step hhost hkind hbounded ih
          (fun hd c hc p hp => ihdepth (hc p hp) (by omega)) hm

end Setting

/-- **The depth limit makes programs without unbounded loops terminate.** If all loops of a program
and of the code within reach have numerals for bounds, and natives bring in no other code, then an
evaluation ends, in the same way with all large amounts of fuel. If all numbers without the tag are
whole, those of the program, of the store and of the natives, then the end is a value, a signal or
an error: no remainder is taken by the integer zero, which would be a panic. -/
theorem bounded_terminates (config : Config) (host : Host ω) (codes : ω → Set Code)
    (hhost : host.BringsNoCode codes) (n : Node) (hn : n.IsBounded) (held : Held) (env : ScopeId)
    (m : Machine ω) (hstore : m.store.codes ⊆ Code.bounded)
    (hworld : codes m.world ⊆ Code.bounded) :
    ∃ a : Answer ω, a.1 ≠ .exhausted ∧
      (∃ k, ∀ fuel, k ≤ fuel →
        ((Setting.releasing config host).exec fuel held n env m).value = a) ∧
      ∀ Good, host.GivesWhole Good → m.store.IsWhole → Good m.world → held.IsWhole → n.IsWhole →
        a.1 ≠ .panicked := by
  have h : Settles (Completes codes Code.bounded m.callDepth) fun fuel =>
      (Setting.releasing config host).exec fuel held n env m :=
    Setting.settles_exec hhost hn ⟨hstore, hworld, rfl⟩
  obtain ⟨a, ha, k, hk⟩ := h
  refine ⟨a, ha.completion, ⟨k, hk⟩, fun Good hgives hσ hw hheld hwhole => ?_⟩
  rw [← hk k (Nat.le_refl k)]
  exact hgives.exec_ne_panicked hσ hw hheld hwhole k env

/-- A function that calls its argument twice, called with itself, comes to an end. -/
theorem bounded_terminates_recursive :
    let loop : Node := ⟨.countedLoop ⟨.number (.ofInt 2) false, 2⟩ none
      ⟨.call ⟨.identifier "g", 2⟩ [⟨.identifier "g", 2⟩], 2⟩, 2⟩
    let n : Node := ⟨.program [⟨.function "f" ⟨0, ["g"], [loop]⟩, 1⟩,
      ⟨.call ⟨.identifier "f", 3⟩ [⟨.identifier "f", 3⟩], 3⟩], 1⟩
    let m : Machine Workbench := ⟨(Store.empty.root 8 8).2, 0, 0, .ofSink .buffer⟩
    n.IsBounded ∧ m.store.codes ⊆ Code.bounded ∧
      ∃ a : Answer Workbench, a.1 ≠ .exhausted ∧ a.1 ≠ .panicked ∧ ∃ k, ∀ fuel, k ≤ fuel →
        ((Setting.releasing .standard Workbench.host).exec fuel .empty n ⟨0⟩ m).value = a := by
  intro loop n m
  have hname : ∀ name line, Node.IsBounded ⟨.identifier name, line⟩ :=
    fun _ _ => .intro rfl (by simp [NodeKind.children])
  have hcall : ∀ name line, Node.IsBounded
      ⟨.call ⟨.identifier name, line⟩ [⟨.identifier name, line⟩], line⟩ :=
    fun name line => .intro rfl (by simp [NodeKind.children, hname])
  have hnumeral : Node.IsBounded ⟨.number (.ofInt 2) false, 2⟩ :=
    .intro rfl (by simp [NodeKind.children])
  have hloop : loop.IsBounded := .intro rfl (by simp [loop, NodeKind.children, hnumeral, hcall])
  have hf : Node.IsBounded ⟨.function "f" ⟨0, ["g"], [loop]⟩, 1⟩ :=
    .intro rfl (by simp [NodeKind.children, hloop])
  have hn : n.IsBounded := .intro rfl (by simp [n, NodeKind.children, hf, hcall])
  have hstore : m.store.codes ⊆ Code.bounded :=
    Store.codes_add_subset (Store.codes_empty_subset _) 8 none 8
  -- The only numeral is whole, so nothing panics.
  have hname' : ∀ name line, Node.IsWhole ⟨.identifier name, line⟩ :=
    fun _ _ => .mk (by simp) (by simp [NodeKind.children])
  have hcall' : ∀ name line, Node.IsWhole
      ⟨.call ⟨.identifier name, line⟩ [⟨.identifier name, line⟩], line⟩ :=
    fun name line => .mk (by simp) (by simp [NodeKind.children, hname'])
  have htwo : (Binary64.ofInt 2).isIntegral = true := by decide +kernel
  have hnumeral' : Node.IsWhole ⟨.number (.ofInt 2) false, 2⟩ :=
    .mk (by simp [htwo]) (by simp [NodeKind.children])
  have hloop' : loop.IsWhole :=
    .mk (by simp [loop]) (by simp [loop, NodeKind.children, hnumeral', hcall'])
  have hf' : Node.IsWhole ⟨.function "f" ⟨0, ["g"], [loop]⟩, 1⟩ :=
    .mk (by simp) (by simp [NodeKind.children, hloop'])
  have hn' : n.IsWhole := .mk (by simp [n]) (by simp [n, NodeKind.children, hf', hcall'])
  have hgives : Workbench.host.GivesWhole fun w => w.Matches .whole w :=
    (Workbench.respects fun _ => rfl).givesWhole
  have hσ : m.store.IsWhole := (Store.matches_whole_iff.1 (Store.Matches.empty.add 8 none 8).2).1
  obtain ⟨a, ha, hk, hwhole⟩ := bounded_terminates .standard Workbench.host (fun _ => ∅)
    Workbench.bringsNoCode n hn .empty ⟨0⟩ m hstore (Set.empty_subset _)
  have hheld : Held.IsWhole .empty := fun s v hv => (List.not_mem_nil hv).elim
  exact ⟨hn, hstore, a, ha,
    hwhole _ hgives hσ (Workbench.matches_ofSink .buffer) hheld hn', hk⟩

/-- A program without any loop that takes a remainder by one half without the tag. The divisor is
not zero, but its integer part is, and the program ends with a panic. -/
theorem bounded_panicked_half :
    let half : Node := ⟨.number (.ofBits 0x3fe0000000000000) false, 1⟩
    let n : Node := ⟨.program [⟨.binary .mod ⟨.number (.ofInt 5) false, 1⟩ half, 1⟩], 1⟩
    let m : Machine Workbench := ⟨(Store.empty.root 8 8).2, 0, 0, .ofSink .buffer⟩
    n.IsBounded ∧ m.store.codes ⊆ Code.bounded ∧ ∀ fuel, 3 ≤ fuel →
      ((Setting.releasing .standard Workbench.host).exec fuel .empty n ⟨0⟩ m).value.1 =
        .panicked := by
  intro half n m
  have hnumeral : ∀ raw, Node.IsBounded ⟨.number raw false, 1⟩ :=
    fun _ => .intro rfl (by simp [NodeKind.children])
  have hmod : Node.IsBounded ⟨.binary .mod ⟨.number (.ofInt 5) false, 1⟩ half, 1⟩ :=
    .intro rfl (by simp [half, NodeKind.children, hnumeral])
  refine ⟨.intro rfl (by simp [n, NodeKind.children, hmod]),
    Store.codes_add_subset (Store.codes_empty_subset _) 8 none 8, fun fuel hfuel => ?_⟩
  obtain ⟨k, rfl⟩ : ∃ k, fuel = k + 3 := ⟨fuel - 3, by omega⟩
  have hp : BinaryOperator.panics .mod (.number (.tagged (.ofInt 5) false))
      (.number (.tagged (.ofBits 0x3fe0000000000000) false)) = true := by decide +kernel
  have heval : ∀ raw held m', ((Setting.releasing .standard Workbench.host).exec (k + 1) held
      ⟨.number raw false, 1⟩ ⟨0⟩ m').value =
        (.value (.number (.tagged raw false)), { m' with line := 1 }) := fun _ _ _ => rfl
  have hbinary : ∀ held m', ((Setting.releasing .standard Workbench.host).exec (k + 2) held
      ⟨.binary .mod ⟨.number (.ofInt 5) false, 1⟩ half, 1⟩ ⟨0⟩ m').value =
        (.panicked, { m' with line := 1 }) := by
    intro held m'
    rw [Setting.value_exec_succ, Setting.step, Setting.binary, Deferred.value_thenValue, heval]
    dsimp only
    rw [Deferred.value_thenValue, heval]
    dsimp only
    rw [Setting.operate, if_pos hp]
    rfl
  rw [Setting.value_exec_succ, Setting.step, Setting.programRuns, Deferred.value_seq, hbinary]
  rfl

end Treewalk
