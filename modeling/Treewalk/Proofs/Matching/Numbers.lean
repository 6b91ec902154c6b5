import Treewalk.Proofs.Matching.Whole
import Treewalk.Proofs.Operator.Outcomes
import Treewalk.Proofs.Trace.Simulation
import Treewalk.Proofs.Workbench.Matching

/-!
# Numbers without the tag are integers

If the numerals of all programs and the numbers that the host supplies are whole where they go
without the tag, then so are all numbers that are ever bound, given by a node or a native, or made
by an operator. Each of them is then the 64-bit integer that it is taken for, and no remainder by
zero is computed.

* `Host.GivesWhole` is what natives have to keep to, `Host.GivesWhole.traced` the same with traces.
* `Host.GivesWhole.records`: evaluators that write traces show whole numbers only.
* `Host.GivesWhole.exec_ne_panicked`: evaluations with whole numbers do not panic.

Main statement: `numbers_exact`.
-/

namespace Treewalk

variable {ω : Type}

/-- Natives that are given whole numbers, in arguments, in the store and in a good world, give whole
numbers and leave nothing else. -/
structure Host.GivesWhole (host : Host ω) (Good : ω → Prop) : Prop where
  held {w : ω} : Good w → (host.held w).IsWhole
  call {σ : Store} (f : NativeFunction) {args : List Value} (env : ScopeId) {w : ω} :
    (∀ v ∈ args, v.IsWhole) → σ.IsWhole → Good w →
      let r := host.call f args env σ w
      (∀ v, r.1 = .ok v → v.IsWhole) ∧ r.2.1.IsWhole ∧ Good r.2.2

/-- Whether all numbers in the heap were whole before and after something that happened, and those
that it gave. -/
def Trace.IsWhole : Trace ω → Prop
  | node _ _ _ before _ after =>
    before.store.IsWhole ∧ after.2.store.IsWhole ∧ ∀ v ∈ after.1.values, v.IsWhole
  | native _ r σ _ => σ.IsWhole ∧ ∀ v, r = .ok v → v.IsWhole

/-- Whether all that happened during some things was with whole numbers. -/
def Trace.AllWhole (ts : List (Trace ω)) : Prop :=
  ∀ p ∈ ts, ∀ t : Trace ω, t.Within p → t.IsWhole

namespace Host.GivesWhole

variable {host : Host ω} {Good : ω → Prop}

/-- Natives that give whole numbers keep to the likeness by which all numbers are whole. -/
theorem respects (h : host.GivesWhole Good) :
    host.Respects .whole fun w w' => Good w ∧ w = w' where
  held := by
    rintro w _ ⟨hw, rfl⟩
    exact (h.held hw).matches
  call {σ₁ σ₂} f {args args'} env {w w'} hargs hσ hw := by
    obtain ⟨hvs, rfl⟩ := Value.forall₂_whole_iff.1 hargs
    obtain ⟨hbound, rfl⟩ := Store.matches_whole_iff.1 hσ
    obtain ⟨hgood, rfl⟩ := hw
    obtain ⟨hv, hσ', hw'⟩ := h.call f env hvs hbound hgood
    refine ⟨?_, Store.matches_whole_iff.2 ⟨hσ', rfl⟩, hw', rfl⟩
    cases hr : (host.call f args env σ₁ w).1 with
    | ok v => exact .ok (Value.matches_whole_iff.2 ⟨hv v hr, rfl⟩)
    | error e => exact .error rfl

/-- Natives with traces of their calls. -/
theorem traced (h : host.GivesWhole Good) :
    host.traced.GivesWhole fun w => Good w.1 ∧ Trace.AllWhole w.2 where
  held hw := h.held hw.1
  call f args env w hargs hσ hw := by
    obtain ⟨hv, hσ', hw'⟩ := h.call f env hargs hσ hw.1
    exact ⟨hv, hσ', hw',
      Trace.forall_within_append hw.2 (Trace.forall_within_native ⟨hσ', hv⟩)⟩

variable {held : Held}

/-- Evaluations with traces, with whole numbers on both sides. -/
abbrev simulation (h : host.GivesWhole Good) (config : Config) (hheld : held.IsWhole) :
    Simulation (Setting.releasing config host).traced (Setting.releasing config host).traced :=
  matchingSimulation config h.traced.respects hheld.matches

/-- A trace may be written at the end of a node: all numbers are whole before it and after it. -/
theorem records (h : host.GivesWhole Good) (config : Config) (hheld : held.IsWhole) :
    (h.simulation config hheld).Records where
  node_eq hn := hn.2
  twin_eq _ := rfl
  line _ := rfl
  same := fun {Γ m₁ m₂} ⟨hline, hdepth, hvalues, hstores, _, hworlds⟩ => by
    have hsame : Γ.Same := fun v w hm => (Value.matches_whole_iff.1 (hvalues v w hm)).2
    refine ⟨?_, hsame.left_eq_right held⟩
    cases m₁
    cases m₂
    simp only [Machine.mk.injEq]
    exact ⟨(Store.matches_whole_iff.1 hstores).2, hline, hdepth, hworlds⟩
  start _ := fun ⟨_, _, hvalues, hstores, hgood, _⟩ =>
    ⟨rfl, rfl, hvalues, hstores, ⟨hgood.1, Trace.forall_within_nil⟩, rfl⟩
  record := fun {Γ Δ m _ depth _ n env parts a} ha _ hp hag => by
    obtain ⟨-, -, -, hbefore, hgood, -⟩ := ha
    obtain ⟨-, -, hvalues, hafter, hgood', -⟩ := hag
    have hvs := hp.values fun v w hm => hvalues v w (List.mem_append_left Γ hm)
    have hnode : Trace.IsWhole (.node n depth env m.plain parts a) :=
      ⟨(Store.matches_whole_iff.1 hbefore).1, (Store.matches_whole_iff.1 hafter).1,
        (Value.forall₂_whole_iff.1 hvs).1⟩
    exact ⟨rfl, rfl, hvalues, hafter, ⟨hgood'.1, Trace.forall_within_append hgood.2
      (Trace.forall_within_node hgood'.2 hnode)⟩, rfl⟩

/-! ## Evaluations and calls -/

variable {config : Config} {m : Machine ω} {isCall : Bool} {depth : Nat}

theorem allWhole_of_traces {d₁ : Deferred (Answer (ω × List (Trace ω)))}
    {d₂ : Deferred (Answer ω)} (ht : (Setting.releasing config host).Traces isCall depth m [] d₁ d₂)
    (ha : Answers .whole (fun w w' => (Good w.1 ∧ Trace.AllWhole w.2) ∧ w = w') d₁.value d₁.value) :
    ∃ ps, d₁.value = (d₂.value.1, d₂.value.2.withTraces ps) ∧ Trace.AllWhole ps := by
  obtain ⟨ps, hd, -⟩ := ht
  have hw := ha.machines.world.1.2
  rw [hd] at hw
  exact ⟨ps, hd, hw⟩

theorem matches_withTraces (hσ : m.store.IsWhole) (hw : Good m.world) :
    (m.withTraces []).Matches .whole
      (fun w w' => (Good w.1 ∧ Trace.AllWhole w.2) ∧ w = w') (m.withTraces []) :=
  ⟨rfl, rfl, Store.matches_whole_iff.2 ⟨hσ, rfl⟩, ⟨hw, Trace.forall_within_nil⟩, rfl⟩

/-- Evaluations of programs with whole numbers. -/
theorem exec (h : host.GivesWhole Good) (hσ : m.store.IsWhole) (hw : Good m.world)
    (hheld : held.IsWhole) {n : Node} (hn : n.IsWhole) (fuel : Nat) (env : ScopeId) :
    let S := Setting.releasing config host
    let a := (S.exec fuel held n env m).value
    ∃ ps, (S.trace fuel 0 held n env (m.withTraces [])).value = (a.1, a.2.withTraces ps) ∧
      Trace.AllWhole ps := by
  intro S a
  have hN : Likeness.whole.Nodes n n := ⟨hn, rfl⟩
  exact allWhole_of_traces (S.traces_exec fuel 0 false held n env m [])
    (h.traced.respects.evaluate hheld.matches ((h.records config hheld).follows_trace fuel 0)
      (matches_withTraces hσ hw) hN env)

/-- Evaluations with whole numbers do not panic: no remainder is taken by the integer zero. -/
theorem exec_ne_panicked (h : host.GivesWhole Good) (hσ : m.store.IsWhole) (hw : Good m.world)
    (hheld : held.IsWhole) {n : Node} (hn : n.IsWhole) (fuel : Nat) (env : ScopeId) :
    ((Setting.releasing config host).exec fuel held n env m).value.1 ≠ .panicked := by
  have hN : Likeness.whole.Nodes n n := ⟨hn, rfl⟩
  have hm : m.Matches .whole (fun w w' => Good w ∧ w = w') m :=
    ⟨rfl, rfl, Store.matches_whole_iff.2 ⟨hσ, rfl⟩, hw, rfl⟩
  exact (h.respects.exec hheld.matches hm hN fuel env).panics

/-- Calls of values with whole numbers. -/
theorem callValue (h : host.GivesWhole Good) (hσ : m.store.IsWhole) (hw : Good m.world)
    (hheld : held.IsWhole) {callee : Value} {args : List Value}
    (hvs : ∀ v ∈ callee :: args, v.IsWhole) (fuel : Nat) (env : ScopeId) :
    let S := Setting.releasing config host
    let a := (S.callValue (S.exec fuel) held callee args env m).value
    ∃ ps, (S.traced.callValue (S.trace fuel 1) held callee args env (m.withTraces [])).value =
        (a.1, a.2.withTraces ps) ∧ Trace.AllWhole ps := by
  intro S a
  obtain ⟨hcallee, hargs⟩ := List.forall_mem_cons.1 hvs
  have ht : S.Traces true 0 m []
      (S.traced.callValue (S.trace fuel 1) held callee args env (m.withTraces []))
      (S.callValue (S.exec fuel) held callee args env m) :=
    Setting.traces_callValue (S.traces_exec fuel 1) callee args
  exact allWhole_of_traces ht
    (h.traced.respects.evaluateCall hheld.matches ((h.records config hheld).follows_trace fuel 1)
      (matches_withTraces hσ hw) (Value.matches_whole_iff.2 ⟨hcallee, rfl⟩)
      (Value.forall₂_whole_iff.2 ⟨hargs, rfl⟩) env)

/-- Turns of a host that uses whole numbers only. -/
theorem turns (h : host.GivesWhole Good) (config : Config) (hσ : m.store.IsWhole)
    (hw : Good m.world) {ts : List Turn} (hts : ∀ t ∈ ts, t.IsWhole) (globals : ScopeId) :
    let r := Interpreter.turns ⟨.releasing config host, globals, m⟩ ⟨[], []⟩ ts
    r.2.1.machine.store.IsWhole ∧ Good r.2.1.machine.world ∧
      ∀ v, .result (some (.ok v)) ∈ r.1 → v.IsWhole := by
  intro r
  have hI : Interpreter.Matches .whole (fun w w' => Good w ∧ w = w') config host
      ⟨.releasing config host, globals, m⟩ ⟨.releasing config host, globals, m⟩ :=
    ⟨rfl, rfl, rfl, rfl, rfl, Store.matches_whole_iff.2 ⟨hσ, rfl⟩, hw, rfl⟩
  have hK : Holding.Matches .whole ⟨[], []⟩ ⟨[], []⟩ := ⟨rfl, .nil⟩
  obtain ⟨ho, hI', -⟩ := hI.turns h.respects hK
    (List.forall₂_same.2 fun t ht => (hts t ht).matches)
  refine ⟨(Store.matches_whole_iff.1 hI'.machines.store).1, hI'.machines.world.1, fun v hv => ?_⟩
  cases List.forall₂_same.1 ho _ hv with
  | result hr =>
    cases hr with
    | some hr =>
      cases hr with
      | ok hv => exact (Value.matches_whole_iff.1 hv).1

end Host.GivesWhole

/-! ## Operators -/

namespace Value

variable {l r v : Value}

/-- What an operator makes of any two values is whole. -/
theorem isWhole_of_binary {op : BinaryOperator} (h : op.apply l r = .ok v) : v.IsWhole :=
  isWhole_of_plain (Likeness.plain_of_binary h)

theorem IsWhole.of_unary {op : UnaryOperator} (hl : l.IsWhole) (h : op.apply l = .ok v) :
    v.IsWhole :=
  isWhole_of_plain ((matches_whole_iff.2 ⟨hl, rfl⟩).alike.plain_of_unary h)

/-- The number that arithmetic takes a value for is whole. -/
theorem IsWhole.number? (hl : l.IsWhole) {a : Number} (h : l.number? = some a) : a.IsWhole := by
  cases l with
  | number n =>
    obtain rfl : n = a := Option.some.inj h
    exact hl.numbers n .self
  | bool b =>
    obtain rfl : Number.ofBool b = a := Option.some.inj h
    exact Number.isWhole_int _
  | _ => cases h

end Value

namespace BinaryOperator

variable {l r v : Value} {a b : Number}

/-- A remainder is computed of integers only, and never by zero. -/
theorem apply_mod_eq_ok (hr : r.IsWhole) (ha : l.number? = some a) (hb : r.number? = some b)
    (h : apply .mod l r = .ok v) :
    a.isFloat = false ∧ b.isFloat = false ∧ b.toInt ≠ 0 ∧ v = .int (a.toInt.tmod b.toInt) :=
  mod_eq_ok_of_isWhole (hr.number? hb) ha hb h

end BinaryOperator

/-! ## The workbench -/

/-- A host that keeps to the likeness by which all numbers are whole gives whole numbers. -/
theorem Host.Respects.givesWhole {host : Host ω} {World : ω → ω → Prop}
    (h : host.Respects .whole World) : host.GivesWhole fun w => World w w where
  held hw s := (Value.forall₂_whole_iff.1 ((h.held hw).objects s)).1
  call {σ} f {args} env {w} hargs hσ hw := by
    obtain ⟨hr, hσ', hw'⟩ := h.call f env (Value.forall₂_whole_iff.2 ⟨hargs, rfl⟩)
      (Store.matches_whole_iff.2 ⟨hσ, rfl⟩) hw
    refine ⟨fun v hv => ?_, (Store.matches_whole_iff.1 hσ').1, hw'⟩
    rw [hv] at hr
    cases hr with
    | ok hv => exact (Value.matches_whole_iff.1 hv).1

/-- **Numbers without the tag are integers.** Suppose that the numerals of all programs and the
numbers that a host and its natives supply are whole where they go without the tag. Then, after
whatever the host asks, and before and after everything that happens during the next evaluation or
call, so are the numbers in all values bound, and in those that nodes and natives give. Operators
give whole numbers, binary ones of any operands. A whole number without the tag is an integer of 64
bits, and the one that it is taken for; a remainder is never taken by zero. -/
theorem numbers_exact {host : Host ω} {Good : ω → Prop} (h : host.GivesWhole Good)
    (config : Config) (globals : ScopeId) {m₀ : Machine ω} (hσ : m₀.store.IsWhole)
    (hw : Good m₀.world) {ts : List Turn} (hts : ∀ t ∈ ts, t.IsWhole) :
    let S := Setting.releasing config host
    let r := Interpreter.turns ⟨S, globals, m₀⟩ ⟨[], []⟩ ts
    let m := r.2.1.machine
    (m.store.IsWhole ∧ ∀ v, .result (some (.ok v)) ∈ r.1 → v.IsWhole) ∧
      (∀ fuel held n env, held.IsWhole → n.IsWhole →
        let a := (S.exec fuel held n env m).value
        ∃ ps, (S.trace fuel 0 held n env (m.withTraces [])).value = (a.1, a.2.withTraces ps) ∧
          Trace.AllWhole ps) ∧
      (∀ fuel held callee args env, held.IsWhole → (∀ v ∈ callee :: args, v.IsWhole) →
        let a := (S.callValue (S.exec fuel) held callee args env m).value
        ∃ ps, (S.traced.callValue (S.trace fuel 1) held callee args env (m.withTraces [])).value =
            (a.1, a.2.withTraces ps) ∧ Trace.AllWhole ps) ∧
      (∀ op l r v, BinaryOperator.apply op l r = .ok v → v.IsWhole) ∧
      (∀ op l v, l.IsWhole → UnaryOperator.apply op l = .ok v → v.IsWhole) ∧
      (∀ v, v.IsWhole → ∀ n, Value.Nested (.number n) v → n.IsExact) ∧
      (∀ l r a b v, r.IsWhole → l.number? = some a → r.number? = some b →
        BinaryOperator.apply .mod l r = .ok v → a.isFloat = false ∧ b.isFloat = false ∧
          b.toInt ≠ 0 ∧ v = .int (a.toInt.tmod b.toInt)) ∧
      ∀ (b : Builder) print printLine globals σ,
        b.build print printLine .empty = .ok (globals, σ) → σ.IsWhole := by
  intro S r m
  obtain ⟨hσ', hw', hv⟩ := h.turns config hσ hw hts globals
  exact ⟨⟨hσ', hv⟩, fun fuel held n env hheld hn => h.exec hσ' hw' hheld hn fuel env,
    fun fuel held callee args env hheld hvs => h.callValue hσ' hw' hheld hvs fuel env,
    fun op l r v => Value.isWhole_of_binary, fun op l v => Value.IsWhole.of_unary,
    fun v hv n hn => (hv.numbers n hn).isExact,
    fun l r a b v hr ha hb hv => BinaryOperator.apply_mod_eq_ok hr ha hb hv,
    fun b print printLine globals σ hb =>
      (Store.matches_whole_iff.1 (Builder.matches_of_build hb)).1⟩

/-- A remainder of a variable on the workbench. -/
theorem numbers_exact_workbench :
    let n : Node := ⟨.program
      [⟨.declaration "x" false (some ⟨.number (.ofInt 7) false, 1⟩), 1⟩,
        ⟨.binary .mod ⟨.identifier "x", 2⟩ ⟨.number (.ofInt 4) false, 2⟩, 2⟩], 1⟩
    let m₀ : Machine Workbench := ⟨(Store.empty.root 8 8).2, 0, 0, .ofSink .buffer⟩
    let r := Interpreter.turns ⟨.releasing .standard Workbench.host, ⟨0⟩, m₀⟩ ⟨[], []⟩
      [⟨6, ⟨[], []⟩, .run n⟩]
    let number? (o : Outcome) : Option Number :=
      match o with
      | .result (some (.ok (.number n))) => some n
      | _ => none
    r.2.1.machine.store.IsWhole ∧ r.1.map number? = [some (.int 3)] := by
  intro n m₀ r number?
  have hnumeral : ∀ i line, (Binary64.ofInt i).isIntegral = true →
      Node.IsWhole ⟨.number (.ofInt i) false, line⟩ := by
    intro i line hi
    refine .mk (fun raw h => ?_) fun c hc => (List.not_mem_nil hc).elim
    rw [NodeKind.number.injEq] at h
    exact h.1 ▸ hi
  have hn : n.IsWhole := by
    refine .mk (fun raw h => by cases h)
      (List.forall_mem_cons.2 ⟨?_, List.forall_mem_singleton.2 ?_⟩)
    · exact .mk (fun raw h => by cases h)
        (List.forall_mem_singleton.2 (hnumeral 7 1 (by decide +kernel)))
    · refine .mk (fun raw h => by cases h)
        (List.forall_mem_cons.2 ⟨hnumeral 4 2 (by decide +kernel), List.forall_mem_singleton.2 ?_⟩)
      exact .mk (fun raw h => by cases h) fun c hc => (List.not_mem_nil hc).elim
  have hh : Workbench.host.GivesWhole fun w => w.Matches .whole w :=
    (Workbench.respects fun _ => rfl).givesWhole
  have hσ : m₀.store.IsWhole := (Store.matches_whole_iff.1 (Store.Matches.empty.add 8 none 8).2).1
  have ht : ∀ t ∈ [(⟨6, ⟨[], []⟩, .run n⟩ : Turn)], t.IsWhole :=
    List.forall_mem_singleton.2 ⟨hn, fun v hv => (List.not_mem_nil hv).elim⟩
  exact ⟨(numbers_exact hh .standard ⟨0⟩ hσ (Workbench.matches_ofSink .buffer) ht).1.1,
    by decide +kernel⟩

end Treewalk
