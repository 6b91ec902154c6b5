import Treewalk.Proofs.Fuel
import Treewalk.Proofs.Heap.WellFormed
import Treewalk.Proofs.Simulation.Exec
import Treewalk.Proofs.Workbench.Discreet

/-!
# Empty scopes are not observed

A node that declares nothing at its own level is evaluated in a new scope as in the parent of that
scope: both evaluations end alike, print the same, and leave the same bindings in all scopes that
were there before. Natives have to keep to this too, and all handles have to be to scopes that there
are.

A `for` loop with a condition alone in its header makes such a scope around all runs. Apart from the
scope it is the `while` loop: `Setting.value_forLoop_headerless`.

* `Machine.IsProper` says where evaluations may start, `Answer.SameBut` how answers agree.
* `sameBut_exec` is about nodes, `Answer.SameBut.leaveScope` about the end of the empty scope.

Main statement: `headerlessFor_sameBut_while`.
-/

namespace Treewalk

variable {ω α : Type}

/-! ## Before the evaluation -/

/-- A store with handles to scopes of its own alone. -/
structure Store.IsSelfContained (σ : Store) : Prop where
  parent_lt : ∀ s t, σ.parent? s = some t → t.index < σ.scopes.size
  binds : σ.Binds fun v => ∀ s, v.mentions s = true → s.index < σ.scopes.size

/-- Handles to the first scopes of a store alone. -/
structure Held.IsWithin (h : Held) (n : Nat) : Prop where
  lt_of_mentions : ∀ s, h.mentions s = true → s.index < n
  lt_of_object : ∀ s, ∀ v ∈ h.objectsFor s, ∀ t, v.mentions t = true → t.index < n

/-- A new scope below a scope. -/
def Store.splice (σ : Store) {env : ScopeId} (h : env.index < σ.scopes.size) : Splice :=
  ⟨(σ.child env).1, env, h⟩

/-- Whether an evaluation may start in a scope: it holds the scope, and all handles are to scopes
that there are. -/
structure Machine.IsProper (World : Splice → ω → ω → Prop) (held : Held) (env : ScopeId)
    (m : Machine ω) : Prop where
  env_lt : env.index < m.store.scopes.size
  isSelfContained : m.store.IsSelfContained
  isWithin : held.IsWithin m.store.scopes.size
  isRoot : held.IsRoot env
  world : World (m.store.splice env_lt) m.world m.world

theorem Splice.le_index_twin {p : Splice} {s : ScopeId} (h : p.extra.index < s.index) :
    p.extra.index ≤ (p.twin s).index := by
  rw [twin_of_gt h]
  exact Nat.le_sub_one_of_lt h

namespace Store.IsSelfContained

variable {σ : Store} {env s : ScopeId} {scope : Scope}

/-- Scopes of the store stay as they are if those that are no scopes of it are renamed. -/
theorem rename_eq_self (h : σ.IsSelfContained) (hs : σ.scopes[s.index]? = some scope)
    {f : ScopeId → ScopeId} (hf : ∀ t : ScopeId, t.index < σ.scopes.size → f t = t) :
    scope.rename f = scope := by
  have hbindings : scope.bindings.rename f = scope.bindings := by
    refine Table.rename_eq_self fun t ht => ?_
    obtain ⟨v, hv, hm⟩ := Table.mentions_iff.1 ht
    have hb : v ∈ (σ.bindings s).values := by rwa [Store.bindings, hs]
    exact hf t (h.binds s v hb t hm)
  have hparent : scope.parent.map f = scope.parent := by
    cases hp : scope.parent with
    | none => rfl
    | some t =>
      have hq : σ.parent? s = some t := by
        rw [Store.parent?, hs]
        exact hp
      rw [Option.map_some, hf t (h.parent_lt s t hq)]
  rw [Scope.rename, hbindings, hparent]

/-- A store with a new scope, and the store without it. -/
theorem spliced_child (h : σ.IsSelfContained) (henv : env.index < σ.scopes.size) :
    (σ.child env).2.Spliced (σ.splice henv) σ where
  size_eq := Store.size_add ..
  nextObject_eq := rfl
  scopes_eq s hs := by
    have hi : s.index ≠ σ.scopes.size := fun hi => hs (ScopeId.index_inj.1 hi)
    rw [Store.child, Store.getElem?_scopes_add, if_neg hi]
    obtain hlt | hgt := Splice.lt_or_gt hs
    · rw [Splice.twin_of_lt hlt]
      cases hscope : σ.scopes[s.index]? with
      | none => rfl
      | some scope =>
        exact congrArg some
          (h.rename_eq_self (s := s) hscope fun t ht => Splice.twin_of_lt ht).symm
    · have hle := Splice.le_index_twin hgt
      rw [Array.getElem?_eq_none hle, Array.getElem?_eq_none (Nat.le_of_lt hgt)]
      rfl
  bindings_extra := ⟨_, Store.bindings_child_self σ env⟩
  parent?_extra := Store.parent?_child_self σ env
  childCapacity_extra := by
    have hi : (σ.splice henv).parent.index ≠ σ.scopes.size := Nat.ne_of_lt henv
    rw [Store.child, Store.childCapacity_add, Store.childCapacity_add, if_neg hi]
    exact if_pos rfl
  younger s hs := by
    have hs : (σ.child env).2.parent? s = some ⟨σ.scopes.size⟩ := hs
    rw [Store.child, Store.parent?_add] at hs
    split at hs
    · exact absurd henv (Option.some.inj hs ▸ Nat.lt_irrefl _)
    · exact absurd (h.parent_lt _ _ hs) (Nat.lt_irrefl _)
  binds := by
    refine Store.Binds.add (P := (σ.splice henv).Admits) (fun s v hv => ?_) _ _ _
    rw [Splice.Admits, ← Bool.not_eq_true]
    exact fun hm => Nat.lt_irrefl _ (h.binds s v hv _ hm)

end Store.IsSelfContained

namespace Held.IsWithin

variable {held : Held} {n : Nat} {s : ScopeId}

theorem empty (n : Nat) : IsWithin .empty n where
  lt_of_mentions s hs := by simp [mentions] at hs
  lt_of_object s v hv := by simp at hv

theorem scope (h : held.IsWithin n) (hs : s.index < n) : (held.scope s).IsWithin n where
  lt_of_mentions t ht := by
    by_cases hst : s = t
    · exact hst ▸ hs
    · refine h.lt_of_mentions t ?_
      rwa [mentions, count_scope, if_neg hst, objectsFor_scope] at ht
  lt_of_object := h.lt_of_object

/-- Handles to older scopes are the same where the extra scope is left out. -/
theorem spliced {p : Splice} (h : held.IsWithin p.extra.index) : held.Spliced p held := by
  have hnone : ∀ s : ScopeId, p.extra.index ≤ s.index →
      held.count s = 0 ∧ held.objectsFor s = [] := by
    intro s hs
    have hm := mt (h.lt_of_mentions s) (Nat.not_lt_of_le hs)
    simpa [mentions] using hm
  refine ⟨fun s hs => ?_, fun s hs => ?_⟩
  · obtain hlt | hgt := Splice.lt_or_gt hs.ne_extra
    · rw [Splice.twin_of_lt hlt]
    · rw [(hnone _ (Splice.le_index_twin hgt)).1, (hnone s (Nat.le_of_lt hgt)).1]
  · obtain hlt | hgt := Splice.lt_or_gt hs.ne_extra
    · rw [Splice.twin_of_lt hlt]
      refine (List.map_id' _).symm.trans (List.map_congr_left fun v hv => ?_)
      exact (Value.rename_eq_self fun t ht =>
        Splice.twin_of_lt (h.lt_of_object s v hv t ht)).symm
    · rw [(hnone _ (Splice.le_index_twin hgt)).2, (hnone s (Nat.le_of_lt hgt)).2, List.map_nil]

end Held.IsWithin

/-- The store of an interpreter is self-contained between requests. -/
theorem Host.KeepsToNames.Holds.isSelfContained {host : Host ω} {Supplied : Table Binding → Prop}
    {Known : ω → Value → Prop} {h : host.KeepsToNames Supplied Known} {c : Config}
    {globals : ScopeId} {m : Machine ω} (hm : h.Holds c globals m) : m.store.IsSelfContained where
  parent_lt _ _ ht := Nat.lt_trans (hm.tree.older ht) (Store.lt_size_of_parent? ht)
  binds s v hv t ht := by
    have hadmits := (h.closed_iff (Nat.le_refl _) hm.tree).1 hm.closed s v hv
    exact hm.tree.mem_chain_iff.1 (hadmits.below t
      (Value.captures_iff.2 (Value.mentions_iff.1 ht)))

/-! ## After the evaluation -/

/-- The completion with the scopes in its value renamed. -/
def Completion.rename (f : ScopeId → ScopeId) : Completion → Completion
  | value v => value (v.rename f)
  | returned v => returned (v.rename f)
  | c => c

/-- Two answers that are the same but for an empty scope, which the first evaluation had. Scopes
made after it have other numbers, older scopes the same. -/
structure Answer.SameBut (World : Splice → ω → ω → Prop) (printed : ω → α) (p : Splice)
    (a b : Answer ω) : Prop where
  completion_eq : b.1 = a.1.rename p.twin
  admits : ∀ v ∈ a.1.values, p.Admits v
  line_eq : b.2.line = a.2.line
  callDepth_eq : b.2.callDepth = a.2.callDepth
  printed_eq : printed b.2.world = printed a.2.world
  bindings_eq : ∀ s : ScopeId, s.index < p.extra.index →
    b.2.store.bindings s = (a.2.store.bindings s).rename p.twin
  stores : a.2.store.Spliced p b.2.store
  worlds : World p a.2.world b.2.world

section

variable {S : Setting ω} {World : Splice → ω → ω → Prop} {printed : ω → α} {p : Splice}
variable {held : Held} {env : ScopeId} {m : Machine ω} {a b : Answer ω}

/-- Answers of evaluations in step that hold nothing more. -/
theorem sameBut_of_answers (hS : ∀ outside s σ, S.leave outside s σ = σ.leave outside s)
    (hh : S.host.IgnoresEmptyScopes World printed) {left right : Held}
    (hheld : left.Spliced p right) (hleft : left.IsRoot p.parent) (hright : right.IsRoot p.parent)
    (h : (spliceSimulation hS hh p hheld hleft hright).Answers [] a b) :
    Answer.SameBut World printed p a b := by
  obtain ⟨c, m₁⟩ := a
  obtain ⟨d, m₂⟩ := b
  obtain ⟨e, -, hx⟩ | ⟨Δ, hp, hline, hdepth, hr⟩ := h
  · exact hx.elim
  · have hr : Evened World p (Δ ++ []) m₁.store m₁.world m₂.store m₂.world := hr
    refine
      { completion_eq := ?_
        admits := ?_
        line_eq := hline.symm
        callDepth_eq := hdepth.symm
        printed_eq := (hh.printed_eq hr.worlds).symm
        bindings_eq := fun s hs => hr.stores.bindings_of_lt hs
        stores := hr.stores
        worlds := hr.worlds }
    · cases hp with
      | value v w => exact congrArg Completion.value (hr.values v w List.mem_cons_self).1
      | returned v w => exact congrArg Completion.returned (hr.values v w List.mem_cons_self).1
      | failed he => exact congrArg Completion.failed he.symm
      | _ => rfl
    · cases hp with
      | value v w | returned v w =>
        exact List.forall_mem_singleton.2 (hr.values v w List.mem_cons_self).2
      | _ => exact List.forall_mem_nil _

namespace Answer.SameBut

/-- Nothing changes when the empty scope is left. -/
theorem leaveScope (h : Answer.SameBut World printed p a b)
    (hS : ∀ outside s σ, S.leave outside s σ = σ.leave outside s) (held : Held) :
    Answer.SameBut World printed p (S.leaveScope held p.extra a) b := by
  obtain ⟨c, σ, line, callDepth, world⟩ := a
  have hσ : (S.leave [held.values c.values, S.host.held world] p.extra σ).Spliced p b.2.store := by
    rw [hS]
    obtain he | he := σ.leave_cases [held.values c.values, S.host.held world] p.extra
    · exact he ▸ h.stores.discard_extra
    · exact he.symm ▸ h.stores
  exact { h with bindings_eq := fun s hs => hσ.bindings_of_lt hs, stores := hσ }

/-- One evaluation is given up if the other one is. -/
theorem ne_exhausted_iff (h : Answer.SameBut World printed p a b) :
    b.1 ≠ .exhausted ↔ a.1 ≠ .exhausted := by
  rw [h.completion_eq]
  cases a.1 <;> simp [Completion.rename]

end Answer.SameBut

/-- **An empty scope is not observed.** A node that declares nothing at its own level is evaluated
in a new scope as in the parent of that scope. -/
theorem sameBut_exec (hS : ∀ outside s σ, S.leave outside s σ = σ.leave outside s)
    (hh : S.host.IgnoresEmptyScopes World printed) (hm : m.IsProper World held env) {n : Node}
    (hn : n.kind.DeclaresNothing) (fuel : Nat) :
    let p := m.store.splice hm.env_lt
    Answer.SameBut World printed p
      (S.exec fuel (held.scope p.extra) n p.extra (m.withStore (m.store.child env).2)).value
      (S.exec fuel held n env m).value := by
  intro p
  have hheld : held.Spliced p held := hm.isWithin.spliced
  have hleft : (held.scope p.extra).IsRoot p.parent := Held.isRoot_scope.2 (.inr hm.isRoot)
  let sim := spliceSimulation hS hh p hheld.scope_extra hleft hm.isRoot
  have hstart : Evened World p [] (m.store.child env).2 m.world m.store m.world :=
    ⟨fun _ _ hv => (nomatch hv), hm.isSelfContained.spliced_child hm.env_lt, hm.world⟩
  have hagree : sim.Agree [] (m.withStore (m.store.child env).2) m := ⟨rfl, rfl, hstart⟩
  have hsuits : sim.Suits n.kind p.extra := .inr (.inr ⟨trivial, hn⟩)
  have hanswers := sim.follows_exec fuel rfl hagree (.inl trivial) hsuits
  rw [show sim.twin p.extra = env from Splice.twin_extra] at hanswers
  exact sameBut_of_answers hS hh hheld.scope_extra hleft hm.isRoot hanswers

end

/-! ## Loops -/

namespace Setting

variable {S : Setting ω} {ev : Evaluator ω} {held : Held} {env s : ScopeId} {m : Machine ω}
variable {cond body : Node}

/-- A scope is left the same before and after an error gets its line. -/
theorem leaveScope_atLine (S : Setting ω) (held : Held) (s : ScopeId) (line : UInt32)
    (a : Answer ω) : S.leaveScope held s (a.1.atLine line, a.2) =
      ((S.leaveScope held s a).1.atLine line, (S.leaveScope held s a).2) := by
  obtain ⟨c, m⟩ := a
  cases c <;> rfl

/-- The runs of a `for` loop with a condition alone in its header. -/
theorem value_forRuns_headerless (fuel : Nat) :
    (forRuns ev held (some cond) none body s fuel m).value =
      (whileRuns ev held cond body s fuel m).value := by
  induction fuel generalizing m with
  | zero => rfl
  | succ fuel ih =>
    rw [forRuns, whileRuns, Deferred.value_thenValue, Deferred.value_thenValue, evaluateOr]
    generalize (ev held cond s m).value = a
    obtain ⟨c, m⟩ := a
    cases c with
    | value v =>
      dsimp only
      split
      · rw [Deferred.value_seq, Deferred.value_seq]
        generalize (ev held body s m).value = a
        obtain ⟨c, m⟩ := a
        dsimp only
        cases c.bodyStatus body.isBlock with
        | error c => rfl
        | ok status =>
          cases status with
          | broke => rfl
          | finished | continued => exact ih
      · rfl
    | _ => rfl

/-- A `for` loop with a condition alone in its header makes a scope around the `while` loop. -/
theorem value_forLoop_headerless (fuel : Nat) (line : UInt32) :
    (S.exec (fuel + 1) held ⟨.forLoop none (some cond) none body, line⟩ env m).value =
      (S.within held env m fun s m =>
        S.exec (fuel + 1) (held.scope s) ⟨.whileLoop cond body, line⟩ s m).value := by
  rw [value_exec_succ, within_eq, Deferred.value_map, value_exec_succ]
  dsimp only [step]
  rw [forLoop, within_eq, Deferred.value_map, Deferred.value_thenValue]
  dsimp only [evaluateOr, Machine.give, Deferred.value]
  rw [value_forRuns_headerless]
  exact (S.leaveScope_atLine held _ line _).symm

end Setting

/-- **A `for` loop with a condition alone in its header and the `while` loop agree**, if the
condition declares nothing at its own level and the body is a block. Both end or none does, with the
same completion, the same text printed and the same bindings in all scopes that were there before;
scopes made meanwhile have other numbers. More generally, so does every node that declares nothing
at its own level, in a new scope and in the parent of that scope, with any amount of fuel. Natives
may neither bind names in the scope that they are called from nor see which one it is. -/
theorem headerlessFor_sameBut_while {host : Host ω} {World : Splice → ω → ω → Prop}
    {printed : ω → α} (hh : host.IgnoresEmptyScopes World printed) (config : Config)
    {held : Held} {env : ScopeId} {m : Machine ω} (hm : m.IsProper World held env) :
    let S := Setting.releasing config host
    let p := m.store.splice hm.env_lt
    (∀ (n : Node) (fuel : Nat), n.kind.DeclaresNothing → Answer.SameBut World printed p
      (S.exec fuel (held.scope p.extra) n p.extra (m.withStore (m.store.child env).2)).value
      (S.exec fuel held n env m).value) ∧
    ∀ (cond body : Node) (line : UInt32), cond.kind.DeclaresNothing → body.isBlock = true →
      (∀ a, S.Ends held ⟨.forLoop none (some cond) none body, line⟩ env m a →
        ∃ b, S.Ends held ⟨.whileLoop cond body, line⟩ env m b ∧
          Answer.SameBut World printed p a b) ∧
      ∀ b, S.Ends held ⟨.whileLoop cond body, line⟩ env m b →
        ∃ a, S.Ends held ⟨.forLoop none (some cond) none body, line⟩ env m a ∧
          Answer.SameBut World printed p a b := by
  intro S p
  have hS : ∀ outside s σ, S.leave outside s σ = σ.leave outside s := fun _ _ _ => rfl
  have hnode := fun (n : Node) fuel (hn : n.kind.DeclaresNothing) =>
    sameBut_exec (S := S) hS hh hm hn fuel
  refine ⟨hnode, fun cond body line hcond hbody => ?_⟩
  have hwhile : (NodeKind.whileLoop cond body).DeclaresNothing := by
    have hblock := NodeKind.declaresNothing_of_isBlock hbody
    exact .intro rfl (List.forall_mem_cons.2 ⟨hcond, List.forall_mem_singleton.2 hblock⟩)
  have hloops : ∀ fuel, Answer.SameBut World printed p
      (S.exec (fuel + 1) held ⟨.forLoop none (some cond) none body, line⟩ env m).value
      (S.exec (fuel + 1) held ⟨.whileLoop cond body, line⟩ env m).value := by
    intro fuel
    rw [Setting.value_forLoop_headerless]
    exact (hnode ⟨.whileLoop cond body, line⟩ (fuel + 1) hwhile).leaveScope hS held
  constructor
  · rintro a ⟨hne, fuel, rfl⟩
    cases fuel with
    | zero => exact (hne rfl).elim
    | succ fuel => exact ⟨_, ⟨(hloops fuel).ne_exhausted_iff.2 hne, _, rfl⟩, hloops fuel⟩
  · rintro b ⟨hne, fuel, rfl⟩
    cases fuel with
    | zero => exact (hne rfl).elim
    | succ fuel => exact ⟨_, ⟨(hloops fuel).ne_exhausted_iff.1 hne, _, rfl⟩, hloops fuel⟩

/-- Loops on the workbench that print in the condition and in the body, and break. -/
theorem headerlessFor_sameBut_while_printing :
    let b : Builder :=
      (Builder.start.withConfig { Config.standard with globalCapacity := 8 }).withPrinting
    let S := Setting.releasing b.config Workbench.host
    let print (text : String) : Node := ⟨.call ⟨.identifier "print", 1⟩ [⟨.string text, 1⟩], 1⟩
    let cond : Node := ⟨.unary .not (print "a"), 1⟩
    let body : Node := ⟨.block [print "b", ⟨.breakLoop, 1⟩], 1⟩
    let w : Workbench := { Workbench.ofSink .buffer with builtins := #[.print, .printLine] }
    ∃ globals σ, b.build ⟨0, "print"⟩ ⟨1, "println"⟩ .empty = .ok (globals, σ) ∧
      let m : Machine Workbench := ⟨σ, 0, 0, w⟩
      let held := Held.empty.scope globals
      ∃ hm : m.IsProper Workbench.Spliced held globals,
        cond.kind.DeclaresNothing ∧ body.isBlock = true ∧
          ∃ a c, S.Ends held ⟨.forLoop none (some cond) none body, 1⟩ globals m a ∧
            S.Ends held ⟨.whileLoop cond body, 1⟩ globals m c ∧
              Answer.SameBut Workbench.Spliced Workbench.output (m.store.splice hm.env_lt) a c ∧
                c.2.world.output.output = "ab" := by
  intro b S print cond body w
  let runs (globals : ScopeId) (σ : Store) : Answer Workbench :=
    (S.exec 8 (Held.empty.scope globals) ⟨.whileLoop cond body, 1⟩ globals ⟨σ, 0, 0, w⟩).value
  have hok : (b.build ⟨0, "print"⟩ ⟨1, "println"⟩ .empty).toOption.any (fun p =>
      (runs p.1 p.2).1.loopStatus.toOption = some .finished ∧
        (runs p.1 p.2).2.world.output.output = "ab") = true := by decide +kernel
  cases hb : b.build ⟨0, "print"⟩ ⟨1, "println"⟩ .empty with
  | error cause =>
    rw [hb] at hok
    cases hok
  | ok p =>
    obtain ⟨globals, σ⟩ := p
    rw [hb] at hok
    obtain ⟨hvalue, hprinted⟩ := of_decide_eq_true hok
    obtain ⟨v, hv⟩ := Completion.exists_eq_value hvalue
    have hholds := Workbench.keepsToNames.holds_of_build (w := w) (by simp) hb
    have hdiscreet : ∀ b ∈ #[Builtin.print, .printLine], b.isDiscreet = true := by decide
    have hm : Machine.IsProper Workbench.Spliced (Held.empty.scope globals) globals
        ⟨σ, 0, 0, w⟩ :=
      { env_lt := hholds.tree.globals_lt
        isSelfContained := hholds.isSelfContained
        isWithin := (Held.IsWithin.empty _).scope hholds.tree.globals_lt
        isRoot := Held.isRoot_scope.2 (.inl rfl)
        world := ⟨rfl, hdiscreet, rfl, Array.map_empty.symm, .empty, rfl⟩ }
    have hleaf : ∀ n ∈ ([] : List Node), n.kind.DeclaresNothing := List.forall_mem_nil _
    have hprint : (print "a").kind.DeclaresNothing := .intro rfl
      (List.forall_mem_cons.2 ⟨.intro rfl hleaf, List.forall_mem_singleton.2 (.intro rfl hleaf)⟩)
    have hcond : cond.kind.DeclaresNothing := .intro rfl (List.forall_mem_singleton.2 hprint)
    have hwhile : S.Ends (Held.empty.scope globals) ⟨.whileLoop cond body, 1⟩ globals
        ⟨σ, 0, 0, w⟩ (runs globals σ) := ⟨by rw [hv]; simp, 8, rfl⟩
    obtain ⟨a, ha, hsame⟩ := ((headerlessFor_sameBut_while Workbench.ignoresEmptyScopes b.config
      hm).2 cond body 1 hcond rfl).2 _ hwhile
    exact ⟨globals, σ, rfl, hm, hcond, rfl, a, _, ha, hwhile, hsame, hprinted⟩

end Treewalk
