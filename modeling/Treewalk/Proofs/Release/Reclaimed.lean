import Treewalk.Eval.Exec
import Treewalk.Native.Workbench
import Treewalk.Proofs.Scope.Owned

/-!
# Scopes are reclaimed when they are left

An evaluation in a scope of its own, a block, a loop with a header, a run of a counted loop or a
call of a function, leaves the scope at its end. If afterwards only values in the scope's own
bindings hold it, the scope is dropped; provided that the completion of the evaluation did not lead
to it, since that is held while the scope is left, and that no object with handles to the scope is
at several places.

* `Store.dropped_of_leave` says so of a scope that is left, `Store.not_dropped_of_leave` that the
  condition on what is held meanwhile is needed: a scope that it leads to is kept for good.
* `Setting.Stays` are the evaluations with a scope of their own.

Main statement: `scopes_reclaimed`.
-/

namespace Treewalk

/-! ## Leaving a scope -/

namespace Store

variable {σ : Store} {outside outside' : List Held} {s t u : ScopeId}

theorem Reaches.of_leadsTo {roots : ScopeId → Prop} (h : σ.Reaches roots t)
    (hts : σ.LeadsTo t s) : σ.Reaches roots s := by
  induction hts with
  | single hs => exact h.step hs
  | tail _ hs ih => exact ih.step hs

theorem holds_discard_self (σ : Store) (s : ScopeId) : (σ.discard s).holds s s = false := by
  by_contra h
  obtain ⟨scope, hs, hd, -⟩ := holds_iff.1 (by simpa using h)
  rw [getElem?_scopes_discard, if_pos rfl] at hs
  obtain ⟨old, -, rfl⟩ := Option.map_eq_some_iff.1 hs
  cases hd

/-- A scope that only itself holds, and that nothing held while it was left, is dropped. -/
theorem dropped_of_leave (h : (σ.leave outside s).HeldByItself outside' s)
    (hout : ∀ t, t = s ∨ (σ.leave outside s).LeadsTo t s →
      isHeld outside t = true → isHeld outside' t = true)
    (hu : Unshared s ((σ.leave outside s).bindings s).values) :
    (σ.leave outside s).Dropped outside' s := by
  by_cases hc : (σ.handleCount outside s).all = (σ.handleCount outside s).own
  · rw [leave, if_pos hc] at h ⊢
    refine .intro h.unheld fun t ht => h.others t ?_ ht
    rintro rfl
    rw [holds_discard_self] at ht
    cases ht
  · -- the scope was kept, although there was no handle to keep it
    rw [leave, if_neg hc] at h hout hu
    have hunheld : ∀ t, t = s ∨ σ.LeadsTo t s → isHeld outside' t = false →
        ∀ h ∈ outside, h.mentions t = false := fun t ht hf =>
      isHeld_eq_false.1 (Bool.eq_false_iff.2 fun hh => by simp [hout t ht hh] at hf)
    refine (hc (HeldByItself.count_eq ⟨?_, fun t hne ht => ?_, h.parent⟩ hu)).elim
    · exact hunheld s (.inl rfl) (isHeld_eq_false.2 h.unheld)
    · have hd := h.others t hne ht
      refine hd.of_unheld fun u hut => hunheld u (.inr ?_) (isHeld_eq_false.2 ?_)
      · obtain rfl | hut := hut
        · exact .single ht
        · exact hut.tail ht
      · obtain rfl | hut := hut
        · exact hd.unheld
        · exact (hd.of_leadsTo hut).unheld

/-- A scope that binds a handle to itself, and that a handle led to while it was left, is never
dropped, whatever becomes of that handle. -/
theorem not_dropped_of_leave {T : ObjectId → Table Binding} {n : Nat}
    (hout : ∀ h ∈ outside, h.Obeys T n) (hσ : ∀ t, ∀ v ∈ (σ.bindings t).values, v.Obeys T n)
    (hs : σ.holds s s = true) {h : Held} (hh : h ∈ outside) (ht : h.IsRoot t)
    (hts : t = s ∨ σ.LeadsTo t s) : ¬(σ.leave outside s).Dropped outside' s := by
  have hreaches : σ.Reaches (fun t => ∃ h ∈ outside, h.IsRoot t) s := by
    have hroot : σ.Reaches (fun t => ∃ h ∈ outside, h.IsRoot t) t := .root ⟨h, hh, ht⟩
    obtain rfl | hts := hts
    · exact hroot
    · exact hroot.of_leadsTo hts
  rw [leave, if_neg fun hc => not_reaches_of_count (fun h hh => hout h hh s) hσ hc hreaches]
  exact fun hd => hd.irrefl (.single hs)

end Store

/-! ## Evaluations in a scope of their own -/

namespace Setting

variable {ω : Type}

/-- The evaluations with a scope of their own, below which scope and from which machine they start:
blocks, loops with a header, runs of counted loops, and calls of functions that pass their checks.
-/
inductive Stays (S : Setting ω) (evaluate : Evaluator ω) (held : Held) :
    ScopeId → Machine ω → Deferred (Answer ω) → Prop
  | block (body : List Node) (env : ScopeId) (m : Machine ω) :
    Stays S evaluate held env m (S.block evaluate held body env m)
  | forLoop (fuel : Nat) (init cond update : Option Node) (body : Node) (env : ScopeId)
    (m : Machine ω) :
    Stays S evaluate held env m (S.forLoop evaluate fuel held init cond update body env m)
  | countedRun (counter : String) (body : Node) (env : ScopeId) (index : Nat) (m : Machine ω) :
    Stays S evaluate held env m (S.countedRun evaluate held counter body env index m)
  | call (f : Closure) (args : List Value) (m : Machine ω)
    (harity : f.arityFault? args.length = none) (hdepth : m.callDepth < S.config.maxCallDepth) :
    Stays S evaluate held f.scope m (S.callClosure evaluate held f args m)

variable {S : Setting ω} {evaluate : Evaluator ω} {held : Held} {parent : ScopeId}
variable {m : Machine ω} {d : Deferred (Answer ω)}

theorem Stays.exists_within (h : S.Stays evaluate held parent m d) :
    ∃ body, d = S.within held parent m body := by
  cases h with
  | block => exact ⟨_, rfl⟩
  | forLoop => exact ⟨_, rfl⟩
  | countedRun => exact ⟨_, rfl⟩
  | call f args m harity hdepth =>
    rw [callClosure, harity]
    dsimp only
    rw [if_neg (Nat.not_le.2 hdepth)]
    exact ⟨_, rfl⟩

end Setting

/-- **Scopes are reclaimed when they are left.** Take any evaluation with a scope of its own,
however it ends. If afterwards, with its completion given up, only values in the scope's own
bindings hold the scope, then the scope is dropped; provided that no value of the completion led to
it, and that each object with a handle to it is at one place in its bindings. -/
theorem scopes_reclaimed {ω : Type} {c : Config} {host : Host ω} {evaluate : Evaluator ω}
    {held : Held} {parent : ScopeId} {m : Machine ω} {d : Deferred (Answer ω)}
    (h : (Setting.releasing c host).Stays evaluate held parent m d) :
    let s := (m.store.child parent).1
    let a := d.value
    let σ := a.2.store
    let outside := [held, host.held a.2.world]
    (hs : σ.HeldByItself outside s) →
    (hc : ∀ v ∈ a.1.values, ∀ t, t = s ∨ σ.LeadsTo t s → v.mentions t = false) →
    (hu : Unshared s (σ.bindings s).values) →
    σ.isDropped outside s = true := by
  intro s a σ outside hs hc hu
  obtain ⟨body, rfl⟩ := h.exists_within
  rw [Store.isDropped_iff]
  -- the end of the body, whose completion is held while the scope is left
  obtain ⟨⟨c', m'⟩, hend⟩ : ∃ r, (body s (m.withStore (m.store.child parent).2)).value = r :=
    ⟨_, rfl⟩
  have ha : a = Setting.leaveScope (.releasing c host) held s (c', m') := by
    rw [← hend]
    rfl
  have hσ : σ = m'.store.leave [held.values c'.values, host.held m'.world] s :=
    congrArg (·.2.store) ha
  have hvalues : a.1.values = c'.values := congrArg (·.1.values) ha
  have houtside : outside = [held, host.held m'.world] :=
    congrArg (fun a => [held, host.held a.2.world]) ha
  rw [hσ, houtside] at hs ⊢
  rw [hσ, hvalues] at hc
  rw [hσ] at hu
  refine Store.dropped_of_leave hs (fun t ht hheld => ?_) hu
  simp only [isHeld, List.any_cons, List.any_nil, Bool.or_false, Bool.or_eq_true,
    Held.mentions_values] at hheld ⊢
  refine hheld.imp_left fun hm => hm.resolve_left ?_
  rintro ⟨v, hv, hvt⟩
  exact Bool.false_ne_true ((hc v hv t ht).symm.trans hvt)

/-- A block that binds a function in its scope and ends with a string. -/
theorem scopes_reclaimed_block :
    let S := Setting.releasing Config.standard Workbench.host
    let body : List Node := [⟨.function "f" ⟨0, [], []⟩, 1⟩, ⟨.string "done", 2⟩]
    let m : Machine Workbench := ⟨(Store.empty.root 1 1).2, 0, 0, .ofSink .buffer⟩
    let s := (m.store.child ⟨0⟩).1
    let a := (S.block (S.exec 1) .empty body ⟨0⟩ m).value
    let outside := [.empty, Workbench.host.held a.2.world]
    a.2.store.HeldByItself outside s ∧ a.2.store.isDropped outside s = true := by
  intro S body m
  have hvalues : (S.block (S.exec 1) .empty body ⟨0⟩ m).value.1.values.all (·.scopes.isEmpty) := by
    decide +kernel
  have hbindings : ((S.block (S.exec 1) .empty body ⟨0⟩ m).value.2.store.bindings
      (m.store.child ⟨0⟩).1).values.isEmpty := by decide +kernel
  have hstays : S.Stays (S.exec 1) .empty ⟨0⟩ m (S.block (S.exec 1) .empty body ⟨0⟩ m) :=
    .block body ⟨0⟩ m
  have hreclaimed := scopes_reclaimed hstays
  dsimp only at hreclaimed ⊢
  refine (and_iff_left_of_imp fun hs => hreclaimed hs (fun v hv t _ => ?_) ?_).2
    (Store.heldByItself_of_holds (by decide +kernel) (by decide +kernel) (by decide +kernel))
  · have hv := List.all_eq_true.1 hvalues v hv
    simp [Value.mentions, List.isEmpty_iff.1 hv]
  · rw [List.isEmpty_iff.1 hbindings]
    exact fun id t ht => (List.not_mem_nil ht).elim

-- The same statements the other way round: the value of the block is the function, which holds the
-- scope while it is left.
example :
    let S := Setting.releasing Config.standard Workbench.host
    let body : List Node := [⟨.string "done", 1⟩, ⟨.function "f" ⟨0, [], []⟩, 2⟩]
    let m : Machine Workbench := ⟨(Store.empty.root 1 1).2, 0, 0, .ofSink .buffer⟩
    let s := (m.store.child ⟨0⟩).1
    let a := (S.block (S.exec 1) .empty body ⟨0⟩ m).value
    a.2.store.isDropped [.empty, Workbench.host.held a.2.world] s = false := by
  decide +kernel

end Treewalk
