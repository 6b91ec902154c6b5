import Treewalk.Proofs.Frame
import Treewalk.Proofs.Fuel
import Treewalk.Proofs.Parameters
import Treewalk.Proofs.Trace.Course

/-!
# Counted loops run as they are bounded

How a counted loop ends is said by rules: the bound gives a limit, or an error (`Value.Bounds`); a
run takes place in a new scope that holds its index and nothing else (`Setting.RunEnds`); the runs
follow each other until the limit or until one of them ends the loop (`Setting.Runs`). There is a
counter in every run as long as the scope of the loop has room for names below it, which natives
have to leave so (`Host.KeepsCapacities`).

* `Store.exists_startsRun`: a run starts in a new scope that holds the counter.
* `Setting.runs_of_countedRuns` and `Setting.countedRuns_of_runs`: the runs of the loop are those
  of the rules.
* `Setting.RunEnds.kept`: what evaluations keep, a run keeps.

Main statement: `countedLoop_ends_iff`, a counted loop ends as the rules say.
-/

namespace Treewalk

/-! ## Bounds -/

/-- What the value of a bound stands for: an error, or a number of runs that may be unlimited. -/
inductive Value.Bounds : Value → Except ErrorCause (Option Nat) → Prop
  | negative {n : Number} (htag : n.isFloat = false) (hneg : n.toInt < 0) :
    Bounds (.number n) (.error (.invalidBound n.toInt))
  | count {n : Number} {k : Nat} (htag : n.isFloat = false) (hk : n.toInt = k) :
    Bounds (.number n) (.ok (some k))
  | float {n : Number} (htag : n.isFloat = true) :
    Bounds (.number n) (.error (.typeError (.loopBound .number)))
  | other {v : Value} (hnumber : v.type ≠ .number) (hboolean : v.type ≠ .boolean) :
    Bounds v (.error (.typeError (.loopBound v.type)))
  | never : Bounds (.bool false) (.ok (some 0))
  | endless : Bounds (.bool true) (.ok none)

namespace LoopBound

/-- The index that a loop does not come to. -/
def limit : LoopBound → Option Nat
  | unbounded => none
  | times count => some count

theorem allows_iff (b : LoopBound) (i : Nat) : b.allows i = true ↔ ∀ k ∈ b.limit, i < k := by
  cases b with
  | unbounded => simp [allows, limit]
  | times count => simp [limit]

theorem bounds_iff (v : Value) (r : Except ErrorCause (Option Nat)) :
    v.Bounds r ↔ r = (ofValue v).map limit := by
  constructor
  · intro h
    cases h with
    | negative htag hneg => simp [ofValue, htag, hneg, Except.map]
    | @count n k htag hk =>
      have hneg : ¬n.toInt < 0 := by omega
      rw [ofValue, if_neg (by simp [htag]), if_neg hneg, hk]
      rfl
    | float htag => simp [ofValue, htag, Except.map]
    | other hnumber hboolean =>
      cases v with
      | number n => exact absurd rfl hnumber
      | bool b => exact absurd rfl hboolean
      | _ => rfl
    | _ => rfl
  · rintro rfl
    cases v with
    | number n =>
      unfold ofValue
      dsimp only
      split
      · next htag => exact .float htag
      · next htag =>
        have htag : n.isFloat = false := by simpa using htag
        split
        · next hneg => exact .negative htag hneg
        · exact .count htag (by omega)
    | bool b => cases b <;> constructor
    | _ => exact .other (by simp [Value.type]) (by simp [Value.type])

end LoopBound

/-! ## Room for the counter -/

/-- The natives of a host leave the capacities for the tables below scopes as they are. -/
def Host.KeepsCapacities {ω : Type} (host : Host ω) : Prop :=
  ∀ (f : NativeFunction) (args : List Value) (env : ScopeId) (σ : Store) (w : ω) (s : ScopeId),
    s.index < σ.scopes.size →
      (host.call f args env σ w).2.1.childCapacity s = σ.childCapacity s

namespace Store

variable {σ σ' : Store} {s : ScopeId}

theorem lt_size_of_childCapacity (h : 0 < σ.childCapacity s) : s.index < σ.scopes.size := by
  by_contra hs
  rw [childCapacity, Array.getElem?_eq_none (Nat.le_of_not_lt hs)] at h
  exact Nat.lt_irrefl 0 h

/-- A new scope takes no room. -/
theorem childCapacity_pos_add (h : 0 < σ.childCapacity s) (capacity : Nat)
    (parent : Option ScopeId) (childCapacity : Nat) :
    0 < (σ.add capacity parent childCapacity).2.childCapacity s := by
  have hs := lt_size_of_childCapacity h
  rwa [childCapacity_add, if_neg (by omega)]

theorem childCapacity_leave (σ : Store) (outside : List Held) (t s : ScopeId) :
    (σ.leave outside t).childCapacity s = σ.childCapacity s := by
  obtain he | he := σ.leave_cases outside t
  · rw [he, childCapacity_discard]
  · rw [he]

/-! ## Runs -/

/-- A store for a run of a loop: there is one new scope, below the scope of the loop, in which the
counter was declared. It holds the counter as a variable, with the index of the run, and nothing
else. -/
structure StartsRun (σ : Store) (env : ScopeId) (counter : String) (index : Nat) (s : ScopeId)
    (σ' : Store) : Prop where
  declare_eq : ∃ b, (σ.child env).2.declare s counter (.int index) false = .ok (b, σ')
  index_eq : s.index = σ.scopes.size
  size_eq : σ'.scopes.size = σ.scopes.size + 1
  scopes_eq : σ'.Includes σ
  parent?_eq : σ'.parent? s = some env
  entries_eq : (σ'.bindings s).entries = [(counter, ⟨counter, false, .int index⟩)]

theorem entries_eq_singleton {t : Table Binding} (h : t.WellFormed) {x : String} {b : Binding}
    (hget : ∀ y, t.get? y = if x = y then some b else none) : t.entries = [(x, b)] := by
  have hmem : ∀ p : String × Binding, p ∈ t.entries ↔ p = (x, b) := by
    rintro ⟨y, c⟩
    rw [h.mem_entries, hget, Option.ite_none_right_eq_some, Prod.mk.injEq, Option.some_inj,
      eq_comm, eq_comm (a := b)]
  have hnodup : t.entries.Nodup := h.nodup_keys.of_map _
  rw [← List.perm_singleton, List.perm_ext_iff_of_nodup hnodup (List.nodup_singleton _)]
  exact fun p => (hmem p).trans List.mem_singleton.symm

/-- A scope with room for names has room for a counter. -/
theorem exists_startsRun (h : 0 < σ.childCapacity s) (counter : String) (index : Nat) :
    ∃ t σ', σ.StartsRun s counter index t σ' := by
  have hempty := σ.bindings_child_self s
  have hw : ((σ.child s).2.bindings (σ.child s).1).WellFormed :=
    hempty ▸ Table.wellFormed_withCapacity _
  have hs : (σ.child s).1.index = σ.scopes.size := rfl
  cases hd : (σ.child s).2.declare (σ.child s).1 counter (.int index) false with
  | error cause =>
    obtain ⟨hp, -⟩ := declare_eq_error hd
    rw [hw.place?_eq_none_iff, hw.isFull_iff_length_entries, hempty, Table.entries_withCapacity,
      Table.capacity_withCapacity] at hp
    exact absurd hp h.ne
  | ok p =>
    obtain ⟨b, σ'⟩ := p
    have hd' := hd
    obtain ⟨-, p, hp, rfl⟩ := declare_eq_ok hd'
    refine ⟨(σ.child s).1, _, ⟨b, hd⟩, rfl, ?_, fun j hj => ?_, ?_, ?_⟩
    · rw [size_place, child, size_add]
    · rw [getElem?_scopes_place, if_neg (by omega), child, getElem?_scopes_add, if_neg (by omega)]
    · rw [parent?_place, parent?_child_self]
    · rw [bindings_place, if_pos rfl]
      refine entries_eq_singleton (hw.place hp _) fun y => ?_
      rw [hw.get?_place hp, hempty, Table.get?_withCapacity]

end Store

variable {ω : Type}

namespace Setting

/-- One run of a loop, in a new scope. How the body ends is how the run ends, but that a value of
the body is dropped; then the scope is left. -/
def RunEnds (S : Setting ω) (held : Held) (counter : String) (body : Node) (env : ScopeId)
    (index : Nat) (m : Machine ω) (a : Answer ω) : Prop :=
  ∃ s σ c m', m.store.StartsRun env counter index s σ ∧
    S.Ends (held.scope s) body s (m.withStore σ) (c, m') ∧
      a = S.leaveScope held s (c.dropValue, m')

/-- The runs of a loop from an index on, up to a limit if there is one. Values and continues go on
to the next run; a break ends the loop with null, and a return, an error or a panic ends it as it
is. -/
inductive Runs (S : Setting ω) (held : Held) (limit : Option Nat) (counter : String) (body : Node)
    (env : ScopeId) : Nat → Machine ω → Answer ω → Prop
  | stop {i : Nat} {m : Machine ω} (hlimit : limit = some i) :
    Runs S held limit counter body env i m (.value .null, m)
  | next {i : Nat} {m m' : Machine ω} {c : Completion} {a : Answer ω}
    (hlimit : ∀ k ∈ limit, i < k) (hrun : S.RunEnds held counter body env i m (c, m'))
    (hc : c = .value .null ∨ c = .continued)
    (hrest : Runs S held limit counter body env (i + 1) m' a) :
    Runs S held limit counter body env i m a
  | broke {i : Nat} {m m' : Machine ω} (hlimit : ∀ k ∈ limit, i < k)
    (hrun : S.RunEnds held counter body env i m (.broke, m')) :
    Runs S held limit counter body env i m (.value .null, m')
  | left {i : Nat} {m m' : Machine ω} {c : Completion} (hlimit : ∀ k ∈ limit, i < k)
    (hrun : S.RunEnds held counter body env i m (c, m'))
    (hc : (∃ v, c = .returned v) ∨ (∃ e, c = .failed e) ∨ c = .panicked) :
    Runs S held limit counter body env i m (c, m')

variable {S : Setting ω} {held : Held} {counter : String} {body : Node} {env s : ScopeId}
variable {index : Nat} {m m' : Machine ω} {σ : Store} {limit : Option Nat} {a : Answer ω}

/-- A run of the loop over any evaluator. -/
theorem value_countedRun (h : m.store.StartsRun env counter index s σ) (ev : Evaluator ω) :
    (S.countedRun ev held counter body env index m).value =
      S.leaveScope held s ((ev (held.scope s) body s (m.withStore σ)).value.1.dropValue,
        (ev (held.scope s) body s (m.withStore σ)).value.2) := by
  obtain ⟨b, hd⟩ := h.declare_eq
  obtain rfl : s = (m.store.child env).1 := ScopeId.index_inj.1 h.index_eq
  rw [countedRun, within, Deferred.value_map]
  dsimp only [Machine.withStore]
  rw [hd]
  rfl

/-- A run that is not given up ends by the rule. -/
theorem runEnds_of_countedRun (hroom : 0 < m.store.childCapacity env) {fuel : Nat}
    (hne : (S.countedRun (S.exec fuel) held counter body env index m).value.1 ≠ .exhausted) :
    S.RunEnds held counter body env index m
      (S.countedRun (S.exec fuel) held counter body env index m).value := by
  obtain ⟨s, σ, h⟩ := Store.exists_startsRun hroom counter index
  rw [value_countedRun h] at hne ⊢
  refine ⟨s, σ, _, _, h, ⟨fun he => hne ?_, fuel, rfl⟩, rfl⟩
  rw [leaveScope, he]
  rfl

/-- A run that ends by the rule ends so with enough fuel. -/
theorem exists_countedRun_of_runEnds (h : S.RunEnds held counter body env index m a) :
    ∃ k, ∀ fuel, k ≤ fuel →
      (S.countedRun (S.exec fuel) held counter body env index m).value = a := by
  obtain ⟨s, σ, c, m', hstart, hends, rfl⟩ := h
  obtain ⟨k, hk⟩ := hends.exists_forall_le
  refine ⟨k, fun fuel hf => ?_⟩
  rw [value_countedRun hstart, hk fuel hf]

/-- The value of a run is dropped. -/
theorem RunEnds.eq_null {v : Value} (h : S.RunEnds held counter body env index m (.value v, m')) :
    v = .null := by
  obtain ⟨s, σ, c, m', -, -, he⟩ := h
  have hc : Completion.value v = c.dropValue := congrArg Prod.fst he
  cases c <;> cases hc
  rfl

/-- What evaluations keep, a run keeps. -/
theorem RunEnds.kept (h : S.RunEnds held counter body env index m a) (I : Invariant S)
    (hk : I.Kept m.store m.world) : I.Kept a.2.store a.2.world := by
  obtain ⟨s, σ, c, m', hstart, ⟨-, fuel, hends⟩, rfl⟩ := h
  obtain ⟨b, hd⟩ := hstart.declare_eq
  obtain rfl : s = (m.store.child env).1 := ScopeId.index_inj.1 hstart.index_eq
  obtain ⟨hnew, hk⟩ := I.child env hk
  have hopen := I.open_of_new hnew
  have hk := Invariant.kept_exec (m := m.withStore σ) (I.declare hk hopen hd) hopen fuel
    (held.scope (m.store.child env).1) body
  rw [hends] at hk
  exact I.leave _ hnew hk

/-- What evaluations keep, the runs of a loop keep. -/
theorem Runs.kept (h : S.Runs held limit counter body env index m a) (I : Invariant S)
    (hk : I.Kept m.store m.world) : I.Kept a.2.store a.2.world := by
  induction h with
  | stop _ => exact hk
  | next _ hrun _ _ ih => exact ih (hrun.kept I hk)
  | broke _ hrun => exact hrun.kept I hk
  | left _ hrun _ => exact hrun.kept I hk

end Setting

/-- Evaluations leave the room for names below a scope. -/
def roomInvariant (config : Config) {host : Host ω} (h : host.KeepsCapacities) (s : ScopeId) :
    Invariant (Setting.releasing config host) where
  Kept σ _ := 0 < σ.childCapacity s
  Open _ := True
  New _ := True
  open_of_new _ := trivial
  child _ hk := ⟨trivial, Store.childCapacity_pos_add hk ..⟩
  leave outside _ hk := Nat.lt_of_lt_of_eq hk (Store.childCapacity_leave ..).symm
  declare hk _ hd := by
    obtain ⟨-, p, -, rfl⟩ := Store.declare_eq_ok hd
    rwa [Store.childCapacity_place]
  assign hk ha := by
    obtain ⟨t, i, old, -, -, -, -, rfl⟩ := Store.assign_eq_ok ha
    rwa [Store.childCapacity_place]
  number _ hk := hk
  call f args hk _ :=
    Nat.lt_of_lt_of_eq hk (h f args _ _ _ s (Store.lt_size_of_childCapacity hk)).symm

namespace Setting

variable {config : Config} {host : Host ω} {held : Held} {counter : String} {body : Node}
variable {env : ScopeId} {index : Nat} {m : Machine ω} {a : Answer ω}

/-- The runs of a loop that are not given up are those of the rules. -/
theorem runs_of_countedRuns (hh : host.KeepsCapacities) (hbody : body.isBlock = true)
    (b : LoopBound) (hroom : 0 < m.store.childCapacity env) (hindex : ∀ k ∈ b.limit, index ≤ k)
    {fuel fuel' : Nat} (hne : ((releasing config host).countedRuns
      ((releasing config host).exec fuel) held b counter body env fuel' index m).value.1 ≠
        .exhausted) :
    (releasing config host).Runs held b.limit counter body env index m
      ((releasing config host).countedRuns ((releasing config host).exec fuel) held b counter body
        env fuel' index m).value := by
  induction fuel' generalizing index m with
  | zero => exact (hne rfl).elim
  | succ fuel' ih =>
    rw [countedRuns] at hne ⊢
    by_cases hallows : b.allows index = true
    · rw [if_pos hallows, Deferred.value_seq] at hne ⊢
      have hlimit := (b.allows_iff index).1 hallows
      generalize hr : ((releasing config host).countedRun ((releasing config host).exec fuel) held
        counter body env index m).value = r at hne ⊢
      have hrun : r.1 ≠ .exhausted →
          (releasing config host).RunEnds held counter body env index m r := fun hne => by
        rw [← hr] at hne ⊢
        exact runEnds_of_countedRun hroom hne
      obtain ⟨c, m'⟩ := r
      rw [hbody] at hne ⊢
      have hrest : ∀ hc : c ≠ .exhausted, ((releasing config host).countedRuns
          ((releasing config host).exec fuel) held b counter body env fuel' (index + 1)
            m').value.1 ≠ .exhausted → (releasing config host).Runs held b.limit counter body env
          (index + 1) m' ((releasing config host).countedRuns ((releasing config host).exec fuel)
            held b counter body env fuel' (index + 1) m').value := fun hc hne =>
        ih ((hrun hc).kept (roomInvariant config hh env) hroom) (fun k hk => hlimit k hk) hne
      cases c with
      | value v =>
        obtain rfl := (hrun (by simp)).eq_null
        exact .next hlimit (hrun (by simp)) (.inl rfl) (hrest (by simp) hne)
      | continued => exact .next hlimit (hrun (by simp)) (.inr rfl) (hrest (by simp) hne)
      | broke => exact .broke hlimit (hrun (by simp))
      | returned v => exact .left hlimit (hrun (by simp)) (.inl ⟨v, rfl⟩)
      | failed e => exact .left hlimit (hrun (by simp)) (.inr (.inl ⟨e, rfl⟩))
      | panicked => exact .left hlimit (hrun (by simp)) (.inr (.inr rfl))
      | exhausted => exact (hne rfl).elim
    · rw [if_neg hallows]
      rw [b.allows_iff] at hallows
      push Not at hallows
      obtain ⟨k, hk, hle⟩ := hallows
      obtain rfl : index = k := Nat.le_antisymm (hindex k hk) hle
      exact .stop hk

/-- A run of the loop's body under the control of the loop, and what follows it. -/
theorem value_countedRuns_succ {S : Setting ω} {ev : Evaluator ω} {b : LoopBound} {fuel : Nat}
    {c : Completion} {m' : Machine ω} (hbody : body.isBlock = true)
    (hlimit : ∀ k ∈ b.limit, index < k)
    (hrun : (S.countedRun ev held counter body env index m).value = (c, m')) :
    (S.countedRuns ev held b counter body env (fuel + 1) index m).value =
      match c.loopStatus with
      | .ok .broke => (.value .null, m')
      | .ok _ => (S.countedRuns ev held b counter body env fuel (index + 1) m').value
      | .error c => (c, m') := by
  rw [countedRuns, if_pos ((b.allows_iff index).2 hlimit), Deferred.value_seq, hrun, hbody]
  cases c <;> rfl

/-- The runs of the rules are those of the loop, with enough fuel. -/
theorem countedRuns_of_runs {S : Setting ω} {limit : Option Nat} (hbody : body.isBlock = true)
    (b : LoopBound) (hb : b.limit = limit) (h : S.Runs held limit counter body env index m a) :
    a.1 ≠ .exhausted ∧ ∃ k, ∀ fuel fuel', k ≤ fuel → k ≤ fuel' →
      (S.countedRuns (S.exec fuel) held b counter body env fuel' index m).value = a := by
  subst hb
  induction h with
  | @stop i m hlimit =>
    refine ⟨by simp, 1, fun fuel fuel' _ hf => ?_⟩
    obtain ⟨fuel', rfl⟩ : ∃ k, fuel' = k + 1 := ⟨fuel' - 1, by omega⟩
    have hallows : ¬b.allows i = true := by
      rw [b.allows_iff, hlimit]
      simp
    rw [countedRuns, if_neg hallows]
    rfl
  | @next i m m' c a hlimit hrun hc _ ih =>
    obtain ⟨hne, k, hk⟩ := ih
    obtain ⟨l, hl⟩ := exists_countedRun_of_runEnds hrun
    refine ⟨hne, max k l + 1, fun fuel fuel' hf hf' => ?_⟩
    obtain ⟨fuel', rfl⟩ : ∃ k, fuel' = k + 1 := ⟨fuel' - 1, by omega⟩
    rw [value_countedRuns_succ hbody hlimit (hl fuel (by omega))]
    obtain rfl | rfl := hc
    · exact hk fuel fuel' (by omega) (by omega)
    · exact hk fuel fuel' (by omega) (by omega)
  | @broke i m m' hlimit hrun =>
    obtain ⟨l, hl⟩ := exists_countedRun_of_runEnds hrun
    refine ⟨by simp, l + 1, fun fuel fuel' hf hf' => ?_⟩
    obtain ⟨fuel', rfl⟩ : ∃ k, fuel' = k + 1 := ⟨fuel' - 1, by omega⟩
    rw [value_countedRuns_succ hbody hlimit (hl fuel (by omega))]
    rfl
  | @left i m m' c hlimit hrun hc =>
    obtain ⟨l, hl⟩ := exists_countedRun_of_runEnds hrun
    obtain ⟨v, rfl⟩ | ⟨e, rfl⟩ | rfl := hc
    all_goals
      refine ⟨by simp, l + 1, fun fuel fuel' hf hf' => ?_⟩
      obtain ⟨fuel', rfl⟩ : ∃ k, fuel' = k + 1 := ⟨fuel' - 1, by omega⟩
      rw [value_countedRuns_succ hbody hlimit (hl fuel (by omega))]
      rfl

/-- A loop whose bound has no value ends as the bound does. -/
theorem value_countedLoop_of_ne {S : Setting ω} {ev : Evaluator ω} {bound : Node} {c : Completion}
    {m' : Machine ω} (hr : (ev held bound env m).value = (c, m')) (hc : ∀ v, c ≠ .value v)
    (fuel : Nat) (counter : Option String) (body : Node) :
    (S.countedLoop ev fuel held bound counter body env m).value = (c, m') := by
  rw [countedLoop, Deferred.value_thenValue, hr]
  cases c with
  | value v => exact absurd rfl (hc v)
  | _ => rfl

/-- A loop whose bound has a value fails for the value, or has its runs. -/
theorem value_countedLoop {S : Setting ω} {ev : Evaluator ω} {bound : Node} {v : Value}
    {m' : Machine ω} (hr : (ev held bound env m).value = (.value v, m')) (fuel : Nat)
    (counter : Option String) (body : Node) :
    (∀ cause, LoopBound.ofValue v = .error cause →
      (S.countedLoop ev fuel held bound counter body env m).value = (.fail cause, m')) ∧
    ∀ b, LoopBound.ofValue v = .ok b →
      (S.countedLoop ev fuel held bound counter body env m).value =
        (S.countedRuns ev held b (counter.getD S.config.loopVariable) body env fuel 0
          m').value := by
  rw [countedLoop, Deferred.value_thenValue, hr]
  refine ⟨fun cause hb => ?_, fun b hb => ?_⟩
  · dsimp only
    rw [hb]
    rfl
  · dsimp only
    rw [hb]

end Setting

/-- **Counted loops run exactly as bounded.** A counted loop whose body is a block ends as follows,
and not at all if this gives no end. Its bound is evaluated once, where the loop stands. If that
gives no value, the loop ends so. If the value is an untagged number below zero, a tagged number, or
neither a number nor a boolean, the loop fails for it. Else the body runs for the indices from zero
on, up to the number that the bound stands for, up to none for false, and on and on for true. Each
run takes place in a new scope below that of the loop, which holds the index under the counter's
name and nothing else. A break ends the loop with null, a return or an error ends it as it is. If
natives declare names only where they are called, the runs declare nothing in the scopes that were
there before. -/
theorem countedLoop_ends_iff (config : Config) {host : Host ω} (hh : host.KeepsCapacities)
    (held : Held) (bound : Node) (counter : Option String) (body : Node) (line : UInt32)
    (env : ScopeId) (m : Machine ω) (hbody : body.isBlock = true)
    (hroom : 0 < m.store.childCapacity env) :
    let S := Setting.releasing config host
    let name := counter.getD config.loopVariable
    (∀ a, S.Ends held ⟨.countedLoop bound counter body, line⟩ env m a ↔
      ∃ c m', S.Ends held bound env { m with line } (c, m') ∧
        ((∀ v, c ≠ .value v) ∧ a = (c.atLine line, m') ∨
          ∃ v, c = .value v ∧
            ((∃ cause, v.Bounds (.error cause) ∧ a = (.failed ⟨cause, some line⟩, m')) ∨
              ∃ limit c' m'', v.Bounds (.ok limit) ∧
                S.Runs held limit name body env 0 m' (c', m'') ∧ a = (c'.atLine line, m'')))) ∧
      ∀ limit m' a, S.Runs held limit name body env 0 m' a → host.IsConfined →
        m'.store.Frame ∅ a.2.store := by
  intro S name
  refine ⟨fun a => ⟨fun h => ?_, fun h => ?_⟩, fun limit m' a h hconfined =>
    h.kept (frameInvariant config hconfined m'.store ∅) (.refl _ _)⟩
  · obtain ⟨fuel, c, m'', hstep, hne, rfl⟩ := Setting.ends_iff_step.1 h
    rw [Setting.step] at hstep
    generalize hr : (S.exec fuel held bound env { m with line }).value = r at hstep
    obtain ⟨c₀, m'⟩ := r
    by_cases hc : ∃ v, c₀ = .value v
    · obtain ⟨v, rfl⟩ := hc
      obtain ⟨hfails, hruns⟩ := Setting.value_countedLoop hr fuel counter body
      refine ⟨.value v, m', ⟨by simp, fuel, hr⟩, .inr ⟨v, rfl, ?_⟩⟩
      cases hb : LoopBound.ofValue v with
      | error cause =>
        rw [hfails cause hb] at hstep
        cases hstep
        exact .inl ⟨cause, (LoopBound.bounds_iff _ _).2 (by rw [hb]; rfl), rfl⟩
      | ok b =>
        have hroom' : 0 < m'.store.childCapacity env := by
          have hkept := (roomInvariant config hh env).kept_exec (m := { m with line }) (s := env)
            hroom trivial fuel held bound
          rwa [hr] at hkept
        rw [hruns b hb] at hstep
        have hends : (S.countedRuns (S.exec fuel) held b name body env fuel 0 m').value.1 ≠
            .exhausted := (congrArg Prod.fst hstep).trans_ne hne
        refine .inr ⟨b.limit, c, m'', (LoopBound.bounds_iff _ _).2 (by rw [hb]; rfl), ?_, rfl⟩
        exact hstep ▸ Setting.runs_of_countedRuns hh hbody b hroom' (fun k _ => Nat.zero_le k) hends
    · have hc : ∀ v, c₀ ≠ .value v := fun v he => hc ⟨v, he⟩
      rw [Setting.value_countedLoop_of_ne hr hc] at hstep
      cases hstep
      exact ⟨c, m'', ⟨hne, fuel, hr⟩, .inl ⟨hc, rfl⟩⟩
  · obtain ⟨c, m', hbound, h⟩ := h
    obtain ⟨k, hk⟩ := hbound.exists_forall_le
    obtain ⟨hc, rfl⟩ | ⟨v, rfl, ⟨cause, hb, rfl⟩ | ⟨limit, c', m'', hb, hruns, rfl⟩⟩ := h
    · exact Setting.ends_iff_step.2 ⟨k, c, m',
        Setting.value_countedLoop_of_ne (hk k (Nat.le_refl k)) hc k counter body, hbound.1, rfl⟩
    · have hv : LoopBound.ofValue v = .error cause := by
        rw [LoopBound.bounds_iff] at hb
        cases hv : LoopBound.ofValue v <;> rw [hv] at hb <;> cases hb
        rfl
      obtain ⟨hfails, -⟩ := Setting.value_countedLoop (hk k (Nat.le_refl k)) k counter body
      exact Setting.ends_iff_step.2 ⟨k, .fail cause, m', hfails cause hv, by simp [Completion.fail],
        rfl⟩
    · obtain ⟨b, hv, hlimit⟩ : ∃ b, LoopBound.ofValue v = .ok b ∧ b.limit = limit := by
        rw [LoopBound.bounds_iff] at hb
        cases hv : LoopBound.ofValue v <;> rw [hv] at hb <;> cases hb
        exact ⟨_, rfl, rfl⟩
      obtain ⟨hne, l, hl⟩ := Setting.countedRuns_of_runs hbody b hlimit hruns
      have hmax : k ≤ max k l := Nat.le_max_left ..
      obtain ⟨-, hok⟩ := Setting.value_countedLoop (hk _ hmax) (max k l) counter body
      exact Setting.ends_iff_step.2 ⟨max k l, c', m'', (hok b hv).trans
        (hl _ _ (Nat.le_max_right ..) (Nat.le_max_right ..)), hne, rfl⟩

/-- The natives of the workbench make no scopes and bind names in the scopes that there are. -/
theorem Workbench.keepsCapacities : Workbench.host.KeepsCapacities := by
  intro f args env σ w s _
  have he := effect_call f args env σ w
  change (call f args env σ w).2.1.childCapacity s = _
  generalize (call f args env σ w).1 = r, (call f args env σ w).2.1 = σ' at he ⊢
  cases he with
  | fail | give => rfl
  | declare _ _ hd =>
    obtain ⟨-, p, -, rfl⟩ := Store.declare_eq_ok hd
    exact Store.childCapacity_place ..
  | assign _ ha =>
    obtain ⟨t, i, old, -, -, -, -, rfl⟩ := Store.assign_eq_ok ha
    exact Store.childCapacity_place ..

/-- A loop with an empty body ends with null after its runs. -/
theorem countedLoop_ends_iff_twice :
    let S := Setting.releasing .standard Workbench.host
    let m : Machine Workbench := ⟨(Store.empty.root 8 8).2, 0, 0, .ofSink .buffer⟩
    let bound : Node := ⟨.number (.ofInt 2) false, 1⟩
    let body : Node := ⟨.block [], 1⟩
    Workbench.host.KeepsCapacities ∧ body.isBlock = true ∧ 0 < m.store.childCapacity ⟨0⟩ ∧
      ∃ v limit m' c m'', S.Ends .empty bound ⟨0⟩ { m with line := 1 } (.value v, m') ∧
        v.Bounds (.ok limit) ∧ S.Runs .empty limit "i" body ⟨0⟩ 0 m' (c, m'') := by
  intro S m bound body
  have hroom : 0 < m.store.childCapacity ⟨0⟩ := by decide
  obtain ⟨v, hv⟩ : ∃ v, (S.exec 4 .empty ⟨.countedLoop bound (some "i") body, 1⟩ ⟨0⟩ m).value.1 =
      .value v := Completion.exists_eq_value (by decide +kernel)
  obtain ⟨c, m', hbound, h⟩ := ((countedLoop_ends_iff .standard Workbench.keepsCapacities .empty
    bound (some "i") body 1 ⟨0⟩ m rfl hroom).1 _).1 ⟨by rw [hv]; simp, 4, rfl⟩
  refine ⟨Workbench.keepsCapacities, rfl, hroom, ?_⟩
  obtain ⟨hc, ha⟩ | ⟨v', rfl, ⟨cause, -, ha⟩ | ⟨limit, c', m'', hb, hruns, -⟩⟩ := h
  · have hc' : c.atLine 1 = .value v := (congrArg Prod.fst ha).symm.trans hv
    cases c with
    | value v => exact absurd rfl (hc v)
    | _ => cases hc'
  · cases (congrArg Prod.fst ha).symm.trans hv
  · exact ⟨v', limit, m', c', m'', hbound, hb, hruns⟩

end Treewalk
