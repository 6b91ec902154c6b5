import Treewalk.Eval.Call
import Treewalk.Native.Workbench
import Treewalk.Proofs.Scope.Forest
import Treewalk.Proofs.Table.Bindings

/-!
# Calls bind their parameters or do nothing

A call of a value is checked before it changes anything: that the value is a function, that there
is an argument for each parameter, that the depth of calls allows one more, and that the parameters
fit into the new scope. A table that is full takes no binding, not even for a name that it has, so
what counts is the number of distinct names before each parameter.

* `Store.get?_bindParameters` says what a scope has for a name once all parameters are bound, and
  `parameter?_eq_some_iff` that it is a constant with a copy of the last argument for the name.
* `Store.fault_bindParameters` says which parameters do not fit.

Main statement: `callValue_atomic`, a call is refused and leaves all as it was, or its body starts
in a new scope with the parameters and nothing else.
-/

namespace Treewalk

/-! ## The bindings of parameters -/

/-- The supply of object numbers after values were copied in turn. -/
def supplyAfter (next : Nat) : List Value → Nat
  | [] => next
  | v :: rest => supplyAfter (v.copy next).2 rest

/-- The binding of a name once parameters were bound in turn: that of the last one so named. -/
def parameter? (x : String) : (next : Nat) → List (String × Value) → Option Binding
  | _, [] => none
  | next, (param, arg) :: rest =>
    (parameter? x (arg.copy next).2 rest).or
      (if param = x then some ⟨x, true, (arg.copy next).1⟩ else none)

theorem parameter?_eq_none_iff (x : String) (next : Nat) (params : List (String × Value)) :
    parameter? x next params = none ↔ x ∉ params.map Prod.fst := by
  induction params generalizing next with
  | nil => simp [parameter?]
  | cons p rest ih =>
    rw [parameter?, Option.or_eq_none_iff, ih]
    simp [eq_comm, and_comm]

/-- A name is bound to a copy of the argument at its last position. -/
theorem parameter?_eq_some_iff (x : String) (next : Nat) (params : List String)
    (args : List Value) (hlen : args.length = params.length) (b : Binding) :
    parameter? x next (params.zip args) = some b ↔
      ∃ i arg, params[i]? = some x ∧ args[i]? = some arg ∧ x ∉ params.drop (i + 1) ∧
        b = ⟨x, true, (arg.copy (supplyAfter next (args.take i))).1⟩ := by
  induction params generalizing next args b with
  | nil => simp [parameter?]
  | cons param params ih =>
    obtain ⟨arg, args, rfl⟩ := List.exists_cons_of_length_eq_add_one hlen
    have hlen : args.length = params.length := by simpa using hlen
    have hnames : (params.zip args).map Prod.fst = params := List.map_fst_zip hlen.ge
    rw [List.zip_cons_cons, parameter?, Option.or_eq_some_iff, ih _ _ hlen,
      parameter?_eq_none_iff, hnames, Option.ite_none_right_eq_some]
    constructor
    · rintro (⟨i, v, hi, hv, hlast, rfl⟩ | ⟨hlast, rfl, hb⟩)
      · exact ⟨i + 1, v, hi, hv, hlast, rfl⟩
      · exact ⟨0, arg, rfl, rfl, hlast, (Option.some.inj hb).symm⟩
    · rintro ⟨_ | i, v, hi, hv, hlast, rfl⟩
      · cases hi
        cases hv
        exact .inr ⟨hlast, rfl, rfl⟩
      · exact .inl ⟨i, v, hi, hv, hlast, rfl⟩

namespace Store

variable {σ σ' : Store} {s t : ScopeId} {params : List (String × Value)}

/-- Parameters are bound one by one, until one finds the table full. -/
theorem bindParameters_induction
    {P : List (String × Value) → Store → Store × Option ErrorCause → Prop} (s : ScopeId)
    (nil : ∀ σ, P [] σ (σ, none))
    (full : ∀ σ param arg rest, (σ.bindings s).place? param = none →
      P ((param, arg) :: rest) σ ((σ.copy arg).2, some (.tableOverflow (σ.bindings s).capacity)))
    (bind : ∀ σ param arg rest p r, (σ.bindings s).place? param = some p →
      P rest ((σ.copy arg).2.place s p param ⟨param, true, (σ.copy arg).1⟩) r →
      P ((param, arg) :: rest) σ r) (params : List (String × Value)) (σ : Store) :
    P params σ (σ.bindParameters s params) := by
  induction params generalizing σ with
  | nil => exact nil σ
  | cons p rest ih =>
    obtain ⟨param, arg⟩ := p
    rw [bindParameters]
    dsimp only
    cases hd : (σ.copy arg).2.declare s param (σ.copy arg).1 true with
    | ok r =>
      obtain ⟨b, σ'⟩ := r
      obtain ⟨-, p, hp, rfl⟩ := declare_eq_ok hd
      exact bind σ param arg rest p _ hp (ih _)
    | error cause =>
      obtain ⟨hp, rfl⟩ := declare_eq_error hd
      exact full σ param arg rest hp

/-- Parameters are bound in their scope and nowhere else. -/
theorem getElem?_scopes_bindParameters (σ : Store) (s : ScopeId) (params : List (String × Value))
    {j : Nat} (hj : s.index ≠ j) : (σ.bindParameters s params).1.scopes[j]? = σ.scopes[j]? := by
  refine bindParameters_induction (P := fun _ σ r => r.1.scopes[j]? = σ.scopes[j]?) s
    (fun σ => rfl) (fun σ param arg rest _ => rfl)
    (fun σ param arg rest p r _ ih => ?_) params σ
  rw [ih, getElem?_scopes_place, if_neg hj]
  rfl

theorem parent?_bindParameters (σ : Store) (s t : ScopeId) (params : List (String × Value)) :
    (σ.bindParameters s params).1.parent? t = σ.parent? t := by
  refine bindParameters_induction (P := fun _ σ r => r.1.parent? t = σ.parent? t) s
    (fun σ => rfl) (fun σ param arg rest _ => rfl)
    (fun σ param arg rest p r _ ih => ?_) params σ
  rw [ih, parent?_place]
  rfl

theorem size_bindParameters (σ : Store) (s : ScopeId) (params : List (String × Value)) :
    (σ.bindParameters s params).1.scopes.size = σ.scopes.size := by
  refine bindParameters_induction (P := fun _ σ r => r.1.scopes.size = σ.scopes.size) s
    (fun σ => rfl) (fun σ param arg rest _ => rfl)
    (fun σ param arg rest p r _ ih => ?_) params σ
  rw [ih, size_place]
  rfl

/-- The table of a scope after one more parameter. -/
theorem bindings_place_parameter (σ : Store) (s : ScopeId) (p : Table.SetOutcome × Nat)
    (param : String) (arg : Value) :
    ((σ.copy arg).2.place s p param ⟨param, true, (σ.copy arg).1⟩).bindings s =
      (σ.bindings s).write p param ⟨param, true, (σ.copy arg).1⟩ := by
  rw [bindings_place, if_pos rfl]
  rfl

/-- The table of a scope after all parameters were bound. -/
theorem get?_bindParameters (h : (σ.bindings s).WellFormed)
    (hb : (σ.bindParameters s params).2 = none) :
    ((σ.bindParameters s params).1.bindings s).WellFormed ∧
      ∀ x, ((σ.bindParameters s params).1.bindings s).get? x =
        (parameter? x σ.nextObject params).or ((σ.bindings s).get? x) := by
  refine bindParameters_induction (P := fun params σ r => (σ.bindings s).WellFormed →
    r.2 = none → (r.1.bindings s).WellFormed ∧ ∀ x, (r.1.bindings s).get? x =
      (parameter? x σ.nextObject params).or ((σ.bindings s).get? x)) s
    (fun σ h _ => ⟨h, fun x => rfl⟩) (fun σ param arg rest _ _ h => by cases h)
    (fun σ param arg rest p r hp ih h hr => ?_) params σ h hb
  rw [bindings_place_parameter] at ih
  obtain ⟨hwell, hget⟩ := ih (h.place hp _) hr
  refine ⟨hwell, fun x => ?_⟩
  rw [hget, h.get?_place hp, parameter?, Option.or_assoc]
  by_cases hx : param = x
  · subst hx
    rw [if_pos rfl, if_pos rfl]
    rfl
  · rw [if_neg hx, if_neg hx, Option.none_or]
    rfl

theorem toFinset_keys_place {t : Table Binding} (h : t.WellFormed) {x : String}
    {p : Table.SetOutcome × Nat} (hp : t.place? x = some p) (b : Binding) :
    (t.write p x b).keys.toFinset = insert x t.keys.toFinset := by
  ext y
  rw [List.mem_toFinset, (h.place hp b).mem_keys_iff, h.get?_place hp, Finset.mem_insert,
    List.mem_toFinset, h.mem_keys_iff]
  by_cases hy : x = y
  · simp [hy]
  · simp [hy, Ne.symm hy]

/-- Parameters do not fit if before one of them the distinct names fill the table. -/
theorem fault_bindParameters (params : List (String × Value)) (h : (σ.bindings s).WellFormed) :
    (σ.bindParameters s params).2 =
      if ∃ i < params.length, ((σ.bindings s).keys.toFinset ∪
        ((params.take i).map Prod.fst).toFinset).card = (σ.bindings s).capacity
      then some (.tableOverflow (σ.bindings s).capacity) else none := by
  refine bindParameters_induction (P := fun params σ r => (σ.bindings s).WellFormed →
    r.2 = if ∃ i < params.length, ((σ.bindings s).keys.toFinset ∪
        ((params.take i).map Prod.fst).toFinset).card = (σ.bindings s).capacity
      then some (.tableOverflow (σ.bindings s).capacity) else none) s
    (fun σ h => ?_) (fun σ param arg rest hnone h => ?_)
    (fun σ param arg rest p r hp ih h => ?_) params σ h
  · simp
  · rw [if_pos]
    refine ⟨0, Nat.zero_lt_succ _, ?_⟩
    simpa using (Table.isFull_iff_card h).1 (h.place?_eq_none_iff.1 hnone)
  · have hnot : (σ.bindings s).keys.toFinset.card ≠ (σ.bindings s).capacity := by
      rw [Ne, ← Table.isFull_iff_card h, Bool.not_eq_true]
      exact (Table.place?_eq_some_iff.1 hp).1
    rw [bindings_place_parameter, toFinset_keys_place h hp, Table.capacity_write] at ih
    rw [ih (h.place hp _)]
    refine if_congr ?_ rfl rfl
    constructor
    · rintro ⟨j, hj, hcard⟩
      refine ⟨j + 1, Nat.succ_lt_succ hj, ?_⟩
      rw [List.take_succ_cons, List.map_cons, List.toFinset_cons, Finset.union_insert,
        ← Finset.insert_union]
      exact hcard
    · rintro ⟨_ | j, hj, hcard⟩
      · exact absurd (by simpa using hcard) hnot
      · refine ⟨j, Nat.lt_of_succ_lt_succ hj, ?_⟩
        rwa [List.take_succ_cons, List.map_cons, List.toFinset_cons, Finset.union_insert,
          ← Finset.insert_union] at hcard

end Store

/-! ## Calls -/

/-- A store has all scopes of another one as they are there. It may have more. -/
def Store.Includes (σ' σ : Store) : Prop :=
  ∀ i < σ.scopes.size, σ'.scopes[i]? = σ.scopes[i]?

/-- A store for the body of a function: there is one new scope, below the scope of the function.
It holds a constant for each name among the parameters, which is a copy of the argument at the
last position of the name. -/
structure Store.StartsCall (σ : Store) (f : Closure) (args : List Value) (s : ScopeId)
    (σ' : Store) : Prop where
  index_eq : s.index = σ.scopes.size
  size_eq : σ'.scopes.size = σ.scopes.size + 1
  scopes_eq : σ'.Includes σ
  parent?_eq : σ'.parent? s = some f.scope
  nodup_keys : (σ'.bindings s).keys.Nodup
  mem_entries_iff : ∀ x b, (x, b) ∈ (σ'.bindings s).entries ↔
    ∃ i arg, f.code.params[i]? = some x ∧ args[i]? = some arg ∧ x ∉ f.code.params.drop (i + 1) ∧
      b = ⟨x, true, (arg.copy (supplyAfter σ.nextObject (args.take i))).1⟩

variable {ω : Type}

/-- A scope that is left takes nothing from the scopes before it. -/
theorem Store.Includes.leave {σ σ' : Store} {s : ScopeId} (h : σ'.Includes σ)
    (hs : s.index = σ.scopes.size) (outside : List Held) : (σ'.leave outside s).Includes σ := by
  intro i hi
  obtain he | he := σ'.leave_cases outside s
  · rw [he, getElem?_scopes_discard, if_neg (by omega)]
    exact h i hi
  · rw [he]
    exact h i hi

/-- The new scope of a call, with as many parameters as fit. -/
theorem Store.includes_bindParameters_child (σ : Store) (p : ScopeId)
    (params : List (String × Value)) :
    ((σ.child p).2.bindParameters (σ.child p).1 params).1.Includes σ := by
  intro i hi
  have hs : (σ.child p).1.index = σ.scopes.size := rfl
  rw [getElem?_scopes_bindParameters _ _ _ (by omega), child, getElem?_scopes_add,
    if_neg (by omega)]

/-- Parameters do not fit into a new scope if before one of them there are as many distinct names
as the table has slots. -/
theorem Store.bindParameters_child (σ : Store) (p : ScopeId) {params : List String}
    {args : List Value} (hlen : args.length = params.length) :
    ((σ.child p).2.bindParameters (σ.child p).1 (params.zip args)).2 =
      if ∃ i < params.length, (params.take i).toFinset.card = σ.childCapacity p
      then some (.tableOverflow (σ.childCapacity p)) else none := by
  have hempty := σ.bindings_child_self p
  have hnames : ∀ i, ((params.zip args).take i).map Prod.fst = params.take i := fun i => by
    rw [List.map_take, List.map_fst_zip hlen.ge]
  have hlength : (params.zip args).length = params.length := by
    rw [List.length_zip, hlen, Nat.min_self]
  have h := fault_bindParameters (params.zip args) (hempty ▸ Table.wellFormed_withCapacity _)
  simpa only [hempty, hnames, hlength, Table.capacity_withCapacity, Table.keys,
    Table.entries_withCapacity, List.map_nil, List.toFinset_nil, Finset.empty_union] using h

theorem Store.startsCall {σ : Store} {f : Closure} {args : List Value}
    (hlen : args.length = f.code.params.length)
    (hb : ((σ.child f.scope).2.bindParameters (σ.child f.scope).1
      (f.code.params.zip args)).2 = none) :
    σ.StartsCall f args (σ.child f.scope).1
      ((σ.child f.scope).2.bindParameters (σ.child f.scope).1 (f.code.params.zip args)).1 := by
  have hempty := σ.bindings_child_self f.scope
  obtain ⟨hwell, hget⟩ := get?_bindParameters (hempty ▸ Table.wellFormed_withCapacity _) hb
  refine ⟨rfl, ?_, includes_bindParameters_child _ _ _, ?_, hwell.nodup_keys, fun x b => ?_⟩
  · rw [size_bindParameters, child, size_add]
  · rw [parent?_bindParameters, parent?_child_self]
  · rw [hwell.mem_entries, hget, hempty, Table.get?_withCapacity, Option.or_none,
      parameter?_eq_some_iff x _ _ _ hlen]
    rfl

namespace Setting

variable {S : Setting ω} {f : Closure} {args : List Value} {m : Machine ω} {σ : Store}

/-- A call that passes the first checks and has room for its parameters runs the body. -/
theorem value_callClosure_of_bound (hlen : args.length = f.arity)
    (hdepth : m.callDepth < S.config.maxCallDepth)
    (hb : (m.store.child f.scope).2.bindParameters (m.store.child f.scope).1
      (f.code.params.zip args) = (σ, none)) (evaluate : Evaluator ω) (held : Held) :
    (S.callClosure evaluate held f args m).value =
      S.leaveScope held (m.store.child f.scope).1 (runCall evaluate
        (held.scope (m.store.child f.scope).1) (m.store.child f.scope).1 f.code.body
          (m.withStore σ)).value := by
  rw [callClosure, Closure.arityFault?, if_pos hlen]
  dsimp only
  rw [if_neg (Nat.not_le_of_gt hdepth), within, Deferred.value_map]
  dsimp only [Machine.withStore]
  rw [hb]

/-- A call without room for its parameters leaves the new scope at once. -/
theorem value_callClosure_of_overflow {cause : ErrorCause} (hlen : args.length = f.arity)
    (hdepth : m.callDepth < S.config.maxCallDepth)
    (hb : (m.store.child f.scope).2.bindParameters (m.store.child f.scope).1
      (f.code.params.zip args) = (σ, some cause)) (evaluate : Evaluator ω) (held : Held) :
    (S.callClosure evaluate held f args m).value =
      S.leaveScope held (m.store.child f.scope).1 (.fail cause, m.withStore σ) := by
  rw [callClosure, Closure.arityFault?, if_pos hlen]
  dsimp only
  rw [if_neg (Nat.not_le_of_gt hdepth), within, Deferred.value_map]
  dsimp only [Machine.withStore]
  rw [hb]
  rfl

end Setting

/-- **Calls bind their parameters or do nothing.** What is not a function, another number of
arguments than of parameters, a depth of calls at its limit, and parameters that do not fit: the
first of these that applies is what the call fails with. No statement of the body is evaluated, the
scopes that were there are as before, and so are the host's world and the depth. Otherwise the body
starts in a new scope below the function's own scope, wherever the call stands, with the parameters
and nothing else. Parameters do not fit if before one of them there are as many distinct names as
the table has slots. -/
theorem callValue_atomic (config : Config) (host : Host ω) (held : Held) (args : List Value)
    (m : Machine ω) :
    let S := Setting.releasing config host
    (∀ callee : Value, callee.type ≠ .native → callee.type ≠ .function → ∀ evaluate env,
      (S.callValue evaluate held callee args env m).value =
        (.fail (.notCallable callee.type), m)) ∧
    ∀ f : Closure,
      let params := f.code.params
      let capacity := m.store.childCapacity f.scope
      (args.length ≠ params.length → ∀ evaluate env,
        (S.callValue evaluate held (.function f) args env m).value =
          (.fail (.arityMismatch f.name params.length args.length), m)) ∧
      (args.length = params.length → config.maxCallDepth ≤ m.callDepth → ∀ evaluate env,
        (S.callValue evaluate held (.function f) args env m).value =
          (.fail (.stackOverflow config.maxCallDepth), m)) ∧
      (args.length = params.length → m.callDepth < config.maxCallDepth →
        ((∃ i < params.length, (params.take i).toFinset.card = capacity) →
          ∃ σ : Store, σ.Includes m.store ∧ ∀ evaluate env,
            (S.callValue evaluate held (.function f) args env m).value =
              (.fail (.tableOverflow capacity), m.withStore σ)) ∧
        ((¬∃ i < params.length, (params.take i).toFinset.card = capacity) →
          ∃ s σ, m.store.StartsCall f args s σ ∧ ∀ evaluate env,
            (S.callValue evaluate held (.function f) args env m).value =
              S.leaveScope held s
                (Setting.runCall evaluate (held.scope s) s f.code.body (m.withStore σ)).value)) := by
  intro S
  refine ⟨fun callee hnative hfunction evaluate env => ?_, fun f => ?_⟩
  · cases callee with
    | native g => exact absurd rfl hnative
    | function g => exact absurd rfl hfunction
    | _ => rfl
  intro params capacity
  refine ⟨fun hlen evaluate env => ?_, fun hlen hdepth evaluate env => ?_, fun hlen hdepth => ?_⟩
  · rw [Setting.callValue, Setting.callClosure, Closure.arityFault?, if_neg (by exact hlen)]
    rfl
  · rw [Setting.callValue, Setting.callClosure, Closure.arityFault?, if_pos (by exact hlen)]
    dsimp only
    rw [if_pos (by exact hdepth)]
    rfl
  have hoverflows := Store.bindParameters_child m.store f.scope hlen
  refine ⟨fun hfull => ?_, fun hfits => ?_⟩
  · rw [if_pos hfull] at hoverflows
    refine ⟨_, (Store.includes_bindParameters_child m.store f.scope (params.zip args)).leave rfl
      [held.values [], S.host.held m.world], fun evaluate env => ?_⟩
    rw [Setting.callValue, Setting.value_callClosure_of_overflow hlen hdepth
      (Prod.ext rfl hoverflows)]
    rfl
  · rw [if_neg hfits] at hoverflows
    exact ⟨_, _, Store.startsCall hlen hoverflows, fun evaluate env =>
      Setting.value_callClosure_of_bound hlen hdepth (Prod.ext rfl hoverflows) evaluate held⟩

/-- Room for two names: behind two names no parameter fits, not even one with a name that is there.
With the repeated name in front, both names are bound, that one to its second argument. -/
theorem callValue_atomic_repeated :
    let S := Setting.releasing .standard Workbench.host
    let m : Machine Workbench := ⟨(Store.empty.root 2 2).2, 0, 0, .ofSink .buffer⟩
    let args : List Value := [.int 1, .int 2, .int 3]
    let f : Closure := ⟨"f", ⟨0, ["a", "b", "a"], []⟩, ⟨0⟩⟩
    let g : Closure := ⟨"g", ⟨1, ["a", "a", "b"], []⟩, ⟨0⟩⟩
    (∃ σ : Store, σ.Includes m.store ∧ ∀ evaluate env,
      (S.callValue evaluate .empty (.function f) args env m).value =
        (.fail (.tableOverflow 2), m.withStore σ)) ∧
      ∃ s σ, m.store.StartsCall g args s σ ∧
        ("a", ⟨"a", true, .int 2⟩) ∈ (σ.bindings s).entries := by
  intro S m args f g
  obtain ⟨-, h⟩ := callValue_atomic .standard Workbench.host .empty args m
  obtain ⟨-, -, hf⟩ := h f
  obtain ⟨-, -, hg⟩ := h g
  refine ⟨(hf rfl (by decide)).1 ⟨2, by decide, rfl⟩, ?_⟩
  obtain ⟨s, σ, hstart, -⟩ := (hg rfl (by decide)).2 (by decide)
  exact ⟨s, σ, hstart, (hstart.mem_entries_iff _ _).2 ⟨1, .int 2, rfl, rfl, by decide, rfl⟩⟩

end Treewalk
