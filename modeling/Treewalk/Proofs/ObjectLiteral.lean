import Mathlib.Logic.Relation
import Treewalk.Proofs.Fuel
import Treewalk.Proofs.Parameters
import Treewalk.Proofs.Table.Bindings

/-!
# Object literals read back what was written

The properties of a literal are evaluated in order, and each makes a binding: a property with a
value a variable that holds a copy of the value, a shorthand a copy of the nearest binding of its
name (`Setting.Makes`). While there is room for one more name, the next property follows
(`Setting.MakesAll`). What the table of the object has for a name is the last binding made for it.

* `Setting.ends_object_iff`: literals end by these rules, by `Setting.literalEnds_of_objectRuns`
  and `Setting.LiteralEnds.exists_value_objectRuns`.
* `Setting.MakesAll.exists_split`: the binding of a name was made by the last property so named.

Main statement: `objectLiteral_reads_back`.
-/

namespace Treewalk

/-! ## Names and values of what was made -/

/-- The names of bindings, each once. -/
def namesOf (made : List Binding) : List String :=
  made.foldl (fun names b => names.insert b.name) []

/-- The values of the last bindings of all names. -/
def valuesOf (made : List Binding) : List Value :=
  (namesOf made).filterMap fun x => (lastNamed? made x).map BindingOf.value

theorem namesOf_append (made : List Binding) (b : Binding) :
    namesOf (made ++ [b]) = (namesOf made).insert b.name := List.foldl_append

namespace Setting

variable {ω : Type}

/-! ## Properties -/

/-- What binding a property makes, after those that were made before it: the values of these are
held. -/
inductive Makes (S : Setting ω) (held : Held) (env : ScopeId) (made : List Binding) :
    Property → Machine ω → Binding → Machine ω → Prop
  | keyed {key : String} {n : Node} {m m' : Machine ω} {v : Value}
    (h : S.Ends (held.values (valuesOf made)) n env m (.value v, m')) :
    Makes S held env made ⟨key, some n⟩ m ⟨key, false, (m'.store.copy v).1⟩
      (m'.withStore (m'.store.copy v).2)
  | shorthand {key : String} {m : Machine ω} {b : Binding}
    (h : m.store.resolve env key = some b) :
    Makes S held env made ⟨key, none⟩ m ⟨key, b.isConst, (m.store.copy b.value).1⟩
      (m.withStore (m.store.copy b.value).2)

/-- How a property ends that makes no binding. -/
inductive Stops (S : Setting ω) (held : Held) (env : ScopeId) (made : List Binding) :
    Property → Machine ω → Answer ω → Prop
  | keyed {key : String} {n : Node} {m m' : Machine ω} {c : Completion}
    (h : S.Ends (held.values (valuesOf made)) n env m (c, m')) (hc : ∀ v, c ≠ .value v) :
    Stops S held env made ⟨key, some n⟩ m (c, m')
  | shorthand {key : String} {m : Machine ω} (h : m.store.resolve env key = none) :
    Stops S held env made ⟨key, none⟩ m (.fail (.undefinedIdentifier key), m)

/-- Properties that make their bindings in turn, each with room for one more name. -/
inductive MakesAll (S : Setting ω) (held : Held) (env : ScopeId) :
    List Binding → List Property → Machine ω → List Binding → Machine ω → Prop
  | done {made : List Binding} {m : Machine ω} : MakesAll S held env made [] m made m
  | next {made made' : List Binding} {p : Property} {rest : List Property} {b : Binding}
    {m m' m'' : Machine ω} (hp : S.Makes held env made p m b m')
    (hroom : (made.map BindingOf.name).toFinset.card < S.config.objectCapacity)
    (hrest : MakesAll S held env (made ++ [b]) rest m' made' m'') :
    MakesAll S held env made (p :: rest) m made' m''

variable {S : Setting ω} {held : Held} {env : ScopeId} {made made' : List Binding}
variable {p : Property} {properties rest : List Property} {m m' m'' : Machine ω} {b : Binding}
variable {t : Table Binding}

theorem Makes.name_eq (h : S.Makes held env made p m b m') : b.name = p.key := by
  cases h <;> rfl

/-- Putting a binding into a table, and what follows. -/
theorem addProperty_of_set? {outcome : Table.SetOutcome} {u : Table Binding}
    (h : t.set? b.name b = some (outcome, u))
    (next : Table Binding → Machine ω → Deferred (Answer ω)) (m : Machine ω) :
    addProperty t b next m = next u m := by
  rw [addProperty, h]

theorem addProperty_of_set?_eq_none (h : t.set? b.name b = none)
    (next : Table Binding → Machine ω → Deferred (Answer ω)) (m : Machine ω) :
    addProperty t b next m = m.fail (.tableOverflow t.capacity) := by
  rw [addProperty, h]

/-- The table of the properties made so far holds the values of their last bindings. -/
theorem value_objectRuns_keyed (ht : Table.ofBindings? S.config.objectCapacity made = some t)
    (key : String) {n : Node} {ev : Evaluator ω} {c : Completion}
    (h : (ev (held.values (valuesOf made)) n env m).value = (c, m')) (rest : List Property) :
    (∀ v, c = .value v → (objectRuns ev held env (namesOf made) t (⟨key, some n⟩ :: rest) m).value =
      (addProperty t ⟨key, false, (m'.store.copy v).1⟩ (fun t m =>
        objectRuns ev held env ((namesOf made).insert key) t rest m)
          (m'.withStore (m'.store.copy v).2)).value) ∧
    ((∀ v, c ≠ .value v) →
      (objectRuns ev held env (namesOf made) t (⟨key, some n⟩ :: rest) m).value = (c, m')) := by
  have hvalues : ((namesOf made).filterMap fun x => (t.get? x).map BindingOf.value) =
      valuesOf made := by
    rw [valuesOf]
    simp only [(Table.ofBindings?_spec ht).2.2]
  rw [objectRuns, hvalues, Deferred.value_thenValue, h]
  refine ⟨fun v hv => by rw [hv], fun hc => ?_⟩
  cases c with
  | value v => exact absurd rfl (hc v)
  | _ => rfl

/-- A property that makes a binding puts it into the table. -/
theorem Makes.exists_value_objectRuns (h : S.Makes held env made p m b m')
    (ht : Table.ofBindings? S.config.objectCapacity made = some t) :
    ∃ k, ∀ fuel, k ≤ fuel → ∀ rest,
      (objectRuns (S.exec fuel) held env (namesOf made) t (p :: rest) m).value =
        (addProperty t b (fun t m =>
          objectRuns (S.exec fuel) held env (namesOf (made ++ [b])) t rest m) m').value := by
  cases h with
  | @keyed key n _ m' v h =>
    obtain ⟨k, hk⟩ := h.exists_forall_le
    refine ⟨k, fun fuel hf rest => ?_⟩
    rw [namesOf_append]
    exact (value_objectRuns_keyed ht key (hk fuel hf) rest).1 v rfl
  | @shorthand key _ b h =>
    refine ⟨0, fun fuel _ rest => ?_⟩
    rw [objectRuns, Store.shorthand, h, namesOf_append]

/-- A property that makes no binding ends the literal. -/
theorem Stops.exists_value_objectRuns {a : Answer ω} (h : S.Stops held env made p m a)
    (ht : Table.ofBindings? S.config.objectCapacity made = some t) :
    a.1 ≠ .exhausted ∧ ∃ k, ∀ fuel, k ≤ fuel → ∀ rest,
      (objectRuns (S.exec fuel) held env (namesOf made) t (p :: rest) m).value = a := by
  cases h with
  | @keyed key n _ m' c h hc =>
    obtain ⟨k, hk⟩ := h.exists_forall_le
    exact ⟨h.1, k, fun fuel hf rest => (value_objectRuns_keyed ht key (hk fuel hf) rest).2 hc⟩
  | @shorthand key _ h =>
    refine ⟨by simp [Completion.fail], 0, fun fuel _ rest => ?_⟩
    rw [objectRuns, Store.shorthand, h]
    rfl

/-- A property that is not given up makes a binding or makes none, by the rules. -/
theorem makes_or_stops {fuel : Nat}
    (ht : Table.ofBindings? S.config.objectCapacity made = some t)
    (hne : (objectRuns (S.exec fuel) held env (namesOf made) t (p :: rest) m).value.1 ≠
      .exhausted) :
    (∃ b m', S.Makes held env made p m b m' ∧
      (objectRuns (S.exec fuel) held env (namesOf made) t (p :: rest) m).value =
        (addProperty t b (fun t m =>
          objectRuns (S.exec fuel) held env (namesOf (made ++ [b])) t rest m) m').value) ∨
    S.Stops held env made p m
      (objectRuns (S.exec fuel) held env (namesOf made) t (p :: rest) m).value := by
  obtain ⟨key, _ | n⟩ := p
  · rw [objectRuns, Store.shorthand] at hne ⊢
    cases hr : m.store.resolve env key with
    | none => exact .inr (.shorthand hr)
    | some b =>
      refine .inl ⟨_, _, .shorthand hr, ?_⟩
      rw [namesOf_append]
  · rcases hr : (S.exec fuel (held.values (valuesOf made)) n env m).value with ⟨c, m'⟩
    obtain ⟨hvalue, hother⟩ := value_objectRuns_keyed ht key hr rest
    by_cases hc : ∃ v, c = .value v
    · obtain ⟨v, rfl⟩ := hc
      refine .inl ⟨_, _, .keyed ⟨by simp, fuel, hr⟩, ?_⟩
      rw [namesOf_append]
      exact hvalue v rfl
    · have hc : ∀ v, c ≠ .value v := fun v hv => hc ⟨v, hv⟩
      rw [hother hc] at hne ⊢
      exact .inr (.keyed ⟨hne, fuel, hr⟩ hc)

/-! ## Literals -/

/-- How a literal ends whose first properties have made bindings: with an object if all make their
bindings; as the first property that makes none; or with the overflow of the table before the
first binding without room. -/
def LiteralEnds (S : Setting ω) (held : Held) (env : ScopeId) (made : List Binding)
    (properties : List Property) (m : Machine ω) (a : Answer ω) : Prop :=
  let capacity := S.config.objectCapacity
  (∃ made' m' t, S.MakesAll held env made properties m made' m' ∧
    Table.ofBindings? capacity made' = some t ∧
      a = (.value (m'.store.object t).1, m'.withStore (m'.store.object t).2)) ∨
  ∃ before p after made' m', properties = before ++ p :: after ∧
    S.MakesAll held env made before m made' m' ∧
      (S.Stops held env made' p m' a ∨
        ∃ b m'', S.Makes held env made' p m' b m'' ∧
          (made'.map BindingOf.name).toFinset.card = capacity ∧
            a = (.fail (.tableOverflow capacity), m''))

theorem LiteralEnds.cons {a : Answer ω} (hp : S.Makes held env made p m b m')
    (hroom : (made.map BindingOf.name).toFinset.card < S.config.objectCapacity)
    (h : S.LiteralEnds held env (made ++ [b]) rest m' a) :
    S.LiteralEnds held env made (p :: rest) m a := by
  obtain ⟨made', m', t, hall, ht, rfl⟩ | ⟨before, q, after, made', m', rfl, hall, hend⟩ := h
  · exact .inl ⟨made', m', t, .next hp hroom hall, ht, rfl⟩
  · exact .inr ⟨p :: before, q, after, made', m', rfl, .next hp hroom hall, hend⟩

theorem Stops.ne_value {a : Answer ω} (h : S.Stops held env made p m a) (v : Value) :
    a.1 ≠ .value v := by
  cases h with
  | keyed _ hc => exact hc v
  | shorthand _ => simp [Completion.fail]

/-- A literal that gives a value made all its bindings. -/
theorem LiteralEnds.exists_makesAll {v : Value}
    (h : S.LiteralEnds held env made properties m (.value v, m')) :
    ∃ made' m₁ t, S.MakesAll held env made properties m made' m₁ ∧
      Table.ofBindings? S.config.objectCapacity made' = some t ∧ v = (m₁.store.object t).1 := by
  obtain ⟨made', m₁, t, hall, ht, he⟩ | ⟨_, _, _, _, _, -, -, hstop | ⟨_, _, -, -, he⟩⟩ := h
  · cases he
    exact ⟨made', m₁, t, hall, ht, rfl⟩
  · exact absurd rfl (hstop.ne_value v)
  · cases he

/-- Properties that make their bindings leave the table of these and go on to the rest. -/
theorem MakesAll.exists_value_objectRuns (h : S.MakesAll held env made properties m made' m')
    (ht : Table.ofBindings? S.config.objectCapacity made = some t) :
    ∃ u, Table.ofBindings? S.config.objectCapacity made' = some u ∧ ∃ k, ∀ fuel, k ≤ fuel →
      ∀ rest, (objectRuns (S.exec fuel) held env (namesOf made) t (properties ++ rest) m).value =
        (objectRuns (S.exec fuel) held env (namesOf made') u rest m').value := by
  induction h generalizing t with
  | done => exact ⟨t, ht, 0, fun fuel _ rest => rfl⟩
  | @next made made' p properties b m m₁ m' hp hroom _ ih =>
    obtain ⟨outcome, t', hset, ht'⟩ := Table.exists_set? ht b hroom
    obtain ⟨u, hu, k, hk⟩ := ih ht'
    obtain ⟨l, hl⟩ := hp.exists_value_objectRuns ht
    refine ⟨u, hu, max k l, fun fuel hf rest => ?_⟩
    rw [List.cons_append, hl fuel (le_of_max_le_right hf), addProperty_of_set? hset,
      hk fuel (le_of_max_le_left hf)]

/-- A literal that is not given up ends by the rules. -/
theorem literalEnds_of_objectRuns {fuel : Nat}
    (ht : Table.ofBindings? S.config.objectCapacity made = some t)
    (hne : (objectRuns (S.exec fuel) held env (namesOf made) t properties m).value.1 ≠
      .exhausted) :
    S.LiteralEnds held env made properties m
      (objectRuns (S.exec fuel) held env (namesOf made) t properties m).value := by
  induction properties generalizing made t m with
  | nil => exact .inl ⟨made, m, t, .done, ht, rfl⟩
  | cons p rest ih =>
    obtain ⟨b, m', hp, hruns⟩ | hp := makes_or_stops ht hne
    · rw [hruns] at hne ⊢
      by_cases hfull : (made.map BindingOf.name).toFinset.card = S.config.objectCapacity
      · rw [addProperty_of_set?_eq_none ((Table.set?_eq_none ht).2 hfull),
          (Table.ofBindings?_spec ht).2.1]
        exact .inr ⟨[], p, rest, made, m, rfl, .done, .inr ⟨b, m', hp, hfull, rfl⟩⟩
      · have hroom := lt_of_le_of_ne (Table.card_names_le ht) hfull
        obtain ⟨outcome, t', hset, ht'⟩ := Table.exists_set? ht b hroom
        rw [addProperty_of_set? hset] at hne ⊢
        exact (ih ht' hne).cons hp hroom
    · exact .inr ⟨[], p, rest, made, m, rfl, .done, .inl hp⟩

/-- The rules say how a literal ends, with enough fuel. -/
theorem LiteralEnds.exists_value_objectRuns {a : Answer ω}
    (h : S.LiteralEnds held env made properties m a)
    (ht : Table.ofBindings? S.config.objectCapacity made = some t) :
    a.1 ≠ .exhausted ∧ ∃ k, ∀ fuel, k ≤ fuel →
      (objectRuns (S.exec fuel) held env (namesOf made) t properties m).value = a := by
  obtain ⟨made', m', u, hall, hu, rfl⟩ | ⟨before, p, after, made', m', rfl, hall, hend⟩ := h
  · obtain ⟨u', hu', k, hk⟩ := hall.exists_value_objectRuns ht
    cases hu.symm.trans hu'
    refine ⟨by simp, k, fun fuel hf => ?_⟩
    have hruns := hk fuel hf []
    rw [List.append_nil] at hruns
    exact hruns
  · obtain ⟨u, hu, k, hk⟩ := hall.exists_value_objectRuns ht
    obtain hp | ⟨b, m'', hp, hfull, rfl⟩ := hend
    · obtain ⟨hne, l, hl⟩ := hp.exists_value_objectRuns hu
      refine ⟨hne, max k l, fun fuel hf => ?_⟩
      rw [hk fuel (le_of_max_le_left hf), hl fuel (le_of_max_le_right hf)]
    · obtain ⟨l, hl⟩ := hp.exists_value_objectRuns hu
      refine ⟨by simp [Completion.fail], max k l, fun fuel hf => ?_⟩
      rw [hk fuel (le_of_max_le_left hf), hl fuel (le_of_max_le_right hf),
        addProperty_of_set?_eq_none ((Table.set?_eq_none hu).2 hfull),
        (Table.ofBindings?_spec hu).2.1]
      rfl

/-- A literal ends by the rules and in no other way. -/
theorem ends_object_iff {line : UInt32} {a : Answer ω} :
    S.Ends held ⟨.object properties, line⟩ env m a ↔
      ∃ c m', S.LiteralEnds held env [] properties { m with line } (c, m') ∧
        a = (c.atLine line, m') := by
  have hempty : Table.ofBindings? S.config.objectCapacity [] =
      some (.withCapacity S.config.objectCapacity) := rfl
  rw [ends_iff_step]
  constructor
  · rintro ⟨fuel, c, m', hstep, hne, rfl⟩
    rw [step] at hstep
    refine ⟨c, m', ?_, rfl⟩
    rw [← hstep]
    exact literalEnds_of_objectRuns hempty ((congrArg Prod.fst hstep).trans_ne hne)
  · rintro ⟨c, m', h, rfl⟩
    obtain ⟨hne, k, hk⟩ := h.exists_value_objectRuns hempty
    exact ⟨k, c, m', hk k le_rfl, hne, rfl⟩

/-! ## Reading -/

theorem MakesAll.names_eq (h : S.MakesAll held env made properties m made' m') :
    made'.map BindingOf.name = made.map BindingOf.name ++ properties.map Property.key := by
  induction h with
  | done => exact (List.append_nil _).symm
  | next hp _ _ ih =>
    rw [ih, List.map_append, List.map_singleton, hp.name_eq, List.append_assoc, List.map_cons]
    rfl

/-- The binding that is last for a name was there before, or was made by the last property so
named. -/
theorem MakesAll.exists_split (h : S.MakesAll held env made properties m made' m') {x : String}
    (hx : lastNamed? made' x = some b) :
    lastNamed? made x = some b ∧ x ∉ properties.map Property.key ∨
      ∃ before p after made₀ m₀ m₁, properties = before ++ p :: after ∧ p.key = x ∧
        x ∉ after.map Property.key ∧ S.MakesAll held env made before m made₀ m₀ ∧
          S.Makes held env made₀ p m₀ b m₁ := by
  induction h with
  | done => exact .inl ⟨hx, List.not_mem_nil⟩
  | @next made made' p properties c m m' m'' hp hroom hrest ih =>
    -- A later property of the name comes first; only without one does this property count.
    obtain ⟨hlast, hnot⟩ | ⟨before, q, after, made₀, m₀, m₁, rfl, hq, hnot, hall, hb⟩ := ih hx
    · rw [lastNamed?_append, hp.name_eq] at hlast
      by_cases hkey : p.key = x
      · rw [if_pos hkey] at hlast
        cases hlast
        exact .inr ⟨[], p, properties, made, m, m', rfl, hkey, hnot, .done, hp⟩
      · rw [if_neg hkey] at hlast
        refine .inl ⟨hlast, ?_⟩
        rw [List.map_cons, List.mem_cons, not_or]
        exact ⟨Ne.symm hkey, hnot⟩
    · exact .inr ⟨p :: before, q, after, made₀, m₀, m₁, rfl, hq, hnot, .next hp hroom hall, hb⟩

/-- The names in the table of a literal are those of its properties. -/
theorem MakesAll.mem_keys_iff (h : S.MakesAll held env [] properties m made' m')
    (ht : Table.ofBindings? S.config.objectCapacity made' = some t) (x : String) :
    x ∈ t.keys ↔ x ∈ properties.map Property.key := by
  rw [← List.mem_toFinset, Table.toFinset_keys ht, h.names_eq, List.map_nil, List.nil_append,
    List.mem_toFinset]

theorem MakesAll.get?_eq_none (h : S.MakesAll held env [] properties m made' m')
    (ht : Table.ofBindings? S.config.objectCapacity made' = some t) {x : String}
    (hx : x ∉ properties.map Property.key) : t.get? x = none := by
  rw [← h.mem_keys_iff ht, (Table.ofBindings?_spec ht).1.mem_keys_iff] at hx
  exact Option.not_isSome_iff_eq_none.1 hx

/-- The binding of a name in the table of a literal was made by the last property so named. -/
theorem MakesAll.exists_last (h : S.MakesAll held env [] properties m made' m')
    (ht : Table.ofBindings? S.config.objectCapacity made' = some t) {x : String}
    (hx : x ∈ properties.map Property.key) :
    ∃ before p after made m₀ b m₁, properties = before ++ p :: after ∧ p.key = x ∧
      x ∉ after.map Property.key ∧ S.MakesAll held env [] before m made m₀ ∧
        S.Makes held env made p m₀ b m₁ ∧ t.get? x = some b := by
  obtain ⟨hwell, -, hget⟩ := Table.ofBindings?_spec ht
  rw [← h.mem_keys_iff ht, hwell.mem_keys_iff, Option.isSome_iff_exists] at hx
  obtain ⟨b, hb⟩ := hx
  obtain ⟨hnone, -⟩ | ⟨before, p, after, made, m₀, m₁, hp, hkey, hlast, hbefore, hmakes⟩ :=
    h.exists_split ((hget x).symm.trans hb)
  · cases hnone
  · exact ⟨before, p, after, made, m₀, b, m₁, hp, hkey, hlast, hbefore, hmakes, hb⟩

/-- How the property of a name is read, where an object has the bindings of a table. -/
def readFrom (t : Table Binding) (x : String) (line : UInt32) : Completion :=
  match t.get? x with
  | some b => .value b.value
  | none => .failed ⟨.undefinedProperty x, some line⟩

theorem atLine_property (id : ObjectId) (t : Table Binding) (x : String) (line : UInt32) :
    (Completion.ofExcept ((Value.object id t).property x)).atLine line = readFrom t x line := by
  rw [Value.property, readFrom]
  cases t.get? x <;> rfl

theorem ofExcept_ne_exhausted (r : Except ErrorCause Value) :
    Completion.ofExcept r ≠ .exhausted := by
  cases r <;> simp [Completion.ofExcept, Completion.fail]

variable {object key : Node} {x : String} {v : Value} {line : UInt32}

theorem ends_member_named (h : S.Ends held object env { m with line } (.value v, m')) :
    S.Ends held ⟨.member object (.named x), line⟩ env m
      ((Completion.ofExcept (v.property x)).atLine line, m') := by
  obtain ⟨k, hk⟩ := h.exists_forall_le
  refine ends_iff_step.2 ⟨k, _, m', ?_, ofExcept_ne_exhausted _, rfl⟩
  rw [step, member, Deferred.value_thenValue, hk k le_rfl]
  rfl

theorem ends_member_computed (h : S.Ends held object env { m with line } (.value v, m'))
    (hkey : S.Ends (held.value v) key env m' (.value (.string x), m'')) :
    S.Ends held ⟨.member object (.computed key), line⟩ env m
      ((Completion.ofExcept (v.property x)).atLine line, m'') := by
  obtain ⟨k, hk⟩ := h.exists_forall_le
  obtain ⟨l, hl⟩ := hkey.exists_forall_le
  refine ends_iff_step.2 ⟨max k l, _, m'', ?_, ofExcept_ne_exhausted _, rfl⟩
  rw [step, member, Deferred.value_thenValue, hk _ (le_max_left ..)]
  dsimp only
  rw [Deferred.value_thenValue, hl _ (le_max_right ..)]
  rfl

theorem ends_identifier (hb : m.store.resolve env x = some b) :
    S.Ends held ⟨.identifier x, line⟩ env m (.value b.value, { m with line }) := by
  refine ends_iff_step.2 ⟨0, .value b.value, { m with line }, ?_, by simp, rfl⟩
  rw [step, Store.lookup]
  dsimp only
  rw [hb]
  rfl

end Setting

namespace Store

/-- An assignment of a variable, in any scope, with another name than a given one. -/
def AssignsOther (o : String) (σ σ' : Store) : Prop :=
  ∃ s x v b, x ≠ o ∧ σ.assign s x v = .ok (b, σ')

/-- An assignment changes no variable with another name. -/
theorem AssignsOther.resolve_eq {o : String} {σ σ' : Store} (h : σ.AssignsOther o σ')
    (t : ScopeId) : σ'.resolve t o = σ.resolve t o := by
  obtain ⟨s, x, v, b, hx, ha⟩ := h
  obtain ⟨u, i, old, -, hl, -, -, rfl⟩ := assign_eq_ok ha
  have hchain : (σ.place u (.overwritten, i) x (old.withValue v)).chain t = σ.chain t :=
    chain_congr (P := fun _ => True) (fun w _ => parent?_place ..) (fun _ _ _ _ _ => trivial)
      trivial
  have hget : ∀ w, ((σ.place u (.overwritten, i) x (old.withValue v)).bindings w).get? o =
      (σ.bindings w).get? o := by
    intro w
    rw [bindings_place]
    split
    · next hw =>
      rw [← hw, Table.get?_overwrite (p := (.overwritten, i)) (Table.locate?_eq_some.1 hl).1,
        if_neg hx]
    · rfl
  rw [resolve, resolve, hchain]
  exact congrArg (List.findSome? · _) (funext hget)

theorem resolve_of_assignsOther {o : String} {σ σ' : Store}
    (h : Relation.ReflTransGen (AssignsOther o) σ σ') (t : ScopeId) :
    σ'.resolve t o = σ.resolve t o := by
  induction h with
  | refl => rfl
  | tail _ ha ih => exact (ha.resolve_eq t).trans ih

end Store

/-- The members of a value are read from a table of bindings: by name, and by a key that evaluates
to the name. A variable that has the value has it as long as only other variables are assigned. -/
structure Setting.ReadsFrom {ω : Type} (S : Setting ω) (v : Value) (t : Table Binding) : Prop where
  named : ∀ {held object env x line} {m m' : Machine ω},
    S.Ends held object env { m with line } (.value v, m') →
      S.Ends held ⟨.member object (.named x), line⟩ env m (Setting.readFrom t x line, m')
  computed : ∀ {held object key env x line} {m m' m'' : Machine ω},
    S.Ends held object env { m with line } (.value v, m') →
      S.Ends (held.value v) key env m' (.value (.string x), m'') →
        S.Ends held ⟨.member object (.computed key), line⟩ env m (Setting.readFrom t x line, m'')
  assigned : ∀ {held env o line b σ} {m : Machine ω}, m.store.resolve env o = some b →
    b.value = v → Relation.ReflTransGen (Store.AssignsOther o) m.store σ →
      S.Ends held ⟨.identifier o, line⟩ env (m.withStore σ)
        (.value v, { m with store := σ, line })

theorem Setting.readsFrom_object {ω : Type} (S : Setting ω) (id : ObjectId) (t : Table Binding) :
    S.ReadsFrom (.object id t) t where
  named h := by
    rw [← atLine_property id]
    exact ends_member_named h
  computed h hkey := by
    rw [← atLine_property id]
    exact ends_member_computed h hkey
  assigned hb hv ha := by
    rw [← hv]
    exact ends_identifier ((Store.resolve_of_assignsOther ha _).trans hb)

/-- **Object literals read back what was written.** The properties of a literal are evaluated in
order. A literal ends as the first of them that makes no binding. It fails for the capacity at the
first that makes a binding while those before it have as many distinct names as the capacity, also
if its name is one of them. Else it ends with an object. The keys of the object are those of the
properties. The binding of a key is that which the last property so named made where it stands: a
variable with a copy of the value that was evaluated, or, if it is a shorthand, a copy of the
nearest binding with its constancy. Members are read from these bindings, and there are no other
members. -/
theorem objectLiteral_reads_back {ω : Type} (S : Setting ω) (held : Held)
    (properties : List Property) (line : UInt32) (env : ScopeId) (m : Machine ω) :
    let capacity := S.config.objectCapacity
    let literal : Node := ⟨.object properties, line⟩
    let start : Machine ω := { m with line }
    (∀ a, S.Ends held literal env m a ↔
      (∃ made m' t, S.MakesAll held env [] properties start made m' ∧
        Table.ofBindings? capacity made = some t ∧
          a = (.value (m'.store.object t).1, m'.withStore (m'.store.object t).2)) ∨
      ∃ before p after made m', properties = before ++ p :: after ∧
        S.MakesAll held env [] before start made m' ∧
          ((∃ c m'', S.Stops held env made p m' (c, m'') ∧ a = (c.atLine line, m'')) ∨
            ∃ b m'', S.Makes held env made p m' b m'' ∧
              (before.map Property.key).toFinset.card = capacity ∧
                a = (.failed ⟨.tableOverflow capacity, some line⟩, m''))) ∧
    ∀ v m', S.Ends held literal env m (.value v, m') →
      ∃ id t, v = .object id t ∧ S.ReadsFrom v t ∧ t.keys.Nodup ∧
        (∀ x, x ∈ t.keys ↔ x ∈ properties.map Property.key) ∧
        (∀ x, x ∉ properties.map Property.key → t.get? x = none) ∧
        ∀ x ∈ properties.map Property.key, ∃ before p after made m₀ b m₁,
          properties = before ++ p :: after ∧ p.key = x ∧ x ∉ after.map Property.key ∧
            S.MakesAll held env [] before start made m₀ ∧ S.Makes held env made p m₀ b m₁ ∧
              t.get? x = some b := by
  intro capacity literal start
  have hnames : ∀ {before made m'}, S.MakesAll held env [] before start made m' →
      made.map BindingOf.name = before.map Property.key := fun h => h.names_eq
  refine ⟨fun a => ?_, fun v m' h => ?_⟩
  · rw [Setting.ends_object_iff]
    constructor
    · rintro ⟨c, m₁, ⟨made, m', t, hall, ht, he⟩ |
        ⟨before, p, after, made, m', hp, hall, hstop | ⟨b, m₂, hb, hfull, he⟩⟩, rfl⟩
      · cases he
        exact .inl ⟨made, m', t, hall, ht, rfl⟩
      · exact .inr ⟨before, p, after, made, m', hp, hall, .inl ⟨c, m₁, hstop, rfl⟩⟩
      · cases he
        rw [hnames hall] at hfull
        exact .inr ⟨before, p, after, made, m', hp, hall, .inr ⟨b, _, hb, hfull, rfl⟩⟩
    · rintro (⟨made, m', t, hall, ht, rfl⟩ | ⟨before, p, after, made, m', hp, hall,
        ⟨c, m₁, hstop, rfl⟩ | ⟨b, m₂, hb, hfull, rfl⟩⟩)
      · exact ⟨_, _, .inl ⟨made, m', t, hall, ht, rfl⟩, rfl⟩
      · exact ⟨c, m₁, .inr ⟨before, p, after, made, m', hp, hall, .inl hstop⟩, rfl⟩
      · rw [← hnames hall] at hfull
        exact ⟨_, m₂, .inr ⟨before, p, after, made, m', hp, hall, .inr ⟨b, m₂, hb, hfull, rfl⟩⟩,
          rfl⟩
  · obtain ⟨c, m₁, hliteral, he⟩ := Setting.ends_object_iff.1 h
    obtain ⟨hc, rfl⟩ := Prod.mk.inj he
    obtain rfl := Completion.eq_value_of_atLine hc.symm
    obtain ⟨made, m₂, t, hall, ht, rfl⟩ := hliteral.exists_makesAll
    exact ⟨_, t, rfl, S.readsFrom_object _ t, (Table.ofBindings?_spec ht).1.nodup_keys,
      hall.mem_keys_iff ht, fun x hx => hall.get?_eq_none ht hx, fun x hx => hall.exists_last ht hx⟩

/-- A literal with a key twice, where there is room for two names: the last property counts, and
there is no third. -/
theorem objectLiteral_reads_back_repeated :
    let S := Setting.releasing { Config.standard with objectCapacity := 2 } Workbench.host
    let m : Machine Workbench := ⟨(Store.empty.root 8 8).2, 0, 0, .ofSink .buffer⟩
    let property (key s : String) : Property := ⟨key, some ⟨.string s, 1⟩⟩
    (∃ v m' t b, S.Ends .empty ⟨.object [property "a" "b", property "a" "c"], 1⟩ ⟨0⟩ m
      (.value v, m') ∧ S.ReadsFrom v t ∧ t.get? "a" = some b ∧ b.isConst = false ∧
        b.value = .string "c") ∧
    ∃ m', S.Ends .empty ⟨.object [property "a" "b", property "c" "d", property "a" "e"], 1⟩ ⟨0⟩ m
      (.failed ⟨.tableOverflow 2, some 1⟩, m') := by
  intro S m property
  have hstring : ∀ held s m, S.Ends held ⟨.string s, 1⟩ ⟨0⟩ m
      (.value (.string s), { m with line := 1 }) := fun held s m => ⟨by simp, 1, rfl⟩
  have hmakes : ∀ made key s m, ∃ b m', S.Makes .empty ⟨0⟩ made (property key s) m b m' :=
    fun made key s m => ⟨_, _, .keyed (hstring _ s m)⟩
  constructor
  · obtain ⟨hends, hread⟩ := objectLiteral_reads_back S .empty
      [property "a" "b", property "a" "c"] 1 ⟨0⟩ m
    obtain ⟨b₁, m₁, h₁⟩ := hmakes [] "a" "b" { m with line := 1 }
    obtain ⟨b₂, m₂, h₂⟩ := hmakes [b₁] "a" "c" m₁
    have hall : S.MakesAll .empty ⟨0⟩ [] [property "a" "b", property "a" "c"] { m with line := 1 }
        [b₁, b₂] m₂ := by
      refine .next h₁ (by decide) (.next h₂ ?_ .done)
      rw [List.nil_append, List.map_singleton, h₁.name_eq]
      decide
    obtain ⟨u, hu, -⟩ := hall.exists_value_objectRuns (t := .withCapacity 2) rfl
    have hvalue := (hends _).2 (.inl ⟨_, m₂, u, hall, hu, rfl⟩)
    obtain ⟨id, t, hv, hreads, -, -, -, hlast⟩ := hread _ _ hvalue
    obtain ⟨before, p, after, made, m₀, b, m', hp, -, hafter, -, hb, hget⟩ :=
      hlast "a" List.mem_cons_self
    have hlast : p = property "a" "c" := by
      rcases before with _ | ⟨q, _ | ⟨r, before⟩⟩
      · cases hp
        exact absurd List.mem_cons_self hafter
      · cases hp
        rfl
      · simp at hp
    subst hlast
    cases hb with
    | keyed h =>
      cases h.unique (hstring _ "c" _)
      exact ⟨_, _, t, _, hvalue, hreads, hget, rfl, rfl⟩
  · obtain ⟨hends, -⟩ := objectLiteral_reads_back S .empty
      [property "a" "b", property "c" "d", property "a" "e"] 1 ⟨0⟩ m
    obtain ⟨b₁, m₁, h₁⟩ := hmakes [] "a" "b" { m with line := 1 }
    obtain ⟨b₂, m₂, h₂⟩ := hmakes [b₁] "c" "d" m₁
    obtain ⟨b₃, m₃, h₃⟩ := hmakes [b₁, b₂] "a" "e" m₂
    have hall : S.MakesAll .empty ⟨0⟩ [] [property "a" "b", property "c" "d"] { m with line := 1 }
        [b₁, b₂] m₂ := by
      refine .next h₁ (by decide) (.next h₂ ?_ .done)
      rw [List.nil_append, List.map_singleton, h₁.name_eq]
      decide
    exact ⟨m₃, (hends _).2 (.inr ⟨_, property "a" "e", [], _, m₂, rfl, hall,
      .inr ⟨b₃, m₃, h₃, by decide, rfl⟩⟩)⟩

end Treewalk
