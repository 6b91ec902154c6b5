import Treewalk.Proofs.Assignment

/-!
# Updates agree with assignments

An increment or a decrement of a variable steps the number that it holds, and keeps the tag while
the result fits. The assignment of the sum or the difference goes another way: the target is
checked before the value, and the operator sets the tag for results with a fraction. Where there is
no fraction to be tagged, or the number has the tag already, both leave the same store.

* `Number.apply_assigned`: the sum or the difference with one is the stepped number.
* `Setting.value_update_of_updateFault?`, `Setting.exists_value_update`: how an update ends.

Main statement: `update_agrees`, when updates fail, and what they do if they do not.
-/

namespace Treewalk

/-! ## Steps -/

namespace UnaryOperator

/-- What an update adds to its variable. -/
def delta : UnaryOperator → Int
  | .preDecrement | .postDecrement => -1
  | _ => 1

/-- The operator of the assignment that does what an update does. -/
def assigned : UnaryOperator → BinaryOperator
  | .preDecrement | .postDecrement => .sub
  | _ => .add

theorem assigned_delta (op : UnaryOperator) :
    op.assigned = .add ∧ op.delta = 1 ∨ op.assigned = .sub ∧ op.delta = -1 := by
  cases op <;> decide

/-- Updates step numbers. -/
theorem apply_number {op : UnaryOperator} (hop : op.isUpdate = true) (n : Number) :
    op.apply (.number n) = .ok (.number (n.step op.delta)) := by
  cases op <;> first | rfl | cases hop

/-- Updates take nothing but numbers. -/
theorem apply_of_type_ne {op : UnaryOperator} (hop : op.isUpdate = true) {v : Value}
    (hv : v.type ≠ .number) : op.apply v = .error (.typeError (.unaryOperand op v.type)) := by
  cases v with
  | number n => exact absurd rfl hv
  | _ => cases op <;> first | rfl | cases hop

end UnaryOperator

namespace Binary64

/-- The opposite of one is minus one, so a difference with one is a sum with minus one. -/
theorem sub_one (x : Binary64) : x.sub (.ofInt 1) = x.add (.ofInt (-1)) := by
  have hneg : (Binary64.ofInt 1).neg = .ofInt (-1) := by decide +kernel
  rw [sub, hneg]

end Binary64

namespace Number

/-- The result of arithmetic with an integer has the tag of the other number, if that is set or if
there is no fraction to be tagged. -/
theorem arithmetic_int {n : Number} {raw : Binary64} (h : n.isFloat = true ∨ raw.isIntegral = true)
    {k : Int} (hk : (int k).isFloat = false) : arithmetic raw n (int k) = tagged raw n.isFloat := by
  rw [arithmetic, hk, Bool.or_false]
  obtain h | h := h
  · rw [h, Bool.true_or]
  · rw [h, Bool.not_true, Bool.or_false]

/-- The operator of the assignment is no remainder. -/
theorem not_panics_assigned (op : UnaryOperator) (n : Number) :
    op.assigned.panics (.number n) (.number (int 1)) = false := by
  obtain ⟨hop, -⟩ | ⟨hop, -⟩ := op.assigned_delta <;> rw [hop] <;> rfl

/-- The operator of the assignment gives the stepped number. -/
theorem apply_assigned (op : UnaryOperator) {n : Number}
    (h : n.isFloat = true ∨ (n.raw.add (.ofInt op.delta)).isIntegral = true) :
    op.assigned.apply (.number n) (.number (int 1)) = .ok (.number (n.step op.delta)) := by
  have hone : (int 1).isFloat = false := by decide +kernel
  have hadd : BinaryOperator.apply .add (.number n) (.number (int 1)) =
      .ok (.number (arithmetic (n.raw.add (int 1).raw) n (int 1))) := rfl
  have hsub : BinaryOperator.apply .sub (.number n) (.number (int 1)) =
      .ok (.number (arithmetic (n.raw.sub (int 1).raw) n (int 1))) := rfl
  obtain ⟨hop, hd⟩ | ⟨hop, hd⟩ := op.assigned_delta
  · rw [hd] at h
    rw [hop, hadd, raw_int, arithmetic_int h hone, hd, step]
  · rw [hd] at h
    rw [hop, hsub, raw_int, Binary64.sub_one, arithmetic_int h hone, hd, step]

end Number

/-! ## Updates -/

/-- Why an update fails, if it does: for its operand, for what the name is bound to, or for being
unable to write. -/
def Store.updateFault? (σ : Store) (env : ScopeId) (op : UnaryOperator) :
    NodeKind → Option ErrorCause
  | .identifier x =>
    match σ.resolve env x with
    | none => some (.undefinedIdentifier x)
    | some b =>
      if b.value.type = .number then σ.targetFault? env (.identifier x)
      else some (.typeError (.unaryOperand op b.value.type))
  | _ => some (.invalidLvalue op)

/-- An update without fault is that of a variable that holds a number. -/
theorem Store.updateFault?_eq_none_iff {σ : Store} {env : ScopeId} {op : UnaryOperator}
    {operand : NodeKind} :
    σ.updateFault? env op operand = none ↔ ∃ x b n, operand = .identifier x ∧
      σ.resolve env x = some b ∧ b.value = .number n ∧ b.isConst = false := by
  cases operand with
  | identifier x =>
    rw [updateFault?]
    cases hr : σ.resolve env x with
    | none => simp [hr]
    | some b =>
      dsimp only
      cases hv : b.value with
      | number n => simp [Value.type, targetFault?_identifier_eq_none, hr, hv]
      | _ => simp [Value.type, hr, hv]
  | _ => simp [updateFault?]

namespace Setting

variable {ω : Type} {S : Setting ω} {evaluate : Evaluator ω} {held : Held} {env : ScopeId}
variable {m : Machine ω} {op : UnaryOperator} {x : String} {b : Binding} {n : Number} {σ : Store}

theorem value_update_of_updateFault? (hop : op.isUpdate = true) {operand : NodeKind}
    {cause : ErrorCause} (h : m.store.updateFault? env op operand = some cause) :
    (update op operand env m).value = (.fail cause, m) := by
  cases operand with
  | identifier x =>
    rw [Store.updateFault?] at h
    rw [update, Store.lookup]
    cases hr : m.store.resolve env x with
    | none =>
      rw [hr] at h
      cases h
      rfl
    | some b =>
      rw [hr] at h
      dsimp only at h ⊢
      split at h
      · next hv =>
        obtain ⟨n, hn⟩ := Value.eq_number hv
        obtain ⟨fault, ha, rfl⟩ := Store.assign_of_targetFault? h (.number (n.step op.delta))
        rw [hn, UnaryOperator.apply_number hop]
        dsimp only
        rw [ha]
        rfl
      · next hv =>
        cases h
        rw [UnaryOperator.apply_of_type_ne hop hv]
        rfl
  | _ =>
    cases h
    rfl

/-- An update of a variable that holds a number writes the stepped number. -/
theorem exists_value_update (hop : op.isUpdate = true) (hb : m.store.resolve env x = some b)
    (hn : b.value = .number n) (hc : b.isConst = false) :
    ∃ b' σ, m.store.assign env x (.number (n.step op.delta)) = .ok (b', σ) ∧
      b'.value = .number (n.step op.delta) ∧
      (update op (.identifier x) env m).value =
        (.value (.number (if op.isPrefixUpdate then n.step op.delta else n)), m.withStore σ) := by
  obtain ⟨b', σ, ha, hb'⟩ := Store.assign_of_targetFault?_eq_none
    (Store.targetFault?_identifier_eq_none.2 ⟨b, hb, hc⟩) (.number (n.step op.delta))
  refine ⟨b', σ, ha, hb', ?_⟩
  rw [update, Store.lookup, hb]
  dsimp only
  rw [hn, UnaryOperator.apply_number hop]
  dsimp only
  rw [ha]
  cases op.isPrefixUpdate <;> rfl

theorem value_exec_update (hop : op.isUpdate = true) (fuel : Nat) (held : Held) (operand : Node)
    (line : UInt32) (env : ScopeId) (m : Machine ω) :
    (S.exec (fuel + 1) held ⟨.unary op operand, line⟩ env m).value =
      ((update op operand.kind env { m with line }).value.1.atLine line,
        (update op operand.kind env { m with line }).value.2) := by
  rw [value_exec_succ, step, unary, if_pos hop]

/-- An update with a fault fails for it at its line. -/
theorem value_exec_of_updateFault? (hop : op.isUpdate = true) (fuel : Nat) (held : Held)
    {operand : Node} (line : UInt32) {cause : ErrorCause}
    (h : m.store.updateFault? env op operand.kind = some cause) :
    (S.exec (fuel + 1) held ⟨.unary op operand, line⟩ env m).value =
      (.failed ⟨cause, some line⟩, { m with line }) := by
  rw [value_exec_update hop, value_update_of_updateFault? (m := { m with line }) hop h]
  rfl

/-- An update without fault writes the stepped number and gives the new or the old one. -/
theorem exists_value_exec_update (hop : op.isUpdate = true) (fuel : Nat) (held : Held)
    (operandLine line : UInt32) (hb : m.store.resolve env x = some b)
    (hn : b.value = .number n) (hc : b.isConst = false) :
    ∃ b' σ, m.store.assign env x (.number (n.step op.delta)) = .ok (b', σ) ∧
      b'.value = .number (n.step op.delta) ∧
      (S.exec (fuel + 1) held ⟨.unary op ⟨.identifier x, operandLine⟩, line⟩ env m).value =
        (.value (.number (if op.isPrefixUpdate then n.step op.delta else n)),
          { m with store := σ, line }) := by
  obtain ⟨b', σ, hassign, hb', hupdate⟩ :=
    exists_value_update (m := { m with line }) hop hb hn hc
  refine ⟨b', σ, hassign, hb', ?_⟩
  rw [value_exec_update hop, hupdate]
  rfl

/-! ## Assignments of sums and differences -/

/-- The sum or difference of a variable and one. -/
theorem value_exec_assigned (fuel : Nat) (held : Held) (line₁ line₂ line : UInt32)
    (hb : m.store.resolve env x = some b) (hn : b.value = .number n)
    (h : n.isFloat = true ∨ (n.raw.add (.ofInt op.delta)).isIntegral = true) :
    (S.exec (fuel + 2) held ⟨.binary op.assigned ⟨.identifier x, line₁⟩
      ⟨.number (.ofInt 1) false, line₂⟩, line⟩ env m).value =
        (.value (.number (n.step op.delta)), { m with line := line₁ }) := by
  have hright : ∀ held m, (S.exec (fuel + 1) held ⟨.number (.ofInt 1) false, line₂⟩ env m).value =
      (.value (.number (.int 1)), { m with line := line₂ }) := fun _ _ => rfl
  have hleft : ∀ held l, (S.exec (fuel + 1) held ⟨.identifier x, line₁⟩ env
      { m with line := l }).value = (.value (.number n), { m with line := line₁ }) := by
    intro held l
    rw [value_exec_succ, step, Machine.finish, Store.lookup, hb, ← hn]
    rfl
  rw [value_exec_succ, step, binary, Deferred.value_thenValue, hright]
  dsimp only
  rw [Deferred.value_thenValue, hleft]
  dsimp only
  rw [operate, Number.not_panics_assigned, Number.apply_assigned op h]
  rfl

/-- The assignment of the sum or difference writes the stepped number. -/
theorem value_exec_assignment (fuel : Nat) (held : Held) (line₁ line₂ line₃ line₄ line : UInt32)
    (hb : m.store.resolve env x = some b) (hn : b.value = .number n) (hc : b.isConst = false)
    (h : n.isFloat = true ∨ (n.raw.add (.ofInt op.delta)).isIntegral = true) {b' : Binding}
    (ha : m.store.assign env x (.number (n.step op.delta)) = .ok (b', σ)) :
    (S.exec (fuel + 3) held ⟨.assignment ⟨.identifier x, line₁⟩
      ⟨.binary op.assigned ⟨.identifier x, line₂⟩ ⟨.number (.ofInt 1) false, line₃⟩, line₄⟩,
        line⟩ env m).value = (.value b'.value, { m with store := σ, line := line₂ }) := by
  have hfault : m.store.targetFault? env (.identifier x) = none :=
    Store.targetFault?_identifier_eq_none.2 ⟨b, hb, hc⟩
  have hvalue := value_exec_assigned (S := S) (m := { m with line }) fuel held line₂ line₃ line₄
    hb hn h
  obtain ⟨y, hy, -, hwrite⟩ := exists_value_assignment (m := { m with line }) hfault
    (S.exec (fuel + 2)) held ⟨.binary op.assigned ⟨.identifier x, line₂⟩
      ⟨.number (.ofInt 1) false, line₃⟩, line₄⟩
  cases hy
  rw [hvalue] at hwrite
  rw [value_exec_succ, step, (hwrite _ rfl).1 b' σ ha]
  rfl

end Setting

/-- **Updates agree with assignments.** An update fails if its operand is no identifier, if the
name is not bound, if it is bound to something else than a number, and if it is bound to a
constant: the first of these that applies is its error, and nothing changes but the line. Else the
number is stepped and written where the name is bound, and the update gives the new or the old
number. If the number has the tag, or the stepped number no fraction, the assignment of the sum or
the difference with one gives the stepped number as well and leaves the same store. -/
theorem update_agrees {ω : Type} (S : Setting ω) (fuel : Nat) (held : Held) {op : UnaryOperator}
    (hop : op.isUpdate = true) (operand : Node) (line : UInt32) (env : ScopeId) (m : Machine ω) :
    let a := (S.exec (fuel + 1) held ⟨.unary op operand, line⟩ env m).value
    let failure (cause : ErrorCause) : Answer ω := (.failed ⟨cause, some line⟩, { m with line })
    (∀ e, a.1 = .failed e → a.2 = { m with line }) ∧
    ((∀ x, operand.kind ≠ .identifier x) → a = failure (.invalidLvalue op)) ∧
    ∀ x, operand.kind = .identifier x →
      (m.store.resolve env x = none → a = failure (.undefinedIdentifier x)) ∧
      ∀ b, m.store.resolve env x = some b →
        (b.value.type ≠ .number → a = failure (.typeError (.unaryOperand op b.value.type))) ∧
        ∀ n, b.value = .number n →
          let new := n.step op.delta
          (b.isConst = true → a = failure (.constReassignment x)) ∧
          (b.isConst = false → ∃ b' σ, m.store.assign env x (.number new) = .ok (b', σ) ∧
            a = (.value (.number (if op.isPrefixUpdate then new else n)),
              { m with store := σ, line }) ∧
            (n.isFloat = true ∨ (n.raw.add (.ofInt op.delta)).isIntegral = true →
              ∀ line₁ line₂ line₃ line₄ line₅,
                (S.exec (fuel + 3) held ⟨.assignment ⟨.identifier x, line₁⟩
                  ⟨.binary op.assigned ⟨.identifier x, line₂⟩ ⟨.number (.ofInt 1) false, line₃⟩,
                    line₄⟩, line₅⟩ env m).value =
                  (.value (.number new), { m with store := σ, line := line₂ }))) := by
  intro a failure
  have hfails : ∀ cause, m.store.updateFault? env op operand.kind = some cause →
      a = failure cause := fun _ => Setting.value_exec_of_updateFault? hop fuel held line
  refine ⟨fun e he => ?_, fun hx => hfails _ ?_, fun x hx => ⟨fun hr => hfails _ ?_, fun b hb =>
    ⟨fun hv => hfails _ ?_, fun n hn => ⟨fun hc => hfails _ ?_, fun hc => ?_⟩⟩⟩⟩
  · cases hfault : m.store.updateFault? env op operand.kind with
    | some cause => exact congrArg Prod.snd (hfails cause hfault)
    | none =>
      obtain ⟨kind, operandLine⟩ := operand
      obtain ⟨x, b, n, rfl, hb, hn, hc⟩ := Store.updateFault?_eq_none_iff.1 hfault
      obtain ⟨b', σ, -, -, hvalue⟩ :=
        Setting.exists_value_exec_update (S := S) hop fuel held operandLine line hb hn hc
      cases he.symm.trans (congrArg Prod.fst hvalue)
  · cases hk : operand.kind with
    | identifier x => exact absurd hk (hx x)
    | _ => rfl
  · rw [hx, Store.updateFault?, hr]
  · rw [hx, Store.updateFault?, hb]
    exact if_neg hv
  · rw [hx, Store.updateFault?, hb]
    dsimp only
    rw [hn, if_pos (show (Value.number n).type = .number from rfl), Store.targetFault?, hb]
    exact if_pos hc
  · obtain ⟨kind, operandLine⟩ := operand
    cases hx
    obtain ⟨b', σ, hassign, hb', hvalue⟩ :=
      Setting.exists_value_exec_update (S := S) hop fuel held operandLine line hb hn hc
    refine ⟨b', σ, hassign, hvalue, fun h line₁ line₂ line₃ line₄ line₅ => ?_⟩
    rw [← hb']
    exact Setting.value_exec_assignment fuel held line₁ line₂ line₃ line₄ line₅ hb hn hc h hassign

/-- A variable that holds zero is decremented. -/
theorem update_agrees_decrement :
    let S := Setting.releasing .standard Workbench.host
    let empty : Machine Workbench := ⟨(Store.empty.root 8 8).2, 0, 0, .ofSink .buffer⟩
    let init : Node := ⟨.declaration "x" false (some ⟨.number (.ofInt 0) false, 1⟩), 1⟩
    let m := (S.exec 2 .empty init ⟨0⟩ empty).value.2
    let x : Node := ⟨.identifier "x", 2⟩
    let difference : Node := ⟨.binary .sub x ⟨.number (.ofInt 1) false, 2⟩, 2⟩
    ∃ σ, (S.exec 1 .empty ⟨.unary .postDecrement x, 2⟩ ⟨0⟩ m).value =
        (.value (.number (.int 0)), { m with store := σ, line := 2 }) ∧
      (S.exec 3 .empty ⟨.assignment x difference, 2⟩ ⟨0⟩ m).value =
        (.value (.number (.int (-1))), { m with store := σ, line := 2 }) := by
  intro S empty init m x difference
  have hstep : (Number.int 0).step UnaryOperator.postDecrement.delta = .int (-1) := by
    decide +kernel
  have hread : (m.store.resolve ⟨0⟩ "x").map (fun b => (b.value.type, b.value.number?, b.isConst)) =
      some (.number, some (.int 0), false) := by
    decide +kernel
  clear_value m
  obtain ⟨b, hb, hbound⟩ := Option.map_eq_some_iff.1 hread
  obtain ⟨n, hn⟩ := Value.eq_number (congrArg Prod.fst hbound)
  have hzero : b.value.number? = some (.int 0) := congrArg (·.2.1) hbound
  have hc : b.isConst = false := congrArg (·.2.2) hbound
  rw [hn, Value.number?_number] at hzero
  obtain rfl := Option.some.inj hzero
  obtain ⟨-, -, h⟩ := update_agrees S 0 .empty (show UnaryOperator.postDecrement.isUpdate = true
    from rfl) x 2 ⟨0⟩ m
  obtain ⟨b', σ, -, hpost, hassign⟩ := (((h "x" rfl).2 b hb).2 (.int 0) hn).2 hc
  rw [hstep] at hassign
  exact ⟨σ, hpost, hassign (.inr (by decide +kernel)) 2 2 2 2 2⟩

end Treewalk
