import Treewalk.Proofs.Simulation.Basic

/-!
# A simulation runs through whole evaluations

Each kind of node gets one lemma over evaluators for its parts that follow each other; loops and
lists of statements are inductions over their fuel and their statements. `Simulation.follows_exec`
puts the kinds together: with equal fuel the evaluators of two settings follow each other.
`Simulation.answers_callValue` is the same for a call from the host.
-/

namespace Treewalk

namespace Simulation

variable {ω₁ ω₂ : Type} {S₁ : Setting ω₁} {S₂ : Setting ω₂} {sim : Simulation S₁ S₂}
variable {ev₁ : Evaluator ω₁} {ev₂ : Evaluator ω₂} {Γ : Context} {s : ScopeId}
variable {m₁ : Machine ω₁} {m₂ : Machine ω₂}

/-! ## Statements in a row -/

section Statements

variable {body body' : List Node}

theorem answers_evaluateOr (hev : sim.Follows ev₁ ev₂) {default : Value}
    (hd : sim.like.Plain default) {n n' : Option Node} (hn : Option.Rel sim.like.Nodes n n')
    (h : sim.Agree Γ m₁ m₂) (hs : sim.Holds Γ s) (ho : ∀ p ∈ n, sim.Suits p.kind s) :
    sim.Answers Γ (Setting.evaluateOr ev₁ (sim.leftHeld Γ) default n s m₁).value
      (Setting.evaluateOr ev₂ (sim.rightHeld Γ) default n' (sim.twin s) m₂).value := by
  cases hn with
  | none => exact answers_give (h.plain hd)
  | some hn => exact hev hn h hs (ho _ rfl)

theorem answers_programRuns (hev : sim.Follows ev₁ ev₂)
    (hn : List.Forall₂ sim.like.Nodes body body') {l₁ l₂ : Value}
    (h : sim.Agree (.value l₁ l₂ :: Γ) m₁ m₂) (hs : sim.Holds Γ s)
    (ho : ∀ n ∈ body, sim.Suits n.kind s) :
    sim.Answers Γ (Setting.programRuns ev₁ (sim.leftHeld Γ) s l₁ body m₁).value
      (Setting.programRuns ev₂ (sim.rightHeld Γ) (sim.twin s) l₂ body' m₂).value := by
  induction hn generalizing l₁ l₂ m₁ m₂ with
  | nil => exact answers_give h
  | cons hn _ ih =>
    obtain ⟨ho, hrest⟩ := List.forall_mem_cons.1 ho
    refine answers_seq (hev hn h (hs.cons _) ho).tail (fun e m hx => ⟨e, rfl, hx⟩) fun hp ha => ?_
    cases hp with
    | value v w => exact ih ha hrest
    | returned v w => exact answers_pair (.returned v w) ha
    | broke => exact ih (ha.plain .null) hrest
    | continued => exact ih (ha.plain .null) hrest
    | failed he => exact answers_pair (.failed he) ha
    | panicked hp => exact answers_pair (.panicked hp) ha
    | exhausted => exact answers_pair .exhausted ha

theorem answers_blockRuns (hev : sim.Follows ev₁ ev₂)
    (hn : List.Forall₂ sim.like.Nodes body body') {l₁ l₂ : Value}
    (h : sim.Agree (.value l₁ l₂ :: Γ) m₁ m₂) (hs : sim.Holds Γ s) (ho : sim.Open s) :
    sim.Answers Γ (Setting.blockRuns ev₁ (sim.leftHeld Γ) s l₁ body m₁).value
      (Setting.blockRuns ev₂ (sim.rightHeld Γ) (sim.twin s) l₂ body' m₂).value := by
  induction hn generalizing l₁ l₂ m₁ m₂ with
  | nil => exact answers_give h
  | cons hn _ ih => exact answers_thenValue (hev hn h (hs.cons _) (.inl ho)).tail fun ha => ih ha

theorem answers_block (hev : sim.Follows ev₁ ev₂)
    (hn : List.Forall₂ sim.like.Nodes body body') (h : sim.Agree Γ m₁ m₂) (hs : sim.Holds Γ s) :
    sim.Answers Γ (S₁.block ev₁ (sim.leftHeld Γ) body s m₁).value
      (S₂.block ev₂ (sim.rightHeld Γ) body' (sim.twin s) m₂).value :=
  answers_within h hs fun {t _ _} ho ha =>
    answers_blockRuns hev hn (Γ := .scope t :: Γ) (ha.plain .null)
      (.inr (.inl List.mem_cons_self)) ho

end Statements

/-! ## Variables -/

theorem answers_declare (name : String) (isConst : Bool) {v w : Value}
    (h : sim.Agree (.value v w :: Γ) m₁ m₂) (hs : sim.Holds Γ s) (ho : sim.Open s) :
    sim.Answers Γ (Setting.declare name v isConst s m₁).value
      (Setting.declare name w isConst (sim.twin s) m₂).value := by
  have hd := sim.declare h.rel List.mem_cons_self (hs.cons _) ho name isConst
  rw [Setting.declare, Setting.declare]
  generalize m₁.store.declare s name v isConst = r₁ at hd ⊢
  generalize m₂.store.declare (sim.twin s) name w isConst = r₂ at hd ⊢
  cases hd with
  | ok hr => exact answers_give (h.withStore hr)
  | error cause => exact (answers_fail h cause).tail
  | excused hx => exact answers_excused hx _

theorem corresponds_lookup (h : sim.Agree Γ m₁ m₂) (hs : sim.Holds Γ s) (name : String) :
    Corresponds (fun _ => False)
      (fun v w => sim.Rel (.value v w :: Γ) m₁.store m₁.world m₂.store m₂.world)
      (m₁.store.lookup s name) (m₂.store.lookup (sim.twin s) name) := by
  have hr := sim.resolve h.rel hs name
  rw [Store.lookup, Store.lookup]
  generalize m₁.store.resolve s name = r₁ at hr ⊢
  generalize m₂.store.resolve (sim.twin s) name = r₂ at hr ⊢
  cases hr with
  | none => exact .error _
  | some hb => exact .ok hb.2

/-- Writing the new value of a variable. -/
theorem answers_assign (name : String) {v w a b : Value} (hm : .value v w ∈ Γ)
    (hab : .value a b ∈ Γ) (h : sim.Agree Γ m₁ m₂) (hs : sim.Holds Γ s) :
    sim.Answers Γ
      (match m₁.store.assign s name v with
        | .error fault => m₁.fail (fault.cause name)
        | .ok (_, σ) => (m₁.withStore σ).give a : Deferred (Answer ω₁)).value
      (match m₂.store.assign (sim.twin s) name w with
        | .error fault => m₂.fail (fault.cause name)
        | .ok (_, σ) => (m₂.withStore σ).give b : Deferred (Answer ω₂)).value := by
  have hr := sim.assign h.rel hm hs name
  generalize m₁.store.assign s name v = r₁ at hr ⊢
  generalize m₂.store.assign (sim.twin s) name w = r₂ at hr ⊢
  cases hr with
  | ok hr =>
    exact answers_give ((h.withStore hr).weaken (List.cons_subset.2 ⟨hab, List.Subset.refl Γ⟩))
  | error fault => exact answers_fail h _
  | excused hx => exact hx.elim

theorem answers_update (op : UnaryOperator) {operand operand' : NodeKind}
    (hk : operand.Matches sim.like.Nodes operand') (h : sim.Agree Γ m₁ m₂) (hs : sim.Holds Γ s) :
    sim.Answers Γ (Setting.update op operand s m₁).value
      (Setting.update op operand' (sim.twin s) m₂).value := by
  unfold Setting.update
  cases hk with
  | identifier name =>
    have hl := corresponds_lookup h hs name
    dsimp only
    generalize m₁.store.lookup s name = r₁ at hl ⊢
    generalize m₂.store.lookup (sim.twin s) name = r₂ at hl ⊢
    cases hl with
    | error cause => exact answers_fail h cause
    | excused hx => exact hx.elim
    | @ok v w hv =>
      have ha : sim.Agree (.value v w :: Γ) m₁ m₂ := ⟨h.line, h.callDepth, hv⟩
      dsimp only
      have hvw := ha.alike List.mem_cons_self
      rw [← hvw.unary_eq op]
      cases hop : op.apply v with
      | error cause => exact answers_fail h cause
      | ok new =>
        have hn := ha.plain (hvw.plain_of_unary hop)
        have := answers_assign name (s := s) (v := new) (w := new)
          (a := if op.isPrefixUpdate then new else v) (b := if op.isPrefixUpdate then new else w)
          List.mem_cons_self (by split <;> simp) hn ((hs.cons _).cons _)
        exact this.tail.tail
  | _ => exact answers_fail h _

/-- The binding that an assignment gives has the value assigned. -/
theorem value_of_assign {σ σ' : Store} {name : String} {v : Value} {b : Binding}
    (h : σ.assign s name v = .ok (b, σ')) : b.value = v := by
  rw [Store.assign] at h
  split at h
  · cases h
  · split at h
    · cases h
    · split at h
      · cases h
      · cases h; rfl

theorem answers_assignment (hev : sim.Follows ev₁ ev₂) {target target' : NodeKind}
    (hk : target.Matches sim.like.Nodes target') {value value' : Node}
    (hn : sim.like.Nodes value value') (h : sim.Agree Γ m₁ m₂) (hs : sim.Holds Γ s)
    (ho : sim.Suits value.kind s) :
    sim.Answers Γ (Setting.assignment ev₁ (sim.leftHeld Γ) target value s m₁).value
      (Setting.assignment ev₂ (sim.rightHeld Γ) target' value' (sim.twin s) m₂).value := by
  unfold Setting.assignment
  cases hk with
  | identifier name =>
    have hr := sim.resolve h.rel hs name
    dsimp only
    generalize m₁.store.resolve s name = r₁ at hr ⊢
    generalize m₂.store.resolve (sim.twin s) name = r₂ at hr ⊢
    cases hr with
    | none => exact answers_fail h _
    | @some b c hb =>
      dsimp only
      rw [← hb.1]
      split
      · exact answers_fail h _
      · refine answers_thenValue (hev hn h hs ho) fun {v w m₁ m₂} ha => ?_
        have hr := sim.assign ha.rel List.mem_cons_self (hs.cons _) name
        generalize h₁ : m₁.store.assign s name v = r₁ at hr ⊢
        generalize h₂ : m₂.store.assign (sim.twin s) name w = r₂ at hr ⊢
        cases hr with
        | @ok p q hr =>
          dsimp only
          rw [value_of_assign h₁, value_of_assign h₂]
          exact answers_give (ha.withStore hr)
        | error fault => exact (answers_fail ha _).tail
        | excused hx => exact hx.elim
  | _ => exact answers_fail h _

/-! ## Expressions -/

section Expressions

variable {left left' right right' : Node}

theorem answers_branch (hev : sim.Follows ev₁ ev₂) {cond cond' thenBranch thenBranch' : Node}
    {elseBranch elseBranch' : Option Node} (hc : sim.like.Nodes cond cond')
    (ht : sim.like.Nodes thenBranch thenBranch')
    (he : Option.Rel sim.like.Nodes elseBranch elseBranch') (h : sim.Agree Γ m₁ m₂)
    (hs : sim.Holds Γ s) (ho : sim.Suits (.branch cond thenBranch elseBranch) s) :
    sim.Answers Γ (Setting.branch ev₁ (sim.leftHeld Γ) cond thenBranch elseBranch s m₁).value
      (Setting.branch ev₂ (sim.rightHeld Γ) cond' thenBranch' elseBranch' (sim.twin s)
        m₂).value := by
  have hparts : ∀ n ∈ cond :: thenBranch :: elseBranch.toList, sim.Suits n.kind s :=
    fun n hn => ho.part hn
  simp only [List.forall_mem_cons, Option.mem_toList] at hparts
  obtain ⟨hoc, hot, hoe⟩ := hparts
  refine answers_thenValue (hev hc h hs hoc) fun ha => ?_
  rw [← (ha.alike List.mem_cons_self).isTruthy_eq]
  split
  · exact hev ht ha.tail hs hot
  · exact answers_evaluateOr hev .null he ha.tail hs hoe

theorem answers_binary (hev : sim.Follows ev₁ ev₂) (op : BinaryOperator)
    (hl : sim.like.Nodes left left') (hr : sim.like.Nodes right right') (h : sim.Agree Γ m₁ m₂)
    (hs : sim.Holds Γ s) (ho : sim.Suits (.binary op left right) s) :
    sim.Answers Γ (Setting.binary ev₁ (sim.leftHeld Γ) op left right s m₁).value
      (Setting.binary ev₂ (sim.rightHeld Γ) op left' right' (sim.twin s) m₂).value := by
  have hor : sim.Suits right.kind s := ho.part List.mem_cons_self
  have hol : sim.Suits left.kind s := ho.part (List.mem_cons_of_mem _ List.mem_cons_self)
  refine answers_thenValue (hev hr h hs hor) fun {r r' m₁ m₂} ha => ?_
  refine Answers.tail (x := .value r r') (answers_thenValue (hev hl ha (hs.cons _) hol)
    fun {l l' m₁ m₂} ha => ?_)
  have hl := ha.alike List.mem_cons_self
  have hr := ha.alike (List.mem_cons_of_mem _ List.mem_cons_self)
  unfold Setting.operate
  rw [← hl.binary_eq hr op, ← hl.panics_eq hr op]
  split
  · next hp => exact answers_pair (.panicked (hr.panics hp)) ha.tail
  · exact answers_finish_plain ha.tail fun v hv => Likeness.plain_of_binary hv

theorem answers_unary (hev : sim.Follows ev₁ ev₂) (op : UnaryOperator) {operand operand' : Node}
    (hn : sim.like.Nodes operand operand') (h : sim.Agree Γ m₁ m₂) (hs : sim.Holds Γ s)
    (ho : sim.Suits (.unary op operand) s) :
    sim.Answers Γ (Setting.unary ev₁ (sim.leftHeld Γ) op operand s m₁).value
      (Setting.unary ev₂ (sim.rightHeld Γ) op operand' (sim.twin s) m₂).value := by
  unfold Setting.unary
  split
  · exact answers_update op (sim.like.kind hn) h hs
  · next hop =>
    have hparts : (NodeKind.unary op operand).inPlace = [operand] := if_neg hop
    have hoperand : operand ∈ (NodeKind.unary op operand).inPlace :=
      hparts ▸ List.mem_cons_self
    refine answers_thenValue (hev hn h hs (ho.part hoperand)) fun ha => ?_
    have hvw := ha.alike List.mem_cons_self
    rw [← hvw.unary_eq op]
    exact answers_finish_plain ha.tail fun v hv => hvw.plain_of_unary hv

theorem corresponds_property {o p : Value} (h : sim.Agree Γ m₁ m₂) (ho : .value o p ∈ Γ)
    (key : String) :
    Corresponds (fun _ => False)
      (fun v w => sim.Rel (.value v w :: Γ) m₁.store m₁.world m₂.store m₂.world)
      (o.property key) (p.property key) := by
  cases h.alike ho with
  | objects i j t u =>
    have hr := sim.property h.rel ho key
    rw [Value.property, Value.property]
    generalize t.get? key = r₁ at hr ⊢
    generalize u.get? key = r₂ at hr ⊢
    cases hr with
    | none => exact .error _
    | some hb => exact .ok hb
  | functions => exact .error _
  | plain hv =>
    cases o with
    | object i t => exact hv.isPlain.elim
    | _ => exact .error _

theorem answers_member (hev : sim.Follows ev₁ ev₂) {object object' : Node} {key key' : MemberKey}
    (hn : sim.like.Nodes object object') (hk : key.Matches sim.like.Nodes key')
    (h : sim.Agree Γ m₁ m₂) (hs : sim.Holds Γ s) (ho : sim.Suits (.member object key) s) :
    sim.Answers Γ (Setting.member ev₁ (sim.leftHeld Γ) object key s m₁).value
      (Setting.member ev₂ (sim.rightHeld Γ) object' key' (sim.twin s) m₂).value := by
  have hobject : object ∈ (NodeKind.member object key).inPlace := by
    cases key <;> exact List.mem_cons_self
  refine answers_thenValue (hev hn h hs (ho.part hobject)) fun {o p m₁ m₂} ha => ?_
  cases hk with
  | named name =>
    exact (answers_finish ha (corresponds_property ha List.mem_cons_self name)).tail
  | computed hk =>
    have hkey := ho.part (List.mem_cons_of_mem _ List.mem_cons_self)
    refine Answers.tail (x := .value o p) (answers_thenValue (hev hk ha (hs.cons _) hkey)
      fun {k l m₁ m₂} ha => ?_)
    rw [← (ha.alike List.mem_cons_self).asKey_eq]
    cases k.asKey with
    | error cause => exact (answers_fail ha cause).tail
    | ok key =>
      exact (answers_finish ha (corresponds_property ha
        (List.mem_cons_of_mem _ List.mem_cons_self) key)).tail

end Expressions

/-! ## Calls -/

theorem answers_callNative (f : NativeFunction) {args args' : List Value}
    (h : sim.Agree Γ m₁ m₂) (hargs : List.Forall₂ (fun v w => .value v w ∈ Γ) args args')
    (hs : sim.Holds Γ s) (hc : sim.Callable s) :
    sim.Answers Γ (S₁.callNative f args s m₁).value
      (S₂.callNative f args' (sim.twin s) m₂).value := by
  have hc := sim.call f h.rel hargs hs hc
  rw [Setting.callNative, Setting.callNative]
  generalize S₁.host.call f args s m₁.store m₁.world = a at hc ⊢
  generalize S₂.host.call f args' (sim.twin s) m₂.store m₂.world = b at hc ⊢
  obtain ⟨r₁, σ₁, w₁⟩ := a
  obtain ⟨r₂, σ₂, w₂⟩ := b
  obtain ⟨e, rfl, hx | ⟨e', rfl, he, hr⟩⟩ | ⟨v, w, rfl, rfl, hr⟩ := hc
  · exact .inl ⟨e, rfl, hx⟩
  · exact answers_pair (.failed he) ⟨h.line, h.callDepth, hr⟩
  · exact answers_pair (.value v w) ⟨h.line, h.callDepth, hr⟩

/-- Parameters bound side by side: both lists fit, or the first that does not fit ends both. -/
theorem bindParameters_rel {σ₁ σ₂ : Store} {w₁ : ω₁} {w₂ : ω₂} (params : List String)
    {args args' : List Value} (h : sim.Rel Γ σ₁ w₁ σ₂ w₂)
    (hargs : List.Forall₂ (fun v w => sim.Admits Γ v w) args args') (hs : sim.Holds Γ s)
    (ho : sim.Open s) :
    let a := σ₁.bindParameters s (params.zip args)
    let b := σ₂.bindParameters (sim.twin s) (params.zip args')
    (∃ cause, a.2 = some cause ∧ (sim.Excuses cause ∨
        b.2 = some cause ∧ sim.Rel Γ a.1 w₁ b.1 w₂)) ∨
      a.2 = none ∧ b.2 = none ∧ sim.Rel Γ a.1 w₁ b.1 w₂ := by
  induction params generalizing args args' σ₁ σ₂ with
  | nil => exact .inr ⟨rfl, rfl, h⟩
  | cons param params ih =>
    cases hargs with
    | nil => exact .inr ⟨rfl, rfl, h⟩
    | @cons v w args args' hv hargs =>
      have hc := sim.weaken (List.cons_subset_cons _ (List.subset_cons_self _ _))
        (sim.copy (hv (List.Subset.refl Γ) h) List.mem_cons_self)
      have hd := sim.declare hc List.mem_cons_self (hs.cons _) ho param true
      simp only [List.zip_cons_cons, Store.bindParameters]
      generalize (σ₁.copy v).2.declare s param (σ₁.copy v).1 true = r₁ at hd ⊢
      generalize (σ₂.copy w).2.declare (sim.twin s) param (σ₂.copy w).1 true = r₂ at hd ⊢
      cases hd with
      | ok hr => exact ih (sim.weaken (List.subset_cons_self _ Γ) hr) hargs
      | error cause =>
        exact .inl ⟨cause, rfl, .inr ⟨rfl, sim.weaken (List.subset_cons_self _ Γ) hc⟩⟩
      | excused hx => exact .inl ⟨_, rfl, .inl hx⟩

section Body

variable {body body' : List Node}

theorem answers_runBody (hev : sim.Follows ev₁ ev₂)
    (hn : List.Forall₂ sim.like.Nodes body body') (h : sim.Agree Γ m₁ m₂)
    (hs : sim.Holds Γ s) (ho : sim.Open s) :
    sim.Answers Γ (Setting.runBody ev₁ (sim.leftHeld Γ) s body m₁).value
      (Setting.runBody ev₂ (sim.rightHeld Γ) (sim.twin s) body' m₂).value := by
  induction hn generalizing m₁ m₂ with
  | nil => exact answers_give_null h
  | cons hn _ ih =>
    refine answers_seq (hev hn h hs (.inl ho)) (fun e m hx => ⟨e, rfl, hx⟩) fun hp ha => ?_
    cases hp with
    | value v w => exact ih ha.tail
    | returned v w =>
      exact answers_give (ha.withStore (sim.copy ha.rel List.mem_cons_self)).dropSecond
    | broke => exact ih ha
    | continued => exact ih ha
    | failed he => exact answers_pair (.failed he) ha
    | panicked hp => exact answers_pair (.panicked hp) ha
    | exhausted => exact answers_pair .exhausted ha

theorem answers_runCall (hev : sim.Follows ev₁ ev₂)
    (hn : List.Forall₂ sim.like.Nodes body body') (h : sim.Agree Γ m₁ m₂)
    (hs : sim.Holds Γ s) (ho : sim.Open s) :
    sim.Answers Γ (Setting.runCall ev₁ (sim.leftHeld Γ) s body m₁).value
      (Setting.runCall ev₂ (sim.rightHeld Γ) (sim.twin s) body' m₂).value := by
  refine answers_map (answers_runBody hev hn
    ⟨h.line, congrArg (· + 1) h.callDepth, h.rel⟩ hs ho) (fun e m hx => ⟨e, rfl, hx⟩)
    fun hp ha => ?_
  exact .inr ⟨_, hp, ha.line, congrArg (· - 1) ha.callDepth, ha.rel⟩

end Body

theorem answers_callClosure (hev : sim.Follows ev₁ ev₂) {f g : Closure} (hname : f.name = g.name)
    (hscope : g.scope = sim.twin f.scope) (hcode : f.code.Matches sim.like.Nodes g.code)
    {args args' : List Value} (h : sim.Agree Γ m₁ m₂) (hf : sim.Holds Γ f.scope)
    (hargs : List.Forall₂ (fun v w => sim.Admits Γ v w) args args') :
    sim.Answers Γ (S₁.callClosure ev₁ (sim.leftHeld Γ) f args m₁).value
      (S₂.callClosure ev₂ (sim.rightHeld Γ) g args' m₂).value := by
  obtain ⟨name, code, scope⟩ := f
  obtain ⟨name', code', scope'⟩ := g
  obtain rfl : name = name' := hname
  obtain rfl : scope' = sim.twin scope := hscope
  obtain @⟨label, params, body, body', hbody⟩ := hcode
  rw [Setting.callClosure, Setting.callClosure, hargs.length_eq]
  -- Both refuse the same calls: the name and the number of parameters are the same.
  have harity : Closure.arityFault? ⟨name, ⟨label, params, body'⟩, sim.twin scope⟩ args'.length =
      Closure.arityFault? ⟨name, ⟨label, params, body⟩, scope⟩ args'.length := rfl
  rw [harity]
  cases Closure.arityFault? ⟨name, ⟨label, params, body⟩, scope⟩ args'.length with
  | some cause => exact answers_fail h cause
  | none =>
    dsimp only
    have hle := sim.maxCallDepth_le
    by_cases hd : S₁.config.maxCallDepth ≤ m₁.callDepth
    · rw [if_pos hd]
      obtain heq | hlt := Nat.eq_or_lt_of_le hle
      · rw [if_pos (by rw [← heq, ← h.callDepth]; exact hd), ← heq]
        exact answers_fail h _
      · exact answers_excused (sim.excuses_of_lt hlt) _
    · rw [if_neg hd, if_neg (by rw [← h.callDepth]; omega)]
      refine answers_within h hf fun {s m₁ m₂} ho ha => ?_
      have hargs := hargs.imp fun v w h => h.mono (List.subset_cons_self (Handle.scope s) Γ)
      have hs : sim.Holds (.scope s :: Γ) s := .inr (.inl List.mem_cons_self)
      have hb := bindParameters_rel params ha.rel hargs hs ho
      generalize m₁.store.bindParameters s (params.zip args) = a at hb ⊢
      generalize m₂.store.bindParameters (sim.twin s) (params.zip args') = b at hb ⊢
      obtain ⟨σ₁, c₁⟩ := a
      obtain ⟨σ₂, c₂⟩ := b
      obtain ⟨cause, rfl, hx | ⟨rfl, hr⟩⟩ | ⟨rfl, rfl, hr⟩ := hb
      · exact answers_excused hx _
      · exact answers_fail (ha.withStore hr) cause
      · exact answers_runCall hev hbody (ha.withStore hr) hs ho

/-- A call of a value, with the callee and the arguments held. -/
theorem answers_callValue (hev : sim.Follows ev₁ ev₂) {f g : Value} {args args' : List Value}
    (h : sim.Agree Γ m₁ m₂) (hf : .value f g ∈ Γ)
    (hargs : List.Forall₂ (fun v w => .value v w ∈ Γ) args args') (hs : sim.Holds Γ s)
    (hc : sim.Callable s) :
    sim.Answers Γ (S₁.callValue ev₁ (sim.leftHeld Γ) f args s m₁).value
      (S₂.callValue ev₂ (sim.rightHeld Γ) g args' (sim.twin s) m₂).value := by
  cases h.alike hf with
  | objects => exact answers_fail h _
  | functions hname hcode =>
    exact answers_callClosure hev hname (sim.closure h.rel hf) hcode h (.inr (.inr ⟨_, _, hf, rfl⟩))
      (hargs.imp fun _ _ => admits_of_mem)
  | plain hv =>
    cases f with
    | native f => exact answers_callNative f h hargs hs hc
    | function f => exact hv.isPlain.elim
    | _ => exact answers_fail h _

/-- Arguments evaluated side by side, for whatever is done with them next. -/
theorem answers_arguments (hev : sim.Follows ev₁ ev₂)
    {next₁ : Held → List Value → Machine ω₁ → Deferred (Answer ω₁)}
    {next₂ : Held → List Value → Machine ω₂ → Deferred (Answer ω₂)}
    (hnext : ∀ {Γ' vs ws m₁ m₂}, Γ ⊆ Γ' → sim.Agree Γ' m₁ m₂ →
      List.Forall₂ (fun v w => .value v w ∈ Γ') vs ws →
        sim.Answers Γ' (next₁ (sim.leftHeld Γ') vs m₁).value
          (next₂ (sim.rightHeld Γ') ws m₂).value) {args args' : List Node}
    (hn : List.Forall₂ sim.like.Nodes args args') {vs ws : List Value} (h : sim.Agree Γ m₁ m₂)
    (hvs : List.Forall₂ (fun v w => .value v w ∈ Γ) vs ws) (hs : sim.Holds Γ s)
    (ho : ∀ n ∈ args, sim.Suits n.kind s) :
    sim.Answers Γ (Setting.arguments ev₁ (sim.leftHeld Γ) s next₁ vs args m₁).value
      (Setting.arguments ev₂ (sim.rightHeld Γ) (sim.twin s) next₂ ws args' m₂).value := by
  induction hn generalizing Γ vs ws m₁ m₂ with
  | nil => exact hnext (List.Subset.refl Γ) h hvs
  | cons hn _ ih =>
    obtain ⟨ho, hrest⟩ := List.forall_mem_cons.1 ho
    refine answers_thenValue (hev hn h hs ho) fun {v w m₁ m₂} ha => ?_
    have hsub := List.subset_cons_self (Handle.value v w) Γ
    refine Answers.tail (x := .value v w) (ih (fun hΓ => hnext (List.Subset.trans hsub hΓ)) ha ?_
      (hs.cons _) hrest)
    exact List.rel_append (hvs.imp fun _ _ h => List.mem_cons_of_mem _ h)
      (.cons List.mem_cons_self .nil)

/-- A call with evaluators of their own for the bodies of functions. -/
theorem answers_call (hev : sim.Follows ev₁ ev₂) {ev₁' : Evaluator ω₁} {ev₂' : Evaluator ω₂}
    (hbody : sim.Follows ev₁' ev₂') {callee callee' : Node} {args args' : List Node}
    (hc : sim.like.Nodes callee callee') (hn : List.Forall₂ sim.like.Nodes args args')
    (h : sim.Agree Γ m₁ m₂) (hs : sim.Holds Γ s) (ho : sim.Suits (.call callee args) s) :
    sim.Answers Γ
      (Setting.arguments ev₁ (sim.leftHeld Γ) s (fun held args m =>
        (ev₁ held callee s m).thenValue fun f m =>
          S₁.callValue ev₁' (held.value f) f args s m) [] args m₁).value
      (Setting.arguments ev₂ (sim.rightHeld Γ) (sim.twin s) (fun held args m =>
        (ev₂ held callee' (sim.twin s) m).thenValue fun f m =>
          S₂.callValue ev₂' (held.value f) f args (sim.twin s) m) [] args' m₂).value := by
  have hargs : ∀ n ∈ args, sim.Suits n.kind s := fun n hn => ho.part (List.mem_append_left _ hn)
  have hcallee : sim.Suits callee.kind s := ho.part (List.mem_append_right _ List.mem_cons_self)
  refine answers_arguments hev (fun {Γ' vs ws m₁ m₂} hΓ ha hvs => ?_) hn h .nil hs hargs
  have hs' : sim.Holds Γ' s := hs.mono hΓ
  refine answers_thenValue (hev hc ha hs' hcallee) fun {f g m₁ m₂} ha => ?_
  exact (answers_callValue hbody ha List.mem_cons_self
    (hvs.imp fun _ _ h => List.mem_cons_of_mem _ h) (hs'.cons _) (ho.callable rfl)).tail

/-! ## Objects -/

/-- The values of tables that are being made, in the order of the keys. -/
def madePairs (t u : Table Binding) (keys : List String) : Context :=
  keys.filterMap fun key =>
    match t.get? key, u.get? key with
    | some b, some c => some (.value b.value c.value)
    | _, _ => none

/-- Tables of an object that is being made on both sides. -/
structure Making (sim : Simulation S₁ S₂) (keys : List String) (t u : Table Binding) : Prop where
  tables : sim.Tables t u
  wellFormed_left : t.WellFormed
  wellFormed_right : u.WellFormed
  isSome_eq : ∀ key, (t.get? key).isSome = (u.get? key).isSome
  mem_keys : ∀ key, (t.get? key).isSome → key ∈ keys

theorem mem_madePairs {t u : Table Binding} {keys : List String} {key : String} {b c : Binding}
    (hk : key ∈ keys) (ht : t.get? key = some b) (hu : u.get? key = some c) :
    .value b.value c.value ∈ madePairs t u keys :=
  List.mem_filterMap.2 ⟨key, hk, by rw [ht, hu]⟩

theorem exists_of_mem_madePairs {t u : Table Binding} {keys : List String} {x : Handle}
    (hx : x ∈ madePairs t u keys) :
    ∃ key ∈ keys, ∃ b c, t.get? key = some b ∧ u.get? key = some c ∧
      x = .value b.value c.value := by
  obtain ⟨key, hk, hx⟩ := List.mem_filterMap.1 hx
  split at hx
  · next b c ht hu => exact ⟨key, hk, b, c, ht, hu, (Option.some.inj hx).symm⟩
  · cases hx

/-- A property is made on both sides or on none. -/
theorem Making.get?_cases {keys : List String} {t u : Table Binding} (h : sim.Making keys t u)
    (key : String) :
    (t.get? key = none ∧ u.get? key = none) ∨
      ∃ b c, t.get? key = some b ∧ u.get? key = some c := by
  have hk := h.isSome_eq key
  cases ht : t.get? key with
  | none => exact .inl ⟨rfl, by simpa [ht] using hk.symm⟩
  | some b => exact .inr ⟨b, by simpa [ht, Option.isSome_iff_exists] using hk.symm⟩

/-- The values made are held in the order in which they are listed. -/
theorem Making.left_made {keys : List String} {t u : Table Binding} (h : sim.Making keys t u)
    (listed : List String) (Γ : Context) :
    (sim.leftHeld Γ).values (listed.filterMap fun key => (t.get? key).map BindingOf.value) =
      sim.leftHeld ((madePairs t u listed).reverse ++ Γ) := by
  induction listed generalizing Γ with
  | nil => rfl
  | cons key listed ih =>
    rw [madePairs, List.filterMap_cons, List.filterMap_cons]
    obtain ⟨ht, hu⟩ | ⟨b, c, ht, hu⟩ := h.get?_cases key
    · simp only [ht, hu]
      exact ih Γ
    · simp only [ht, hu, List.reverse_cons, List.append_assoc, List.singleton_append]
      exact ih (.value b.value c.value :: Γ)

theorem Making.right_made {keys : List String} {t u : Table Binding} (h : sim.Making keys t u)
    (listed : List String) (Γ : Context) :
    (sim.rightHeld Γ).values (listed.filterMap fun key => (u.get? key).map BindingOf.value) =
      sim.rightHeld ((madePairs t u listed).reverse ++ Γ) := by
  induction listed generalizing Γ with
  | nil => rfl
  | cons key listed ih =>
    rw [madePairs, List.filterMap_cons, List.filterMap_cons]
    obtain ⟨ht, hu⟩ | ⟨b, c, ht, hu⟩ := h.get?_cases key
    · simp only [ht, hu]
      exact ih Γ
    · simp only [ht, hu, List.reverse_cons, List.append_assoc, List.singleton_append]
      exact ih (.value b.value c.value :: Γ)

theorem making_empty :
    sim.Making [] (.withCapacity S₁.config.objectCapacity)
      (.withCapacity S₂.config.objectCapacity) where
  tables := sim.tables_empty
  wellFormed_left := Table.wellFormed_withCapacity _
  wellFormed_right := Table.wellFormed_withCapacity _
  isSome_eq key := by rw [Table.get?_withCapacity, Table.get?_withCapacity]
  mem_keys key h := by rw [Table.get?_withCapacity] at h; cases h

theorem Making.set {keys : List String} {t u t' u' : Table Binding}
    {o o' : Table.SetOutcome} {b c : Binding} {key : String} (h : sim.Making keys t u)
    (ht : t.set? key b = some (o, t')) (hu : u.set? key c = some (o', u'))
    (hr : sim.Tables t' u') : sim.Making (keys.insert key) t' u' where
  tables := hr
  wellFormed_left := h.wellFormed_left.set? ht
  wellFormed_right := h.wellFormed_right.set? hu
  isSome_eq k := by
    rw [h.wellFormed_left.get?_set? ht, h.wellFormed_right.get?_set? hu]
    split
    · rfl
    · exact h.isSome_eq k
  mem_keys k hk := by
    rw [h.wellFormed_left.get?_set? ht] at hk
    rw [List.mem_insert_iff]
    split at hk
    · next heq => exact .inl heq.symm
    · exact .inr (h.mem_keys k hk)

/-- The values made after a property was set: those made before and its value. -/
theorem madePairs_set_subset {keys : List String} {t u t' u' : Table Binding}
    {o o' : Table.SetOutcome} {b c : Binding} {key : String} (h : sim.Making keys t u)
    (ht : t.set? key b = some (o, t')) (hu : u.set? key c = some (o', u')) :
    madePairs t' u' (keys.insert key) ⊆ .value b.value c.value :: madePairs t u keys := by
  intro x hx
  obtain ⟨k, hk, b', c', htk, huk, rfl⟩ := exists_of_mem_madePairs hx
  rw [h.wellFormed_left.get?_set? ht] at htk
  rw [h.wellFormed_right.get?_set? hu] at huk
  split at htk
  · next heq =>
    rw [if_pos heq] at huk
    cases htk; cases huk
    exact List.mem_cons_self
  · next hne =>
    rw [if_neg hne] at huk
    exact List.mem_cons_of_mem _ (mem_madePairs (h.mem_keys k (by rw [htk]; rfl)) htk huk)

theorem answers_addProperty {Γ' : Context} {keys : List String} {t u : Table Binding}
    {key : String} {isConst : Bool} {v w : Value}
    {next₁ : Table Binding → Machine ω₁ → Deferred (Answer ω₁)}
    {next₂ : Table Binding → Machine ω₂ → Deferred (Answer ω₂)}
    (hnext : ∀ {t' u'}, sim.Making (keys.insert key) t' u' →
      sim.Agree (madePairs t' u' (keys.insert key) ++ Γ) m₁ m₂ →
        sim.Answers Γ (next₁ t' m₁).value (next₂ u' m₂).value)
    (hm : sim.Making keys t u) (h : sim.Agree Γ' m₁ m₂)
    (hΓ : .value v w :: (madePairs t u keys ++ Γ) ⊆ Γ') :
    sim.Answers Γ (Setting.addProperty t ⟨key, isConst, v⟩ next₁ m₁).value
      (Setting.addProperty u ⟨key, isConst, w⟩ next₂ m₂).value := by
  have hts := sim.tables_set h.rel (hΓ List.mem_cons_self) hm.tables hm.wellFormed_left
    hm.wellFormed_right key isConst
  rw [Setting.addProperty, Setting.addProperty]
  obtain ⟨o, o', t', u', ht, hu, hr⟩ | ⟨ht, hx | ⟨hu, hc⟩⟩ := hts
  · simp only [ht, hu]
    refine hnext (hm.set ht hu hr) (h.weaken fun x hx => hΓ ?_)
    have hs := madePairs_set_subset hm ht hu
    rw [← List.cons_append]
    exact List.append_subset.2 ⟨List.Subset.trans hs (List.subset_append_left _ Γ),
      List.subset_append_right _ Γ⟩ hx
  · simp only [ht]
    exact answers_excused hx _
  · simp only [ht, hu, hc]
    refine answers_fail (h.weaken fun x hx => hΓ ?_) _
    exact List.mem_cons_of_mem _ (List.mem_append_right _ hx)

theorem answers_objectRuns (hev : sim.Follows ev₁ ev₂) {properties properties' : List Property}
    (hn : List.Forall₂ (Property.Matches sim.like.Nodes) properties properties')
    {keys : List String} {t u : Table Binding} (hm : sim.Making keys t u)
    (h : sim.Agree (madePairs t u keys ++ Γ) m₁ m₂) (hs : sim.Holds Γ s)
    (ho : ∀ n ∈ properties.filterMap Property.value, sim.Suits n.kind s) :
    sim.Answers Γ (Setting.objectRuns ev₁ (sim.leftHeld Γ) s keys t properties m₁).value
      (Setting.objectRuns ev₂ (sim.rightHeld Γ) (sim.twin s) keys u properties' m₂).value := by
  induction hn generalizing keys t u m₁ m₂ with
  | nil =>
    have hr := sim.object h.rel hm.tables hm.wellFormed_left hm.wellFormed_right fun key => by
      obtain ⟨ht, hu⟩ | ⟨b, c, ht, hu⟩ := hm.get?_cases key
      · rw [ht, hu]
        exact .none
      · have hk := hm.mem_keys key (by rw [ht]; rfl)
        rw [ht, hu]
        exact .some (List.mem_append_left _ (mem_madePairs hk ht hu))
    exact answers_give ((h.withStore hr).weaken
      (List.cons_subset_cons _ (List.subset_append_right _ Γ)))
  | cons hn _ ih =>
    obtain @⟨key, _, _, hn⟩ := hn
    cases hn with
    | none =>
      have hr := sim.resolve h.rel (hs.mono (List.subset_append_right _ Γ)) key
      rw [Setting.objectRuns, Setting.objectRuns, Store.shorthand, Store.shorthand]
      generalize m₁.store.resolve s key = r₁ at hr ⊢
      generalize m₂.store.resolve (sim.twin s) key = r₂ at hr ⊢
      cases hr with
      | none => exact answers_fail (h.weaken (List.subset_append_right _ Γ)) _
      | @some b c hb =>
        dsimp only
        rw [hb.1]
        have hc := sim.copy hb.2 List.mem_cons_self
        refine answers_addProperty (fun hm ha => ih hm ha ho) hm (h.withStore hc) ?_
        exact List.cons_subset_cons _ (List.subset_cons_self _ _)
    | some hn =>
      rw [Setting.objectRuns, Setting.objectRuns, hm.left_made keys Γ, hm.right_made keys Γ]
      have hsub : madePairs t u keys ++ Γ ⊆ (madePairs t u keys).reverse ++ Γ :=
        List.append_subset.2 ⟨fun x hx => List.mem_append_left _ (List.mem_reverse.2 hx),
          List.subset_append_right _ Γ⟩
      have hsub' : (madePairs t u keys).reverse ++ Γ ⊆ madePairs t u keys ++ Γ :=
        List.append_subset.2 ⟨fun x hx => List.mem_append_left _ (List.mem_reverse.1 hx),
          List.subset_append_right _ Γ⟩
      refine answers_thenValue_of_subset (List.subset_append_right _ Γ)
        (hev hn (h.weaken hsub') (hs.mono (List.subset_append_right _ Γ)) (ho _ List.mem_cons_self))
        fun {v w m₁ m₂} ha => ?_
      have hc := sim.copy ha.rel List.mem_cons_self
      have hrest := fun n hn => ho n (List.mem_cons_of_mem _ hn)
      refine answers_addProperty (fun hm ha => ih hm ha hrest) hm (ha.withStore hc) ?_
      exact List.cons_subset_cons _ (List.Subset.trans hsub (List.subset_cons_self _ _))

/-! ## Loops -/

/-- The end of a loop's body: the loop ends, goes on, or lets the completion pass. -/
theorem answers_loopBody (isBlock : Bool) {d₁ : Deferred (Answer ω₁)} {d₂ : Deferred (Answer ω₂)}
    {next₁ : Machine ω₁ → Deferred (Answer ω₁)} {next₂ : Machine ω₂ → Deferred (Answer ω₂)}
    (h : sim.Answers Γ d₁.value d₂.value)
    (hnext : ∀ {m₁ m₂}, sim.Agree Γ m₁ m₂ → sim.Answers Γ (next₁ m₁).value (next₂ m₂).value) :
    sim.Answers Γ
      (Deferred.seq d₁ fun (c, m) =>
        match c.bodyStatus isBlock with
        | .ok .broke => m.give .null
        | .ok _ => next₁ m
        | .error c => .done (c, m)).value
      (Deferred.seq d₂ fun (c, m) =>
        match c.bodyStatus isBlock with
        | .ok .broke => m.give .null
        | .ok _ => next₂ m
        | .error c => .done (c, m)).value := by
  refine answers_seq h (fun e m hx => ?_) fun {c d Δ m₁ m₂} hp ha => ?_
  · cases isBlock <;> exact ⟨e, rfl, hx⟩
  · dsimp only
    obtain ⟨status, hc, hd⟩ | ⟨hc, hd⟩ := hp.bodyStatus isBlock
    · rw [hc, hd]
      have ha := ha.weaken (List.subset_append_right Δ Γ)
      cases status with
      | broke => exact answers_give_null ha
      | finished => exact hnext ha
      | continued => exact hnext ha
    · rw [hc, hd]
      exact answers_pair hp ha

section Loops

variable {cond cond' update update' init init' : Option Node} {body body' : Node}

/-- A body is a block on both sides or on none. -/
theorem isBlock_eq (hb : sim.like.Nodes body body') : body.isBlock = body'.isBlock :=
  NodeKind.Matches.isBlock_eq (sim.like.kind hb)

theorem answers_whileRuns (hev : sim.Follows ev₁ ev₂) {cond cond' : Node}
    (hc : sim.like.Nodes cond cond') (hb : sim.like.Nodes body body') (fuel : Nat)
    (h : sim.Agree Γ m₁ m₂) (hs : sim.Holds Γ s) (ho : sim.Suits (.whileLoop cond body) s) :
    sim.Answers Γ (Setting.whileRuns ev₁ (sim.leftHeld Γ) cond body s fuel m₁).value
      (Setting.whileRuns ev₂ (sim.rightHeld Γ) cond' body' (sim.twin s) fuel m₂).value := by
  have hcond : sim.Suits cond.kind s := ho.part List.mem_cons_self
  have hbody : sim.Suits body.kind s := ho.part (List.mem_cons_of_mem _ List.mem_cons_self)
  induction fuel generalizing m₁ m₂ with
  | zero => exact answers_pair .exhausted h
  | succ fuel ih =>
    refine answers_thenValue (hev hc h hs hcond) fun ha => ?_
    rw [← (ha.alike List.mem_cons_self).isTruthy_eq, ← isBlock_eq hb]
    split
    · exact answers_loopBody body.isBlock (hev hb ha.tail hs hbody) fun ha => ih ha
    · exact answers_give_null ha.tail

theorem answers_forRuns (hev : sim.Follows ev₁ ev₂) (hc : Option.Rel sim.like.Nodes cond cond')
    (hu : Option.Rel sim.like.Nodes update update') (hb : sim.like.Nodes body body') (fuel : Nat)
    (h : sim.Agree Γ m₁ m₂) (hs : sim.Holds Γ s) (ho : sim.Open s) :
    sim.Answers Γ (Setting.forRuns ev₁ (sim.leftHeld Γ) cond update body s fuel m₁).value
      (Setting.forRuns ev₂ (sim.rightHeld Γ) cond' update' body' (sim.twin s) fuel m₂).value := by
  induction fuel generalizing m₁ m₂ with
  | zero => exact answers_pair .exhausted h
  | succ fuel ih =>
    refine answers_thenValue (answers_evaluateOr hev (.bool true) hc h hs fun _ _ => .inl ho)
      fun ha => ?_
    rw [← (ha.alike List.mem_cons_self).isTruthy_eq, ← isBlock_eq hb]
    split
    · have hnext : ∀ {m₁ m₂}, sim.Agree Γ m₁ m₂ → sim.Answers Γ
          ((Setting.evaluateOr ev₁ (sim.leftHeld Γ) .null update s m₁).thenValue fun _ m =>
            Setting.forRuns ev₁ (sim.leftHeld Γ) cond update body s fuel m).value
          ((Setting.evaluateOr ev₂ (sim.rightHeld Γ) .null update' (sim.twin s) m₂).thenValue
            fun _ m =>
              Setting.forRuns ev₂ (sim.rightHeld Γ) cond' update' body' (sim.twin s) fuel
                m).value :=
        fun ha => answers_thenValue (answers_evaluateOr hev .null hu ha hs fun _ _ => .inl ho)
          fun ha => ih ha.tail
      exact answers_loopBody body.isBlock (hev hb ha.tail hs (.inl ho)) hnext
    · exact answers_give_null ha.tail

theorem answers_forLoop (hev : sim.Follows ev₁ ev₂) (fuel : Nat)
    (hi : Option.Rel sim.like.Nodes init init') (hc : Option.Rel sim.like.Nodes cond cond')
    (hu : Option.Rel sim.like.Nodes update update') (hb : sim.like.Nodes body body')
    (h : sim.Agree Γ m₁ m₂) (hs : sim.Holds Γ s) :
    sim.Answers Γ (S₁.forLoop ev₁ fuel (sim.leftHeld Γ) init cond update body s m₁).value
      (S₂.forLoop ev₂ fuel (sim.rightHeld Γ) init' cond' update' body' (sim.twin s) m₂).value := by
  refine answers_within h hs fun {t m₁ m₂} ho ha => ?_
  have ht : sim.Holds (.scope t :: Γ) t := .inr (.inl List.mem_cons_self)
  exact answers_thenValue (answers_evaluateOr hev .null hi ha ht fun _ _ => .inl ho)
    fun ha => answers_forRuns hev hc hu hb fuel ha.tail ht ho

theorem answers_countedRun (hev : sim.Follows ev₁ ev₂) (counter : String)
    (hb : sim.like.Nodes body body') (index : Nat) (h : sim.Agree Γ m₁ m₂) (hs : sim.Holds Γ s) :
    sim.Answers Γ (S₁.countedRun ev₁ (sim.leftHeld Γ) counter body s index m₁).value
      (S₂.countedRun ev₂ (sim.rightHeld Γ) counter body' (sim.twin s) index m₂).value := by
  refine answers_within h hs fun {t m₁ m₂} ho ha => ?_
  have ht : sim.Holds (.scope t :: Γ) t := .inr (.inl List.mem_cons_self)
  have hi := ha.plain (.int index)
  have hd := sim.declare hi.rel List.mem_cons_self (ht.cons _) ho counter false
  generalize m₁.store.declare t counter (.int index) false = r₁ at hd ⊢
  generalize m₂.store.declare (sim.twin t) counter (.int index) false = r₂ at hd ⊢
  cases hd with
  | error cause => exact answers_fail ha cause
  | excused hx => exact answers_excused hx _
  | ok hr =>
    refine answers_map (hev hb (ha.withStore hr).tail ht (.inl ho)) (fun e m hx => ⟨e, rfl, hx⟩)
      fun hp ha => ?_
    cases hp with
    | value v w => exact answers_give_null ha.tail
    | returned v w => exact answers_pair (.returned v w) ha
    | broke => exact answers_pair .broke ha
    | continued => exact answers_pair .continued ha
    | failed he => exact answers_pair (.failed he) ha
    | panicked hp => exact answers_pair (.panicked hp) ha
    | exhausted => exact answers_pair .exhausted ha

theorem answers_countedRuns (hev : sim.Follows ev₁ ev₂) (bound : LoopBound) (counter : String)
    (hb : sim.like.Nodes body body') (fuel index : Nat) (h : sim.Agree Γ m₁ m₂)
    (hs : sim.Holds Γ s) :
    sim.Answers Γ
      (S₁.countedRuns ev₁ (sim.leftHeld Γ) bound counter body s fuel index m₁).value
      (S₂.countedRuns ev₂ (sim.rightHeld Γ) bound counter body' (sim.twin s) fuel index
        m₂).value := by
  induction fuel generalizing index m₁ m₂ with
  | zero => exact answers_pair .exhausted h
  | succ fuel ih =>
    rw [Setting.countedRuns, Setting.countedRuns, ← isBlock_eq hb]
    split
    · exact answers_loopBody body.isBlock (answers_countedRun hev counter hb index h hs)
        fun ha => ih (index + 1) ha
    · exact answers_give_null h

theorem answers_countedLoop (hev : sim.Follows ev₁ ev₂) (fuel : Nat) {bound bound' : Node}
    (hn : sim.like.Nodes bound bound') (counter : Option String) (hb : sim.like.Nodes body body')
    (h : sim.Agree Γ m₁ m₂) (hs : sim.Holds Γ s) (ho : sim.Suits bound.kind s) :
    sim.Answers Γ (S₁.countedLoop ev₁ fuel (sim.leftHeld Γ) bound counter body s m₁).value
      (S₂.countedLoop ev₂ fuel (sim.rightHeld Γ) bound' counter body' (sim.twin s) m₂).value := by
  refine answers_thenValue (hev hn h hs ho) fun {v w m₁ m₂} ha => ?_
  rw [← (ha.alike List.mem_cons_self).loopBound_eq, ← sim.loopVariable_eq]
  cases LoopBound.ofValue v with
  | error cause => exact answers_fail ha.tail cause
  | ok bound => exact answers_countedRuns hev bound _ hb fuel 0 ha.tail hs

end Loops

/-! ## Nodes -/

/-- Every kind of node, over evaluators for its parts. -/
theorem answers_step (hev : sim.Follows ev₁ ev₂) (fuel : Nat) {n n' : Node}
    (hn : sim.like.Nodes n n') (h : sim.Agree Γ m₁ m₂) (hs : sim.Holds Γ s)
    (ho : sim.Suits n.kind s) :
    sim.Answers Γ (S₁.step fuel ev₁ (sim.leftHeld Γ) n.kind s m₁).value
      (S₂.step fuel ev₂ (sim.rightHeld Γ) n'.kind (sim.twin s) m₂).value := by
  have hk := sim.like.kind hn
  have hliteral := @Likeness.literal sim.like n n'
  generalize n.kind = kind at hk hliteral ho
  generalize n'.kind = kind' at hk
  cases hk with
  | program hb => exact answers_programRuns hev hb (h.plain .null) hs fun _ hp => ho.part hp
  | block hb => exact answers_block hev hb h hs
  | declaration hi =>
    have ho : sim.Open s := ho.isOpen rfl
    exact answers_thenValue (answers_evaluateOr hev .null hi h hs fun _ _ => .inl ho)
      fun ha => answers_declare _ _ ha hs ho
  | @function name code code' hc =>
    have ho : sim.Open s := ho.isOpen rfl
    have hr := sim.function h.rel hc hs ho name
    exact answers_declare name true ⟨h.line, h.callDepth, hr⟩ hs ho
  | branch hc ht he => exact answers_branch hev hc ht he h hs ho
  | whileLoop hc hb => exact answers_whileRuns hev hc hb fuel h hs ho
  | forLoop hi hc hu hb => exact answers_forLoop hev fuel hi hc hu hb h hs
  | countedLoop hb hn =>
    exact answers_countedLoop hev fuel hb _ hn h hs (ho.part List.mem_cons_self)
  | breakLoop => exact answers_pair .broke h
  | continueLoop => exact answers_pair .continued h
  | returnValue hv =>
    refine answers_thenValue (answers_evaluateOr hev .null hv h hs fun p hp => ho.part ?_)
      fun ha => answers_pair (.returned _ _) ha
    exact Option.mem_toList.2 hp
  | binary hl hr => exact answers_binary hev _ hl hr h hs ho
  | unary hx => exact answers_unary hev _ hx h hs ho
  | assignment ht hv =>
    exact answers_assignment hev (sim.like.kind ht) hv h hs (ho.part List.mem_cons_self)
  | call hc ha => exact answers_call hev hev hc ha h hs ho
  | member hx hk => exact answers_member hev hx hk h hs ho
  | object hp => exact answers_objectRuns hev hp making_empty h hs fun _ hp => ho.part hp
  | property hp => exact answers_fail h _
  | identifier name => exact answers_finish h (corresponds_lookup h hs name)
  | number raw isFloat => exact answers_give (h.plain (.number (hliteral hn rfl)))
  | string text => exact answers_give (h.plain (.string text))

/-- **Evaluations with equal fuel keep the relation.** -/
theorem follows_exec (sim : Simulation S₁ S₂) (fuel : Nat) :
    sim.Follows (S₁.exec fuel) (S₂.exec fuel) := by
  induction fuel with
  | zero =>
    intro Γ n n' s m₁ m₂ hn h hs ho
    exact answers_pair .exhausted h
  | succ fuel ih =>
    intro Γ n n' s m₁ m₂ hn h hs ho
    refine answers_map (answers_step ih fuel hn ⟨sim.like.line hn, h.callDepth, h.rel⟩ hs ho)
      (fun e m hx => ⟨e.atLine n.line, rfl, hx⟩) fun hp ha => ?_
    exact .inr ⟨_, hp.atLine (sim.like.line hn), ha⟩

end Simulation

end Treewalk
