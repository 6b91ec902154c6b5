import Treewalk.Proofs.Release.Keeping

/-!
# Programs in pieces

Statements run as one program do the same as two programs run one after the other. At the seam the
value of the statement before is held in the one program only, and a scope that it leads to is
discarded later. No native that uses strong handles can tell.

* `Setting.RunsThrough` and `Setting.StopsWithin` are the ways that statements can go.
* `RunsThrough.value_programRuns` and `StopsWithin.value_programRuns`: what statements after them
  do.

Main statement: `runs_in_pieces`.
-/

namespace Treewalk

variable {ω : Type}

theorem Held.value_of_scopes_eq_nil (held : Held) {v : Value} (hv : v.scopes = []) :
    held.value v = held := by
  cases v with
  | function f => cases hv
  | object id properties => rw [value, hv]; rfl
  | _ => rfl

/-! ## Statements one after the other -/

namespace Completion

/-- The value that a program goes on with, if it goes on: null after a signal that no loop took. -/
def next? : Completion → Option Value
  | value v => some v
  | broke | continued => some .null
  | returned _ | failed _ | panicked | exhausted => none

/-- Whether a program ends with this, which is an error, a panic or a value returned at the top
level. -/
def endsProgram : Completion → Bool
  | returned _ | failed _ | panicked => true
  | value _ | broke | continued | exhausted => false

theorem next?_of_endsProgram {c : Completion} (h : c.endsProgram = true) : c.next? = none := by
  cases c <;> first | rfl | cases h

theorem next?_or_endsProgram (c : Completion) :
    (∃ v, c.next? = some v) ∨ c.endsProgram = true ∨ c = .exhausted := by
  cases c <;> simp [next?, endsProgram]

end Completion

namespace Setting

section

variable {ev : Evaluator ω} {held : Held} {env : ScopeId} {last v : Value} {n : Node}
variable {xs ys : List Node} {m m' : Machine ω} {c : Completion}

/-- Statements of a program after each of which it goes on, with the last value and the machine
after them. -/
inductive RunsThrough (ev : Evaluator ω) (held : Held) (env : ScopeId) :
    Value → List Node → Machine ω → Value → Machine ω → Prop
  | done (last : Value) (m : Machine ω) : RunsThrough ev held env last [] m last m
  | next {last v w : Value} {n : Node} {rest : List Node} {m m' m'' : Machine ω} {c : Completion}
    (hn : (ev (held.value last) n env m).value = (c, m')) (hc : c.next? = some v)
    (hr : RunsThrough ev held env v rest m' w m'') :
    RunsThrough ev held env last (n :: rest) m w m''

/-- Statements of a program one of which ends it, with the answer of that one. -/
inductive StopsWithin (ev : Evaluator ω) (held : Held) (env : ScopeId) :
    Value → List Node → Machine ω → Answer ω → Prop
  | here {last : Value} {n : Node} {rest : List Node} {m m' : Machine ω} {c : Completion}
    (hn : (ev (held.value last) n env m).value = (c, m')) (hc : c.endsProgram = true) :
    StopsWithin ev held env last (n :: rest) m (c, m')
  | later {last v : Value} {n : Node} {rest : List Node} {m m' : Machine ω} {c : Completion}
    {a : Answer ω} (hn : (ev (held.value last) n env m).value = (c, m')) (hc : c.next? = some v)
    (hr : StopsWithin ev held env v rest m' a) : StopsWithin ev held env last (n :: rest) m a

theorem value_programRuns_of_next (hn : (ev (held.value last) n env m).value = (c, m'))
    (hc : c.next? = some v) :
    (programRuns ev held env last (n :: xs) m).value =
      (programRuns ev held env v xs m').value := by
  rw [programRuns, Deferred.value_seq, hn]
  cases c <;> cases hc <;> rfl

theorem value_programRuns_of_next_eq_none
    (hn : (ev (held.value last) n env m).value = (c, m')) (hc : c.next? = none) :
    (programRuns ev held env last (n :: xs) m).value = (c, m') := by
  rw [programRuns, Deferred.value_seq, hn]
  cases c <;> first | rfl | cases hc

/-- Statements after those that run through start from what these leave. -/
theorem RunsThrough.value_programRuns (h : RunsThrough ev held env last xs m v m')
    (ys : List Node) :
    (programRuns ev held env last (xs ++ ys) m).value =
      (programRuns ev held env v ys m').value := by
  induction h with
  | done => rfl
  | next hn hc _ ih => exact (value_programRuns_of_next hn hc).trans ih

theorem RunsThrough.value_eq (h : RunsThrough ev held env last xs m v m') :
    (programRuns ev held env last xs m).value = (.value v, m') := by
  rw [← List.append_nil xs, h.value_programRuns []]
  rfl

/-- Statements after those that stop are not come to. -/
theorem StopsWithin.value_programRuns {a : Answer ω} (h : StopsWithin ev held env last xs m a)
    (ys : List Node) : (programRuns ev held env last (xs ++ ys) m).value = a := by
  induction h with
  | here hn hc => exact value_programRuns_of_next_eq_none hn (Completion.next?_of_endsProgram hc)
  | later hn hc _ ih => exact (value_programRuns_of_next hn hc).trans ih

theorem StopsWithin.value_eq {a : Answer ω} (h : StopsWithin ev held env last xs m a) :
    (programRuns ev held env last xs m).value = a := by
  rw [← List.append_nil xs, h.value_programRuns []]

theorem StopsWithin.endsProgram {a : Answer ω} (h : StopsWithin ev held env last xs m a) :
    a.1.endsProgram = true := by
  induction h with
  | here _ hc => exact hc
  | later _ _ _ ih => exact ih

/-- Statements run through, or stop, or are given up, and then those after them are not come to. -/
theorem runsThrough_or_stopsWithin (ev : Evaluator ω) (held : Held) (env : ScopeId) (last : Value)
    (xs : List Node) (m : Machine ω) :
    (∃ v m', RunsThrough ev held env last xs m v m') ∨
      (∃ a, StopsWithin ev held env last xs m a) ∨
        ∀ ys, (programRuns ev held env last (xs ++ ys) m).value.1 = .exhausted := by
  induction xs generalizing last m with
  | nil => exact .inl ⟨last, m, .done last m⟩
  | cons n rest ih =>
    obtain ⟨c, m', hn⟩ : ∃ c m', (ev (held.value last) n env m).value = (c, m') := ⟨_, _, rfl⟩
    obtain ⟨v, hc⟩ | hc | rfl := c.next?_or_endsProgram
    · obtain ⟨w, m'', hr⟩ | ⟨a, hr⟩ | hr := ih v m'
      · exact .inl ⟨w, m'', .next hn hc hr⟩
      · exact .inr (.inl ⟨a, .later hn hc hr⟩)
      · refine .inr (.inr fun ys => ?_)
        rw [List.cons_append, value_programRuns_of_next hn hc]
        exact hr ys
    · exact .inr (.inl ⟨_, .here hn hc⟩)
    · refine .inr (.inr fun ys => ?_)
      rw [List.cons_append, value_programRuns_of_next_eq_none hn rfl]

/-- A program with a value has run through. -/
theorem runsThrough_of_next?_eq_some
    (h : (programRuns ev held env last xs m).value.1.next? = some v) :
    ∃ m', RunsThrough ev held env last xs m v m' := by
  obtain ⟨w, m', hr⟩ | ⟨a, hs⟩ | hx := runsThrough_or_stopsWithin ev held env last xs m
  · rw [hr.value_eq] at h
    obtain rfl : w = v := Option.some.inj h
    exact ⟨m', hr⟩
  · rw [hs.value_eq, Completion.next?_of_endsProgram hs.endsProgram] at h
    cases h
  · rw [← List.append_nil xs, hx []] at h
    cases h

end

/-! ## Programs of an interpreter -/

variable {S : Setting ω} {held held' : Held} {env : ScopeId} {m : Machine ω}

/-- A program that is not empty does not depend on the line before it. -/
theorem programRuns_line (fuel : Nat) (last : Value) {body : List Node} (hne : body ≠ [])
    (line : UInt32) :
    programRuns (S.exec (fuel + 1)) held env last body { m with line := line } =
      programRuns (S.exec (fuel + 1)) held env last body m := by
  cases body with
  | nil => exact (hne rfl).elim
  | cons n rest => rfl

/-- The error of a statement has a line already when it ends the program. -/
theorem atLine_programRuns (fuel : Nat) (last : Value) (body : List Node) (line : UInt32) :
    (programRuns (S.exec (fuel + 1)) held env last body m).value.1.atLine line =
      (programRuns (S.exec (fuel + 1)) held env last body m).value.1 := by
  induction body generalizing last m with
  | nil => rfl
  | cons n rest ih =>
    obtain ⟨c, m', hn⟩ : ∃ c m', (S.exec (fuel + 1) (held.value last) n env m).value = (c, m') :=
      ⟨_, _, rfl⟩
    obtain hc | ⟨v, hc⟩ : c.next? = none ∨ ∃ v, c.next? = some v := Option.eq_none_or_eq_some _
    · rw [value_programRuns_of_next_eq_none hn hc]
      obtain ⟨rfl, -⟩ := Prod.mk.inj ((value_exec_succ ..).symm.trans hn)
      exact Completion.atLine_atLine _ _ _
    · rw [value_programRuns_of_next hn hc]
      exact ih v

theorem value_exec_program (fuel : Nat) (body : List Node) (line : UInt32) :
    (S.exec (fuel + 2) held ⟨.program body, line⟩ env m).value =
      (programRuns (S.exec (fuel + 1)) held env .null body { m with line := line }).value := by
  rw [value_exec_succ]
  exact Prod.ext (atLine_programRuns fuel .null body line) rfl

/-- The value before the first statement matters by the handles in it only. -/
theorem programRuns_congr_last {ev : Evaluator ω} {last last' : Value} {body : List Node}
    (hne : body ≠ []) (h : held.value last = held.value last') :
    programRuns ev held env last body m = programRuns ev held env last' body m := by
  cases body with
  | nil => exact (hne rfl).elim
  | cons n rest => rw [programRuns, programRuns, h]

/-- Where no scope is discarded for want of handles, a program that is not empty depends on neither
the handles around it nor the value before its first statement. -/
theorem programRuns_held (hS : S.IgnoresHandles) (fuel : Nat) {last last' : Value}
    {body : List Node} (h : body = [] → last = last') :
    (programRuns (S.exec fuel) held env last body m).value =
      (programRuns (S.exec fuel) held' env last' body m).value := by
  induction body generalizing last last' m with
  | nil => rw [h rfl]; rfl
  | cons n rest ih =>
    rw [programRuns, programRuns, Deferred.value_seq, Deferred.value_seq,
      exec_held hS fuel (held.value last) (held'.value last')]
    generalize (S.exec fuel (held'.value last') n env m).value = a
    obtain ⟨c, m'⟩ := a
    cases c with
    | value v => exact ih fun _ => rfl
    | broke => exact ih fun _ => rfl
    | continued => exact ih fun _ => rfl
    | returned v => rfl
    | failed e => rfl
    | panicked => rfl
    | exhausted => rfl

end Setting

namespace Interpreter

variable {I J : Interpreter ω} {K K' : Holding} {fuel : Nat} {xs ys : List Node} {v : Value}

/-- Runs statements as a program, with fuel for the program itself and for each statement. -/
def runProgram (I : Interpreter ω) (fuel : Nat) (K : Holding) (body : List Node) (line : UInt32) :
    Result ω :=
  I.run (fuel + 2) (K.held I.globals) ⟨.program body, line⟩

/-- Whether statements run as a program run through to the last one, which leaves a value. -/
def RunsThrough (I : Interpreter ω) (fuel : Nat) (K : Holding) (xs : List Node) (v : Value) :
    Prop :=
  ∃ m, Setting.RunsThrough (I.setting.exec (fuel + 1)) (K.held I.globals) I.globals .null xs
    I.machine v m

/-- Whether one of some statements run as a program ends it. -/
def StopsWithin (I : Interpreter ω) (fuel : Nat) (K : Holding) (xs : List Node) : Prop :=
  ∃ a, Setting.StopsWithin (I.setting.exec (fuel + 1)) (K.held I.globals) I.globals .null xs
    I.machine a

/-- What a host gets of an answer. -/
def answered (I : Interpreter ω) (a : Answer ω) : Result ω :=
  (a.1.result? a.2.line, { I with machine := a.2 })

theorem runProgram_eq (I : Interpreter ω) (fuel : Nat) (K : Holding) (body : List Node)
    (line : UInt32) :
    I.runProgram fuel K body line = I.answered (Setting.programRuns (I.setting.exec (fuel + 1))
      (K.held I.globals) I.globals .null body { I.machine with line := line }).value := by
  rw [runProgram, run, eval, perform, Deferred.force_eq_value, Setting.value_exec_program]
  rfl

/-- A program of more statements than those that stop gives what these give. -/
theorem StopsWithin.runProgram_append (h : I.StopsWithin fuel K xs) (ys : List Node)
    (line line₁ : UInt32) :
    I.runProgram fuel K (xs ++ ys) line = I.runProgram fuel K xs line₁ := by
  obtain ⟨a, h⟩ := h
  have hxs : xs ≠ [] := by
    rintro rfl
    cases h
  rw [runProgram_eq, runProgram_eq, Setting.programRuns_line _ _ hxs, h.value_eq,
    Setting.programRuns_line _ _ (List.append_ne_nil_of_left_ne_nil hxs ys), h.value_programRuns]

/-- Without fuel for the first statements those after them are not come to. -/
theorem runProgram_append_eq_none
    (h : ∀ ys, (Setting.programRuns (I.setting.exec (fuel + 1)) (K.held I.globals) I.globals .null
      (xs ++ ys) I.machine).value.1 = .exhausted) (ys : List Node) (line : UInt32) :
    (I.runProgram fuel K (xs ++ ys) line).1 = none := by
  have hxs : xs ≠ [] := by
    rintro rfl
    cases h []
  rw [runProgram_eq, Setting.programRuns_line _ _ (List.append_ne_nil_of_left_ne_nil hxs ys),
    answered, h ys]
  rfl

/-- Statements that run through leave the machine after them, up to its line if there are none. -/
theorem exists_runProgram_eq {m : Machine ω}
    (h : Setting.RunsThrough (I.setting.exec (fuel + 1)) (K.held I.globals) I.globals .null xs
      I.machine v m) (line : UInt32) :
    ∃ line', I.runProgram fuel K xs line = I.answered (.value v, { m with line := line' }) := by
  cases xs with
  | nil =>
    cases h
    exact ⟨line, I.runProgram_eq fuel K [] line⟩
  | cons n rest =>
    refine ⟨m.line, ?_⟩
    rw [runProgram_eq, Setting.programRuns_line _ _ (List.cons_ne_nil n rest), h.value_eq]

/-- The two ways to run more statements than those that run through, in terms of one machine. -/
theorem runProgram_append {m : Machine ω}
    (h : Setting.RunsThrough (I.setting.exec (fuel + 1)) (K.held I.globals) I.globals .null xs
      I.machine v m) (hys : ys ≠ []) (line line₁ line₂ : UInt32) (K' : Holding) :
    let first := I.runProgram fuel K xs line₁
    I.runProgram fuel K (xs ++ ys) line =
        I.answered (Setting.programRuns (I.setting.exec (fuel + 1)) (K.held I.globals) I.globals v
          ys m).value ∧
      first.1 = some (.ok v) ∧
        first.2.runProgram fuel K' ys line₂ =
          I.answered (Setting.programRuns (I.setting.exec (fuel + 1)) (K'.held I.globals) I.globals
            .null ys m).value := by
  intro first
  obtain ⟨line', hfirst⟩ : ∃ line', first = I.answered (.value v, { m with line := line' }) :=
    exists_runProgram_eq h line₁
  refine ⟨?_, congrArg Prod.fst hfirst, ?_⟩
  · rw [runProgram_eq, Setting.programRuns_line _ _ (List.append_ne_nil_of_right_ne_nil xs hys),
      h.value_programRuns]
  · rw [hfirst, runProgram_eq, Setting.programRuns_line _ _ hys]
    exact congrArg (fun d : Deferred (Answer ω) => I.answered d.value)
      (Setting.programRuns_line fuel .null hys line')

/-- Where no scope is discarded for want of handles, two pieces give the same as the whole. -/
theorem RunsThrough.runProgram_append (h : I.RunsThrough fuel K xs v) (hys : ys ≠ [])
    (hS : I.setting.IgnoresHandles) (line line₁ line₂ : UInt32) (K' : Holding) :
    I.runProgram fuel K (xs ++ ys) line =
      (I.runProgram fuel K xs line₁).2.runProgram fuel K' ys line₂ := by
  obtain ⟨m, h⟩ := h
  obtain ⟨hwhole, -, hsecond⟩ := Interpreter.runProgram_append h hys line line₁ line₂ K'
  rw [hwhole, hsecond]
  exact congrArg I.answered (Setting.programRuns_held hS _ fun hnil => (hys hnil).elim)

section

variable {config : Config} {host : Host ω} {A : Set ScopeId} {T : ObjectId → Table Binding}

theorem InStep.runProgram (hh : host.UsesStrongHandles) (h : InStep config host I J K A T)
    (fuel : Nat) (body : List Node) (line : UInt32) :
    let a := I.runProgram fuel K body line
    let b := J.runProgram fuel K body line
    a.1 = b.1 ∧ ∃ A' T', InStep config host a.2 b.2 (K.learn (.result a.1)) A' T' := by
  have hJ : J.runProgram fuel K body line =
      J.eval (fuel + 2) (K.held J.globals) ⟨.program body, line⟩ I.globals := by rw [h.globals]; rfl
  rw [hJ]
  exact h.eval hh (fuel + 2) ⟨.program body, line⟩ List.mem_cons_self

/-- Statements that run through do so with all scopes kept, too. -/
theorem InStep.runsThrough (hh : host.UsesStrongHandles) (h : InStep config host I J K A T)
    (hxs : I.RunsThrough fuel K xs v) : J.RunsThrough fuel K xs v := by
  obtain ⟨m, hxs⟩ := hxs
  have he := h.completion_eq hh (fuel + 2) ⟨.program xs, I.machine.line⟩ List.mem_cons_self
  rw [Setting.value_exec_program, Setting.value_exec_program, hxs.value_eq, h.line,
    h.globals] at he
  exact Setting.runsThrough_of_next?_eq_some (m := J.machine) (congrArg Completion.next? he).symm

/-- Both ways are compared with the interpreter that keeps all scopes, where they are the same. -/
theorem InStep.runProgram_append (hh : host.UsesStrongHandles) (h : InStep config host I J K A T)
    (hxs : I.RunsThrough fuel K xs v) (hys : ys ≠ []) (line line₁ line₂ : UInt32)
    (hscopes : K.scopes ⊆ K'.scopes) (hvalues : K.values ⊆ K'.values) :
    let whole := I.runProgram fuel K (xs ++ ys) line
    let first := I.runProgram fuel K xs line₁
    let second := first.2.runProgram fuel K' ys line₂
    first.2.Permits (K.learn (.result first.1)) ⟨fuel + 2, K', .run ⟨.program ys, line₂⟩⟩ →
      whole.1 = second.1 ∧ whole.2.LooksLike second.2 (K.learn (.result whole.1)) := by
  intro whole first second hK'
  have hJxs := h.runsThrough hh hxs
  have hS : J.setting.IgnoresHandles := by
    rw [h.keeping]
    exact Setting.ignoresHandles_keeping config host
  have hJ := hJxs.runProgram_append hys hS line line₁ line₂ K'
  obtain ⟨hwhole, A₀, T₀, h₀⟩ := h.runProgram hh fuel (xs ++ ys) line
  obtain ⟨-, A₁, T₁, h₁⟩ := h.runProgram hh fuel xs line₁
  obtain ⟨hsecond, A₂, T₂, h₂⟩ :=
    (h₁.rehold hK'.scopes hK'.values).runProgram hh fuel ys line₂
  have hr : whole.1 = second.1 := hwhole.trans ((congrArg Prod.fst hJ).trans hsecond.symm)
  obtain ⟨hs, hv⟩ := Holding.learn_subset hscopes hvalues (.result second.1)
  refine ⟨hr, h₀.looksLike.trans ?_⟩
  rw [hJ]
  change Interpreter.LooksLike _ second.2 (K.learn (.result whole.1))
  rw [hr]
  exact (h₂.drop hs hv).looksLike.symm

end

end Interpreter

/-- **Programs can be run in pieces.** Statements `xs` run as a program run through, or one of them
ends the program, or no end is seen of them; signals that no loop took end nothing. If one ends the
program, then it is the end of `xs ++ ys`, too. If they run through, then `xs ++ ys` comes to the
result of `ys` run after `xs`, with the same world and the same scopes as far as the host sees, in
every interpreter that a host comes to; and exactly to the same interpreter, whatever the natives
are, if no handle is in the value at the seam. -/
theorem runs_in_pieces (I : Interpreter ω) (K : Holding) (fuel : Nat) (xs ys : List Node)
    (line line₁ line₂ : UInt32) :
    let whole := I.runProgram fuel K (xs ++ ys) line
    let first := I.runProgram fuel K xs line₁
    ((∃ v, I.RunsThrough fuel K xs v) ∨ I.StopsWithin fuel K xs ∨
        first.1 = none ∧ whole.1 = none) ∧
      (I.StopsWithin fuel K xs → whole = first) ∧
      ∀ v, I.RunsThrough fuel K xs v → ys ≠ [] →
        first.1 = some (.ok v) ∧
        (v.scopes = [] → whole = first.2.runProgram fuel K ys line₂) ∧
        ∀ {host : Host ω}, host.UsesStrongHandles → I.Arises host K →
          ∀ K', first.2.Permits (K.learn (.result first.1))
              ⟨fuel + 2, K', .run ⟨.program ys, line₂⟩⟩ →
            K.scopes ⊆ K'.scopes → K.values ⊆ K'.values →
              let second := first.2.runProgram fuel K' ys line₂
              whole.1 = second.1 ∧ whole.2.LooksLike second.2 (K.learn (.result whole.1)) := by
  intro whole first
  refine ⟨?_, fun h => h.runProgram_append ys line line₁, ?_⟩
  · obtain ⟨v, m, h⟩ | h | h := Setting.runsThrough_or_stopsWithin (I.setting.exec (fuel + 1))
      (K.held I.globals) I.globals .null xs I.machine
    · exact .inl ⟨v, m, h⟩
    · exact .inr (.inl h)
    · have hfirst := Interpreter.runProgram_append_eq_none h [] line₁
      rw [List.append_nil] at hfirst
      exact .inr (.inr ⟨hfirst, Interpreter.runProgram_append_eq_none h ys line⟩)
  · intro v hxs hys
    obtain ⟨m, h⟩ := hxs
    obtain ⟨hwhole, hfirst, hsecond⟩ := Interpreter.runProgram_append h hys line line₁ line₂ K
    refine ⟨hfirst, fun hv => ?_, fun {host} hh hI K' hK' hs hvs => ?_⟩
    · -- what waits at the seam holds nothing, as null holds nothing at the start of a program
      have hlast : (K.held I.globals).value v = (K.held I.globals).value .null :=
        Held.value_of_scopes_eq_nil _ hv
      exact hwhole.trans ((congrArg (fun d => I.answered d.value)
        (Setting.programRuns_congr_last hys hlast)).trans hsecond.symm)
    · obtain ⟨config, J, A, T, hJ⟩ := hI.inStep hh
      exact hJ.runProgram_append hh ⟨m, h⟩ hys line line₁ line₂ hs hvs hK'

/-- On the workbench, a stray signal and a block that leaves a function declared in it, and then a
variable: the scope of the block is held at the seam in the one program only. -/
theorem runs_in_pieces_workbench :
    let b : Builder := Builder.start.withConfig { Config.standard with globalCapacity := 4 }
    let xs : List Node := [⟨.breakLoop, 1⟩,
      ⟨.block [⟨.function "f" ⟨0, [], []⟩, 2⟩, ⟨.identifier "f", 2⟩], 2⟩]
    let ys : List Node := [⟨.declaration "x" false (some ⟨.identifier "true", 3⟩), 3⟩]
    let K : Holding := ⟨[], []⟩
    ∃ globals σ, b.build ⟨0, "print"⟩ ⟨1, "println"⟩ .empty = .ok (globals, σ) ∧
      let I : Interpreter Workbench :=
        ⟨.releasing b.config Workbench.host, globals, ⟨σ, 0, 0, .ofSink .buffer⟩⟩
      let whole := I.runProgram 4 K (xs ++ ys) 1
      let first := I.runProgram 4 K xs 1
      let second := first.2.runProgram 4 K ys 3
      (∃ v, first.1 = some (.ok v) ∧ v.scopes ≠ []) ∧ whole.1 = second.1 ∧
        whole.2.LooksLike second.2 (K.learn (.result whole.1)) := by
  intro b xs ys K
  have hrun : (b.build ⟨0, "print"⟩ ⟨1, "println"⟩ .empty).toOption.any (fun p =>
      (Setting.programRuns ((Setting.releasing b.config Workbench.host).exec 5) (K.held p.1) p.1
        .null xs ⟨p.2, 0, 0, .ofSink .buffer⟩).value.1.next?.any fun v => !v.scopes.isEmpty) =
        true := by
    decide +kernel
  cases hb : b.build ⟨0, "print"⟩ ⟨1, "println"⟩ .empty with
  | error cause =>
    rw [hb] at hrun
    cases hrun
  | ok p =>
    rw [hb] at hrun
    obtain ⟨_, ⟨⟩, hrun⟩ := (Option.any_eq_true _ _).1 hrun
    obtain ⟨v, hv, hscopes⟩ := (Option.any_eq_true _ _).1 hrun
    refine ⟨p.1, p.2, rfl, ?_⟩
    intro I whole first second
    have hxs : I.RunsThrough 4 K xs v := Setting.runsThrough_of_next?_eq_some hv
    have hI : I.Arises Workbench.host K := .built rfl hb
    obtain ⟨hfirst, -, hpieces⟩ := (runs_in_pieces I K 4 xs ys 1 1 3).2.2 v hxs (by simp [ys])
    refine ⟨⟨v, hfirst, by simpa using hscopes⟩, ?_⟩
    exact hpieces Workbench.usesStrongHandles hI K ⟨by simp [K], by simp [K], trivial⟩
      (List.Subset.refl _) (List.Subset.refl _)

end Treewalk
