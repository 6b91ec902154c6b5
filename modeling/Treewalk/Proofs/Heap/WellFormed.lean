import Treewalk.Proofs.Heap.Sound
import Treewalk.Proofs.Release.Turns
import Treewalk.Proofs.Scope.Build
import Treewalk.Proofs.Workbench.Names

/-!
# The heap is well formed at every moment

An interpreter is built, and then asked to run programs, to evaluate in scopes below the global one
and to call values, as long as the host likes and however these evaluations end. At every moment
its store is sound, and parents stay what they are.

* `Setting.isKeyed_of_object`: the literal of an object makes an object that binds names.
* `Builder.isTree_of_build`: building makes a tree of one scope.
* `Interpreter.isKept_turns`: what every request keeps, for lists of requests.

Main statement: `heap_wellFormed`.
-/

namespace Treewalk

variable {ω : Type}

/-! ## Literals of objects -/

namespace Setting

variable {evaluate : Evaluator ω} {held : Held} {env : ScopeId} {m m' : Machine ω} {v : Value}
variable {capacity : Nat}

theorem isKeyed_of_addProperty {t : Table Binding} (ht : t.IsKeyed capacity) {b : Binding}
    {next : Table Binding → Machine ω → Deferred (Answer ω)}
    (hnext : ∀ u, u.IsKeyed capacity → (next u m).value = (.value v, m') →
      ∃ id u, v = .object id u ∧ u.IsKeyed capacity)
    (h : (addProperty t b next m).value = (.value v, m')) :
    ∃ id u, v = .object id u ∧ u.IsKeyed capacity := by
  rw [addProperty] at h
  cases hs : t.set? b.name b with
  | none =>
    rw [hs] at h
    cases h
  | some p =>
    rw [hs] at h
    exact hnext p.2 (ht.set hs rfl) h

/-- The properties of an object end up in a table that binds names. -/
theorem isKeyed_of_objectRuns (properties : List Property) {keys : List String}
    {t : Table Binding} (ht : t.IsKeyed capacity)
    (h : (objectRuns evaluate held env keys t properties m).value = (.value v, m')) :
    ∃ id u, v = .object id u ∧ u.IsKeyed capacity := by
  induction properties generalizing keys t m with
  | nil =>
    cases h
    exact ⟨_, t, rfl, ht⟩
  | cons property rest ih =>
    obtain ⟨key, _ | n⟩ := property
    · rw [objectRuns] at h
      cases hs : m.store.shorthand env key with
      | error cause =>
        rw [hs] at h
        cases h
      | ok p =>
        rw [hs] at h
        exact isKeyed_of_addProperty ht (fun u hu h => ih hu h) h
    · rw [objectRuns, Deferred.value_thenValue] at h
      dsimp only at h
      split at h
      · exact isKeyed_of_addProperty ht (fun u hu h => ih hu h) h
      · next hne => exact (hne _ _ h).elim

/-- An object made by a literal binds names in a table of the capacity that the limits give. -/
theorem isKeyed_of_object {S : Setting ω} {fuel : Nat} {properties : List Property} {line : UInt32}
    (h : (S.exec fuel held ⟨.object properties, line⟩ env m).value = (.value v, m')) :
    ∃ id t, v = .object id t ∧ t.IsKeyed S.config.objectCapacity := by
  cases fuel with
  | zero => cases h
  | succ fuel =>
    have hruns : (objectRuns (S.exec fuel) held env [] (.withCapacity S.config.objectCapacity)
        properties { m with line := line }).value = (.value v, m') := by
      rw [value_exec_succ] at h
      dsimp only [step] at h
      generalize (objectRuns (S.exec fuel) held env [] _ properties _).value = a at h ⊢
      obtain ⟨c, m₁⟩ := a
      cases c <;> cases h
      rfl
    exact isKeyed_of_objectRuns properties (Table.isKeyed_withCapacity _) hruns

end Setting

/-! ## Building -/

variable {host : Host ω} {Supplied : Table Binding → Prop} {Known : ω → Value → Prop}
variable {h : host.KeepsToNames Supplied Known} {c : Config} {globals : ScopeId} {σ σ' : Store}
variable {w : ω}

namespace Builder

theorem isTree_of_declareAll {s : ScopeId} {constants : List (String × Value)}
    (ht : σ.IsTree c globals) (hd : declareAll σ s constants = .ok σ') : σ'.IsTree c globals := by
  induction constants generalizing σ with
  | nil =>
    cases hd
    exact ht
  | cons p rest ih =>
    rw [declareAll] at hd
    cases hp : σ.declare s p.1 p.2 true with
    | error cause => simp [hp] at hd
    | ok q =>
      rw [hp] at hd
      exact ih (ht.declare hp) hd

/-- Building makes a tree of one scope. -/
theorem isTree_of_build {b : Builder} {print printLine : NativeFunction}
    (hb : b.build print printLine .empty = .ok (globals, σ)) : σ.IsTree b.config globals := by
  obtain ⟨rfl, hd⟩ := build_eq_ok.1 hb
  exact isTree_of_declareAll (Store.IsTree.root b.config) hd

end Builder

/-- The machine of a new interpreter, whose host keeps no values yet that are more than plain. -/
theorem Host.KeepsToNames.holds_of_build (h : host.KeepsToNames Supplied Known) {b : Builder}
    {print printLine : NativeFunction} (hw : ∀ v, Known w v → v.IsPlain)
    (hb : b.build print printLine .empty = .ok (globals, σ)) :
    h.Holds b.config globals ⟨σ, 0, 0, w⟩ := by
  have ht := Builder.isTree_of_build hb
  have hplain : ∀ {v : Value}, v.IsPlain → σ.Admits b.config Supplied globals v := fun hv =>
    (h.fits_iff (Nat.le_refl _) ht).1 (.plain hv)
  have hfresh := Builder.isFresh_of_build Store.isFresh_empty hb
  exact ⟨(h.closed_iff (Nat.le_refl _) ht).2 fun s v hv => hplain (hfresh.plain s v hv), ht,
    fun v hv => hplain (hw v hv)⟩

/-! ## Requests -/

namespace Interpreter

variable {I : Interpreter ω}

/-- Whether a host that makes no roots of its own may ask something: scopes have to be below the
global one, and values such as the heap may hold. -/
def Accepts (I : Interpreter ω) (Supplied : Table Binding → Prop) : Request → Prop
  | .run _ => True
  | .eval _ env => I.globals ∈ I.machine.store.chain env
  | .call callee args => ∀ v ∈ callee :: args,
    I.machine.store.Admits I.setting.config Supplied I.globals v
  | .root .. => False
  | .child parent => I.globals ∈ I.machine.store.chain parent

/-- Whether a host may ask some things, one after the other. -/
def AcceptsAll (I : Interpreter ω) (Supplied : Table Binding → Prop) : List Turn → Prop
  | [] => True
  | t :: rest => I.Accepts Supplied t.request ∧ (I.serve t).2.AcceptsAll Supplied rest

/-- What holds of an interpreter between requests. -/
structure IsKept (h : host.KeepsToNames Supplied Known) (c : Config) (globals : ScopeId)
    (I : Interpreter ω) : Prop where
  setting : I.setting = .releasing c host
  globals_eq : I.globals = globals
  holds : h.Holds c globals I.machine

theorem IsKept.perform (hI : I.IsKept h c globals) {d : Machine ω → Deferred (Answer ω)}
    (hd : h.Holds c globals (d I.machine).value.2 ∧
      I.machine.store.Extends (d I.machine).value.2.store) :
    (I.perform d).2.IsKept h c globals ∧
      I.machine.store.Extends (I.perform d).2.machine.store := by
  rw [Interpreter.perform, Deferred.force_eq_value]
  exact ⟨⟨hI.setting, hI.globals_eq, hd.1⟩, hd.2⟩

/-- Every request is served so that the same holds again, and no parent changes. -/
theorem isKept_serve (hI : I.IsKept h c globals) {t : Turn} (ht : I.Accepts Supplied t.request) :
    (I.serve t).2.IsKept h c globals ∧
      I.machine.store.Extends (I.serve t).2.machine.store := by
  obtain ⟨fuel, holding, request⟩ := t
  obtain ⟨hsetting, rfl, hm⟩ := hI
  have hI : I.IsKept h c I.globals := ⟨hsetting, rfl, hm⟩
  cases request with
  | run n =>
    have hglobals := hm.tree.mem_chain_iff.2 hm.tree.globals_lt
    have hd := hm.exec hglobals fuel (holding.held I.globals) n
    refine hI.perform ?_
    rw [hsetting]
    exact ⟨hd.2.1, hd.2.2.1⟩
  | eval n env =>
    have hd := hm.exec ht fuel (holding.held I.globals) n
    refine hI.perform ?_
    rw [hsetting]
    exact ⟨hd.2.1, hd.2.2.1⟩
  | call callee args =>
    have hvs : ∀ v ∈ callee :: args, I.machine.store.Admits c Supplied I.globals v := by
      simpa only [Accepts, hsetting, Setting.releasing] using ht
    have hd := hm.callValue hvs fuel ((holding.held I.globals).values (callee :: args))
    refine hI.perform ?_
    rw [hsetting]
    exact ⟨hd.2.1, hd.2.2.1⟩
  | root => exact ht.elim
  | child parent => exact ⟨⟨hsetting, rfl, hm.child ht⟩, .add ..⟩

/-- So are lists of requests. -/
theorem isKept_turns (hI : I.IsKept h c globals) (K : Holding) {ts : List Turn}
    (ht : I.AcceptsAll Supplied ts) :
    (I.turns K ts).2.1.IsKept h c globals ∧
      I.machine.store.Extends (I.turns K ts).2.1.machine.store := by
  induction ts generalizing I K with
  | nil => exact ⟨hI, .refl _⟩
  | cons t rest ih =>
    obtain ⟨hI', hx⟩ := isKept_serve hI ht.1
    obtain ⟨hI'', hx'⟩ := ih hI' (t.holding.learn (I.serve t).1) ht.2
    exact ⟨hI'', hx.trans hx'⟩

end Interpreter

/-- **The heap is well formed at every moment.** Whatever a host asks of an interpreter, and however
it ends: the store is sound afterwards, and parents are what they were; so it is before and after
everything that happens during the next evaluation or call, with the parents of its end. Literals of
objects make objects that bind names in a table of the capacity that the limits give, and so are all
copies of such objects. -/
theorem heap_wellFormed (h : host.KeepsToNames Supplied Known) {b : Builder}
    {print printLine : NativeFunction} (hw : ∀ v, Known w v → v.IsPlain)
    (hb : b.build print printLine .empty = .ok (globals, σ)) (ts : List Turn) :
    let S := Setting.releasing b.config host
    let I₀ : Interpreter ω := ⟨S, globals, ⟨σ, 0, 0, w⟩⟩
    let I := (I₀.turns ⟨[], []⟩ ts).2.1
    let m := I.machine
    I₀.AcceptsAll Supplied ts →
      m.store.IsSound b.config Supplied globals ∧
      (∀ K us, I.AcceptsAll Supplied us → m.store.Extends (I.turns K us).2.1.machine.store) ∧
      (∀ fuel held n env, globals ∈ m.store.chain env →
        let a := (S.exec fuel held n env m).value
        ∃ ps, (S.trace fuel 0 held n env (m.withTraces [])).value = (a.1, a.2.withTraces ps) ∧
          ∀ p ∈ ps, ∀ t : Trace ω, t.Within p →
            t.IsSound b.config Supplied globals m.store a.2.store) ∧
      (∀ fuel held callee args,
        (∀ v ∈ callee :: args, m.store.Admits b.config Supplied globals v) →
        let a := (S.callValue (S.exec fuel) held callee args globals m).value
        ∃ ps, (S.traced.callValue (S.trace fuel 1) held callee args globals
            (m.withTraces [])).value = (a.1, a.2.withTraces ps) ∧
          ∀ p ∈ ps, ∀ t : Trace ω, t.Within p →
            t.IsSound b.config Supplied globals m.store a.2.store) ∧
      (∀ fuel held properties line env m v m',
        (S.exec fuel held ⟨.object properties, line⟩ env m).value = (.value v, m') →
          ∃ id t, v = .object id t ∧ t.BindsNames b.config.objectCapacity) ∧
      ∀ id t capacity next, t.BindsNames capacity → ∃ id' u,
        ((Value.object id t).copy next).1 = .object id' u ∧ u.BindsNames capacity := by
  intro S I₀ I m hts
  have hI₀ : I₀.IsKept h b.config globals := ⟨rfl, rfl, h.holds_of_build hw hb⟩
  obtain ⟨hI, -⟩ := Interpreter.isKept_turns hI₀ ⟨[], []⟩ hts
  refine ⟨h.isSound hI.holds.closed hI.holds.tree,
    fun K us hus => (Interpreter.isKept_turns hI K hus).2,
    fun fuel held n env henv => (hI.holds.exec henv fuel held n).1,
    fun fuel held callee args hvs => (hI.holds.callValue hvs fuel held).1, ?_, ?_⟩
  · intro fuel held properties line env m v m' he
    obtain ⟨id, t, rfl, ht⟩ := Setting.isKeyed_of_object he
    exact ⟨id, t, rfl, Table.bindsNames_iff.2 ht⟩
  · intro id t capacity next ht
    obtain ⟨u, n', hc, he⟩ := copy_object id t next
    exact ⟨_, u, by rw [he], Table.bindsNames_iff.2 ((Table.bindsNames_iff.1 ht).copied hc)⟩

/-- A block on the workbench that leaves its scope to a function, run twice: the store is sound
afterwards. -/
theorem heap_wellFormed_workbench :
    let b : Builder := Builder.start.withConfig { Config.standard with globalCapacity := 4 }
    let n : Node := ⟨.block [⟨.function "f" ⟨0, [], []⟩, 1⟩], 1⟩
    let ts : List Turn := [⟨3, ⟨[], []⟩, .run n⟩, ⟨3, ⟨[], []⟩, .run n⟩]
    ∃ globals σ, b.build ⟨0, "print"⟩ ⟨1, "println"⟩ .empty = .ok (globals, σ) ∧
      let I : Interpreter Workbench :=
        ⟨.releasing b.config Workbench.host, globals, ⟨σ, 0, 0, .ofSink .buffer⟩⟩
      (I.turns ⟨[], []⟩ ts).2.1.machine.store.IsSound b.config (fun _ => False) globals := by
  intro b n ts
  have hok : (b.build ⟨0, "print"⟩ ⟨1, "println"⟩ .empty).isOk = true := by decide +kernel
  cases hb : b.build ⟨0, "print"⟩ ⟨1, "println"⟩ .empty with
  | error cause => simp [hb, Except.isOk, Except.toBool] at hok
  | ok p =>
    refine ⟨p.1, p.2, rfl, ?_⟩
    exact (heap_wellFormed Workbench.keepsToNames (by simp) hb ts ⟨trivial, trivial, trivial⟩).1

end Treewalk
