import Treewalk.Proofs.Reach.Reachable
import Treewalk.Proofs.Scope.Forest

/-!
# Natives that bind, assign and look up

A native that uses the store only through names binds and assigns values that it has at hand: its
arguments, values that its world keeps, what names mean in the scope of the call, what it takes out
of objects, copies, and values of its own making. `Host.KeepsToNames` says so of all natives of a
host. Objects that natives make have tables of some kind, `Supplied`, about which nothing more is
said.

* `AtHand.fits` and `Store.Named.closed`: such a native keeps to every realm that it is called in.
* `Host.KeepsToNames.staysInReach`: if it keeps no handles, it stays in reach.
-/

namespace Treewalk

/-- The values that a native has at hand when it is called. -/
inductive AtHand (Supplied : Table Binding → Prop) (Known : Value → Prop) (args : List Value)
    (env : ScopeId) (σ : Store) : Value → Prop
  | given {v : Value} (hv : v ∈ args) : AtHand Supplied Known args env σ v
  | known {v : Value} (hv : Known v) : AtHand Supplied Known args env σ v
  | found {name : String} {b : Binding} (hb : σ.resolve env name = some b) :
    AtHand Supplied Known args env σ b.value
  | plain {v : Value} (hv : v.IsPlain) : AtHand Supplied Known args env σ v
  | property {id : ObjectId} {t : Table Binding} {v : Value}
    (h : AtHand Supplied Known args env σ (.object id t)) (hv : v ∈ t.values) :
    AtHand Supplied Known args env σ v
  | copy {v : Value} (h : AtHand Supplied Known args env σ v) (next : Nat) :
    AtHand Supplied Known args env σ (v.copy next).1
  | object {id : ObjectId} {t : Table Binding} (ht : Supplied t)
    (hv : ∀ v ∈ t.values, AtHand Supplied Known args env σ v) :
    AtHand Supplied Known args env σ (.object id t)

/-- The stores that come from a store by binding names in a scope and in the root above it, and by
assigning from there, with values of some kind. -/
inductive Store.Named (env : ScopeId) (P : Value → Prop) (σ : Store) : Store → Prop
  | refl : Named env P σ σ
  | declare {σ₁ σ₂ : Store} {t : ScopeId} {name : String} {v : Value} {isConst : Bool}
    {b : Binding} (h : Named env P σ σ₁) (ht : t = env ∨ t = σ₁.global env) (hv : P v)
    (hd : σ₁.declare t name v isConst = .ok (b, σ₂)) : Named env P σ σ₂
  | assign {σ₁ σ₂ : Store} {name : String} {v : Value} {b : Binding} (h : Named env P σ σ₁)
    (hv : P v) (ha : σ₁.assign env name v = .ok (b, σ₂)) : Named env P σ σ₂
  | number {σ₁ : Store} (h : Named env P σ σ₁) (next : Nat) :
    Named env P σ { σ₁ with nextObject := next }

/-- The natives of a host use the store only by names. Copies of supplied objects count as
supplied. -/
structure Host.KeepsToNames {ω : Type} (host : Host ω) (Supplied : Table Binding → Prop)
    (Known : ω → Value → Prop) : Prop where
  copied : ∀ {t u : Table Binding} {n n' : Nat}, t.Copied n u n' → Supplied t → Supplied u
  call : ∀ (f : NativeFunction) (args : List Value) (env : ScopeId) (σ : Store) (w : ω),
    let P := AtHand Supplied (Known w) args env σ
    let r := host.call f args env σ w
    σ.Named env P r.2.1 ∧ (∀ v, r.1 = .ok v → P v) ∧ ∀ v, Known r.2.2 v → P v

variable {ω : Type} {host : Host ω} {Supplied : Table Binding → Prop} {R : Realm}
variable {σ σ' : Store} {env t : ScopeId} {args : List Value} {v : Value} {P : Value → Prop}

/-- The values at hand of a native that is called in a realm are of the realm. -/
theorem AtHand.fits {Known : Value → Prop} (h : AtHand Supplied Known args env σ v)
    (hc : R.Closed σ) (henv : R.Inside σ.scopes.size env)
    (hargs : ∀ v ∈ args, R.Fits σ.scopes.size v) (hknown : ∀ v, Known v → R.Fits σ.scopes.size v)
    (hgood : ∀ t, Supplied t → R.Good t) : R.Fits σ.scopes.size v := by
  induction h with
  | given hv => exact hargs _ hv
  | known hv => exact hknown _ hv
  | found hb => exact hc.fits_resolve henv hb
  | plain hv => exact .plain hv
  | property _ hv ih => exact ih.of_mem_values hv
  | copy _ next ih => exact ih.copy next
  | object ht _ ih => exact .object (hgood _ ht) ih

namespace Store.Named

/-- Nothing leads out of a realm after values of the realm were bound by names. -/
theorem closed (h : σ.Named env P σ') (hP : ∀ v, P v → R.Fits σ.scopes.size v)
    (hc : R.Closed σ) : σ'.scopes.size = σ.scopes.size ∧ R.Closed σ' := by
  induction h with
  | refl => exact ⟨rfl, hc⟩
  | declare _ _ hv hd ih =>
    obtain ⟨hn, hc⟩ := ih
    exact ⟨(Store.size_of_declare hd).trans hn, hc.declare (hn ▸ hP _ hv) hd⟩
  | assign _ hv ha ih =>
    obtain ⟨hn, hc⟩ := ih
    exact ⟨(Store.size_of_assign ha).trans hn, hc.assign (hn ▸ hP _ hv) ha⟩
  | number _ next ih => exact ⟨ih.1, ih.2.number next⟩

/-- Scopes outside a realm are as they were after names were bound from inside. -/
theorem untouched (h : σ.Named env P σ') (hP : ∀ v, P v → R.Fits σ.scopes.size v)
    (hc : R.Closed σ) (henv : R.Inside σ.scopes.size env) (ht : ¬R.Inside σ.scopes.size t) :
    σ'.scopes[t.index]? = σ.scopes[t.index]? := by
  induction h with
  | refl => rfl
  | declare h hs hv hd ih =>
    obtain ⟨hn, hc⟩ := h.closed hP hc
    rw [← hn] at henv ht
    obtain ⟨-, p, -, rfl⟩ := Store.declare_eq_ok hd
    rw [Realm.getElem?_place_of_not_inside ?_ ht, ih]
    obtain rfl | rfl := hs
    · exact henv
    · exact hc.inside_of_mem_chain henv _ (Store.global_mem_chain _ env)
  | assign h hv ha ih =>
    obtain ⟨hn, hc⟩ := h.closed hP hc
    rw [← hn] at henv ht
    obtain ⟨u, i, old, ho, -, -, -, rfl⟩ := Store.assign_eq_ok ha
    have hu := hc.inside_of_mem_chain henv u (List.mem_of_find?_eq_some ho)
    rw [Realm.getElem?_place_of_not_inside hu ht, ih]
  | number _ _ ih => exact ih

end Store.Named

/-- **Natives that use the store by names stay in reach**, unless they keep handles. -/
theorem Host.KeepsToNames.staysInReach {Known : ω → Value → Prop}
    (h : host.KeepsToNames Supplied Known) (hknown : ∀ w v, Known w v → v.IsPlain) :
    host.StaysInReach := by
  intro f args env σ w A r hA
  have hc : (Realm.since σ A hA).Closed σ := Realm.closed_reachable σ _ hA
  have henv : (Realm.since σ A hA).Inside σ.scopes.size env := .inl (.start (.inl rfl))
  have hargs : ∀ v ∈ args, (Realm.since σ A hA).Fits σ.scopes.size v := fun v hv =>
    Realm.fits_since fun s hs => .inl (.start (.inr ⟨v, hv, hs⟩))
  have hP : ∀ v, AtHand Supplied (Known w) args env σ v →
      (Realm.since σ A hA).Fits σ.scopes.size v := fun v hv =>
    hv.fits hc henv hargs (fun v hk => .plain (hknown w v hk)) fun _ _ => trivial
  obtain ⟨hnamed, hv, -⟩ := h.call f args env σ w
  obtain ⟨hn, hc'⟩ := hnamed.closed hP hc
  refine ⟨⟨hn.ge, fun t hlt ht => ?_, fun s t hs hl => hc'.leads hs hl⟩, fun v hr s hs => ?_⟩
  · exact hnamed.untouched hP hc henv (Realm.not_inside_since hlt ht _)
  · exact (hn ▸ hP v (hv v hr)).inside_of_captures hs

end Treewalk
