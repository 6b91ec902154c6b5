import Mathlib.Data.String.Basic
import Mathlib.Data.List.Nodup
import Treewalk.Native.Registry

/-!
# Registries are maps from names to natives

The natives of a registry stand in the strict order of their names, whatever was registered and
merged to make it. So a registry is determined by what it finds under each name, and merging is the
union of maps in which the second registry has precedence.

* `Registry.Made` are the registries that can be made; `Registry.Made.isSorted`.
* `Registry.IsSorted.get?_merge`: what a merged registry finds.
* `Registry.IsSorted.ext`: registries that find the same are the same.
-/

namespace Treewalk.Registry

/-- The registries that can be made. -/
inductive Made : Registry → Prop
  | empty : Made .empty
  | insert {r : Registry} (h : Made r) (f : NativeFunction) : Made (r.insert f)
  | merge {r s : Registry} (hr : Made r) (hs : Made s) : Made (r.merge s)

/-- Whether the names of a registry are in strict order. -/
def IsSorted (r : Registry) : Prop := r.names.Pairwise (· < ·)

variable {r s : Registry} {f g : NativeFunction} {name : String}

/-! ## Names -/

theorem mem_names_iff : name ∈ r.names ↔ (r.get? name).isSome := by
  rw [get?, List.find?_isSome, names, List.mem_map]
  simp only [decide_eq_true_eq]

/-- A sorted registry has each name once. -/
theorem IsSorted.nodup_names (h : r.IsSorted) : r.names.Nodup :=
  List.Pairwise.imp (fun hlt => ne_of_lt hlt) h

theorem find?_eq_some_iff {fs : List NativeFunction} (h : (fs.map NativeFunction.name).Nodup) :
    fs.find? (·.name = name) = some f ↔ f ∈ fs ∧ f.name = name := by
  constructor
  · exact fun hf => ⟨List.mem_of_find?_eq_some hf, by simpa using List.find?_some hf⟩
  · rintro ⟨hf, rfl⟩
    obtain ⟨g, hg⟩ : ∃ g, fs.find? (·.name = f.name) = some g :=
      Option.isSome_iff_exists.1 (List.find?_isSome.2 ⟨f, hf, decide_eq_true rfl⟩)
    have hname : g.name = f.name := by simpa using List.find?_some hg
    rw [hg, List.inj_on_of_nodup_map h (List.mem_of_find?_eq_some hg) hf hname]

theorem IsSorted.get?_eq_some_iff (h : r.IsSorted) :
    r.get? name = some f ↔ f ∈ r.natives ∧ f.name = name :=
  find?_eq_some_iff h.nodup_names

/-- As each name is there once, it is found from the end as from the start. -/
theorem IsSorted.find?_reverse (h : r.IsSorted) (name : String) :
    r.natives.reverse.find? (·.name = name) = r.get? name := by
  have hnodup : (r.natives.reverse.map NativeFunction.name).Nodup := by
    rw [List.map_reverse, List.nodup_reverse]
    exact h.nodup_names
  ext f
  rw [find?_eq_some_iff hnodup, h.get?_eq_some_iff, List.mem_reverse]

/-! ## Every registry is sorted -/

theorem mem_place {fs : List NativeFunction} (h : g ∈ place f fs) : g = f ∨ g ∈ fs := by
  induction fs with
  | nil => exact .inl (List.mem_singleton.1 h)
  | cons k rest ih =>
    rw [place] at h
    split at h
    · exact List.mem_cons.1 h
    · split at h
      · exact (List.mem_cons.1 h).imp_right (List.mem_cons_of_mem k)
      · rcases List.mem_cons.1 h with rfl | h
        · exact .inr List.mem_cons_self
        · exact (ih h).imp_right (List.mem_cons_of_mem k)

theorem pairwise_place (f : NativeFunction) {fs : List NativeFunction}
    (h : fs.Pairwise fun g k => g.name < k.name) :
    (place f fs).Pairwise fun g k => g.name < k.name := by
  induction fs with
  | nil => exact List.pairwise_singleton _ f
  | cons k rest ih =>
    obtain ⟨hk, hrest⟩ := List.pairwise_cons.1 h
    rw [place]
    split
    · next hlt =>
      refine List.pairwise_cons.2 ⟨fun g hg => ?_, h⟩
      rcases List.mem_cons.1 hg with rfl | hg
      · exact hlt
      · exact lt_trans hlt (hk g hg)
    · next hlt =>
      split
      · next heq => exact List.pairwise_cons.2 ⟨fun g hg => heq ▸ hk g hg, hrest⟩
      · next hne =>
        refine List.pairwise_cons.2 ⟨fun g hg => ?_, ih hrest⟩
        rcases mem_place hg with rfl | hg
        · exact lt_of_le_of_ne (not_lt.1 hlt) (Ne.symm hne)
        · exact hk g hg

theorem IsSorted.insert (h : r.IsSorted) (f : NativeFunction) : (r.insert f).IsSorted :=
  List.pairwise_map.2 (pairwise_place f (List.pairwise_map.1 h))

theorem IsSorted.merge (h : r.IsSorted) (s : Registry) : (r.merge s).IsSorted := by
  rw [Registry.merge]
  induction s.natives generalizing r with
  | nil => exact h
  | cons f rest ih => exact ih (h.insert f)

theorem Made.isSorted (h : r.Made) : r.IsSorted := by
  induction h with
  | empty => exact List.Pairwise.nil
  | insert _ f ih => exact ih.insert f
  | merge _ _ ih _ => exact ih.merge _

/-! ## Merging -/

theorem get?_foldl_insert {fs : List NativeFunction} (h : (fs.map NativeFunction.name).Nodup)
    (r : Registry) (name : String) :
    (fs.foldl Registry.insert r).get? name = (fs.find? (·.name = name)).or (r.get? name) := by
  induction fs generalizing r with
  | nil => rfl
  | cons g rest ih =>
    obtain ⟨hg, hrest⟩ := List.nodup_cons.1 h
    rw [List.foldl_cons, ih hrest, get?_insert, List.find?_cons]
    by_cases hname : g.name = name
    · have hnone : rest.find? (·.name = name) = none := by
        refine List.find?_eq_none.2 fun k hk heq => hg ?_
        exact List.mem_map.2 ⟨k, hk, (of_decide_eq_true heq).trans hname.symm⟩
      simp [hname, hnone]
    · simp [hname]

/-- **Merging is a union in which the second registry has precedence.** -/
theorem IsSorted.get?_merge (hs : s.IsSorted) (r : Registry) (name : String) :
    (r.merge s).get? name = (s.get? name).or (r.get? name) :=
  get?_foldl_insert hs.nodup_names r name

/-! ## What a registry finds determines it -/

/-- **Registries that find the same natives are the same**, as both list them in one order. -/
theorem IsSorted.ext (hr : r.IsSorted) (hs : s.IsSorted)
    (h : ∀ name, r.get? name = s.get? name) : r = s := by
  have hmem : ∀ f, f ∈ r.natives ↔ f ∈ s.natives := by
    intro f
    have hf : r.get? f.name = some f ↔ f ∈ r.natives ∧ f.name = f.name := hr.get?_eq_some_iff
    rw [h, hs.get?_eq_some_iff] at hf
    simpa using hf.symm
  have hperm : r.natives.Perm s.natives :=
    (List.perm_ext_iff_of_nodup hr.nodup_names.of_map hs.nodup_names.of_map).2 hmem
  obtain ⟨fs⟩ := r
  obtain ⟨gs⟩ := s
  refine congrArg Registry.mk (hperm.eq_of_pairwise ?_ (List.pairwise_map.1 hr)
    (List.pairwise_map.1 hs))
  exact fun f g _ _ hfg hgf => (lt_asymm hfg hgf).elim

end Treewalk.Registry
