import Mathlib.Algebra.BigOperators.Fin
import Mathlib.Data.List.Rotate
import Treewalk.Power
import Treewalk.Table.Basic

/-!
# Home slots

The search for a key starts at the key's home slot and asks every slot once, around the end. The
home slot is a sum over the bytes of the key. In the sum, a product or a position that leaves a word
of 32 bits loses the same multiples of `2 ^ 32` as the exact sum does when it is reduced at last:
`checksum_ofNat`.

* `probes_eq_rotate`: the slots asked are all slots in their order, from the start on.

Main statement: `home_formula`.
-/

namespace Treewalk.Table

/-- The first byte apart, the others are one position further on. -/
theorem sum_weighted_cons (byte : UInt8) (bytes : List UInt8) (position : Nat) :
    ∑ i : Fin (byte :: bytes).length, (byte :: bytes)[i].toNat * (position + i) =
      byte.toNat * position + ∑ i : Fin bytes.length, bytes[i].toNat * (position + 1 + i) := by
  refine (Fin.sum_univ_succ _).trans (congrArg (byte.toNat * position + ·) ?_)
  refine Finset.sum_congr rfl fun i _ => ?_
  change bytes[i].toNat * (position + (i + 1)) = bytes[i].toNat * (position + 1 + i)
  rw [Nat.add_right_comm, Nat.add_assoc]

/-- The checksum from a position on, from the exact sum of what comes before. -/
theorem checksum_ofNat (bytes : List UInt8) (position sum : Nat) :
    checksum bytes (.ofNat position) (.ofNat sum) =
      .ofNat (sum + ∑ i : Fin bytes.length, bytes[i].toNat * (position + i)) := by
  induction bytes generalizing position sum with
  | nil => rfl
  | cons byte bytes ih =>
    have hposition : UInt32.ofNat position + 1 = .ofNat (position + 1) := by
      rw [UInt32.ofNat_add, UInt32.ofNat_one]
    have hsum : UInt32.ofNat sum + byte.toUInt32 * .ofNat position =
        .ofNat (sum + byte.toNat * position) := by
      rw [UInt32.ofNat_add, UInt32.ofNat_mul, UInt32.ofNat_uInt8ToNat]
    rw [checksum, hposition, hsum, ih, sum_weighted_cons, Nat.add_assoc]

theorem toNat_checksum (bytes : List UInt8) :
    (checksum bytes 0 1).toNat = (1 + ∑ i : Fin bytes.length, bytes[i].toNat * i) % 2 ^ 32 := by
  have h := checksum_ofNat bytes 0 1
  simp only [Nat.zero_add] at h
  rw [← UInt32.toNat_ofNat', ← h]
  rfl

/-- From the start on, slot by slot, and around the end. -/
theorem probes_eq_rotate (start capacity : Nat) :
    probes start capacity = (List.range capacity).rotate start := by
  apply List.ext_getElem
  · simp [probes]
  · intro step h₁ h₂
    simp [probes, probe, List.getElem_rotate, Nat.add_comm]

/-- **The home slot of a key, and the slots after it.** To one are added all bytes of the key, each
times its position; the exact sum is reduced to 32 bits and then to the capacity. From there on the
probes come to each slot of the table once, and they are the slots that a search asks in turn. -/
theorem home_formula {α β : Type} (key : String) (capacity : Nat) :
    let bytes := key.toUTF8.data.toList
    home key capacity =
        (1 + ∑ i : Fin bytes.length, bytes[i].toNat * i) % 2 ^ 32 % max capacity 1 ∧
      (probes (home key capacity) capacity).Perm (List.range capacity) ∧
        ∀ (t : Table α) (ask : Nat → Slot α → Option β),
          t.search key ask =
            (probes (home key t.capacity) t.capacity).findSome? fun i => ask i (t.slot i) := by
  intro bytes
  refine ⟨?_, ?_, fun t ask => t.search_eq_findSome? key ask⟩
  · rw [home, toNat_checksum]
  · rw [probes_eq_rotate]
    exact List.rotate_perm _ _

/-- The first byte has no weight, and the others have that of their positions. -/
example : home "ab" 101 = 99 ∧ home "ba" 101 = 98 ∧ home "b" 101 = home "a" 101 := by
  decide +kernel

end Treewalk.Table
