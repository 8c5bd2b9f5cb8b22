import Mathlib.Data.Nat.Bitwise
import Mathlib.Data.Nat.Size
import Mathlib.Order.Bounds.Basic

/-!
# Smearing bits to the right

To fill a word with ones below its highest bit, one takes the disjunction of the word with
itself shifted to the right, again and again, and doubles the distance each time.  After `r`
rounds every bit has been carried over `2 ^ r` places, so whether the whole word is filled
depends on how far that is.

`Smeared k v w` says just how far: a bit of `w` is set exactly if `v` has one at most `k - 1`
places above it.  Each round doubles the distance (`Smeared.double`).

A number whose bits are filled below its highest one is one less than a power of two, and this
power is the smallest that is greater than the number (`isLeast_two_pow_size`).
-/

namespace CCore
namespace BitSmear

variable {n : ℕ} {k : ℕ} {v w : BitVec n}

/-- **The bits of `v`, smeared over `k` places.** -/
def Smeared (k : ℕ) (v w : BitVec n) : Prop :=
  ∀ i, w.getLsbD i = true ↔ ∃ j < k, v.getLsbD (i + j) = true

theorem smeared_one (v : BitVec n) : Smeared 1 v v := fun i => by
  constructor
  · exact fun h => ⟨0, Nat.one_pos, h⟩
  · rintro ⟨j, hj, h⟩
    rw [Nat.lt_one_iff.mp hj] at h
    exact h

/-- **One round.** -/
theorem Smeared.double (h : Smeared k v w) : Smeared (k + k) v (w ||| w >>> k) := fun i => by
  rw [BitVec.getLsbD_or, BitVec.getLsbD_ushiftRight, Bool.or_eq_true, h i, h (k + i)]
  constructor
  · rintro (⟨j, hj, hbit⟩ | ⟨j, hj, hbit⟩)
    · exact ⟨j, hj.trans_le (Nat.le_add_right k k), hbit⟩
    · refine ⟨k + j, Nat.add_lt_add_left hj k, ?_⟩
      rw [← Nat.add_assoc, Nat.add_comm i k]
      exact hbit
  · rintro ⟨j, hj, hbit⟩
    by_cases hlt : j < k
    · exact Or.inl ⟨j, hlt, hbit⟩
    · have hle : k ≤ j := not_lt.mp hlt
      refine Or.inr ⟨j - k, by omega, ?_⟩
      have hplace : k + i + (j - k) = i + j := by omega
      rw [hplace]
      exact hbit

/-- **When the word is filled.**  The highest bit is set, and there is no gap of `k` zeros. -/
theorem Smeared.eq_allOnes_iff (h : Smeared k v w) :
    w = BitVec.allOnes n ↔ ∀ i < n, ∃ j < k, v.getLsbD (i + j) = true := by
  constructor
  · rintro rfl i hi
    refine (h i).mp ?_
    rw [BitVec.getLsbD_allOnes, decide_eq_true hi]
  · intro hall
    refine BitVec.eq_of_getLsbD_eq fun i hi => ?_
    rw [BitVec.getLsbD_allOnes, decide_eq_true hi]
    exact (h i).mpr (hall i hi)

/-- **When everything below the highest bit is filled.**  There is no gap of `k` zeros there. -/
theorem Smeared.toNat_eq_iff (h : Smeared k v w) :
    w.toNat = 2 ^ v.toNat.size - 1 ↔
      ∀ i < v.toNat.size, ∃ j < k, v.toNat.testBit (i + j) = true := by
  constructor
  · intro hw i hi
    refine (h i).mp ?_
    rw [← BitVec.testBit_toNat, hw, Nat.testBit_two_pow_sub_one]
    exact decide_eq_true hi
  · intro hall
    refine Nat.eq_of_testBit_eq fun i => ?_
    rw [Nat.testBit_two_pow_sub_one, BitVec.testBit_toNat]
    by_cases hi : i < v.toNat.size
    · rw [decide_eq_true hi]
      exact (h i).mpr (hall i hi)
    · rw [decide_eq_false hi]
      refine Bool.eq_false_of_not_eq_true fun hbit => ?_
      obtain ⟨j, -, hj⟩ := (h i).mp hbit
      have hsmall : v.toNat < 2 ^ (i + j) :=
        Nat.size_le.mp ((not_lt.mp hi).trans (Nat.le_add_right i j))
      rw [← BitVec.testBit_toNat, Nat.testBit_lt_two_pow hsmall] at hj
      exact absurd hj Bool.false_ne_true

/-- **The smallest power of two above a number.** -/
theorem isLeast_two_pow_size (n : ℕ) : IsLeast {p | (∃ k, p = 2 ^ k) ∧ n < p} (2 ^ n.size) := by
  refine ⟨⟨⟨n.size, rfl⟩, Nat.lt_size_self n⟩, ?_⟩
  rintro p ⟨⟨k, rfl⟩, hlt⟩
  exact Nat.pow_le_pow_right Nat.two_pos (Nat.size_le.mpr hlt)

end BitSmear
end CCore
