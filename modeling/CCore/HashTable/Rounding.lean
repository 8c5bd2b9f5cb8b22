import CCore.HashTable.Capacity
import CCore.HashTable.Hashing

/-!
# Rounding up to a power of two

A count from `1` to `2 ^ 63` gives a table with buckets, and no access leaves its array.  But the
capacity should be more than positive: it should be the smallest power of two that is not below
the count, because the buckets are selected with the mask `capacity - 1`, and where this mask has
a zero below its highest bit, the buckets with a one there are never selected.

The rounds of `next_power_of_2` carry each bit over thirty-two places.  Of a count up to `2 ^ 32`
that is all there is to fill.  Beyond it, a zero that has no one within the thirty-two places
above it stays a zero.  So the rounding is exact if and only if the count, less one, has no
thirty-two zeros in a row below its highest bit (`isLeast_nextPowerOf2_iff`), and the first count
for which it is not is `2 ^ 32 + 1`.
-/

namespace CCore
namespace HashTable

open BitSmear

variable {count : UInt64}

theorem toNat_sub_one (hpos : 1 ≤ count.toNat) : (count - 1).toNat = count.toNat - 1 :=
  UInt64.toNat_sub_of_le count 1 (UInt64.le_iff_toNat_le.mpr hpos)

theorem sub_one_lt_iff {n p : ℕ} (hpos : 1 ≤ n) : n - 1 < p ↔ n ≤ p :=
  (Nat.sub_lt_iff_lt_add hpos).trans Nat.lt_add_one_iff

/-- The addition that ends the rounding does not wrap. -/
theorem nextPowerOf2_toNat (hpos : 1 ≤ count.toNat) (hle : count.toNat ≤ 2 ^ 63) :
    (nextPowerOf2 count).toNat = (smear count).toNat + 1 := by
  have hne := UInt64.le_iff_toNat_le.mp ((nextPowerOf2_pos_iff count).mpr (Or.inl ⟨hpos, hle⟩))
  have hlt := (smear count).toNat_lt
  rw [nextPowerOf2_eq, UInt64.toNat_add, UInt64.toNat_one] at hne ⊢
  omega

/-- **When the rounding is exact.** -/
theorem isLeast_nextPowerOf2_iff (hpos : 1 ≤ count.toNat) (hle : count.toNat ≤ 2 ^ 63) :
    IsLeast {p | (∃ k, p = 2 ^ k) ∧ count.toNat ≤ p} (nextPowerOf2 count).toNat ↔
      ∀ i < (count.toNat - 1).size, ∃ j < 32, (count.toNat - 1).testBit (i + j) = true := by
  have hset : {p | (∃ k, p = 2 ^ k) ∧ count.toNat ≤ p} =
      {p | (∃ k, p = 2 ^ k) ∧ count.toNat - 1 < p} := by
    ext p
    exact and_congr_right fun _ => (sub_one_lt_iff hpos).symm
  have hsub : (count - 1).toBitVec.toNat = count.toNat - 1 := toNat_sub_one hpos
  have hfilled := (smeared_smear count).toNat_eq_iff
  have hpow : 0 < 2 ^ (count.toNat - 1).size := Nat.two_pow_pos _
  rw [hsub] at hfilled
  rw [← hfilled, hset, nextPowerOf2_toNat hpos hle]
  constructor
  · intro hleast
    exact Nat.eq_sub_of_add_eq (hleast.unique (isLeast_two_pow_size _))
  · intro hsmear
    have hcapacity : (smear count).toNat + 1 = 2 ^ (count.toNat - 1).size := by
      rw [UInt64.toNat_toBitVec] at hsmear
      omega
    rw [hcapacity]
    exact isLeast_two_pow_size _

/-- **The capacity that a count asks for**: the smallest power of two that is not below it, which
makes the mask all ones and every bucket the bucket of some key. -/
structure CapacityExact (count : UInt64) : Prop where
  least : IsLeast {p | (∃ k, p = 2 ^ k) ∧ count.toNat ≤ p} (nextPowerOf2 count).toNat
  mask : ∀ allowMultiple, ∃ k, (cctableInit count allowMultiple).capacity.toNat = 2 ^ k ∧
    ((cctableInit count allowMultiple).capacity - 1).toNat = 2 ^ k - 1
  selectable : ∀ allowMultiple, ∀ i < (cctableInit count allowMultiple).capacity.toNat,
    ∃ key, bucketIdx (cctableInit count allowMultiple).capacity key = i

/-- With a mask of ones a bucket is selected by its own number, and this is the hash of a key. -/
theorem exists_bucketIdx {capacity : UInt64} {k i : ℕ}
    (hmask : (capacity - 1).toNat = 2 ^ k - 1) (hi : i < 2 ^ k) (hi64 : i < 2 ^ 64) :
    ∃ key, bucketIdx capacity key = i := by
  obtain ⟨key, hkey⟩ := hashString_surjective (UInt64.ofNat i)
  refine ⟨key, ?_⟩
  rw [bucketIdx, hkey, UInt64.toNat_and, hmask, UInt64.toNat_ofNat_of_lt' hi64,
    Nat.and_two_pow_sub_one_eq_mod, Nat.mod_eq_of_lt hi]

/-- All that is asked of the capacity follows from the rounding. -/
theorem capacityExact_of_isLeast
    (h : IsLeast {p | (∃ k, p = 2 ^ k) ∧ count.toNat ≤ p} (nextPowerOf2 count).toNat) :
    CapacityExact count := by
  obtain ⟨k, hk⟩ := h.1.1
  have hpos : 1 ≤ (nextPowerOf2 count).toNat := by
    rw [hk]
    exact Nat.one_le_two_pow
  have hmask : (nextPowerOf2 count - 1).toNat = 2 ^ k - 1 := by
    rw [toNat_sub_one hpos, hk]
  refine ⟨h, fun allowMultiple => ?_, fun allowMultiple i hi => ?_⟩
  · rw [cctableInit_capacity]
    exact ⟨k, hk, hmask⟩
  · rw [cctableInit_capacity] at hi ⊢
    exact exists_bucketIdx hmask (hi.trans_eq hk) (hi.trans (UInt64.toNat_lt _))

/-- Up to `2 ^ 32` there is no room for a gap. -/
theorem capacityExact_of_le (hpos : 1 ≤ count.toNat) (hle : count.toNat ≤ 2 ^ 32) :
    CapacityExact count := by
  refine capacityExact_of_isLeast ((isLeast_nextPowerOf2_iff hpos (hle.trans (by decide))).mpr ?_)
  intro i hi
  by_contra hnot
  push Not at hnot
  refine absurd (Nat.lt_size.mp hi) (not_le.mpr (Nat.lt_pow_two_of_testBit _ fun j hj => ?_))
  rcases lt_or_ge j 32 with hlow | hhigh
  · have hzero := hnot (j - i) (by omega)
    rw [Nat.add_sub_cancel' hj] at hzero
    exact Bool.eq_false_of_not_eq_true hzero
  · have hsmall : count.toNat - 1 < 2 ^ 32 := (sub_one_lt_iff hpos).mpr hle
    exact Nat.testBit_lt_two_pow (hsmall.trans_le (Nat.pow_le_pow_right Nat.two_pos hhigh))

/-- **When the capacity is exact.**  For a count from `1` to `2 ^ 63`, the capacity is the smallest
power of two that is not below the count, with a mask of ones and every bucket selectable, if and
only if the count, less one, has no thirty-two zeros in a row below its highest bit. -/
theorem capacityExact_iff (count : UInt64) (hpos : 1 ≤ count.toNat) (hle : count.toNat ≤ 2 ^ 63) :
    CapacityExact count ↔
      ∀ i < (count.toNat - 1).size, ∃ j < 32, (count.toNat - 1).testBit (i + j) = true := by
  rw [← isLeast_nextPowerOf2_iff hpos hle]
  exact ⟨CapacityExact.least, capacityExact_of_isLeast⟩

/-- A count of the full width, with ones all the way down. -/
theorem capacityExact_twoPow63 : CapacityExact 0x8000000000000000 :=
  (capacityExact_iff 0x8000000000000000 (by decide) (by decide)).mpr (by decide +kernel)

/-- One object more than thirty-two bits can count: the capacity is `2 ^ 33 - 1`. -/
theorem not_capacityExact_twoPow32_add_one : ¬ CapacityExact 0x100000001 := by
  rintro ⟨⟨⟨⟨k, hk⟩, -⟩, -⟩, -, -⟩
  have hcapacity : (nextPowerOf2 0x100000001).toNat = 8589934591 := rfl
  rw [hcapacity] at hk
  cases k with
  | zero => exact absurd hk (by decide)
  | succ k =>
    rw [Nat.pow_succ] at hk
    omega

end HashTable
end CCore
