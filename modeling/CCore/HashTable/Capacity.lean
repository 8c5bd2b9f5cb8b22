import CCore.HashTable.FirstWins
import CCore.HashTable.Histories
import CCore.Library.BitSmear

/-!
# The capacity of a table

`cctable_init` rounds its count with `next_power_of_2`, and every access masks the hash of its
key with the capacity less one.  Where the capacity is at least one, a masked hash is an index
of the array.  Where it is zero, the mask has all its bits, and no index is in the array, which
has no buckets.

So all depends on when `next_power_of_2` is zero.  It takes one from its argument, smears the
bits to the right in five rounds and adds one.  The five distances are those for a word of
thirty-two bits: they carry a bit over thirty-two places, and a `size_t` has sixty-four.  The
result is zero if the smeared word has all its bits, and this takes a highest bit and no gap of
thirty-two zeros (`nextPowerOf2_pos_iff`).  The smallest such count is `0`, which the
subtraction wraps.
-/

namespace CCore
namespace HashTable

open BitSmear

/-! ## Rounding -/

/-- `v` in `next_power_of_2`, before one is added to it. -/
def smear (v : UInt64) : UInt64 :=
  let v := v - 1
  let v := v ||| v >>> 1
  let v := v ||| v >>> 2
  let v := v ||| v >>> 4
  let v := v ||| v >>> 8
  v ||| v >>> 16

theorem nextPowerOf2_eq (v : UInt64) : nextPowerOf2 v = smear v + 1 := rfl

/-- The five rounds. -/
theorem smeared_smear (v : UInt64) : Smeared 32 (v - 1).toBitVec (smear v).toBitVec :=
  (smeared_one (v - 1).toBitVec).double.double.double.double.double

/-- The count, less one, has thirty-two zeros in a row below its highest bit. -/
def HasGap (count : UInt64) : Prop :=
  ∃ i ≤ 31, ∀ j < 32, (count - 1).toNat.testBit (i + j) = false

theorem nextPowerOf2_eq_zero_iff (v : UInt64) :
    nextPowerOf2 v = 0 ↔ ∀ i < 64, ∃ j < 32, (v - 1).toNat.testBit (i + j) = true := by
  have hones : nextPowerOf2 v = 0 ↔ (smear v).toBitVec = BitVec.allOnes 64 := by
    rw [nextPowerOf2_eq]
    constructor
    · intro h
      have hneg : smear v = -1 := by
        rw [← UInt64.add_sub_cancel (smear v) 1, h]
        rfl
      rw [hneg]
      rfl
    · intro h
      have hneg : smear v = -1 := UInt64.toBitVec_inj.mp (h.trans rfl)
      rw [hneg]
      rfl
  exact hones.trans (smeared_smear v).eq_allOnes_iff

/-- The last bit tells whether the subtraction has left a number below `2 ^ 63`. -/
theorem testBit_sub_one_iff (v : UInt64) :
    (v - 1).toNat.testBit 63 = false ↔ 1 ≤ v.toNat ∧ v.toNat ≤ 2 ^ 63 := by
  have hsmall : (v - 1).toNat.testBit 63 = false ↔ (v - 1).toNat < 2 ^ 63 := by
    constructor
    · intro h
      refine Nat.lt_pow_two_of_testBit _ fun i hi => ?_
      rcases eq_or_lt_of_le hi with rfl | hlt
      · exact h
      · exact Nat.testBit_lt_two_pow
          ((v - 1).toNat_lt.trans_le (Nat.pow_le_pow_right Nat.two_pos hlt))
    · exact Nat.testBit_lt_two_pow
  have hsub : (v - 1).toNat = (2 ^ 64 - 1 + v.toNat) % 2 ^ 64 := UInt64.toNat_sub v 1
  have hlt : v.toNat < 2 ^ 64 := v.toNat_lt
  rw [hsmall, hsub]
  omega

/-- **When the rounding does not give zero**: for a count from `1` to `2 ^ 63`, and beyond that
where the count, less one, has a gap. -/
theorem nextPowerOf2_pos_iff (v : UInt64) :
    1 ≤ nextPowerOf2 v ↔ (1 ≤ v.toNat ∧ v.toNat ≤ 2 ^ 63) ∨ HasGap v := by
  have hpos : 1 ≤ nextPowerOf2 v ↔ ¬ nextPowerOf2 v = 0 := by
    rw [UInt64.le_iff_toNat_le, UInt64.toNat_one, Nat.one_le_iff_ne_zero, ne_eq,
      ← UInt64.toNat_zero, UInt64.toNat_inj]
  rw [hpos, nextPowerOf2_eq_zero_iff, ← testBit_sub_one_iff]
  constructor
  · intro hnot
    push Not at hnot
    obtain ⟨i, hi, hzeros⟩ := hnot
    have hzeros : ∀ j < 32, (v - 1).toNat.testBit (i + j) = false := fun j hj =>
      Bool.eq_false_of_not_eq_true (hzeros j hj)
    by_cases hlow : i ≤ 31
    · exact Or.inr ⟨i, hlow, hzeros⟩
    · -- the run of zeros reaches the last bit
      have hlast := hzeros (63 - i) (by omega)
      rw [Nat.add_sub_cancel' (Nat.le_of_lt_succ hi)] at hlast
      exact Or.inl hlast
  · rintro (hlast | ⟨i, hi, hzeros⟩) hones
    · obtain ⟨j, hj, hbit⟩ := hones 63 (by decide)
      rcases Nat.eq_zero_or_pos j with rfl | hj
      · rw [Nat.add_zero, hlast] at hbit
        exact absurd hbit Bool.false_ne_true
      · have hlt : (v - 1).toNat < 2 ^ (63 + j) :=
          (v - 1).toNat_lt.trans_le (Nat.pow_le_pow_right Nat.two_pos (Nat.add_le_add_left hj 63))
        rw [Nat.testBit_lt_two_pow hlt] at hbit
        exact absurd hbit Bool.false_ne_true
    · obtain ⟨j, hj, hbit⟩ := hones i (hi.trans_lt (by decide))
      rw [hzeros j hj] at hbit
      exact absurd hbit Bool.false_ne_true

/-! ## Access -/

/-- **An access under a key stays inside the array**: the index is one of the array, and the
functions that go through the bucket, of the kind that the table is of, find a list there. -/
structure Inside (t : Cctable) (key : CString) : Prop where
  index : bucketIdx t.capacity key < t.capacity.toNat
  insert : ∀ object, (cctableInsert t key object).isSome
  getOne : ∀ table, t = .single table → (cctableGetOne t key).isSome
  getMany : ∀ table, t = .many table → (cctableGetMany t key).isSome

theorem WellPlaced.inside_single {t : Table Addr} (h : WellPlaced t) (key : CString) :
    Inside (.single t) key := by
  obtain ⟨b, hb⟩ := h.exists_bucket key
  refine ⟨bucketIdx_lt h.capacity_pos key, fun object => ?_, fun _ _ => ?_, fun _ hne => ?_⟩
  · rw [cctableInsert, cctableInsertSingle, hb]
    rfl
  · rw [cctableGetOne, hb]
    rfl
  · cases hne

theorem WellPlaced.inside_many {t : Table (List Addr)} (h : WellPlaced t) (key : CString) :
    Inside (.many t) key := by
  obtain ⟨b, hb⟩ := h.exists_bucket key
  refine ⟨bucketIdx_lt h.capacity_pos key, fun object => ?_, fun _ hne => ?_, fun _ _ => ?_⟩
  · rw [cctableInsert, cctableInsertMany, hb]
    rfl
  · cases hne
  · rw [cctableGetMany, hb]
    rfl

theorem cctableInit_capacity (count : UInt64) (allowMultiple : Bool) :
    (cctableInit count allowMultiple).capacity = nextPowerOf2 count := by
  cases allowMultiple with
  | false => rfl
  | true => rfl

/-- A table of either kind that has a bucket, after any insertions. -/
theorem inside_of_insertAll {count : UInt64} (h : 1 ≤ nextPowerOf2 count) (allowMultiple : Bool)
    {insertions : List (CString × Addr)} {t : Cctable}
    (ht : insertAll (cctableInit count allowMultiple) insertions = some t) (key : CString) :
    Inside t key := by
  cases allowMultiple with
  | false =>
    obtain ⟨t', ht', hfirst⟩ := insertAll_firstWins (firstWins_init h) insertions
    obtain rfl : t = .single t' := Option.some.inj (ht.symm.trans ht')
    exact hfirst.wellPlaced.inside_single key
  | true =>
    obtain ⟨t', ht', hhist⟩ := insertAll_histories (histories_init h) insertions
    obtain rfl : t = .many t' := Option.some.inj (ht.symm.trans ht')
    exact hhist.wellPlaced.inside_many key

/-- **When bucket selection stays inside the array.**  For a table of either kind, made for any
count, the accesses under every key stay inside, after any insertions, if and only if the count
is from `1` to `2 ^ 63`, or else has a gap.  For any other count they leave it at once. -/
theorem cctable_inside_iff (count : UInt64) (allowMultiple : Bool) :
    (∀ insertions t, insertAll (cctableInit count allowMultiple) insertions = some t →
      ∀ key, Inside t key) ↔
    (1 ≤ count.toNat ∧ count.toNat ≤ 2 ^ 63) ∨
      ∃ i ≤ 31, ∀ j < 32, (count - 1).toNat.testBit (i + j) = false := by
  rw [← HasGap, ← nextPowerOf2_pos_iff]
  constructor
  · intro h
    have hindex := (h [] _ rfl ⟨[], List.not_mem_nil⟩).index
    rw [cctableInit_capacity] at hindex
    exact UInt64.le_iff_toNat_le.mpr (Nat.one_le_of_lt hindex)
  · exact fun h _ _ ht key => inside_of_insertAll h allowMultiple ht key

/-- A table that is made for no objects. -/
theorem not_inside_count_zero :
    ¬ ∀ insertions t, insertAll (cctableInit 0 false) insertions = some t →
      ∀ key, Inside t key := by
  intro h
  have hindex := (h [] _ rfl ⟨[97], by decide⟩).index
  revert hindex
  decide

end HashTable
end CCore
