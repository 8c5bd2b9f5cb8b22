import CCore.RunLoop.Registration

/-!
# Which frequencies have a period

`cc_run_loop_register` asks only that the frequency be positive.  The period is then `1e6 / freq`
microseconds, with the fraction dropped, and it has to be two things at once: a divisor, for the
first countdown is `rand() % interval`, and a number of type `int64_t`.

Both can fail.  A program that is to run more than once in a microsecond has the period zero, and
the division ends the program.  One that is to run so rarely that sixty-three bits do not count the
microseconds in between has a period to which the conversion gives no value.  `usablePeriod_iff`
says that between the two limits everything is as it should be.
-/

namespace CCore
namespace RunLoop

variable {s : Loop} {entry ticker data : Addr} {freq : ℚ} {rand : ℕ}

/-- **A period that can be used.**  The registration comes to its end, the interval of the new
entry is the integer part of `1e6 / freq`, it is at least one, and the first countdown is below
it. -/
def UsablePeriod (s : Loop) (entry ticker : Addr) (freq : ℚ) (data : Addr) (rand : ℕ) : Prop :=
  ∃ s', ccRunLoopRegister s entry ticker freq data rand = some s' ∧
    (s'.entry entry).interval.toInt = ⌊1000000 / freq⌋ ∧
    1 ≤ (s'.entry entry).interval.toInt ∧
    ((s'.entry entry).acc.toNat : ℤ) < (s'.entry entry).interval.toInt

/-- The conversion to `int64_t`, where it is defined. -/
theorem period_eq_some_iff {interval : Int64} (hfreq : 0 < freq) :
    period freq = some interval ↔ interval.toInt = ⌊1000000 / freq⌋ := by
  have hfloor : 0 ≤ ⌊1000000 / freq⌋ := Int.floor_nonneg.mpr (by positivity)
  rw [period]
  by_cases hlt : ⌊1000000 / freq⌋ < 2 ^ 63
  · have hint : (Int64.ofInt ⌊1000000 / freq⌋).toInt = ⌊1000000 / freq⌋ :=
      Int64.toInt_ofInt_of_le (le_trans (by norm_num) hfloor) hlt
    rw [if_pos hlt, Option.some.injEq, ← Int64.toInt_inj, hint, eq_comm]
  · rw [if_neg hlt]
    refine iff_of_false (Option.some_ne_none interval).symm fun heq => hlt ?_
    rw [← heq]
    exact interval.toInt_lt

/-- The frequencies at which the integer part is a divisor of type `int64_t`. -/
theorem floor_usable_iff (hfreq : 0 < freq) :
    (1 ≤ ⌊1000000 / freq⌋ ∧ ⌊1000000 / freq⌋ < 2 ^ 63) ↔
      1000000 / 2 ^ 63 < freq ∧ freq ≤ 1000000 := by
  have hlow : 1 ≤ ⌊1000000 / freq⌋ ↔ freq ≤ 1000000 := by
    rw [Int.le_floor, Int.cast_one, le_div_iff₀ hfreq, one_mul]
  have hhigh : ⌊1000000 / freq⌋ < 2 ^ 63 ↔ 1000000 / 2 ^ 63 < freq := by
    rw [Int.floor_lt, div_lt_iff₀ hfreq, div_lt_iff₀ (by norm_num), mul_comm]
    norm_num
  rw [hlow, hhigh, and_comm]

/-- **Which frequencies can be registered.**  The new entry, whose address `cc_alloc` has
returned, is in no use yet. -/
theorem usablePeriod_iff (hticker : ticker ≠ null) (hfreq : 0 < freq)
    (hentry : entry ∉ null :: s.programs :: s.registered) :
    UsablePeriod s entry ticker freq data rand ↔
      1000000 / 2 ^ 63 < freq ∧ freq ≤ 1000000 := by
  rw [← floor_usable_iff hfreq]
  constructor
  · rintro ⟨s', -, hinterval, hpos, -⟩
    refine ⟨hinterval ▸ hpos, ?_⟩
    rw [← hinterval]
    exact Int64.toInt_lt _
  · rintro ⟨hpos, hlt⟩
    obtain ⟨interval, hinterval⟩ : ∃ interval : Int64, interval.toInt = ⌊1000000 / freq⌋ :=
      ⟨Int64.ofInt _, Int64.toInt_ofInt_of_le (le_trans (by norm_num) hpos) hlt⟩
    rw [← hinterval] at hpos
    have hnonzero : interval ≠ 0 := fun hzero => absurd (hzero ▸ hpos) (by decide)
    obtain ⟨s', hs', hnew⟩ := register_of_period hticker hfreq hentry
      ((period_eq_some_iff hfreq).mpr hinterval) hnonzero data rand
    refine ⟨s', hs', ?_⟩
    rw [hnew]
    refine ⟨hinterval, hpos, ?_⟩
    rw [toNat_ofInt_emod hpos]
    exact Int.emod_lt_of_pos _ hpos

theorem usablePeriod_iff_hundredThousand :
    UsablePeriod (ccRunLoopNew 1000 (fun _ => ⟨0, 0, 0, 0⟩) (fun _ => 0) (fun _ => 0) 0) 2000 3000
        100000 4000 5 ↔
      (1000000 / 2 ^ 63 : ℚ) < 100000 ∧ (100000 : ℚ) ≤ 1000000 :=
  usablePeriod_iff (by decide) (by norm_num) (by decide)

/-- Twice in a microsecond: the assertion holds, and `rand()` is divided by zero. -/
theorem not_usablePeriod_twoMillion :
    (0 : ℚ) < 2000000 ∧ ccRunLoopRegister (ccRunLoopNew 1000 (fun _ => ⟨0, 0, 0, 0⟩) (fun _ => 0)
        (fun _ => 0) 0) 2000 3000 2000000 4000 5 = none ∧
      ¬UsablePeriod (ccRunLoopNew 1000 (fun _ => ⟨0, 0, 0, 0⟩) (fun _ => 0) (fun _ => 0) 0) 2000
        3000 2000000 4000 5 := by
  have hfreq : (0 : ℚ) < 2000000 := by norm_num
  have hperiod : period 2000000 = some 0 := by
    have hfloor : ⌊(1000000 / 2000000 : ℚ)⌋ = 0 := by norm_num
    exact (period_eq_some_iff hfreq).mpr hfloor.symm
  have hregister : ccRunLoopRegister (ccRunLoopNew 1000 (fun _ => ⟨0, 0, 0, 0⟩) (fun _ => 0)
      (fun _ => 0) 0) 2000 3000 2000000 4000 5 = none := by
    rw [ccRunLoopRegister, hperiod]
    rfl
  refine ⟨hfreq, hregister, ?_⟩
  rintro ⟨s', hs', -⟩
  exact Option.some_ne_none _ (hs'.symm.trans hregister)

end RunLoop
end CCore
