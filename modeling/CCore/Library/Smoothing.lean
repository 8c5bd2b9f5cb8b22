import Mathlib.Algebra.Order.Field.Basic
import Mathlib.Tactic.Linarith
import Mathlib.Tactic.Ring

/-!
# Smoothing and clamping

A first-order filter moves its value towards a sample by some part of the way.  As long as this
part is between zero and one, the new value is between the old one and the sample, whatever the
parts of the other steps are; so the value never leaves the bounds of the samples.

A value that is clamped is within the bounds of the clamp, wherever it was before.
-/

namespace CCore
namespace Smoothing

variable {K : Type*} [LinearOrder K]

/-- The value, or the bound that it has passed. -/
def clamp (v lo hi : K) : K := if lo < v then (if v < hi then v else hi) else lo

theorem clamp_mem {v lo hi : K} (h : lo ≤ hi) : lo ≤ clamp v lo hi ∧ clamp v lo hi ≤ hi := by
  rw [clamp]
  split
  · next hlo =>
    split
    · next hhi => exact ⟨hlo.le, hhi.le⟩
    · exact ⟨h, le_rfl⟩
  · exact ⟨le_rfl, h⟩

variable [Field K]

/-- The value, moved towards a sample. -/
def smooth (value sample part : K) : K := value + (sample - value) * part

variable [IsStrictOrderedRing K] {value sample part lo hi : K}

/-- **A smoothed value stays within the bounds.** -/
theorem smooth_mem (hvalue : lo ≤ value ∧ value ≤ hi) (hsample : lo ≤ sample ∧ sample ≤ hi)
    (hpart : 0 ≤ part ∧ part ≤ 1) :
    lo ≤ smooth value sample part ∧ smooth value sample part ≤ hi := by
  have hmix : smooth value sample part = (1 - part) * value + part * sample := by
    rw [smooth]
    ring
  have hrest : 0 ≤ 1 - part := sub_nonneg.mpr hpart.2
  rw [hmix]
  constructor
  · calc lo = (1 - part) * lo + part * lo := by ring
      _ ≤ (1 - part) * value + part * sample :=
        add_le_add (mul_le_mul_of_nonneg_left hvalue.1 hrest)
          (mul_le_mul_of_nonneg_left hsample.1 hpart.1)
  · calc (1 - part) * value + part * sample ≤ (1 - part) * hi + part * hi :=
        add_le_add (mul_le_mul_of_nonneg_left hvalue.2 hrest)
          (mul_le_mul_of_nonneg_left hsample.2 hpart.1)
      _ = hi := by ring

/-- The absolute value of a number is at most that of the larger of two bounds. -/
theorem abs_le_of_mem {bound : K} (hvalue : lo ≤ value ∧ value ≤ hi) (hlo : |lo| ≤ bound)
    (hhi : |hi| ≤ bound) : |value| ≤ bound :=
  abs_le.mpr ⟨(abs_le.mp hlo).1.trans hvalue.1, hvalue.2.trans (abs_le.mp hhi).2⟩

end Smoothing
end CCore
