import Mathlib.Algebra.Order.Field.Basic
import Mathlib.Algebra.Order.Ring.Abs
import Mathlib.Data.List.Basic
import Mathlib.Tactic.Linarith

/-!
# Square roots in an ordered field

A function is a square root if it returns, for every number that is not negative, the number
that is not negative and whose square is the given one.  With such a function the solutions of
`(d + k) * (d + k) = delta` are found by the sign of `delta`: none, one, or two.  `solutions` lists
them in increasing order.
-/

namespace CCore
namespace SquareRoots

variable {K : Type*} [Field K] [LinearOrder K]

/-- A square root of the numbers that are not negative. -/
def IsSqrt (sqrt : K → K) : Prop := ∀ x, 0 ≤ x → 0 ≤ sqrt x ∧ sqrt x * sqrt x = x

/-- The solutions of `(d + k) * (d + k) = delta`. -/
def solutions (sqrt : K → K) (k delta : K) : List K :=
  if delta < 0 then []
  else if delta = 0 then [-k]
  else [-k + -1 * sqrt delta, -k + 1 * sqrt delta]

variable {sqrt : K → K} {k delta d x r : K}

theorem length_solutions_le : (solutions sqrt k delta).length ≤ 2 := by
  rw [solutions]
  split
  · exact Nat.zero_le _
  · split
    · exact Nat.le_succ 1
    · exact le_rfl

/-- The square root of a positive number is positive. -/
theorem IsSqrt.pos (h : IsSqrt sqrt) (hx : 0 < x) : 0 < sqrt x := by
  obtain ⟨hnonneg, hsq⟩ := h x hx.le
  refine lt_of_le_of_ne hnonneg fun hzero => ?_
  rw [← hzero, zero_mul] at hsq
  exact hx.ne hsq

variable [IsStrictOrderedRing K]

/-- A square root is the absolute value of a number exactly if its argument is the square. -/
theorem IsSqrt.eq_abs_iff (h : IsSqrt sqrt) (hx : 0 ≤ x) : sqrt x = |r| ↔ x = r * r := by
  obtain ⟨hnonneg, hsq⟩ := h x hx
  constructor
  · intro heq
    rw [← hsq, heq, abs_mul_abs_self]
  · intro heq
    rw [← abs_of_nonneg hnonneg]
    exact abs_eq_abs.mpr (mul_self_eq_mul_self_iff.mp (hsq.trans heq))

/-- **These are the solutions.** -/
theorem IsSqrt.mem_solutions (h : IsSqrt sqrt) :
    d ∈ solutions sqrt k delta ↔ (d + k) * (d + k) = delta := by
  rw [solutions]
  split
  · next hneg =>
    refine iff_of_false List.not_mem_nil fun heq => ?_
    exact absurd (heq ▸ mul_self_nonneg (d + k)) (not_le.mpr hneg)
  · next hnonneg =>
    split
    · next hzero =>
      rw [hzero, mul_self_eq_zero, List.mem_singleton, eq_neg_iff_add_eq_zero]
    · obtain ⟨-, hsq⟩ := h delta (not_lt.mp hnonneg)
      conv_rhs => rw [← hsq, mul_self_eq_mul_self_iff]
      rw [List.mem_pair, or_comm]
      refine or_congr ?_ ?_
      · rw [one_mul, neg_add_eq_sub, eq_sub_iff_add_eq]
      · rw [neg_one_mul, ← neg_add, eq_neg_iff_add_eq_zero, eq_neg_iff_add_eq_zero, add_assoc]

/-- **In increasing order.** -/
theorem IsSqrt.pairwise_solutions (h : IsSqrt sqrt) :
    (solutions sqrt k delta).Pairwise (· < ·) := by
  rw [solutions]
  split
  · exact List.Pairwise.nil
  · next hnonneg =>
    split
    · exact List.pairwise_singleton _ _
    · next hzero =>
      have hpos := h.pos (lt_of_le_of_ne (not_lt.mp hnonneg) (Ne.symm hzero))
      refine List.pairwise_pair.mpr ?_
      linarith

end SquareRoots
end CCore
