import CCore.Geometry.Model
import CCore.Library.PlaneSegments

/-!
# The intersection of two segments

`vec2_int_vec2` computes the two parameters of the point that the lines have in common, by
Cramer's rule, and looks whether both are between zero and one.  If the cross product of the
vectors is not zero, this is all there is to it, and the shortcut for equal origins agrees with
it.

If it is zero, two different things can happen.  When both vectors have a second component, or
neither has, the quotients of the components are compared and the test for parallels holds.  When
only one has, the other vector is zero, and the test fails, because `0 / 0` is not equal to
anything.  Then one of the parameters is NaN, and so is the result; but for the shortcut, which
answers with the origin.
-/

namespace CCore
namespace Geometry

open PlaneSegments

variable {a u b v : ℚ × ℚ}

/-- A rational vector. -/
def toVec2 (p : ℚ × ℚ) : Vec2 := ⟨.fin p.1, .fin p.2⟩

/-! ## Arithmetic -/

theorem vec2Pdot_toVec2 (u v : ℚ × ℚ) : vec2Pdot (toVec2 u) (toVec2 v) = .fin (cross u v) :=
  F64.fin_sub_fin

theorem vec2Add_toVec2 (u v : ℚ × ℚ) : vec2Add (toVec2 u) (toVec2 v) = toVec2 (u + v) := rfl

theorem vec2Sub_toVec2 (u v : ℚ × ℚ) : vec2Sub (toVec2 u) (toVec2 v) = toVec2 (u - v) := by
  rw [vec2Sub, toVec2, toVec2, F64.fin_sub_fin, F64.fin_sub_fin]
  rfl

theorem vec2Mul_toVec2 (u : ℚ × ℚ) (t : ℚ) : vec2Mul (toVec2 u) (.fin t) = toVec2 (t • u) := by
  rw [vec2Mul, toVec2, F64.fin_mul_fin, F64.fin_mul_fin, mul_comm, mul_comm u.2]
  rfl

theorem vec2Equal_toVec2 (u v : ℚ × ℚ) : vec2Equal (toVec2 u) (toVec2 v) = true ↔ u = v := by
  rw [vec2Equal, Bool.and_eq_true, toVec2, toVec2, F64.fin_eq_fin, F64.fin_eq_fin, Prod.ext_iff]

/-- **The test for parallels.**  Neither vector has a second component, or both have and the cross
product is zero. -/
theorem vec2Parallel_toVec2 (u v : ℚ × ℚ) : vec2Parallel (toVec2 u) (toVec2 v) = true ↔
    (u.2 = 0 ∧ v.2 = 0) ∨ (u.2 ≠ 0 ∧ v.2 ≠ 0 ∧ cross u v = 0) := by
  rw [vec2Parallel, Bool.or_eq_true, Bool.and_eq_true, toVec2, toVec2, F64.zero_eq,
    F64.fin_eq_fin, F64.fin_eq_fin]
  refine or_congr_right' fun hzero => ?_
  by_cases hu : u.2 = 0
  · refine iff_of_false ?_ fun h => h.1 hu
    have hv : v.2 ≠ 0 := fun hv => hzero ⟨hu, hv⟩
    rw [hu, F64.fin_div_fin hv]
    by_cases hx : u.1 = 0
    · rw [hx, F64.zero_div_zero, F64.nan_eq]
      exact Bool.false_ne_true
    · rw [F64.fin_div_zero hx]
      exact Bool.false_ne_true
  · by_cases hv : v.2 = 0
    · refine iff_of_false ?_ fun h => h.2.1 hv
      rw [hv, F64.fin_div_fin hu]
      by_cases hx : v.1 = 0
      · rw [hx, F64.zero_div_zero, F64.eq_nan]
        exact Bool.false_ne_true
      · rw [F64.fin_div_zero hx]
        exact Bool.false_ne_true
    · rw [F64.fin_div_fin hu, F64.fin_div_fin hv, F64.fin_eq_fin, div_eq_div_iff hu hv, cross,
        sub_eq_zero, mul_comm v.1, and_iff_right hu, and_iff_right hv]

/-! ## Vectors that are not parallel -/

/-- **If the cross product is not zero**, the function answers by Cramer's rule. -/
theorem vec2IntVec2_of_ne_zero (h : cross u v ≠ 0) :
    vec2IntVec2 (toVec2 a) (toVec2 u) (toVec2 b) (toVec2 v) =
      if Meet a u b v then toVec2 (a + parameter a u b v • u) else vec2Null := by
  have hparallel : ¬ vec2Parallel (toVec2 u) (toVec2 v) = true := by
    rw [vec2Parallel_toVec2]
    rintro (⟨hu, hv⟩ | ⟨-, -, hcross⟩)
    · rw [cross, hu, hv, mul_zero, zero_mul, sub_zero] at h
      exact h rfl
    · exact h hcross
  rw [vec2IntVec2, if_neg hparallel]
  by_cases hab : a = b
  · obtain ⟨hmeet, hzero⟩ := meet_self (a := a) (u := u) (v := v)
    rw [if_pos ((vec2Equal_toVec2 a b).mpr hab), ← hab, if_pos hmeet, hzero, zero_smul, add_zero]
  · rw [if_neg fun hequal => hab ((vec2Equal_toVec2 a b).mp hequal)]
    simp only [vec2Sub_toVec2, vec2Pdot_toVec2, F64.fin_div_fin h,
      F64.fin_div_fin (cross_ne_zero_swap h), F64.zero_eq, F64.one_eq]
    have hta : cross (b - a) v / cross u v = parameter a u b v := rfl
    have htb : cross (a - b) u / cross v u = parameter b v a u := rfl
    rw [hta, htb]
    have hguard : ((F64.fin (parameter a u b v)).lt (.fin 0) ||
        (F64.fin 1).lt (.fin (parameter a u b v)) || (F64.fin (parameter b v a u)).lt (.fin 0) ||
        (F64.fin 1).lt (.fin (parameter b v a u))) = true ↔ ¬ Meet a u b v := by
      simp only [Bool.or_eq_true, F64.fin_lt_fin, Meet, not_and_or, not_le, or_assoc]
    by_cases hmeet : Meet a u b v
    · rw [if_neg fun hout => hguard.mp hout hmeet, if_pos hmeet, vec2Mul_toVec2, vec2Add_toVec2]
    · rw [if_pos (hguard.mpr hmeet), if_neg hmeet]

/-! ## Parallel vectors -/

theorem isNull_vec2Null : vec2Null.isNull = true := rfl

/-- **If the cross product is zero**, the function answers only to equal origins. -/
theorem vec2IntVec2_of_eq_zero (h : cross u v = 0) :
    (vec2IntVec2 (toVec2 a) (toVec2 u) (toVec2 b) (toVec2 v)).isNull = true ∨
      a = b ∧ vec2IntVec2 (toVec2 a) (toVec2 u) (toVec2 b) (toVec2 v) = toVec2 a := by
  rw [vec2IntVec2]
  by_cases hparallel : vec2Parallel (toVec2 u) (toVec2 v) = true
  · rw [if_pos hparallel]
    exact Or.inl rfl
  rw [if_neg hparallel]
  by_cases hab : a = b
  · rw [if_pos ((vec2Equal_toVec2 a b).mpr hab)]
    exact Or.inr ⟨hab, rfl⟩
  rw [if_neg fun hequal => hab ((vec2Equal_toVec2 a b).mp hequal)]
  refine Or.inl ?_
  simp only [vec2Sub_toVec2, vec2Pdot_toVec2]
  split
  · rfl
  -- one of the vectors is zero, and its first component times the parameter is NaN
  have hnan : F64.fin u.1 * (F64.fin (cross (b - a) v) / F64.fin (cross u v)) = .nan := by
    rw [h]
    rw [vec2Parallel_toVec2, not_or] at hparallel
    rw [cross] at h
    by_cases hu : u.2 = 0
    · have hv : v.2 ≠ 0 := fun hv => hparallel.1 ⟨hu, hv⟩
      rw [hu, zero_mul, sub_zero] at h
      rw [(mul_eq_zero.mp h).resolve_right hv]
      exact F64.zero_mul_div_zero _
    · have hv : v.2 = 0 := by
        by_contra hv
        exact hparallel.2 ⟨hu, hv, h⟩
      rw [hv, mul_zero, zero_sub, neg_eq_zero] at h
      rw [cross, hv, (mul_eq_zero.mp h).resolve_left hu, mul_zero, mul_zero, sub_zero,
        F64.zero_div_zero, F64.mul_nan]
  show F64.isNan (F64.fin a.1 + F64.fin u.1 * _) = true
  rw [hnan, F64.add_nan]
  rfl

/-! ## Soundness and completeness -/

/-- **The intersection of two segments is sound and complete.**  A result that is not null is a
point of both segments.  If the cross product is not zero, the result is null only when they have
no point in common, and it does not depend on the order of the segments. -/
theorem vec2IntVec2_sound_complete (a u b v : ℚ × ℚ) :
    ((vec2IntVec2 (toVec2 a) (toVec2 u) (toVec2 b) (toVec2 v)).isNull = false →
      ∃ p, vec2IntVec2 (toVec2 a) (toVec2 u) (toVec2 b) (toVec2 v) = toVec2 p ∧
        OnSegment a u p ∧ OnSegment b v p) ∧
    (cross u v ≠ 0 →
      ((vec2IntVec2 (toVec2 a) (toVec2 u) (toVec2 b) (toVec2 v)).isNull = true →
        ¬ ∃ p, OnSegment a u p ∧ OnSegment b v p) ∧
      vec2IntVec2 (toVec2 b) (toVec2 v) (toVec2 a) (toVec2 u) =
        vec2IntVec2 (toVec2 a) (toVec2 u) (toVec2 b) (toVec2 v)) := by
  refine ⟨fun hnull => ?_, fun hcross => ⟨fun hnull => ?_, ?_⟩⟩
  · by_cases hcross : cross u v = 0
    · rcases vec2IntVec2_of_eq_zero (a := a) (b := b) hcross with hnull' | ⟨rfl, hresult⟩
      · rw [hnull] at hnull'
        exact nomatch hnull'
      · exact ⟨a, hresult, onSegment_origin a u, onSegment_origin a v⟩
    · rw [vec2IntVec2_of_ne_zero hcross] at hnull ⊢
      by_cases hmeet : Meet a u b v
      · rw [if_pos hmeet]
        exact ⟨_, rfl, (onSegment_common_iff hcross).mpr ⟨hmeet, rfl⟩⟩
      · rw [if_neg hmeet, isNull_vec2Null] at hnull
        exact nomatch hnull
  · rintro ⟨p, hp⟩
    rw [vec2IntVec2_of_ne_zero hcross, if_pos ((onSegment_common_iff hcross).mp hp).1] at hnull
    exact nomatch hnull
  · rw [vec2IntVec2_of_ne_zero hcross, vec2IntVec2_of_ne_zero (cross_ne_zero_swap hcross),
      add_parameter_smul hcross]
    by_cases hmeet : Meet a u b v
    · rw [if_pos hmeet, if_pos (meet_swap.mpr hmeet)]
    · rw [if_neg hmeet, if_neg fun hswap => hmeet (meet_swap.mp hswap)]

/-- A vertical and a horizontal segment. -/
theorem vec2IntVec2_sound_complete_cross :
    ∃ p, vec2IntVec2 (toVec2 (1, 0)) (toVec2 (0, 2)) (toVec2 (0, 1)) (toVec2 (3, 0)) = toVec2 p ∧
      OnSegment (1, 0) (0, 2) p ∧ OnSegment (0, 1) (3, 0) p :=
  (vec2IntVec2_sound_complete (1, 0) (0, 2) (0, 1) (3, 0)).1 (by decide +kernel)

end Geometry
end CCore
