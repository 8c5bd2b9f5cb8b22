import Mathlib.Algebra.Order.Field.Basic
import Mathlib.Algebra.Module.Prod
import Mathlib.Tactic.LinearCombination
import Mathlib.Tactic.Ring

/-!
# Two segments in the plane

A segment is given by its origin and a vector, and its points by a parameter between zero and
one.  If the cross product of the two vectors is not zero, the lines of two segments have exactly
one point in common, and both of its parameters are quotients of cross products (`common_iff`).
So the segments meet exactly if both quotients are between zero and one.
-/

namespace CCore
namespace PlaneSegments

variable {K : Type*} [Field K] {a u b v p q : K × K}

/-- The cross product of two vectors. -/
def cross (u v : K × K) : K := u.1 * v.2 - u.2 * v.1

theorem cross_swap (u v : K × K) : cross v u = -cross u v := by
  rw [cross, cross]
  ring

theorem cross_ne_zero_swap (h : cross u v ≠ 0) : cross v u ≠ 0 := by
  rw [cross_swap]
  exact neg_ne_zero.mpr h

/-- The parameter, on the line through `a`, of the point in common with the line through `b`. -/
def parameter (a u b v : K × K) : K := cross (b - a) v / cross u v

/-- **Cramer's rule.**  Two points of the lines coincide exactly if their parameters are the
quotients of the cross products. -/
theorem common_iff (h : cross u v ≠ 0) {t s : K} :
    a + t • u = b + s • v ↔ t = parameter a u b v ∧ s = parameter b v a u := by
  have h' := cross_ne_zero_swap h
  rw [parameter, parameter, eq_div_iff h, eq_div_iff h', Prod.ext_iff]
  simp only [cross, Prod.fst_add, Prod.snd_add, Prod.fst_sub, Prod.snd_sub, Prod.smul_fst,
    Prod.smul_snd, smul_eq_mul] at h ⊢
  constructor
  · rintro ⟨h₁, h₂⟩
    refine ⟨?_, ?_⟩
    · linear_combination v.2 * h₁ - v.1 * h₂
    · linear_combination u.1 * h₂ - u.2 * h₁
  · rintro ⟨ht, hs⟩
    refine ⟨?_, ?_⟩
    · refine mul_right_cancel₀ h ?_
      linear_combination u.1 * ht + v.1 * hs
    · refine mul_right_cancel₀ h ?_
      linear_combination u.2 * ht + v.2 * hs

/-- The point that the lines have in common, from either side. -/
theorem add_parameter_smul (h : cross u v ≠ 0) :
    a + parameter a u b v • u = b + parameter b v a u • v :=
  (common_iff h).mpr ⟨rfl, rfl⟩

variable [LinearOrder K]

/-- The point is on the segment. -/
def OnSegment (a u p : K × K) : Prop := ∃ t : K, 0 ≤ t ∧ t ≤ 1 ∧ p = a + t • u

theorem onSegment_origin [IsStrictOrderedRing K] (a u : K × K) : OnSegment a u a :=
  ⟨0, le_rfl, zero_le_one, by rw [zero_smul, add_zero]⟩

/-- Both parameters are between zero and one. -/
def Meet (a u b v : K × K) : Prop :=
  0 ≤ parameter a u b v ∧ parameter a u b v ≤ 1 ∧ 0 ≤ parameter b v a u ∧ parameter b v a u ≤ 1

instance : Decidable (Meet a u b v) := inferInstanceAs (Decidable (_ ∧ _ ∧ _ ∧ _))

theorem meet_swap : Meet b v a u ↔ Meet a u b v := by
  rw [Meet, Meet, ← and_assoc, and_comm, and_assoc]

/-- Segments with one origin meet there. -/
theorem meet_self [IsStrictOrderedRing K] : Meet a u a v ∧ parameter a u a v = 0 := by
  have hzero : ∀ u v : K × K, parameter a u a v = 0 := fun u v => by
    rw [parameter, sub_self, cross, Prod.fst_zero, Prod.snd_zero, zero_mul, zero_mul, sub_zero,
      zero_div]
  rw [Meet, hzero u v, hzero v u]
  exact ⟨⟨le_rfl, zero_le_one, le_rfl, zero_le_one⟩, rfl⟩

/-- **The segments have a point in common** exactly if they meet, and then it is this one. -/
theorem onSegment_common_iff (h : cross u v ≠ 0) :
    (OnSegment a u p ∧ OnSegment b v p) ↔ Meet a u b v ∧ p = a + parameter a u b v • u := by
  constructor
  · rintro ⟨⟨t, ht₀, ht₁, rfl⟩, s, hs₀, hs₁, hp⟩
    obtain ⟨rfl, rfl⟩ := (common_iff h).mp hp
    exact ⟨⟨ht₀, ht₁, hs₀, hs₁⟩, rfl⟩
  · rintro ⟨⟨ht₀, ht₁, hs₀, hs₁⟩, rfl⟩
    exact ⟨⟨_, ht₀, ht₁, rfl⟩, _, hs₀, hs₁, add_parameter_smul h⟩

end PlaneSegments
end CCore
