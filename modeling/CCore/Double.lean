import CCore.Base
import Mathlib.Tactic.Linarith

/-!
# Arithmetic of doubles

`double`s are taken without rounding: the finite ones are the rationals, and beside them there are
the two infinities and one value that is not a number.  Zero has one sign, so a quotient by zero
is infinite with the sign of the dividend.

The comparisons are those of C.  A comparison with NaN is false, also the comparison of NaN with
itself, so `F64.eq` is not the equality of values, and a guard that rejects by two comparisons lets
NaN through.
-/

namespace CCore
namespace F64

/-! ## Operations -/

/-- `-a` -/
protected def neg : F64 → F64
  | fin x => fin (-x)
  | inf negative => inf !negative
  | nan => nan

/-- `a + b` -/
protected def add : F64 → F64 → F64
  | nan, _ => nan
  | _, nan => nan
  | fin x, fin y => fin (x + y)
  | fin _, inf negative => inf negative
  | inf negative, fin _ => inf negative
  | inf negative, inf negative' => if negative = negative' then inf negative else nan

/-- `a - b` -/
protected def sub (a b : F64) : F64 := a.add b.neg

/-- An infinite value times a finite one. -/
def scaleInf (negative : Bool) (x : ℚ) : F64 :=
  if x = 0 then nan else inf (negative ^^ decide (x < 0))

/-- `a * b` -/
protected def mul : F64 → F64 → F64
  | nan, _ => nan
  | _, nan => nan
  | fin x, fin y => fin (x * y)
  | fin x, inf negative => scaleInf negative x
  | inf negative, fin y => scaleInf negative y
  | inf negative, inf negative' => inf (negative ^^ negative')

/-- `a / b` -/
protected def div : F64 → F64 → F64
  | nan, _ => nan
  | _, nan => nan
  | fin x, fin y => if y = 0 then scaleInf false x else fin (x / y)
  | fin _, inf _ => fin 0
  | inf negative, fin y => inf (negative ^^ decide (y < 0))
  | inf _, inf _ => nan

instance : Neg F64 := ⟨F64.neg⟩
instance : Add F64 := ⟨F64.add⟩
instance : Sub F64 := ⟨F64.sub⟩
instance : Mul F64 := ⟨F64.mul⟩
instance : Div F64 := ⟨F64.div⟩
instance (n : ℕ) : OfNat F64 n := ⟨fin n⟩

/-! ## Comparisons -/

/-- `isnan(a)` -/
def isNan (a : F64) : Bool := a = nan

/-- `a == b` -/
def eq : F64 → F64 → Bool
  | nan, _ => false
  | a, b => a = b

/-- `a < b` -/
def lt : F64 → F64 → Bool
  | fin x, fin y => x < y
  | fin _, inf negative => !negative
  | inf negative, fin _ => negative
  | inf negative, inf negative' => negative && !negative'
  | _, _ => false

/-! ## Finite values -/

variable {x y : ℚ}

theorem zero_eq : (0 : F64) = fin 0 := rfl
theorem one_eq : (1 : F64) = fin 1 := rfl

@[simp] theorem neg_fin : -fin x = fin (-x) := rfl
@[simp] theorem fin_add_fin : fin x + fin y = fin (x + y) := rfl
@[simp] theorem fin_mul_fin : fin x * fin y = fin (x * y) := rfl

@[simp] theorem fin_sub_fin : fin x - fin y = fin (x - y) :=
  congrArg fin (sub_eq_add_neg x y).symm

theorem fin_mul_inf (x : ℚ) (negative : Bool) : fin x * inf negative = scaleInf negative x := rfl

theorem fin_div (x y : ℚ) :
    fin x / fin y = if y = 0 then scaleInf false x else fin (x / y) := rfl

theorem fin_div_fin (hy : y ≠ 0) : fin x / fin y = fin (x / y) := by
  rw [fin_div, if_neg hy]

theorem zero_div_zero : fin 0 / fin 0 = nan := by
  rw [fin_div, if_pos rfl, scaleInf, if_pos rfl]

/-- A quotient by zero has the sign of the dividend. -/
theorem fin_div_zero (hx : x ≠ 0) : fin x / fin 0 = inf (decide (x < 0)) := by
  rw [fin_div, if_pos rfl, scaleInf, if_neg hx, Bool.false_xor]

@[simp] theorem isNan_fin : isNan (fin x) = false := rfl
@[simp] theorem isNan_nan : isNan nan = true := rfl

@[simp] theorem fin_lt_fin : lt (fin x) (fin y) = true ↔ x < y := decide_eq_true_iff

@[simp] theorem fin_eq_fin : eq (fin x) (fin y) = true ↔ x = y :=
  decide_eq_true_iff.trans ⟨fin.inj, congrArg fin⟩

/-- Zero does not take the infinity back. -/
theorem zero_mul_div_zero (x : ℚ) : fin 0 * (fin x / fin 0) = nan := by
  by_cases hx : x = 0
  · rw [hx, zero_div_zero]
    rfl
  · rw [fin_div_zero hx, fin_mul_inf, scaleInf, if_pos rfl]

/-! ## NaN -/

@[simp] theorem add_nan (a : F64) : a + nan = nan := by
  cases a with
  | fin x => rfl
  | inf negative => rfl
  | nan => rfl

@[simp] theorem mul_nan (a : F64) : a * nan = nan := by
  cases a with
  | fin x => rfl
  | inf negative => rfl
  | nan => rfl

@[simp] theorem nan_eq (a : F64) : eq nan a = false := rfl

@[simp] theorem eq_nan (a : F64) : eq a nan = false := by
  cases a with
  | fin x => rfl
  | inf negative => rfl
  | nan => rfl

end F64
end CCore
