import Mathlib.Algebra.Order.Floor.Ring
import Mathlib.Data.Nat.Digits.Lemmas
import Mathlib.Data.Rat.Floor
import Mathlib.Tactic.Linarith

/-!
# Numbers in decimal

What `printf` writes for a number are the digits of an integer: of the number itself, or, with a
precision, of the number times a power of ten, rounded to the nearest integer, and with a dot
among them.  Zeros are put in front up to a width.

`numeral` writes an integer, `value` reads it, and `value_numeral` is the round trip.  `fixed` is
the conversion with a precision.  It rounds before it separates the integral part from the
fraction, so it carries correctly from one to the other; a program that has separated them itself
and has them written one by one gets no carry between the two.
-/

namespace CCore
namespace Decimals

/-! ## Rounding -/

/-- The nearest integer, and the even one of two that are as near. -/
def roundHalfEven (x : ℚ) : ℤ :=
  if x - ⌊x⌋ < 1 / 2 ∨ x - ⌊x⌋ = 1 / 2 ∧ Even ⌊x⌋ then ⌊x⌋ else ⌊x⌋ + 1

variable {x : ℚ}

theorem sub_half_le_roundHalfEven (x : ℚ) : x - 1 / 2 ≤ roundHalfEven x := by
  have hfloor := Int.floor_le x
  rw [roundHalfEven]
  split
  · rename_i hlow
    rcases hlow with hlt | ⟨heq, -⟩
    · linarith
    · linarith
  · have hlt := Int.lt_floor_add_one x
    push_cast
    linarith

theorem roundHalfEven_le_add_half (x : ℚ) : roundHalfEven x ≤ x + 1 / 2 := by
  have hfloor := Int.floor_le x
  rw [roundHalfEven]
  split
  · linarith
  · rename_i hhigh
    have hge : 1 / 2 ≤ x - ⌊x⌋ := not_lt.mp fun hlt => hhigh (Or.inl hlt)
    push_cast
    linarith

theorem roundHalfEven_intCast (n : ℤ) : roundHalfEven n = n := by
  rw [roundHalfEven, Int.floor_intCast, if_pos (Or.inl (by norm_num))]

theorem roundHalfEven_nonneg (h : 0 ≤ x) : 0 ≤ roundHalfEven x := by
  have hfloor : 0 ≤ ⌊x⌋ := Int.floor_nonneg.mpr h
  rw [roundHalfEven]
  split
  · exact hfloor
  · exact Int.le_add_one hfloor

/-- **What is rounded up to an even number**, the number halfway below it included. -/
theorem roundHalfEven_lt_iff {n : ℤ} (hn : Even n) : roundHalfEven x < n ↔ x < n - 1 / 2 := by
  constructor
  · intro hlt
    by_contra hge
    rw [not_lt] at hge
    have hle : (roundHalfEven x : ℚ) ≤ n - 1 := by
      have hle := Int.le_sub_one_of_lt hlt
      exact_mod_cast hle
    have hlow := sub_half_le_roundHalfEven x
    have heq : x = n - 1 / 2 := by linarith
    have hfloor : ⌊x⌋ = n - 1 := by
      refine Int.floor_eq_iff.mpr ⟨?_, ?_⟩
      · rw [heq]
        push_cast
        linarith
      · rw [heq]
        push_cast
        linarith
    have hodd : ¬Even (n - 1) := fun heven => Int.not_even_one ((Int.even_sub.mp heven).mp hn)
    rw [roundHalfEven, hfloor, if_neg, sub_add_cancel] at hlt
    · exact lt_irrefl n hlt
    · rintro (hhalf | ⟨-, heven⟩)
      · rw [heq] at hhalf
        push_cast at hhalf
        linarith
      · exact hodd heven
  · intro hlt
    have hhigh := roundHalfEven_le_add_half x
    have hcast : (roundHalfEven x : ℚ) < n := by linarith
    exact_mod_cast hcast

/-! ## Digits -/

/-- The character of a digit. -/
def digitChar (d : ℕ) : UInt8 := UInt8.ofNat (48 + d)

/-- The decimal digits are characters in a row. -/
def isDigit (c : UInt8) : Bool := 48 ≤ c && c ≤ 57

/-- **An integer in decimal**, with zeros in front up to the width. -/
def numeral (width n : ℕ) : List UInt8 :=
  (Nat.digitsAppend 10 width n).reverse.map digitChar

/-- **The number that some digits are.** -/
def value (text : List UInt8) : ℕ := text.foldl (fun n c => 10 * n + (c.toNat - 48)) 0

theorem digitChar_toNat {d : ℕ} (hd : d < 10) : (digitChar d).toNat = 48 + d := by
  rw [digitChar, UInt8.toNat_ofNat']
  exact Nat.mod_eq_of_lt (by omega)

theorem isDigit_digitChar {d : ℕ} (hd : d < 10) : isDigit (digitChar d) = true := by
  have h := digitChar_toNat hd
  rw [isDigit, Bool.and_eq_true, decide_eq_true_eq, decide_eq_true_eq, UInt8.le_iff_toNat_le,
    UInt8.le_iff_toNat_le, h]
  exact ⟨Nat.le_add_right 48 d, Nat.add_le_add_left (Nat.le_of_lt_succ hd) 48⟩

theorem isDigit_of_mem_numeral {width n : ℕ} {c : UInt8} (hc : c ∈ numeral width n) :
    isDigit c = true := by
  obtain ⟨d, hd, rfl⟩ := List.mem_map.mp hc
  exact isDigit_digitChar (Nat.lt_of_mem_digitsAppend (by decide) width d (List.mem_reverse.mp hd))

theorem length_numeral {width n : ℕ} (h : n < 10 ^ width) : (numeral width n).length = width := by
  rw [numeral, List.length_map, List.length_reverse, Nat.length_digitsAppend (by decide) width h]

theorem value_append (text more : List UInt8) :
    value (text ++ more) = value text * 10 ^ more.length + value more := by
  induction more using List.reverseRecOn with
  | nil =>
    rw [List.append_nil, List.length_nil, Nat.pow_zero, Nat.mul_one]
    rfl
  | append_singleton more c ih =>
    have hsnoc : ∀ l, value (l ++ [c]) = 10 * value l + (c.toNat - 48) := fun l => by
      rw [value, List.foldl_append]
      rfl
    rw [← List.append_assoc, hsnoc, hsnoc, ih, List.length_append, List.length_singleton]
    ring

/-- **A number that has been written can be read.** -/
theorem value_numeral (width n : ℕ) : value (numeral width n) = n := by
  have hdigits : ∀ l : List ℕ, (∀ d ∈ l, d < 10) →
      value (l.reverse.map digitChar) = Nat.ofDigits 10 l := by
    intro l hl
    induction l with
    | nil => rfl
    | cons d l ih =>
      obtain ⟨hd, hl⟩ := List.forall_mem_cons.mp hl
      rw [List.reverse_cons, List.map_append, value_append, ih hl, Nat.ofDigits_cons]
      have hone : value ([d].map digitChar) = d := by
        show 10 * 0 + ((digitChar d).toNat - 48) = d
        rw [digitChar_toNat hd]
        omega
      rw [hone, List.map_singleton, List.length_singleton, Nat.pow_one]
      ring
  rw [numeral, hdigits _ (Nat.lt_of_mem_digitsAppend (by decide) width), Nat.digitsAppend,
    Nat.ofDigits_append_replicate_zero, Nat.ofDigits_digits]

/-! ## Fixed precision -/

/-- `.` -/
def dot : UInt8 := 46

/-- The conversion `%0w.pf`, of a number that is not negative, with the width `w` and the precision
`p`. -/
def fixed (width precision : ℕ) (x : ℚ) : List UInt8 :=
  let scaled := (roundHalfEven (x * 10 ^ precision)).toNat
  if precision = 0 then numeral (max 1 width) scaled
  else
    numeral (max 1 (width - (precision + 1))) (scaled / 10 ^ precision) ++
      dot :: numeral precision (scaled % 10 ^ precision)

end Decimals
end CCore
