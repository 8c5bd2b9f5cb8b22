import Mathlib.Data.Rat.Floor
import Mathlib.Data.UInt

/-!
# Addresses, strings, numbers and assertions

What the models of the several source files have in common: pointers are
sixty-four-bit numbers, strings are the bytes before the first NUL, a `double` is an
exact rational or one of the values that are not numbers, and `CCASSERT`, in a build
that keeps it, ends the program when its condition fails.
-/

namespace CCore

/-- A pointer.  Its arithmetic is that of the machine. -/
abbrev Addr := UInt64

/-- `NULL`. -/
def null : Addr := 0

/-- What a `const char *` points to, up to the NUL that ends it. -/
structure CString where
  chars : List UInt8
  nul_notMem : 0 ∉ chars
  deriving DecidableEq

/-- A `double`, with its finite values taken as exact rationals. -/
inductive F64 where
  | fin (value : ℚ)
  | inf (negative : Bool)
  | nan
  deriving DecidableEq

/-- The conversion of a `double` to an `int`: the fraction is dropped, and the
conversion is undefined if what is left is no `int`. -/
def F64.toInt : F64 → Option ℤ
  | .fin value =>
    let truncated := if 0 ≤ value then ⌊value⌋ else ⌈value⌉
    if -2 ^ 31 ≤ truncated ∧ truncated < 2 ^ 31 then some truncated else none
  | .inf _ => none
  | .nan => none

/-- `CCASSERT(expr)`, with the code that follows it: a failed assertion aborts, and
nothing comes after it. -/
def ccassert {β : Type*} (expr : Prop) [Decidable expr] (rest : Option β) : Option β :=
  if expr then rest else none

theorem ccassert_pos {β : Type*} {expr : Prop} [Decidable expr] {rest : Option β} (h : expr) :
    ccassert expr rest = rest := if_pos h

/-- Code after an assertion is reached only if the assertion holds. -/
theorem ccassert_eq_some {β : Type*} {expr : Prop} [Decidable expr] {rest : Option β} {b : β} :
    ccassert expr rest = some b ↔ expr ∧ rest = some b := by
  by_cases h : expr
  · rw [ccassert_pos h]
    exact (and_iff_right h).symm
  · rw [ccassert, if_neg h]
    exact ⟨nofun, fun hb => absurd hb.1 h⟩

end CCore
