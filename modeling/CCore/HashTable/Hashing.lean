import CCore.HashTable.Model
import Mathlib.Data.Fintype.EquivFin
import Mathlib.Data.Nat.Bitwise
import Mathlib.Data.Set.Function

/-!
# Every number is a hash

Which bucket a key goes to is read off its hash, so a bucket that no hash selects stays empty.
`hashString_surjective` says that there is nothing to fear from the hash function: each of the
`2 ^ 64` numbers is the hash of some string.

A round of `hash_string` takes a character into the hash by an exclusive or, and multiplies by
an odd number.  It can be undone, but not by another round.  What helps is that there are only
finitely many hashes: a round maps the set of those that strings have into itself, so it maps it
onto itself, and the set is closed under the inverses as well (`mem_iff_of_mapsTo`).

Two rounds forward and one back then change the last bit alone, or multiply alone.  The change of
the last bit before and after a multiplication differ, on an even number, by a constant that is
twice an odd number, and by adding it again and again one comes from any even number to any
other.
-/

namespace CCore
namespace HashTable

/-! ## Closed sets -/

/-- **A set that an injective map of a finite type takes into itself** holds the preimages of its
elements. -/
theorem mem_iff_of_mapsTo {α : Type*} [Finite α] {f : α → α} {R : Set α}
    (hf : Function.Injective f) (hR : Set.MapsTo f R R) (x : α) : f x ∈ R ↔ x ∈ R := by
  refine ⟨fun hx => ?_, fun hx => hR hx⟩
  have honto := Finite.surjective_of_injective ((Set.MapsTo.restrict_inj hR).mpr hf.injOn)
  obtain ⟨⟨y, hy⟩, hxy⟩ := honto ⟨f x, hx⟩
  have heq : f y = f x := congrArg Subtype.val hxy
  rw [← hf heq]
  exact hy

/-! ## Rounds -/

/-- One round of `hash_string`. -/
def hashRound (c : UInt8) (hash : UInt64) : UInt64 :=
  (hash ^^^ c.toInt8.toInt64.toUInt64) * 0x100000001b3

/-- The hashes that strings have. -/
def hashes : Set UInt64 := Set.range hashString

theorem hashRound_mem {c : UInt8} {hash : UInt64} (hc : c ≠ 0) (h : hash ∈ hashes) :
    hashRound c hash ∈ hashes := by
  obtain ⟨key, rfl⟩ := h
  have hnul : 0 ∉ key.chars ++ [c] := by
    rw [List.mem_append, not_or, List.mem_singleton]
    exact ⟨key.nul_notMem, hc.symm⟩
  refine ⟨⟨key.chars ++ [c], hnul⟩, ?_⟩
  rw [hashString, List.foldl_append]
  rfl

/-- The multiplier is odd, so that a multiplication by it can be undone. -/
theorem hashRound_injective (c : UInt8) : Function.Injective (hashRound c) := by
  intro x y h
  have hinverse : (0x100000001b3 : UInt64) * 0xce965057aff6957b = 1 := rfl
  have hcancel := congrArg (· * 0xce965057aff6957b) h
  simp only [hashRound, UInt64.mul_assoc, hinverse, UInt64.mul_one] at hcancel
  rwa [UInt64.xor_left_inj] at hcancel

/-- A round can be taken back. -/
theorem hashRound_mem_iff {c : UInt8} (hc : c ≠ 0) (hash : UInt64) :
    hashRound c hash ∈ hashes ↔ hash ∈ hashes := by
  have hfinite : Finite UInt64 := Finite.of_injective UInt64.toFin fun _ _ => UInt64.toFin_inj.mp
  exact mem_iff_of_mapsTo (hashRound_injective c) (fun _ => hashRound_mem hc) hash

/-! ## Moves -/

variable (hash k : UInt64)

/-- The last bit can be changed: the character `2` has the effect of `3` after it. -/
theorem xor_one_mem_iff : hash ^^^ 1 ∈ hashes ↔ hash ∈ hashes := by
  have hround : hashRound 3 (hash ^^^ 1) = hashRound 2 hash := by
    have hbits : (1 : UInt64) ^^^ (3 : UInt8).toInt8.toInt64.toUInt64 =
        (2 : UInt8).toInt8.toInt64.toUInt64 := rfl
    rw [hashRound, hashRound, UInt64.xor_assoc, hbits]
  rw [← hashRound_mem_iff (by decide : (3 : UInt8) ≠ 0), hround, hashRound_mem_iff (by decide)]

/-- The multiplication can be done alone. -/
theorem mul_mem_iff : hash * 0x100000001b3 ∈ hashes ↔ hash ∈ hashes := by
  have hround : hashRound 1 (hash ^^^ 1) = hash * 0x100000001b3 := by
    have hbits : (1 : UInt64) ^^^ (1 : UInt8).toInt8.toInt64.toUInt64 = 0 := rfl
    rw [hashRound, UInt64.xor_assoc, hbits, UInt64.xor_zero]
  rw [← hround, hashRound_mem_iff (by decide), xor_one_mem_iff]

theorem two_mul_xor_one : 2 * k ^^^ 1 = 2 * k + 1 := by
  have heven : (2 * k).toNat % 2 = 0 := by
    have htwo : UInt64.toNat 2 = 2 := rfl
    rw [UInt64.toNat_mul, htwo]
    omega
  have hlt := (2 * k).toNat_lt
  refine UInt64.toNat_inj.mp ?_
  rw [UInt64.toNat_xor, UInt64.toNat_add, UInt64.toNat_one,
    Nat.xor_one_of_even (Nat.even_iff.mpr heven)]
  omega

/-- From an even number to the next. -/
theorem succ_mem_iff : 2 * k + 1 ∈ hashes ↔ 2 * k ∈ hashes := by
  rw [← two_mul_xor_one]
  exact xor_one_mem_iff (2 * k)

/-- **From one even number to another.**  The last bit is changed, after a multiplication and
before the multiplication is taken back, and then once more. -/
theorem shift_mem_iff : 2 * (k + 0x674b282bd7fb4abd) ∈ hashes ↔ 2 * k ∈ hashes := by
  have hmul : 2 * k * 0x100000001b3 = 2 * (k * 0x100000001b3) := by grind
  have hback : 2 * (k * 0x100000001b3) + 1 =
      (2 * (k + 0x674b282bd7fb4abd) + 1) * 0x100000001b3 := by grind
  rw [← succ_mem_iff (k + _), ← mul_mem_iff, ← hback, succ_mem_iff, ← hmul, mul_mem_iff]

theorem shift_mul_mem_iff (n : ℕ) :
    2 * (k + UInt64.ofNat n * 0x674b282bd7fb4abd) ∈ hashes ↔ 2 * k ∈ hashes := by
  induction n with
  | zero =>
    have hzero : k + UInt64.ofNat 0 * 0x674b282bd7fb4abd = k := by grind
    rw [hzero]
  | succ n ih =>
    have hsucc : k + UInt64.ofNat (n + 1) * 0x674b282bd7fb4abd =
        k + UInt64.ofNat n * 0x674b282bd7fb4abd + 0x674b282bd7fb4abd := by
      rw [UInt64.ofNat_add]
      grind
    rw [hsucc, shift_mem_iff]
    exact ih

/-- The constant is odd, so its multiples are all the numbers. -/
theorem two_mul_mem_iff (l : UInt64) : 2 * l ∈ hashes ↔ 2 * k ∈ hashes := by
  have htimes := shift_mul_mem_iff k ((l - k) * 0x78bf68a5c04b8095).toNat
  have hl : k + (l - k) * 0x78bf68a5c04b8095 * 0x674b282bd7fb4abd = l := by grind
  rw [UInt64.ofNat_toNat, hl] at htimes
  exact htimes

/-- **Every number is the hash of a string.** -/
theorem hashString_surjective : Function.Surjective hashString := by
  intro hash
  have hempty : (2 * 0x42111192e5f94e72 : UInt64) ∈ hashes := ⟨⟨[], List.not_mem_nil⟩, rfl⟩
  have heven : 2 * (hash / 2) ∈ hashes := (two_mul_mem_iff _ _).mpr hempty
  have hparity : hash = 2 * (hash / 2) ∨ hash = 2 * (hash / 2) + 1 := by grind
  rcases hparity with h | h
  · rw [h]
    exact heven
  · rw [h]
    exact (succ_mem_iff _).mpr heven

end HashTable
end CCore
