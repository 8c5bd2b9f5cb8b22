import Mathlib.Data.List.Infix

/-!
# Buffers that are filled from their start

A buffer is a list of cells, and `write` puts a value into one of them; outside the buffer there
is no cell, and the write has no result.  A program that fills a buffer keeps a position, up to
which everything has been written: what it has written is a prefix of the buffer, and the position
is its length.  `Filled` says this, and `Filled.write` is the rule for one more value.
-/

namespace CCore
namespace Buffers

variable {α : Type*} {buffer : List α} {text : List α}

/-- `buffer[i] = value` -/
def write (buffer : List α) (i : ℕ) (value : α) : Option (List α) :=
  if i < buffer.length then some (buffer.set i value) else none

theorem write_eq_some {i : ℕ} {value : α} (h : i < buffer.length) :
    write buffer i value = some (buffer.set i value) := if_pos h

theorem write_eq_none {i : ℕ} {value : α} (h : buffer.length ≤ i) :
    write buffer i value = none := if_neg (Nat.not_lt.mpr h)

/-- A buffer can be cut anywhere. -/
theorem exists_append_of_le {n : ℕ} (h : n ≤ buffer.length) :
    ∃ front back, buffer = front ++ back ∧ front.length = n :=
  ⟨buffer.take n, buffer.drop n, (List.take_append_drop n buffer).symm, List.length_take_of_le h⟩

/-- The buffer is cut where the value goes. -/
theorem write_append (before : List α) (old value : α) (after : List α) :
    write (before ++ old :: after) before.length value = some (before ++ value :: after) := by
  have hlt : before.length < (before ++ old :: after).length := by
    rw [List.length_append, List.length_cons]
    exact Nat.lt_add_of_pos_right (Nat.succ_pos _)
  rw [write_eq_some hlt, List.set_append_right _ _ le_rfl, Nat.sub_self, List.set_cons_zero]

/-- **What has been written.**  The buffer has kept its size, and begins with the text. -/
structure Filled (size : ℕ) (text buffer : List α) : Prop where
  length : buffer.length = size
  isPrefix : text <+: buffer

variable {size : ℕ}

theorem Filled.nil (h : buffer.length = size) : Filled size [] buffer :=
  ⟨h, List.nil_prefix⟩

/-- **One more value**, if there is room for it. -/
theorem Filled.write (h : Filled size text buffer) (hroom : text.length < size) (value : α) :
    ∃ buffer', Buffers.write buffer text.length value = some buffer' ∧
      Filled size (text ++ [value]) buffer' := by
  obtain ⟨hlength, rest, rfl⟩ := h
  cases rest with
  | nil =>
    rw [List.append_nil] at hlength
    exact absurd hlength hroom.ne
  | cons c rest =>
    refine ⟨_, write_append text c value rest, ?_, ?_⟩
    · rw [← hlength, List.length_append, List.length_append, List.length_cons, List.length_cons]
    · rw [List.append_cons text value rest]
      exact List.prefix_append _ _

end Buffers
end CCore
