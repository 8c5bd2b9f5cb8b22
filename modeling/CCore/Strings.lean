import CCore.Base
import CCore.Library.Buffers
import CCore.Library.Scanning

/-!
# Copying strings

`string_copy` copies a string into a buffer of a given capacity, cuts off what does not fit, and
ends what it has copied with a NUL in any case.  It measures the source up to the capacity only,
copies the NUL along with the characters if it has met it, and writes another one into the last
byte of the capacity.

The buffer is a list of bytes, and an access outside of it, or beyond the NUL of the source, has
no result.  Nothing relates the capacity to the buffer but the caller, so the two are arguments of
their own: `stringCopy_fits` asks that the capacity be no larger than the buffer, and says that
the bytes behind the capacity stay as they are.
-/

namespace CCore
namespace Strings

open Buffers Scanning

/-- The loop that measures the source, at the index `l`, with the characters from there on. -/
def measureFrom (cap : ℕ) : ℕ → List UInt8 → ℕ
  | l, [] => l
  | l, _ :: src => if l + 1 < cap then measureFrom cap (l + 1) src else l

/-- `memcpy`, of `n` bytes to the index `i` of a buffer. -/
def memcpyTo : ℕ → ℕ → List UInt8 → List UInt8 → Option (List UInt8)
  | 0, _, _, dest => some dest
  | _ + 1, _, [], _ => none
  | n + 1, i, c :: src, dest => (write dest i c).bind (memcpyTo n (i + 1) src)

/-- `string_copy` -/
def stringCopy (dest : List UInt8) (src : CString) (cap : ℕ) : Option (List UInt8) :=
  ccassert (cap ≠ 0) <|
  let l := measureFrom cap 0 src.chars
  (memcpyTo (min (cap - 1) (l + 1)) 0 (src.chars ++ [0]) dest).bind fun dest =>
    write dest (cap - 1) 0

/-- The string at the start of a buffer. -/
def stringIn (buffer : List UInt8) : List UInt8 := buffer.takeWhile (· ≠ 0)

theorem stringIn_eq {text buffer : List UInt8} (h : text ++ [0] <+: buffer) (hnul : 0 ∉ text) :
    stringIn buffer = text := by
  obtain ⟨rest, rfl⟩ := h
  rw [List.append_assoc, List.singleton_append, stringIn]
  exact takeWhile_ne_append hnul rest

theorem measureFrom_eq (cap l : ℕ) (src : List UInt8) :
    measureFrom cap l src = l + min src.length (cap - 1 - l) := by
  induction src generalizing l with
  | nil =>
    rw [measureFrom, List.length_nil]
    omega
  | cons c src ih =>
    rw [measureFrom, List.length_cons]
    split
    · rw [ih]
      omega
    · omega

/-- **What a copy leaves of the buffer.** -/
theorem memcpyTo_append {old text : List UInt8} (hold : old.length = text.length)
    (before more after : List UInt8) :
    memcpyTo text.length before.length (text ++ more) (before ++ (old ++ after)) =
      some (before ++ (text ++ after)) := by
  induction text generalizing old before with
  | nil =>
    rw [List.length_eq_zero_iff.mp hold]
    rfl
  | cons c text ih =>
    cases old with
    | nil => exact absurd hold.symm (Nat.succ_ne_zero _)
    | cons o old =>
      have hnext := ih (Nat.succ.inj hold) (before ++ [c])
      rw [List.length_append, List.length_singleton, ← List.append_cons,
        ← List.append_cons] at hnext
      rw [List.length_cons, List.cons_append, List.cons_append, memcpyTo, write_append,
        Option.bind_some, hnext, List.cons_append]

/-- What is copied: the characters and their NUL, as far as the capacity less one goes. -/
def copied (src : CString) (cap : ℕ) : List UInt8 := (src.chars ++ [0]).take (cap - 1)

theorem length_copied (src : CString) (cap : ℕ) :
    (copied src cap).length = min (cap - 1) (measureFrom cap 0 src.chars + 1) := by
  rw [measureFrom_eq, copied, List.length_take, List.length_append, List.length_singleton]
  omega

/-- The bytes of the buffer that are written: those of `old`, and the one of `last`. -/
theorem stringCopy_append {src : CString} {cap : ℕ} {old kept : List UInt8} (hpos : cap ≠ 0)
    (hold : old.length = (copied src cap).length)
    (hkept : (copied src cap ++ kept).length = cap - 1) (last : UInt8) (after : List UInt8) :
    stringCopy (old ++ (kept ++ last :: after)) src cap =
      some (copied src cap ++ kept ++ 0 :: after) := by
  have hsplit : copied src cap ++ (src.chars ++ [0]).drop (cap - 1) = src.chars ++ [0] :=
    List.take_append_drop _ _
  have hmemcpy := memcpyTo_append hold [] ((src.chars ++ [0]).drop (cap - 1))
    (kept ++ last :: after)
  rw [List.nil_append, List.nil_append, List.length_nil, hsplit, length_copied] at hmemcpy
  rw [stringCopy, ccassert_pos hpos]
  dsimp only
  rw [hmemcpy, Option.bind_some, ← List.append_assoc, ← hkept, write_append]

/-- What is copied and the NUL behind it are the front of the string with a NUL. -/
theorem isPrefix_copied {src : CString} {cap : ℕ} {kept : List UInt8}
    (hkept : (copied src cap ++ kept).length = cap - 1) (after : List UInt8) :
    src.chars.take (cap - 1) ++ [0] <+: copied src cap ++ kept ++ 0 :: after := by
  rcases lt_or_ge src.chars.length (cap - 1) with hlt | hle
  · have hall : copied src cap = src.chars ++ [0] :=
      List.take_of_length_le (by rw [List.length_append, List.length_singleton]; exact hlt)
    rw [hall, List.take_of_length_le hlt.le, List.append_assoc]
    exact List.prefix_append _ _
  · have hcut : copied src cap = src.chars.take (cap - 1) := List.take_append_of_le_length hle
    rw [List.length_append, hcut, List.length_take_of_le hle, Nat.add_eq_left,
      List.length_eq_zero_iff] at hkept
    rw [hkept, hcut, List.append_nil, List.append_cons _ 0 after]
    exact List.prefix_append _ _

/-- **A copy into a buffer that is as large as the capacity says**: the front of the string, up to
the capacity less one, with a NUL behind it.  Behind the capacity nothing is written. -/
theorem stringCopy_fits {dest : List UInt8} (src : CString) {cap : ℕ} (hpos : cap ≠ 0)
    (hfits : cap ≤ dest.length) :
    ∃ dest', stringCopy dest src cap = some dest' ∧ dest'.length = dest.length ∧
      src.chars.take (cap - 1) ++ [0] <+: dest' ∧ dest'.drop cap = dest.drop cap := by
  obtain ⟨front, back, rfl, hfront⟩ := exists_append_of_le ((Nat.sub_le cap 1).trans hfits)
  rw [List.length_append, hfront] at hfits
  obtain ⟨last, after, rfl⟩ : ∃ last after, back = last :: after :=
    List.exists_cons_of_length_pos (by omega)
  obtain ⟨old, kept, rfl, hold⟩ : ∃ old kept, front = old ++ kept ∧
      old.length = (copied src cap).length :=
    exists_append_of_le ((List.length_take_le _ _).trans_eq hfront.symm)
  have hkept : (copied src cap ++ kept).length = cap - 1 := by
    rw [← hfront, List.length_append, List.length_append, hold]
  have hcap : cap = cap - 1 + 1 := (Nat.succ_pred_eq_of_ne_zero hpos).symm
  refine ⟨copied src cap ++ kept ++ 0 :: after, ?_, ?_, isPrefix_copied hkept after, ?_⟩
  · rw [List.append_assoc]
    exact stringCopy_append hpos hold hkept last after
  · rw [List.length_append, hkept, List.length_append, hfront, List.length_cons, List.length_cons]
  · rw [List.append_cons, List.append_cons _ last, List.drop_left', List.drop_left']
    · rw [List.length_append, hfront, List.length_singleton, ← hcap]
    · rw [List.length_append, hkept, List.length_singleton, ← hcap]

end Strings
end CCore
