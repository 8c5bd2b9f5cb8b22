import CCore.Config.Lines

/-!
# One buffer for all lines

`parse` calls `read_line` until the stream has reported its end, and hands it the same buffer
each time.  What an earlier call has left there, and how large an earlier line has made the
buffer, must not be seen in a later line; and a line that is longer than all before it has to
make room for itself while it is being stored.

`readLines` is the loop of `parse` with nothing in it but the calls of `read_line`.
`readLines_delivers` says what the calls return: those that return a size that is not zero
return the lines of the stream, one after the other.  Since a write outside the buffer has no
result, it also says that none happens; and since a character that was lost in a growth of the
buffer would be missing from its line, it says that none is lost.
-/

namespace CCore
namespace Config

/-- What a call of `read_line` leaves with its caller: the size it returns, and the buffer. -/
structure Reading where
  size : ℕ
  line : LineBuffer
  deriving DecidableEq

/-- `while(!feof(f)) { size_t size = read_line(f, &line, &capacity); ... }`: what the calls
return.  The fuel bounds the turns of the loop. -/
def readLines : ℕ → Stream → LineBuffer → Option (List Reading)
  | 0, _, _ => none
  | fuel + 1, f, line =>
    if f.eof then some []
    else
      (readLine f line).bind fun (size, line, f) =>
        (readLines fuel f line).map fun readings => ⟨size, line⟩ :: readings

/-- **The call has delivered the line**: the size is its length, and the buffer holds its
characters with the NUL behind them, so that it is what the C string in the buffer is. -/
structure Delivers (reading : Reading) (text : List UInt8) : Prop where
  size : reading.size = text.length
  terminated : reading.line.take (text.length + 1) = text.map some ++ [some 0]
  cString : reading.line.cString = some text

/-- What is stored is delivered, if it has no NUL in it. -/
theorem Stored.delivers {buffer : LineBuffer} {text : List UInt8} (h : Stored buffer text)
    (hne : text ≠ []) (hnul : 0 ∉ text) : Delivers ⟨text.length, buffer⟩ text := by
  refine ⟨rfl, ?_, ?_⟩
  · obtain ⟨tail, rfl⟩ := h.resolve_left hne
    rw [List.append_cons]
    exact List.take_left' (by rw [List.length_append, List.length_map, List.length_singleton])
  · rw [h.cString_eq hne, cText_of_notMem hnul]

/-- **The calls deliver the lines.**  A stream that has reported its end has nothing left, and
the fuel covers a turn for each line, one in which the end is found and one in which it is
noticed. -/
theorem readLines_delivers {f : Stream} (hfailing : f.failing = false)
    (heof : f.eof = true → f.rest = []) (hnul : ∀ text ∈ lines f.rest, 0 ∉ text)
    (line : LineBuffer) {fuel : ℕ} (hfuel : f.rest.length + 2 ≤ fuel) :
    ∃ readings, readLines fuel f line = some readings ∧
      List.Forall₂ Delivers (readings.filter (·.size ≠ 0)) (lines f.rest) := by
  induction fuel generalizing f line with
  | zero => omega
  | succ fuel ih =>
    rw [readLines]
    by_cases hend : f.eof = true
    · rw [if_pos hend, heof hend]
      exact ⟨[], rfl, List.Forall₂.nil⟩
    · obtain ⟨line', hread, hstored⟩ := readLine_eq f line
      have hnext := takeLine_nextLine f.failing f.rest
      rw [if_neg hend, hread, Option.bind_some]
      generalize takeLine f.failing f.rest [] = next at *
      cases hnext with
      | none hlines =>
        -- the call has found the end, and the next turn notices it
        obtain ⟨fuel, rfl⟩ : ∃ n, fuel = n + 1 := Nat.exists_eq_add_of_le' (by omega)
        refine ⟨[⟨0, line'⟩], ?_, ?_⟩
        · rw [hfailing]
          rfl
        · rw [hlines]
          exact List.Forall₂.nil
      | @line text f' hne hlines hlen hfailing' heof' =>
        rw [hlines] at hnul ⊢
        obtain ⟨htext, hnul'⟩ := List.forall_mem_cons.mp hnul
        obtain ⟨readings, hreadings, hdelivers⟩ :=
          ih (hfailing'.trans hfailing) heof' hnul' line' (by omega)
        refine ⟨⟨text.length, line'⟩ :: readings, ?_, ?_⟩
        · show (readLines fuel f' line').map _ = _
          rw [hreadings]
          rfl
        · have hsize : text.length ≠ 0 := fun hzero => hne (List.length_eq_zero_iff.mp hzero)
          rw [List.filter_cons, if_pos (decide_eq_true hsize)]
          exact List.Forall₂.cons (hstored.delivers hne htext) hdelivers

/-- **`read_line` splits the stream exactly.**  On a stream without NULs that ends in the end of
the file, and with any buffer to begin with, the calls until the end is reported write inside the
buffer only, and those whose size is not zero deliver the segments between the line feeds, without
their leading white space and without any carriage return, as far as something is left of them,
in order. -/
theorem readLine_splits_exactly (content : List UInt8) (hnul : 0 ∉ content) (line : LineBuffer) :
    ∃ readings, readLines (content.length + 2) ⟨content, false, false⟩ line = some readings ∧
      List.Forall₂ Delivers (readings.filter (·.size ≠ 0))
        (((content.splitOn newline).map fun segment =>
          (segment.dropWhile isSpace).filter (· ≠ carriageReturn)).filter (· ≠ [])) :=
  readLines_delivers rfl (fun h => absurd h Bool.false_ne_true)
    (fun _ htext hmem => hnul (mem_of_mem_lines htext hmem)) line le_rfl

/-- A blank line, an indented line and one that ends in `\r\n`, into a buffer of one byte. -/
theorem readLine_splits_short :
    ∃ readings, readLines 14 ⟨[10, 32, 97, 58, 10, 98, 98, 98, 98, 98, 13, 10], false, false⟩
        [none] = some readings ∧
      List.Forall₂ Delivers (readings.filter (·.size ≠ 0)) [[97, 58], [98, 98, 98, 98, 98]] :=
  readLine_splits_exactly [10, 32, 97, 58, 10, 98, 98, 98, 98, 98, 13, 10] (by decide) [none]

end Config
end CCore
