import CCore.Config.Model
import CCore.Library.Scanning

/-!
# The lines of a configuration file

What the parser gets to see of a file are its lines: the text between line feeds,
without its leading white space and without any carriage return, and only if
something is left of it.  `lines` says so.

`read_line` arrives at them in another way.  It skips white space as long as it has
stored nothing, and a line feed is white space, so an empty line is skipped together
with the indentation of the next; and it stores what it keeps into a buffer that was
used before.  `Stored` is the invariant of the buffer: the characters kept so far are
at its front with a NUL behind them, whatever comes after.

## What is proved

`readLineLoop_eq` says that every write is inside the buffer, and reduces `read_line` to
`takeLine`, which has none.  `takeLine_nextLine` says what one call does on a stream: it
stores the next line and leaves the stream behind it, or there is no line left.
-/

namespace CCore
namespace Config

open Scanning

/-! ## Lines -/

/-- What is left of a segment between line feeds. -/
def cleanLine (segment : List UInt8) : List UInt8 :=
  (segment.dropWhile isSpace).filter (· ≠ carriageReturn)

/-- **The lines of a file.** -/
def lines (content : List UInt8) : List (List UInt8) :=
  ((content.splitOn newline).map cleanLine).filter (· ≠ [])

theorem ne_nil_of_mem_lines {content line : List UInt8} (h : line ∈ lines content) : line ≠ [] :=
  of_decide_eq_true (List.mem_filter.mp h).2

/-- The lines that one segment makes: none or one. -/
theorem filter_singleton_ne_nil (line : List UInt8) :
    [line].filter (· ≠ []) = if line = [] then [] else [line] := by
  cases line with
  | nil => rfl
  | cons c line => rfl

theorem lines_of_notMem {segment : List UInt8} (h : newline ∉ segment) :
    lines segment = if cleanLine segment = [] then [] else [cleanLine segment] := by
  rw [lines, List.splitOn_eq_singleton h, List.map_singleton, filter_singleton_ne_nil]

theorem lines_append {segment : List UInt8} (h : newline ∉ segment) (rest : List UInt8) :
    lines (segment ++ newline :: rest) =
      (if cleanLine segment = [] then [] else [cleanLine segment]) ++ lines rest := by
  rw [lines, List.splitOn_append_cons_self_of_not_mem h, List.map_cons, ← List.singleton_append,
    List.filter_append, filter_singleton_ne_nil, lines]

/-- A line holds nothing that is not in the file. -/
theorem mem_of_mem_lines {content line : List UInt8} (h : line ∈ lines content) {c : UInt8}
    (hc : c ∈ line) : c ∈ content := by
  have hclean : ∀ {segment : List UInt8},
      line ∈ (if cleanLine segment = [] then [] else [cleanLine segment]) → c ∈ segment := by
    intro segment hline
    split at hline
    · exact absurd hline List.not_mem_nil
    · rw [List.mem_singleton.mp hline] at hc
      exact (List.dropWhile_suffix isSpace).subset (List.mem_of_mem_filter hc)
  induction hn : content.length using Nat.strong_induction_on generalizing content with
  | _ n ih =>
    subst hn
    by_cases hmem : newline ∈ content
    · obtain ⟨segment, tail, rfl, hsegment⟩ := List.eq_append_cons_of_mem hmem
      rw [lines_append hsegment] at h
      rcases List.mem_append.mp h with h | h
      · exact List.mem_append_left _ (hclean h)
      · have hlt : tail.length < (segment ++ newline :: tail).length := by
          rw [List.length_append, List.length_cons]
          omega
        exact List.mem_append_right _ (List.mem_cons_of_mem _ (ih _ hlt h rfl))
    · rw [lines_of_notMem hmem] at h
      exact hclean h

/-- A line feed at the end of a file makes no line. -/
theorem lines_append_newline (content : List UInt8) :
    lines (content ++ [newline]) = lines content := by
  have hsplit : (content ++ [newline]).splitOn newline = content.splitOn newline ++ [[]] :=
    List.splitOn_append_cons_self content []
  rw [lines, hsplit, List.map_append, List.filter_append, lines]
  exact List.append_nil _

/-! ## The buffer -/

/-- The characters are at the front of the buffer, with a NUL behind them.  Before there
are any, the buffer may hold anything. -/
def Stored (buffer : LineBuffer) (chars : List UInt8) : Prop :=
  chars = [] ∨ ∃ tail, buffer = chars.map some ++ some 0 :: tail

theorem Stored.length_lt {buffer : LineBuffer} {chars : List UInt8} (h : Stored buffer chars)
    (hne : chars ≠ []) : chars.length < buffer.length := by
  obtain ⟨tail, rfl⟩ := h.resolve_left hne
  rw [List.length_append, List.length_map, List.length_cons]
  omega

theorem Stored.take {buffer : LineBuffer} {chars : List UInt8} (h : Stored buffer chars) :
    buffer.take chars.length = chars.map some := by
  rcases h with rfl | ⟨tail, rfl⟩
  · rfl
  · exact List.take_left' (List.length_map _)

/-- The buffer once there is room for one more character and the NUL. -/
def ensureRoom (buffer : LineBuffer) (size : ℕ) : LineBuffer :=
  if buffer.length < size + 2 then buffer.grow else buffer

theorem length_grow (buffer : LineBuffer) :
    buffer.grow.length = if buffer.length ≠ 0 then buffer.length * 2 else 128 := by
  rw [LineBuffer.grow, List.length_append, List.length_replicate]
  split
  · omega
  · omega

/-- **Growth makes room, and loses nothing.** -/
theorem Stored.ensureRoom {buffer : LineBuffer} {chars : List UInt8} (h : Stored buffer chars) :
    chars.length + 2 ≤ (ensureRoom buffer chars.length).length ∧
      (Config.ensureRoom buffer chars.length).take chars.length = chars.map some := by
  rw [Config.ensureRoom]
  split
  · rename_i hfull
    have hlen : chars = [] ∨ chars.length < buffer.length := by
      by_cases hne : chars = []
      · exact Or.inl hne
      · exact Or.inr (h.length_lt hne)
    refine ⟨?_, ?_⟩
    · rw [length_grow]
      rcases hlen with rfl | hlt
      · split
        · rw [List.length_nil]
          omega
        · rw [List.length_nil]
          omega
      · split
        · omega
        · omega
    · have hle : chars.length ≤ buffer.length := by
        rcases hlen with rfl | hlt
        · exact Nat.zero_le _
        · exact hlt.le
      rw [LineBuffer.grow, List.take_append_of_le_length hle, h.take]
  · rename_i hroom
    exact ⟨not_lt.mp hroom, h.take⟩

/-- **One more character.**  Both writes are inside the buffer. -/
theorem Stored.push {buffer : LineBuffer} {chars : List UInt8} (h : Stored buffer chars)
    (c : UInt8) :
    ∃ buffer₁ buffer₂, (Config.ensureRoom buffer chars.length).write chars.length c =
        some buffer₁ ∧
      buffer₁.write (chars.length + 1) 0 = some buffer₂ ∧ Stored buffer₂ (chars ++ [c]) := by
  obtain ⟨hroom, htake⟩ := h.ensureRoom
  generalize Config.ensureRoom buffer chars.length = line at hroom htake
  obtain ⟨x, y, tail, hdrop⟩ : ∃ x y tail, line.drop chars.length = x :: y :: tail := by
    have hlen : 2 ≤ (line.drop chars.length).length := by
      rw [List.length_drop]
      omega
    match line.drop chars.length, hlen with
    | x :: y :: tail, _ => exact ⟨x, y, tail, rfl⟩
  have hline : line = chars.map some ++ x :: y :: tail := by
    rw [← htake, ← hdrop, List.take_append_drop]
  have hlen : (chars.map some).length = chars.length := List.length_map _
  refine ⟨chars.map some ++ some c :: y :: tail, chars.map some ++ some c :: some 0 :: tail,
    ?_, ?_, Or.inr ⟨tail, ?_⟩⟩
  · rw [LineBuffer.write, if_pos (by omega), hline, ← hlen, List.set_append_right _ _ le_rfl,
      Nat.sub_self, List.set_cons_zero]
  · rw [LineBuffer.write, if_pos (by simp), ← hlen,
      List.set_append_right _ _ (Nat.le_succ _), Nat.succ_sub le_rfl, Nat.sub_self,
      List.set_cons_succ, List.set_cons_zero]
  · rw [List.map_append, List.map_singleton, List.append_assoc, List.singleton_append]

/-- The line comes out of the buffer, by its length and as a C string alike. -/
theorem Stored.stored_eq {buffer : LineBuffer} {chars : List UInt8} (h : Stored buffer chars) :
    buffer.stored chars.length = some chars := by
  rw [LineBuffer.stored, h.take]
  clear h
  induction chars with
  | nil => rfl
  | cons c chars ih =>
    rw [List.map_cons, List.mapM_cons, ih]
    rfl

/-- What a line is as a C string: the characters before its first NUL. -/
def cText (line : List UInt8) : List UInt8 := line.takeWhile (· ≠ 0)

/-- Without a NUL, that is the line. -/
theorem cText_of_notMem {line : List UInt8} (h : 0 ∉ line) : cText line = line := by
  refine List.takeWhile_eq_self_iff.mpr fun c hc => decide_eq_true ?_
  rintro rfl
  exact h hc

theorem Stored.cString_eq {buffer : LineBuffer} {chars : List UInt8} (h : Stored buffer chars)
    (hne : chars ≠ []) : buffer.cString = some (cText chars) := by
  obtain ⟨tail, rfl⟩ := h.resolve_left hne
  clear h hne
  induction chars with
  | nil => rfl
  | cons c chars ih =>
    rw [List.map_cons, List.cons_append, LineBuffer.cString, cText, List.takeWhile_cons]
    by_cases hc : c = 0
    · rw [if_pos hc, if_neg (by simpa using hc)]
    · rw [if_neg hc, ih, if_pos (by simpa using hc)]
      rfl

/-! ## What `read_line` reads -/

/-- The characters that `read_line` stores behind the ones it has, and the stream it
leaves. -/
def takeLine (failing : Bool) : List UInt8 → List UInt8 → List UInt8 × Stream
  | [], chars => (chars, ⟨[], !failing, failing⟩)
  | c :: rest, chars =>
    if chars = [] ∧ isSpace c then takeLine failing rest chars
    else if c = carriageReturn then takeLine failing rest chars
    else if c = newline then (chars, ⟨rest, false, failing⟩)
    else takeLine failing rest (chars ++ [c])

/-- **The loop of `read_line` never writes outside its buffer**, and what it stores does
not depend on what the buffer held. -/
theorem readLineLoop_eq (failing : Bool) (rest chars : List UInt8) (line : LineBuffer)
    (h : Stored line chars) :
    ∃ line', readLineLoop failing rest chars.length line =
        some ((takeLine failing rest chars).1.length, line', (takeLine failing rest chars).2) ∧
      Stored line' (takeLine failing rest chars).1 := by
  induction rest generalizing chars line with
  | nil => exact ⟨line, rfl, h⟩
  | cons c rest ih =>
    simp only [readLineLoop, takeLine, List.length_eq_zero_iff]
    split
    · exact ih chars line h
    · split
      · exact ih chars line h
      · split
        · exact ⟨line, rfl, h⟩
        · obtain ⟨buffer₁, buffer₂, hwrite, hnul, hpush⟩ := h.push c
          obtain ⟨line', hloop, hstored⟩ := ih _ buffer₂ hpush
          rw [List.length_append, List.length_singleton] at hloop
          refine ⟨line', ?_, hstored⟩
          rw [← hloop]
          show (LineBuffer.write (Config.ensureRoom line chars.length) _ _).bind _ = _
          rw [hwrite, Option.bind_some, hnul, Option.bind_some]

theorem readLine_eq (f : Stream) (line : LineBuffer) :
    ∃ line', readLine f line = some ((takeLine f.failing f.rest []).1.length, line',
        (takeLine f.failing f.rest []).2) ∧
      Stored line' (takeLine f.failing f.rest []).1 :=
  readLineLoop_eq f.failing f.rest [] line (Or.inl rfl)

theorem newline_isSpace : isSpace newline = true := rfl

theorem carriageReturn_isSpace : isSpace carriageReturn = true := rfl

/-- White space before a line is skipped, line feeds included. -/
theorem takeLine_spaces (failing : Bool) {spaces : List UInt8}
    (h : ∀ c ∈ spaces, isSpace c = true) (rest : List UInt8) :
    takeLine failing (spaces ++ rest) [] = takeLine failing rest [] := by
  induction spaces with
  | nil => rfl
  | cons c spaces ih =>
    rw [List.cons_append, takeLine, if_pos ⟨rfl, h c List.mem_cons_self⟩]
    exact ih fun d hd => h d (List.mem_cons_of_mem _ hd)

/-- Within a line only the carriage returns are dropped. -/
theorem takeLine_within (failing : Bool) {segment : List UInt8} (h : newline ∉ segment)
    (rest : List UInt8) {chars : List UInt8} (hne : chars ≠ []) :
    takeLine failing (segment ++ rest) chars =
      takeLine failing rest (chars ++ segment.filter (· ≠ carriageReturn)) := by
  induction segment generalizing chars with
  | nil => rw [List.filter_nil, List.append_nil, List.nil_append]
  | cons c segment ih =>
    rw [List.mem_cons, not_or] at h
    rw [List.cons_append, takeLine, if_neg fun h => hne h.1, List.filter_cons]
    by_cases hc : c = carriageReturn
    · rw [if_pos hc, if_neg (by simpa using hc), ih h.2 hne]
    · have happend : chars ++ [c] ≠ [] := List.append_ne_nil_of_right_ne_nil _ (by simp)
      rw [if_neg hc, if_neg (Ne.symm h.1), if_pos (by simpa using hc), ih h.2 happend,
        List.append_assoc, List.singleton_append]

/-- **A segment is stored as its clean line.** -/
theorem takeLine_segment (failing : Bool) {segment : List UInt8} (h : newline ∉ segment)
    (rest : List UInt8) :
    takeLine failing (segment ++ rest) [] = takeLine failing rest (cleanLine segment) := by
  obtain ⟨spaces, hspaces, hsegment⟩ := exists_run isSpace segment
  have hstops := stops_dropWhile isSpace segment
  rw [cleanLine]
  generalize segment.dropWhile isSpace = text at hsegment hstops
  subst hsegment
  rw [List.append_assoc, takeLine_spaces failing hspaces]
  cases text with
  | nil => rfl
  | cons c text =>
    have hc : isSpace c = false := stops_cons.mp hstops
    have hreturn : c ≠ carriageReturn := by
      rintro rfl
      rw [carriageReturn_isSpace] at hc
      exact Bool.noConfusion hc
    rw [List.mem_append, not_or, List.mem_cons, not_or] at h
    rw [List.cons_append, takeLine, if_neg (by simp [hc]), if_neg hreturn,
      if_neg (Ne.symm h.2.1), takeLine_within failing h.2.2 rest (by simp),
      List.filter_cons_of_pos (by simpa using hreturn), List.nil_append, List.singleton_append]

/-- The end of the stream is reported only where an error does not take its place. -/
theorem takeLine_eof (failing : Bool) (rest chars : List UInt8)
    (h : (takeLine failing rest chars).2.eof = true) : failing = false := by
  induction rest generalizing chars with
  | nil =>
    cases failing with
    | true => exact nomatch h
    | false => rfl
  | cons c rest ih =>
    rw [takeLine] at h
    split at h
    · exact ih chars h
    · split at h
      · exact ih chars h
      · split at h
        · exact nomatch h
        · exact ih _ h

/-- What one call of `read_line` finds on a stream with these bytes. -/
inductive NextLine (failing : Bool) (rest : List UInt8) : List UInt8 × Stream → Prop where
  | none (h : lines rest = []) : NextLine failing rest ([], ⟨[], !failing, failing⟩)
  | line {chars : List UInt8} {f : Stream} (hne : chars ≠ [])
      (hlines : lines rest = chars :: lines f.rest) (hlen : f.rest.length < rest.length)
      (hfailing : f.failing = failing) (heof : f.eof = true → f.rest = []) :
      NextLine failing rest (chars, f)

/-- **One call of `read_line` stores the next line, if there is one.** -/
theorem takeLine_nextLine (failing : Bool) (rest : List UInt8) :
    NextLine failing rest (takeLine failing rest []) := by
  induction hn : rest.length using Nat.strong_induction_on generalizing rest with
  | _ n ih =>
    subst hn
    by_cases hmem : newline ∈ rest
    · obtain ⟨segment, tail, rfl, hsegment⟩ := List.eq_append_cons_of_mem hmem
      have hlines := lines_append hsegment tail
      rw [takeLine_segment failing hsegment]
      by_cases hclean : cleanLine segment = []
      · have hlen : tail.length < (segment ++ newline :: tail).length := by
          rw [List.length_append, List.length_cons]
          omega
        rw [if_pos hclean, List.nil_append] at hlines
        rw [hclean, takeLine, if_pos ⟨rfl, newline_isSpace⟩]
        have hnext := ih tail.length hlen tail rfl
        generalize takeLine failing tail [] = next at hnext
        cases hnext with
        | none h => exact .none (hlines.trans h)
        | line hne htail hlt hfailing heof =>
          exact .line hne (hlines.trans htail) (hlt.trans hlen) hfailing heof
      · rw [takeLine, if_neg fun h => hclean h.1, if_neg (by decide), if_pos rfl]
        rw [if_neg hclean, List.singleton_append] at hlines
        refine .line hclean hlines ?_ rfl nofun
        show tail.length < _
        rw [List.length_append, List.length_cons]
        omega
    · have htake := takeLine_segment failing hmem []
      have hlines := lines_of_notMem hmem
      rw [List.append_nil] at htake
      rw [htake, takeLine]
      by_cases hclean : cleanLine rest = []
      · rw [if_pos hclean] at hlines
        rw [hclean]
        exact .none hlines
      · rw [if_neg hclean] at hlines
        refine .line hclean hlines ?_ rfl fun _ => rfl
        cases rest with
        | nil => exact absurd rfl hclean
        | cons c rest => exact Nat.succ_pos _

end Config
end CCore
