import CCore.Except.Model

/-!
# Printing the stack

`cc_print_stack` goes through the frames twice: it measures the lines, allocates, and writes them
with `sprintf`, which ends each of them with a NUL that the next one overwrites.  What it has
written is the header and the lines, and the buffer is full (`ccPrintStack_eq_some`).
-/

namespace CCore
namespace Except

open Buffers Log Strings

variable {skipFrames : ℤ} {fnames : List CString} {msg out : List UInt8}

/-- The lines, one after the other. -/
def linesText (fnames : List CString) : List UInt8 := fnames.flatMap lineText

theorem linesText_cons (fname : CString) (fnames : List CString) :
    linesText (fname :: fnames) = lineText fname ++ linesText fnames := List.flatMap_cons

/-- **What `cc_print_stack` prints.** -/
def stackText (skipFrames : ℤ) (fnames : List CString) : List UInt8 :=
  backtraceStr ++ linesText (framesFrom skipFrames fnames)

theorem measureLines_eq (msgLen : ℕ) (fnames : List CString) :
    measureLines msgLen fnames = msgLen + (linesText fnames).length := by
  induction fnames generalizing msgLen with
  | nil => rfl
  | cons fname fnames ih =>
    rw [linesText_cons, List.length_append, ← Nat.add_assoc]
    exact ih (msgLen + (lineText fname).length)

/-- A text and its NUL, written over what is at the place. -/
theorem memcpyTo_text {text : List UInt8} (before : List UInt8) {rest : List UInt8} (old : UInt8)
    (hrest : text.length ≤ rest.length) :
    ∃ rest', rest'.length + text.length = rest.length ∧
      memcpyTo (text.length + 1) before.length (text ++ [0]) (before ++ old :: rest) =
        some (before ++ text ++ 0 :: rest') := by
  obtain ⟨front, back, rfl, hfront⟩ := exists_append_of_le hrest
  refine ⟨back, ?_, ?_⟩
  · rw [List.length_append, hfront, Nat.add_comm]
  · have hold : (old :: front).length = (text ++ [0]).length := by
      rw [List.length_cons, hfront, List.length_append, List.length_singleton]
    have hwrite := memcpyTo_append hold before [] back
    rw [List.append_nil, List.length_append, List.length_singleton, List.cons_append] at hwrite
    rw [hwrite, List.append_assoc, List.append_assoc, List.singleton_append]

/-- **The lines that are written**, behind what has been written before. -/
theorem writeLines_eq (fnames : List CString) (before : List UInt8) {rest : List UInt8}
    (hrest : rest.length = (linesText fnames).length) :
    writeLines before.length fnames (before ++ 0 :: rest) =
      some (before ++ linesText fnames ++ [0]) := by
  induction fnames generalizing before rest with
  | nil =>
    rw [List.length_eq_zero_iff.mp hrest, linesText, List.flatMap_nil, List.append_nil]
    rfl
  | cons fname fnames ih =>
    rw [linesText_cons, List.length_append] at hrest
    obtain ⟨rest', hlength, hwrite⟩ :=
      memcpyTo_text before 0 ((Nat.le_add_right _ _).trans hrest.ge)
    have hrest' : rest'.length = (linesText fnames).length := by omega
    rw [writeLines, hwrite, Option.bind_some, ← List.length_append, ih _ hrest', linesText_cons,
      List.append_assoc before]

/-- **The buffer is the one that has been measured, and it is filled.** -/
theorem ccPrintStack_eq_some : ccPrintStack skipFrames fnames msg = some out ↔
    msg.length = (stackText skipFrames fnames).length + 1 ∧
      out = stackText skipFrames fnames ++ [0] := by
  have hlen : measureLines backtraceStr.length (framesFrom skipFrames fnames) =
      (stackText skipFrames fnames).length := by
    rw [measureLines_eq, stackText, List.length_append]
  rw [ccPrintStack, hlen]
  split
  · rename_i hmsg
    rw [and_iff_right hmsg]
    cases msg with
    | nil => exact absurd hmsg (Nat.succ_ne_zero _).symm
    | cons old rest =>
      have hrest : rest.length = (stackText skipFrames fnames).length := Nat.succ.inj hmsg
      rw [stackText, List.length_append] at hrest
      obtain ⟨rest', hlength, hwrite⟩ :=
        memcpyTo_text [] old ((Nat.le_add_right _ _).trans hrest.ge)
      have hrest' : rest'.length = (linesText (framesFrom skipFrames fnames)).length := by omega
      rw [List.nil_append, List.nil_append, List.length_nil] at hwrite
      rw [hwrite, Option.bind_some, writeLines_eq _ _ hrest', Option.some_inj, stackText]
      exact eq_comm
  · rename_i hmsg
    exact ⟨nofun, fun h => absurd h.1 hmsg⟩

theorem nul_notMem_linesText (fnames : List CString) : 0 ∉ linesText fnames := by
  intro h
  obtain ⟨fname, -, hline⟩ := List.mem_flatMap.mp h
  rcases List.mem_append.mp hline with hname | hnewline
  · exact fname.nul_notMem hname
  · exact absurd hnewline (by decide)

theorem nul_notMem_stackText (skipFrames : ℤ) (fnames : List CString) :
    0 ∉ stackText skipFrames fnames := fun h => by
  rcases List.mem_append.mp h with hheader | hlines
  · exact absurd hheader (by decide)
  · exact nul_notMem_linesText _ hlines

/-- What the log is given is the text. -/
theorem chars_stringOf (skipFrames : ℤ) (fnames : List CString) :
    (stringOf (stackText skipFrames fnames ++ [0])).chars = stackText skipFrames fnames :=
  stringIn_eq List.prefix_rfl (nul_notMem_stackText skipFrames fnames)

end Except
end CCore
