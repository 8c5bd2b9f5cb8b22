import CCore.Filesystem.Model

/-!
# Cutting directories off a path

`ccfs_path_rtrim_i` goes backwards through a path and counts separators, until it has seen one
more than the number of directories, or has come to the first character.  In both cases the NUL
goes two bytes behind the place where it has stopped.

After a separator this is right: the pointer has moved on once more, so the NUL comes directly
behind the separator.  At the first character it is not, since that character is not looked at.
The two bytes that are kept then have nothing to do with separators, and a separator in front is
never counted; in a path of one byte the second byte behind the start is outside the string.  And
the pointer begins at the last byte of the path, or below the path if there is none.

So `trimsAtBoundary_iff` is about the characters behind the first: if they have enough separators
the path is cut where it should be, and if not, it is cut behind its second character.
-/

namespace CCore
namespace Filesystem

open Buffers

variable {path : CString} {numDirs k head : ℕ}

/-! ## Separators -/

/-- The number of separators. -/
def seps (chars : List UInt8) : ℕ := chars.countP isPathSep

theorem seps_append (front back : List UInt8) : seps (front ++ back) = seps front + seps back :=
  List.countP_append

theorem seps_cons_of_sep {c : UInt8} (hc : isPathSep c) (back : List UInt8) :
    seps (c :: back) = seps back + 1 := List.countP_cons_of_pos hc

theorem seps_cons_of_not {c : UInt8} (hc : ¬ isPathSep c) (back : List UInt8) :
    seps (c :: back) = seps back := List.countP_cons_of_neg hc

/-! ## The loop -/

/-- A separator in some characters, with the number of separators behind it. -/
structure SepAt (chars : List UInt8) (k : ℕ) (front back : List UInt8) (c : UInt8) : Prop where
  split : chars = front ++ c :: back
  sep : isPathSep c
  behind : seps back = k

/-- One more character comes behind it. -/
theorem SepAt.concat {chars front back : List UInt8} {c : UInt8} (h : SepAt chars k front back c)
    (last : UInt8) : SepAt (chars ++ [last]) (k + seps [last]) front (back ++ [last]) c where
  split := by rw [h.split, List.append_assoc, List.cons_append]
  sep := h.sep
  behind := by rw [seps_append, h.behind]

theorem rtrimLoop_of_le {n dirs : ℤ} (h : n + 1 ≤ dirs) (head : ℕ) :
    rtrimLoop path n dirs head = some head := by
  cases head with
  | zero => rfl
  | succ head => rw [rtrimLoop, if_neg (Int.not_lt.mpr h)]

/-- While separators are missing, the loop reads a character and goes on. -/
theorem rtrimLoop_succ {n dirs : ℤ} (h : dirs < n + 1) {c : UInt8}
    (hc : path.chars[head + 1]? = some c) :
    rtrimLoop path n dirs (head + 1) =
      rtrimLoop path n (if isPathSep c then dirs + 1 else dirs) head := by
  have hread : (bytes path)[head + 1]? = some c := by
    rw [bytes, List.getElem?_append_left (List.getElem?_eq_some_iff.mp hc).1, hc]
  rw [rtrimLoop, if_pos h, hread, Option.bind_some]

/-- The characters behind the first, up to an index. -/
theorem tail_take_succ {c : UInt8} (hc : path.chars[head + 1]? = some c) :
    (path.chars.take (head + 1 + 1)).tail = (path.chars.take (head + 1)).tail ++ [c] := by
  have hne : path.chars.take (head + 1) ≠ [] := by
    have hlt := (List.getElem?_eq_some_iff.mp hc).1
    exact List.ne_nil_of_length_pos (by rw [List.length_take]; omega)
  rw [List.take_add_one, hc, Option.toList_some, List.tail_append_of_ne_nil hne]

/-- **Where the loop stops.**  If the characters behind the first have the separators that are
missing, it stops one place before the last of these, and otherwise at the first character. -/
theorem rtrimLoop_eq {n dirs : ℤ} (hdirs : dirs + (k + 1 : ℕ) = n + 1)
    (hhead : head < path.chars.length) :
    (k + 1 ≤ seps (path.chars.take (head + 1)).tail → ∃ front back c,
      SepAt (path.chars.take (head + 1)) k front back c ∧ front ≠ [] ∧
        rtrimLoop path n dirs head = some (front.length - 1)) ∧
    (seps (path.chars.take (head + 1)).tail ≤ k → rtrimLoop path n dirs head = some 0) := by
  induction head generalizing k dirs with
  | zero =>
    have hnil : (path.chars.take (0 + 1)).tail = [] :=
      List.eq_nil_of_length_eq_zero (by rw [List.length_tail, List.length_take]; omega)
    rw [hnil]
    exact ⟨fun h => absurd h (Nat.not_succ_le_zero k), fun _ => rfl⟩
  | succ head ih =>
    have hc : path.chars[head + 1]? = some path.chars[head + 1] := List.getElem?_eq_getElem hhead
    generalize path.chars[head + 1] = c at hc
    have hlt : head < path.chars.length := (Nat.lt_succ_self head).trans hhead
    rw [tail_take_succ hc, seps_append, rtrimLoop_succ (by omega) hc]
    have htake : path.chars.take (head + 1 + 1) = path.chars.take (head + 1) ++ [c] := by
      rw [List.take_add_one, hc, Option.toList_some]
    by_cases hsep : isPathSep c
    · rw [if_pos hsep, seps_cons_of_sep hsep]
      cases k with
      | zero =>
        -- this is the last separator that was missing
        rw [rtrimLoop_of_le (by omega)]
        have hlength : (path.chars.take (head + 1)).length = head + 1 :=
          List.length_take_of_le hhead.le
        refine ⟨fun _ => ⟨_, [], c, ⟨htake, hsep, rfl⟩, ?_, ?_⟩, fun h => ?_⟩
        · exact List.ne_nil_of_length_eq_add_one hlength
        · rw [hlength, Nat.add_sub_cancel]
        · exact absurd h (Nat.not_succ_le_zero _)
      | succ k =>
        have hdirs' : dirs + 1 + (k + 1 : ℕ) = n + 1 := by omega
        obtain ⟨hmany, hfew⟩ := ih hdirs' hlt
        refine ⟨fun h => ?_, fun h => hfew (Nat.le_of_succ_le_succ h)⟩
        obtain ⟨front, back, c', hat, hne, hloop⟩ := hmany (Nat.le_of_succ_le_succ h)
        have hat' := hat.concat c
        rw [← htake, seps_cons_of_sep hsep] at hat'
        exact ⟨front, back ++ [c], c', hat', hne, hloop⟩
    · rw [if_neg hsep, seps_cons_of_not hsep]
      obtain ⟨hmany, hfew⟩ := ih hdirs hlt
      refine ⟨fun h => ?_, hfew⟩
      obtain ⟨front, back, c', hat, hne, hloop⟩ := hmany h
      have hat' := hat.concat c
      rw [← htake, seps_cons_of_not hsep] at hat'
      exact ⟨front, back ++ [c], c', hat', hne, hloop⟩

/-! ## The string that is left -/

/-- The string at the start of a buffer. -/
def stringIn (buffer : List UInt8) : List UInt8 := buffer.takeWhile (· != 0)

theorem takeWhile_ne_zero_append {text : List UInt8} (h : 0 ∉ text) (rest : List UInt8) :
    (text ++ 0 :: rest).takeWhile (· != 0) = text := by
  rw [List.takeWhile_append_of_pos fun c hc => bne_iff_ne.mpr (ne_of_mem_of_not_mem hc h),
    List.takeWhile_cons_of_neg (by decide), List.append_nil]

/-- **A NUL in the string** cuts it there. -/
theorem write_bytes {i : ℕ} (hi : i ≤ path.chars.length) :
    ∃ buffer, write (bytes path) i 0 = some buffer ∧ stringIn buffer = path.chars.take i := by
  have hlt : i < (bytes path).length := by
    rw [bytes, List.length_append]
    exact Nat.lt_succ_of_le hi
  refine ⟨_, write_eq_some hlt, ?_⟩
  have htake : (bytes path).take i = path.chars.take i := List.take_append_of_le_length hi
  rw [stringIn, List.set_eq_take_append_cons_drop, if_pos hlt, htake]
  exact takeWhile_ne_zero_append (fun hmem => path.nul_notMem (List.mem_of_mem_take hmem)) _

theorem write_bytes_of_lt {i : ℕ} (hi : path.chars.length < i) :
    write (bytes path) i 0 = none :=
  write_eq_none (by rw [bytes, List.length_append]; exact hi)

theorem intLength_le (path : CString) : intLength path ≤ path.chars.length := by
  rw [intLength, Int32.toInt_ofNat', Int.bmod_def]
  have hmod : (path.chars.length : ℤ) % Int32.size ≤ path.chars.length := by
    exact_mod_cast Nat.mod_le path.chars.length Int32.size
  split
  · exact hmod
  · have hsize : (0 : ℤ) ≤ Int32.size := by decide
    omega

/-- The characters that the loop goes through, with the first. -/
def seen (path : CString) : List UInt8 := path.chars.take (intLength path).toNat

/-- The characters behind these: none, if the length of the path is an `int`. -/
def unseen (path : CString) : List UInt8 := path.chars.drop (intLength path).toNat

theorem seen_append_unseen (path : CString) : seen path ++ unseen path = path.chars :=
  List.take_append_drop _ _

/-- Without a character to begin at, the function reads below the string. -/
theorem ccfsPathRtrimI_of_le (h : intLength path ≤ 0) (numDirs : ℕ) :
    ccfsPathRtrimI path numDirs = none := by
  obtain ⟨below, hbelow⟩ := Int.eq_negSucc_of_lt_zero (show intLength path - 1 < 0 by omega)
  rw [ccfsPathRtrimI, hbelow]
  exact if_pos (by omega)

theorem ccfsPathRtrimI_of_pos (h : intLength path = (head + 1 : ℕ)) (numDirs : ℕ) :
    ccfsPathRtrimI path numDirs =
      (rtrimLoop path numDirs 0 head).bind fun head => write (bytes path) (head + 2) 0 := by
  have hhead : intLength path - 1 = Int.ofNat head := by
    rw [h, Int.natCast_succ, Int.add_sub_cancel]
    rfl
  rw [ccfsPathRtrimI, hhead]

/-- **If the characters behind the first have separators enough**, the path is cut behind the
right one of those that the loop sees. -/
theorem ccfsPathRtrimI_of_many (hpos : 1 ≤ intLength path)
    (hmany : numDirs + 1 ≤ seps (seen path).tail) : ∃ front back c buffer,
      SepAt (seen path) numDirs front back c ∧ ccfsPathRtrimI path numDirs = some buffer ∧
        stringIn buffer = front ++ [c] := by
  obtain ⟨length, hlength⟩ := Int.eq_ofNat_of_zero_le (Int.le_of_lt hpos)
  obtain ⟨head, rfl⟩ := Nat.exists_eq_add_one_of_ne_zero (show length ≠ 0 by omega)
  have hle := intLength_le path
  have hdirs : (0 : ℤ) + (numDirs + 1 : ℕ) = numDirs + 1 := by omega
  have hseen : seen path = path.chars.take (head + 1) := by rw [seen, hlength]; rfl
  rw [hseen] at hmany
  obtain ⟨front, back, c, hsep, hne, hloop⟩ :=
    (rtrimLoop_eq hdirs (by omega)).1 hmany
  have hfront : path.chars = (front ++ [c]) ++ (back ++ path.chars.drop (head + 1)) := by
    conv_lhs => rw [← List.take_append_drop (head + 1) path.chars, hsep.split]
    simp only [List.append_assoc, List.cons_append, List.nil_append]
  have hstop : front.length - 1 + 2 = (front ++ [c]).length := by
    have hfirst := List.length_pos_of_ne_nil hne
    rw [List.length_append, List.length_singleton]
    omega
  have hin : front.length - 1 + 2 ≤ path.chars.length := by
    rw [hstop, hfront]
    exact (List.prefix_append _ _).length_le
  obtain ⟨buffer, hwrite, hstring⟩ := write_bytes hin
  refine ⟨front, back, c, buffer, hseen ▸ hsep, ?_, ?_⟩
  · rw [ccfsPathRtrimI_of_pos hlength, hloop, Option.bind_some, hwrite]
  · rw [hstring, hstop, hfront, List.take_left]

/-- **If they have not**, the path is cut behind its second character. -/
theorem ccfsPathRtrimI_of_few (hpos : 1 ≤ intLength path)
    (hfew : seps (seen path).tail ≤ numDirs) :
    ccfsPathRtrimI path numDirs = write (bytes path) 2 0 := by
  obtain ⟨length, hlength⟩ := Int.eq_ofNat_of_zero_le (Int.le_of_lt hpos)
  obtain ⟨head, rfl⟩ := Nat.exists_eq_add_one_of_ne_zero (show length ≠ 0 by omega)
  have hle := intLength_le path
  have hdirs : (0 : ℤ) + (numDirs + 1 : ℕ) = numDirs + 1 := by omega
  have hseen : seen path = path.chars.take (head + 1) := by rw [seen, hlength]; rfl
  rw [hseen] at hfew
  have hloop := (rtrimLoop_eq hdirs (by omega)).2 hfew
  rw [ccfsPathRtrimI_of_pos hlength, hloop, Option.bind_some]

/-! ## Cuts at a boundary -/

/-- The last character is a separator. -/
def EndsInSep (text : List UInt8) : Prop := ∃ front c, text = front ++ [c] ∧ isPathSep c

/-- **A cut at a component boundary.**  What is left of the characters is a prefix of them: up to
the separator with `numDirs` separators behind it, if there are as many, and otherwise empty, up to
some separator, or the whole. -/
def AtBoundary (chars : List UInt8) (numDirs : ℕ) (left : List UInt8) : Prop :=
  if numDirs + 1 ≤ seps chars then
    EndsInSep left ∧ ∃ cut, chars = left ++ cut ∧ seps cut = numDirs
  else left <+: chars ∧ (left = [] ∨ EndsInSep left ∨ left = chars)

/-- **The function cuts at a boundary** and stays within the string. -/
def TrimsAtBoundary (path : CString) (numDirs : ℕ) : Prop :=
  ∃ buffer, ccfsPathRtrimI path numDirs = some buffer ∧
    AtBoundary path.chars numDirs (stringIn buffer)

/-- The second character is a separator. -/
def SecondIsSep (path : CString) : Prop := ∃ c, path.chars[1]? = some c ∧ isPathSep c

theorem endsInSep_take_two (hlength : 2 ≤ path.chars.length) :
    EndsInSep (path.chars.take 2) ↔ SecondIsSep path := by
  have hc : path.chars[1]? = some path.chars[1] := List.getElem?_eq_getElem hlength
  rw [List.take_add_one, hc, Option.toList_some]
  constructor
  · rintro ⟨front, c, heq, hsep⟩
    obtain ⟨-, hlast⟩ := List.append_inj' heq rfl
    rw [List.singleton_inj.mp hlast] at hc
    exact ⟨c, hc, hsep⟩
  · rintro ⟨c, hc', hsep⟩
    rw [Option.some.inj (hc.symm.trans hc')]
    exact ⟨_, c, rfl, hsep⟩

/-- Two characters are the whole path or end in its second. -/
theorem atBoundary_take_two (hlength : 2 ≤ path.chars.length) :
    AtBoundary path.chars numDirs (path.chars.take 2) ↔
      (SecondIsSep path ∧ seps (path.chars.drop 2) = numDirs) ∨
        (seps path.chars ≤ numDirs ∧ (SecondIsSep path ∨ path.chars.length = 2)) := by
  have hsplit := (List.take_append_drop 2 path.chars).symm
  have hseps := congrArg seps hsplit
  rw [seps_append] at hseps
  rw [AtBoundary, endsInSep_take_two hlength]
  split
  · next hmany =>
    constructor
    · rintro ⟨hsecond, cut, hcut, hnum⟩
      rw [List.append_cancel_left (hsplit.symm.trans hcut)]
      exact Or.inl ⟨hsecond, hnum⟩
    · rintro (⟨hsecond, hnum⟩ | ⟨hfew, -⟩)
      · exact ⟨hsecond, _, hsplit, hnum⟩
      · exact absurd hfew (Nat.not_le.mpr hmany)
  · next hfew =>
    have hne : path.chars.take 2 ≠ [] :=
      List.ne_nil_of_length_pos (by rw [List.length_take]; omega)
    have hwhole : path.chars.take 2 = path.chars ↔ path.chars.length = 2 := by
      rw [List.take_eq_self_iff]
      omega
    rw [or_iff_right hne, hwhole]
    constructor
    · rintro ⟨-, hleft⟩
      exact Or.inr ⟨Nat.le_of_lt_succ (Nat.not_le.mp hfew), hleft⟩
    · rintro (⟨hsecond, -⟩ | ⟨-, hleft⟩)
      · exact ⟨List.take_prefix _ _, Or.inl hsecond⟩
      · exact ⟨List.take_prefix _ _, hleft⟩

/-- A cut behind a separator that the loop sees is right if the others are seen too. -/
theorem atBoundary_of_sepAt {front back : List UInt8} {c : UInt8}
    (h : SepAt (seen path) numDirs front back c) :
    AtBoundary path.chars numDirs (front ++ [c]) ↔ seps (unseen path) = 0 := by
  have hsplit : path.chars = (front ++ [c]) ++ (back ++ unseen path) := by
    conv_lhs => rw [← seen_append_unseen path, h.split]
    simp only [List.append_assoc, List.cons_append, List.nil_append]
  have hmany : numDirs + 1 ≤ seps path.chars := by
    rw [← seen_append_unseen path, h.split, seps_append, seps_append, seps_cons_of_sep h.sep,
      h.behind]
    omega
  rw [AtBoundary, if_pos hmany]
  constructor
  · rintro ⟨-, cut, hcut, hnum⟩
    rw [← List.append_cancel_left (hsplit.symm.trans hcut), seps_append, h.behind] at hnum
    omega
  · intro hunseen
    exact ⟨⟨front, c, rfl, h.sep⟩, _, hsplit, by rw [seps_append, h.behind, hunseen]; rfl⟩

/-- **Exactly where the function cuts at a boundary.**  The loop has a character to begin at.
Either there are separators enough behind the first character, and the loop has seen them all; or
the path is cut behind its second character, and this happens to be right. -/
theorem trimsAtBoundary_iff (path : CString) (numDirs : ℕ) (hlength : 2 ≤ path.chars.length) :
    TrimsAtBoundary path numDirs ↔ 1 ≤ intLength path ∧
      ((numDirs + 1 ≤ seps (seen path).tail ∧ seps (unseen path) = 0) ∨
        (seps (seen path).tail ≤ numDirs ∧
          ((SecondIsSep path ∧ seps (path.chars.drop 2) = numDirs) ∨
            (seps path.chars ≤ numDirs ∧ (SecondIsSep path ∨ path.chars.length = 2))))) := by
  have hboundary : ∀ {buffer}, ccfsPathRtrimI path numDirs = some buffer →
      (TrimsAtBoundary path numDirs ↔ AtBoundary path.chars numDirs (stringIn buffer)) := by
    intro buffer hrtrim
    refine ⟨?_, fun h => ⟨buffer, hrtrim, h⟩⟩
    rintro ⟨other, hother, h⟩
    rwa [Option.some.inj (hrtrim.symm.trans hother)]
  by_cases hpos : 1 ≤ intLength path
  · rw [and_iff_right hpos]
    by_cases hmany : numDirs + 1 ≤ seps (seen path).tail
    · obtain ⟨front, back, c, buffer, hsep, hrtrim, hstring⟩ := ccfsPathRtrimI_of_many hpos hmany
      rw [and_iff_right hmany, or_iff_left (fun h => absurd h.1 (Nat.not_le.mpr hmany)),
        hboundary hrtrim, hstring, atBoundary_of_sepAt hsep]
    · have hfew : seps (seen path).tail ≤ numDirs := Nat.le_of_lt_succ (Nat.not_le.mp hmany)
      obtain ⟨buffer, hwrite, hstring⟩ := write_bytes hlength
      have hrtrim := (ccfsPathRtrimI_of_few hpos hfew).trans hwrite
      rw [or_iff_right (fun h => hmany h.1), and_iff_right hfew, hboundary hrtrim, hstring,
        atBoundary_take_two hlength]
  · refine iff_of_false ?_ fun h => hpos h.1
    rintro ⟨buffer, hrtrim, -⟩
    rw [ccfsPathRtrimI_of_le (Int.not_lt.mp hpos)] at hrtrim
    exact nomatch hrtrim

/-- The path `/a/b`, without its last directory: the cut is behind the second `/`. -/
theorem trimsAtBoundary_iff_slash_a_slash_b : TrimsAtBoundary ⟨[47, 97, 47, 98], by decide⟩ 0 :=
  (trimsAtBoundary_iff ⟨[47, 97, 47, 98], by decide⟩ 0 (by decide)).mpr
    ⟨by decide, Or.inl ⟨by decide, by decide⟩⟩

/-- **The path `abc`** has no separator, and is cut in the middle of its only component. -/
theorem not_trimsAtBoundary_abc : ¬ TrimsAtBoundary ⟨[97, 98, 99], by decide⟩ 0 := by
  rintro ⟨buffer, hrtrim, hleft⟩
  have hrun : ccfsPathRtrimI ⟨[97, 98, 99], by decide⟩ 0 = some [97, 98, 0, 0] := by decide
  rw [← Option.some.inj (hrun.symm.trans hrtrim), AtBoundary, if_neg (by decide)] at hleft
  obtain ⟨-, hnil | ⟨front, c, heq, hsep⟩ | hwhole⟩ := hleft
  · exact absurd hnil (by decide)
  · have hsplit : ([97] : List UInt8) ++ [98] = front ++ [c] := heq
    obtain ⟨-, hlast⟩ := List.append_inj' hsplit rfl
    rw [← List.singleton_inj.mp hlast] at hsep
    exact absurd hsep (by decide)
  · exact absurd hwhole (by decide)

/-! ## Staying in the string -/

/-- **Exactly where the function stays in its string.**  Every byte it reads and the NUL it writes
are in the string if the path has two characters, and a length that is positive as an `int`. -/
theorem ccfsPathRtrimI_isSome_iff (path : CString) (numDirs : ℕ) :
    (ccfsPathRtrimI path numDirs).isSome ↔ 2 ≤ path.chars.length ∧ 1 ≤ intLength path := by
  by_cases hpos : 1 ≤ intLength path
  · rw [and_iff_left hpos]
    by_cases hlength : 2 ≤ path.chars.length
    · refine iff_of_true ?_ hlength
      by_cases hmany : numDirs + 1 ≤ seps (seen path).tail
      · obtain ⟨front, back, c, buffer, -, hrtrim, -⟩ := ccfsPathRtrimI_of_many hpos hmany
        rw [hrtrim, Option.isSome_some]
      · obtain ⟨buffer, hwrite, -⟩ := write_bytes hlength
        rw [ccfsPathRtrimI_of_few hpos (Nat.le_of_lt_succ (Nat.not_le.mp hmany)), hwrite,
          Option.isSome_some]
    · refine iff_of_false ?_ hlength
      -- a single character, behind which no separator is looked for
      have hnil : (seen path).tail = [] :=
        List.eq_nil_of_length_eq_zero (by
          rw [List.length_tail, seen, List.length_take]; omega)
      rw [ccfsPathRtrimI_of_few hpos (by rw [hnil]; exact Nat.zero_le _),
        write_bytes_of_lt (Nat.not_le.mp hlength)]
      exact Bool.false_ne_true
  · refine iff_of_false ?_ fun h => hpos h.2
    rw [ccfsPathRtrimI_of_le (Int.not_lt.mp hpos)]
    exact Bool.false_ne_true

/-- **The empty path**: the byte before the string is read, and for `a` the byte behind its NUL is
written. -/
theorem ccfsPathRtrimI_eq_none :
    ccfsPathRtrimI ⟨[], by decide⟩ 0 = none ∧ ccfsPathRtrimI ⟨[97], by decide⟩ 0 = none := by
  decide

end Filesystem
end CCore
