import CCore.Config.Loading

/-!
# Two scanners on one numeral

`parse_number` skips a numeral to find out where it ends, and `atof` reads the same text to
find out what it means.  `atof` is `strtod`, whose numerals are many more: they may have an
exponent, be written in hexadecimal, or spell infinity or the absence of a number.

`strtod` converts the longest prefix of the text that has one of its forms.  `isSubject` is
the form, as the C standard gives it, and `strtodSubject` is that prefix.

## Where they agree

A line is accepted only if white space, a comment or nothing follows the numeral that
`parse_number` has skipped; and none of the characters with which such a text begins occurs
in any form of `strtod` (`isSubject_terminator`).  So `strtod` cannot go on behind the
numeral.  It reads all of it, unless there is nothing in it to read: a lone dot is a numeral
to `parse_number`, and not to `strtod` (`strtodSubject_numeral`).
-/

namespace CCore
namespace Config

open LastWriter Scanning

/-! ## The grammar of `strtod` -/

/-- `isxdigit` -/
def isHexDigit (c : UInt8) : Bool := isDigit c || (97 ≤ c && c ≤ 102) || (65 ≤ c && c ≤ 70)

/-- `isalpha` -/
def isAlpha (c : UInt8) : Bool := (97 ≤ c && c ≤ 122) || (65 ≤ c && c ≤ 90)

/-- `tolower` -/
def toLower (c : UInt8) : UInt8 := if 65 ≤ c && c ≤ 90 then c + 32 else c

/-- A nonempty sequence of digits, optionally containing a dot. -/
def isMantissa (digit : UInt8 → Bool) (text : List UInt8) : Bool :=
  let digits := text.filter (· ≠ dot)
  digits ≠ [] && digits.all digit && text.count dot ≤ 1

/-- An exponent, or nothing: the letter, an optional sign and a nonempty sequence of digits. -/
def isExponent (letter : UInt8) : List UInt8 → Bool
  | [] => true
  | c :: text => toLower c = letter && skipSign text ≠ [] && (skipSign text).all isDigit

/-- A mantissa with an optional exponent. -/
def isScaled (digit : UInt8 → Bool) (letter : UInt8) (text : List UInt8) : Bool :=
  isMantissa digit (text.takeWhile (toLower · ≠ letter)) &&
    isExponent letter (text.dropWhile (toLower · ≠ letter))

/-- `0x` and a hexadecimal mantissa, with an optional binary exponent. -/
def isHexadecimal : List UInt8 → Bool
  | z :: x :: text => z = '0'.toUInt8 && toLower x = 'x'.toUInt8 &&
      isScaled isHexDigit 'p'.toUInt8 text
  | _ => false

/-- `INF` or `INFINITY`, ignoring case. -/
def isInfinity (text : List UInt8) : Bool :=
  let lower := text.map toLower
  lower = ['i', 'n', 'f'].map Char.toUInt8 ||
    lower = ['i', 'n', 'f', 'i', 'n', 'i', 't', 'y'].map Char.toUInt8

/-- `_` -/
def underscore : UInt8 := 95

/-- A digit, a letter or an underscore. -/
def isNChar (c : UInt8) : Bool := isDigit c || isAlpha c || c = underscore

/-- `NAN`, ignoring case, or `NAN(`*chars*`)`. -/
def isNan (text : List UInt8) : Bool :=
  let lower := text.map toLower
  let rest := text.drop 4
  lower = ['n', 'a', 'n'].map Char.toUInt8 ||
    (lower.take 4 = ['n', 'a', 'n', '('].map Char.toUInt8 && rest.getLast? = some ')'.toUInt8 &&
      rest.dropLast.all isNChar)

/-- **The expected form of the subject sequence of `strtod`.** -/
def isSubject (text : List UInt8) : Bool :=
  let body := skipSign text
  isScaled isDigit 'e'.toUInt8 body || isHexadecimal body || isInfinity body || isNan body

/-- **The characters that `strtod` converts**: the longest initial part of the text, behind its
white space, that is of the expected form. -/
def strtodSubject (text : List UInt8) : List UInt8 := longestPrefix isSubject (trim text)

/-- `strtod(text, NULL)`, where `convert` gives the numerals their values.  If there is nothing
to convert, it is zero. -/
def strtod (convert : List UInt8 → F64) (text : List UInt8) : F64 :=
  if strtodSubject text = [] then .fin 0 else convert (strtodSubject text)

/-! ## Where a subject sequence ends -/

/-- A character with which a trailer begins. -/
def isTerminator (c : UInt8) : Bool := isSpace c || c = hash || c = slash

theorem isTerminator_disjoint {c : UInt8} (h : isTerminator c = true) :
    isHexDigit c = false ∧ isNChar c = false ∧ c ≠ dot ∧ c ≠ plus ∧ c ≠ minus ∧ toLower c = c := by
  have hcases : c = 32 ∨ c = 35 ∨ c = 47 ∨ 9 ≤ c ∧ c ≤ 13 := by
    grind [isTerminator, isSpace, hash, slash]
  rcases hcases with rfl | rfl | rfl | ⟨hlow, hhigh⟩
  · decide
  · decide
  · decide
  · have hsmall : ¬48 ≤ c ∧ ¬65 ≤ c ∧ ¬97 ≤ c := by grind
    refine ⟨?_, ?_, ?_, ?_, ?_, ?_⟩
    · grind [isHexDigit, isDigit]
    · grind [isNChar, isDigit, isAlpha, underscore]
    · grind [dot]
    · grind [plus]
    · grind [minus]
    · grind [toLower]

section Terminators

variable {c : UInt8} (hc : isTerminator c = true)

include hc

theorem not_isDigit_of_isTerminator : ¬isDigit c = true := by
  have h := (isTerminator_disjoint hc).1
  rw [isHexDigit, Bool.or_eq_false_iff, Bool.or_eq_false_iff] at h
  rw [h.1.1]
  exact Bool.false_ne_true

/-- The sign is no terminator. -/
theorem mem_skipSign {text : List UInt8} (hmem : c ∈ text) : c ∈ skipSign text := by
  obtain ⟨sign, hsign, htext⟩ := skipSign_sound text
  obtain ⟨-, -, -, hplus, hminus, -⟩ := isTerminator_disjoint hc
  rw [htext] at hmem
  refine (List.mem_append.mp hmem).resolve_left fun hmem => ?_
  cases hsign with
  | none => exact List.not_mem_nil hmem
  | plus => exact hplus (List.mem_singleton.mp hmem)
  | minus => exact hminus (List.mem_singleton.mp hmem)

theorem notMem_of_isScaled {digit : UInt8 → Bool} {letter : UInt8} {text : List UInt8}
    (hdigit : ¬digit c = true) (hletter : isTerminator letter = false)
    (h : isScaled digit letter text = true) : c ∉ text := by
  intro hmem
  obtain ⟨-, -, hdot, -, -, hlower⟩ := isTerminator_disjoint hc
  obtain ⟨hmantissa, hexponent⟩ := Bool.and_eq_true_iff.mp h
  rw [← List.takeWhile_append_dropWhile (p := (toLower · ≠ letter)) (l := text)] at hmem
  rcases List.mem_append.mp hmem with hmem | hmem
  · obtain ⟨hmantissa, -⟩ := Bool.and_eq_true_iff.mp hmantissa
    obtain ⟨-, hall⟩ := Bool.and_eq_true_iff.mp hmantissa
    have hfilter := List.mem_filter (p := (· ≠ dot)).mpr ⟨hmem, decide_eq_true hdot⟩
    exact hdigit (List.all_eq_true.mp hall c hfilter)
  · cases hrest : text.dropWhile (toLower · ≠ letter) with
    | nil =>
      rw [hrest] at hmem
      exact List.not_mem_nil hmem
    | cons d rest =>
      rw [hrest] at hmem hexponent
      obtain ⟨hd, hall⟩ := Bool.and_eq_true_iff.mp hexponent
      obtain ⟨hd, -⟩ := Bool.and_eq_true_iff.mp hd
      rcases List.mem_cons.mp hmem with rfl | hmem
      · rw [← of_decide_eq_true hd, hlower, hc] at hletter
        exact Bool.noConfusion hletter
      · exact not_isDigit_of_isTerminator hc (List.all_eq_true.mp hall c (mem_skipSign hc hmem))

/-- A word, whatever the case of its letters. -/
theorem notMem_of_map_toLower {text word : List UInt8} (h : text.map toLower = word)
    (hword : ∀ d ∈ word, isTerminator d = false) : c ∉ text := by
  intro hmem
  obtain ⟨-, -, -, -, -, hlower⟩ := isTerminator_disjoint hc
  have hd := hword _ (h ▸ List.mem_map_of_mem hmem)
  rw [hlower, hc] at hd
  exact Bool.noConfusion hd

theorem notMem_of_isNan {text : List UInt8} (h : isNan text = true) : c ∉ text := by
  rcases Bool.or_eq_true_iff.mp h with h | h
  · exact notMem_of_map_toLower hc (of_decide_eq_true h) (by decide +kernel)
  · obtain ⟨h, hall⟩ := Bool.and_eq_true_iff.mp h
    obtain ⟨hopen, hclose⟩ := Bool.and_eq_true_iff.mp h
    intro hmem
    rw [← List.take_append_drop 4 text] at hmem
    rcases List.mem_append.mp hmem with hmem | hmem
    · have hopen' := of_decide_eq_true hopen
      rw [← List.map_take] at hopen'
      exact notMem_of_map_toLower hc hopen' (by decide +kernel) hmem
    · rw [← List.dropLast_append_getLast? _ (of_decide_eq_true hclose)] at hmem
      rcases List.mem_append.mp hmem with hmem | hmem
      · have hchar := List.all_eq_true.mp hall c hmem
        rw [(isTerminator_disjoint hc).2.1] at hchar
        exact Bool.noConfusion hchar
      · rw [List.mem_singleton.mp hmem] at hc
        exact absurd hc (by decide)

/-- **No subject sequence has a terminator in it.** -/
theorem isSubject_terminator {text : List UInt8} (h : isSubject text = true) : c ∉ text := by
  intro hmem
  have hmem := mem_skipSign hc hmem
  have hhex : ¬isHexDigit c = true := by
    rw [(isTerminator_disjoint hc).1]
    exact Bool.false_ne_true
  rw [isSubject] at h
  generalize skipSign text = body at h hmem
  rcases Bool.or_eq_true_iff.mp h with h | hnan
  · rcases Bool.or_eq_true_iff.mp h with h | hinf
    · rcases Bool.or_eq_true_iff.mp h with hdec | hhexa
      · exact notMem_of_isScaled hc (not_isDigit_of_isTerminator hc) (by decide) hdec hmem
      · match body, hhexa, hmem with
        | z :: x :: rest, hhexa, hmem =>
          obtain ⟨hmark, hscaled⟩ := Bool.and_eq_true_iff.mp hhexa
          obtain ⟨hz, hx⟩ := Bool.and_eq_true_iff.mp hmark
          have hfront : [z, x].map toLower = ['0', 'x'].map Char.toUInt8 := by
            rw [List.map_cons, List.map_cons, of_decide_eq_true hz, of_decide_eq_true hx]
            rfl
          rcases List.mem_append.mp (show c ∈ [z, x] ++ rest from hmem) with hmem | hmem
          · exact notMem_of_map_toLower hc hfront (by decide +kernel) hmem
          · exact notMem_of_isScaled hc hhex (by decide) hscaled hmem
    · rcases Bool.or_eq_true_iff.mp hinf with hinf | hinf
      · exact notMem_of_map_toLower hc (of_decide_eq_true hinf) (by decide +kernel) hmem
      · exact notMem_of_map_toLower hc (of_decide_eq_true hinf) (by decide +kernel) hmem
  · exact notMem_of_isNan hc hnan hmem

end Terminators

/-! ## Numerals of the parser -/

/-- A trailer is empty or begins with a terminator. -/
theorem IsTrailer.isTerminator {c : UInt8} {rest : List UInt8} (h : IsTrailer (c :: rest)) :
    Config.isTerminator c = true := by
  obtain ⟨spaces, comment, htext, hspaces, hcomment⟩ := h
  rw [Config.isTerminator]
  cases spaces with
  | nil =>
    rcases hcomment with rfl | ⟨tail, rfl⟩ | ⟨tail, rfl⟩
    · exact nomatch htext
    · rw [(List.cons.inj htext).1]
      rfl
    · rw [(List.cons.inj htext).1]
      rfl
  | cons d spaces =>
    rw [(List.cons.inj htext).1, hspaces d List.mem_cons_self, Bool.true_or, Bool.true_or]

/-- **`strtod` does not go on behind an accepted numeral.** -/
theorem strtodSubject_append {text rest : List UInt8} (hnum : IsNumeral text)
    (hrest : IsTrailer rest) : strtodSubject (text ++ rest) = longestPrefix isSubject text := by
  have htrim : trim (text ++ rest) = text ++ rest :=
    dropWhile_append (w := []) nofun ((Denotes.num hnum).stops rest)
  rw [strtodSubject, htrim]
  refine longestPrefix_append fun r hr hne => ?_
  cases r with
  | nil => exact absurd rfl hne
  | cons c r =>
    obtain ⟨tail, rfl⟩ := hr
    refine Bool.eq_false_iff.mpr fun hsubject => ?_
    exact isSubject_terminator hrest.isTerminator hsubject
      (List.mem_append_right _ List.mem_cons_self)

/-- The characters of a numeral, without its sign, are digits and dots. -/
theorem IsUnsigned.mem {unsigned : List UInt8} (h : IsUnsigned unsigned) {c : UInt8}
    (hc : c ∈ unsigned) : isDigit c = true ∨ c = dot := by
  cases h with
  | integer hdigits => exact Or.inl (hdigits c hc)
  | fraction hdigits hdecimals =>
    rcases List.mem_append.mp hc with hc | hc
    · exact Or.inl (hdigits c hc)
    · exact (List.mem_cons.mp hc).symm.imp (hdecimals c) id

/-- Digits are not dots. -/
theorem Digits.notMem_dot {digits : List UInt8} (h : Digits digits) : dot ∉ digits := fun hmem =>
  absurd (h dot hmem) (by decide)

/-- With a digit in it, it is a mantissa. -/
theorem IsUnsigned.isMantissa {unsigned : List UInt8} (h : IsUnsigned unsigned)
    (hdigit : ∃ c ∈ unsigned, isDigit c = true) : Config.isMantissa isDigit unsigned = true := by
  have hnonempty : unsigned.filter (· ≠ dot) ≠ [] := by
    obtain ⟨c, hc, hdigit⟩ := hdigit
    have hne : c ≠ dot := by
      rintro rfl
      exact absurd hdigit (by decide)
    exact List.ne_nil_of_mem (List.mem_filter.mpr ⟨hc, decide_eq_true hne⟩)
  have hall : (unsigned.filter (· ≠ dot)).all isDigit = true := by
    refine List.all_eq_true.mpr fun c hc => ?_
    obtain ⟨hc, hne⟩ := List.mem_filter.mp hc
    exact (h.mem hc).resolve_right (of_decide_eq_true hne)
  have hcount : unsigned.count dot ≤ 1 := by
    cases h with
    | integer hdigits =>
      rw [List.count_eq_zero_of_not_mem hdigits.notMem_dot]
      exact Nat.zero_le 1
    | fraction hdigits hdecimals =>
      rw [List.count_append, List.count_cons_self, List.count_eq_zero_of_not_mem hdigits.notMem_dot,
        List.count_eq_zero_of_not_mem hdecimals.notMem_dot]
  rw [Config.isMantissa]
  simp only [decide_eq_true hnonempty, hall, decide_eq_true hcount, Bool.and_self]

/-- **A numeral with a digit in it is a subject sequence.** -/
theorem IsNumeral.isSubject {text : List UInt8} (h : IsNumeral text)
    (hdigit : ∃ c ∈ text, isDigit c = true) : Config.isSubject text = true := by
  obtain ⟨sign, unsigned, rfl, hsign, hunsigned⟩ := h
  have hstart := hunsigned.startsNumber []
  rw [List.append_nil] at hstart
  have hdigit' : ∃ c ∈ unsigned, isDigit c = true := by
    obtain ⟨c, hc, hdigit⟩ := hdigit
    refine ⟨c, (List.mem_append.mp hc).resolve_left fun hc => ?_, hdigit⟩
    cases hsign with
    | none => exact List.not_mem_nil hc
    | plus => exact absurd (List.mem_singleton.mp hc ▸ hdigit) (by decide)
    | minus => exact absurd (List.mem_singleton.mp hc ▸ hdigit) (by decide)
  have hplain : ∀ c ∈ unsigned, decide (toLower c ≠ 'e'.toUInt8) = true := by
    intro c hc
    refine decide_eq_true ?_
    rcases hunsigned.mem hc with hdigit | rfl
    · have hrange : 48 ≤ c ∧ c ≤ 57 := by grind [isDigit]
      have hlower : toLower c = c := by grind [toLower]
      rw [hlower]
      rintro rfl
      exact absurd hrange (by decide)
    · decide
  have hscaled : isScaled isDigit 'e'.toUInt8 unsigned = true := by
    have hdrop : unsigned.dropWhile (toLower · ≠ 'e'.toUInt8) = [] :=
      List.dropWhile_eq_nil_iff.mpr hplain
    rw [isScaled, List.takeWhile_eq_self_iff.mpr hplain, hdrop, hunsigned.isMantissa hdigit']
    rfl
  rw [Config.isSubject, skipSign_complete hsign hstart]
  simp only [hscaled, Bool.true_or]

/-- A numeral without a digit is a dot, with or without a sign. -/
theorem IsNumeral.eq_dot {text : List UInt8} (h : IsNumeral text)
    (hnone : ¬∃ c ∈ text, isDigit c = true) :
    text = [dot] ∨ text = [plus, dot] ∨ text = [minus, dot] := by
  obtain ⟨sign, unsigned, rfl, hsign, hunsigned⟩ := h
  have hempty : ∀ {digits : List UInt8}, Digits digits → digits ⊆ unsigned → digits = [] := by
    intro digits hdigits hsub
    refine List.eq_nil_iff_forall_not_mem.mpr fun c hc => hnone ⟨c, ?_, hdigits c hc⟩
    exact List.mem_append_right _ (hsub hc)
  have hdot : unsigned = [dot] := by
    cases hunsigned with
    | integer hdigits hne => exact absurd (hempty hdigits (List.Subset.refl _)) hne
    | @fraction digits decimals hdigits hdecimals =>
      rw [hempty hdigits (List.subset_append_left _ _),
        hempty hdecimals fun c hc => List.mem_append_right _ (List.mem_cons_of_mem _ hc),
        List.nil_append]
  subst hdot
  cases hsign with
  | none => exact Or.inl rfl
  | plus => exact Or.inr (Or.inl rfl)
  | minus => exact Or.inr (Or.inr rfl)

/-- The numerals without a digit are the lone dots. -/
theorem IsNumeral.digit_iff {text : List UInt8} (h : IsNumeral text) :
    (∃ c ∈ text, isDigit c = true) ↔ skipSign text ≠ [dot] := by
  constructor
  · rintro hdigit hdot
    obtain ⟨sign, hsign, htext⟩ := skipSign_sound text
    rw [hdot] at htext
    subst htext
    cases hsign with
    | none => exact absurd hdigit (by decide)
    | plus => exact absurd hdigit (by decide)
    | minus => exact absurd hdigit (by decide)
  · intro hdot
    by_contra hnone
    rcases h.eq_dot hnone with rfl | rfl | rfl
    · exact hdot rfl
    · exact hdot rfl
    · exact hdot rfl

/-- **What `strtod` converts of an accepted numeral**: all of it, or nothing of a lone dot. -/
theorem strtodSubject_numeral {text rest : List UInt8} (hnum : IsNumeral text)
    (hrest : IsTrailer rest) :
    strtodSubject (text ++ rest) = if skipSign text = [dot] then [] else text := by
  rw [strtodSubject_append hnum hrest]
  split
  · rename_i hdot
    rcases hnum.eq_dot fun hdigit => hnum.digit_iff.mp hdigit hdot with rfl | rfl | rfl
    · decide
    · decide
    · decide
  · rename_i hdot
    exact longestPrefix_of (hnum.isSubject (hnum.digit_iff.mpr hdot))

/-- `strtod` reads numerals as the parser needs it. -/
theorem strtod_readsNumerals (convert : List UInt8 → F64) : ReadsNumerals (strtod convert) := by
  intro text rest hnum hrest
  have hself := strtodSubject_numeral hnum isTrailer_nil
  rw [List.append_nil] at hself
  rw [strtod, strtod, strtodSubject_numeral hnum hrest, hself]

/-! ## Accepted lines -/

/-- **The two scanners read the same numeral**, of this text behind a colon: `strtod` converts
what `parse_number` skips, its value is what the entry of the key has got, and there is a
digit in it. -/
def NumeralAgrees (convert : List UInt8 → F64) (cfg : CcCfg) (key value : List UInt8) : Prop :=
  strtodSubject value = numeralPrefix value ∧
    (∃ entry, findEntry cfg key = some entry ∧ entry.kind = some .num ∧
      entry.f64 = some (convert (numeralPrefix value))) ∧
    ∃ c ∈ numeralPrefix value, isDigit c = true

/-- What denotes a number begins like one, and nothing else does. -/
theorem Denotes.isNumeral {c : UInt8} {text rest : List UInt8} {val : CfgValue}
    (h : Denotes text val) (hopens : OpensNumber c) (htext : text = c :: rest) :
    IsNumeral text := by
  cases h with
  | num hnum => exact hnum
  | yes =>
    rw [← (List.cons.inj htext).1] at hopens
    exact absurd hopens (by decide)
  | no =>
    rw [← (List.cons.inj htext).1] at hopens
    exact absurd hopens (by decide)
  | str hquote =>
    rw [← (List.cons.inj htext).1] at hopens
    rcases hquote with rfl | rfl
    · exact absurd hopens (by decide)
    · exact absurd hopens (by decide)

theorem Denotes.ne_nil {text : List UInt8} {val : CfgValue} (h : Denotes text val) : text ≠ [] := by
  cases h with
  | num hnum =>
    obtain ⟨c, tail, rfl, -⟩ := hnum.opens
    exact List.cons_ne_nil c tail
  | yes => exact List.cons_ne_nil _ _
  | no => exact List.cons_ne_nil _ _
  | str => exact List.cons_ne_nil _ _

/-- **The two scanners agree on an accepted number, unless it is a lone dot.**  In every
configuration that the parser can have, on every line that it accepts, if `parse_value`
calls `parse_number`. -/
theorem parseEntry_numeralAgrees_iff (convert : List UInt8 → F64) {cfg : CcCfg}
    {read : List (List UInt8)} (htracks : Tracks (strtod convert) cfg read)
    {text key after : List UInt8} {outcome : Outcome} (hcomment : ¬IsComment text)
    (hentry : parseEntry (strtod convert) cfg text = some outcome)
    (hsuccess : outcome.success = true) (hline : text = key ++ colon :: after) (hkey : colon ∉ key)
    (hopens : ∃ c ∈ (trim after).head?, OpensNumber c) :
    NumeralAgrees convert outcome.cfg key (trim after) ↔
      skipSign (numeralPrefix (trim after)) ≠ [dot] := by
  obtain ⟨outcome', hentry', heffect⟩ := parseEntry_effect (strtod convert) htracks.1 hcomment
  obtain rfl := Option.some.inj (hentry.symm.trans hentry')
  have hwell := (heffect.success_iff hcomment).mp hsuccess
  obtain ⟨k, val, hdefines⟩ := hwell.resolve_left hcomment
  obtain ⟨rfl, numeral, trailer, htrim, hdenotes, htrailer⟩ :=
    (hasForm_iff hline hkey).mp hdefines.2
  obtain ⟨c, hc, hopens⟩ := hopens
  have hnum : IsNumeral numeral := by
    cases hnumeral : numeral with
    | nil => exact absurd hnumeral hdenotes.ne_nil
    | cons d tail =>
      rw [htrim, hnumeral] at hc
      obtain rfl : d = c := Option.some.inj hc
      exact hnumeral ▸ hdenotes.isNumeral hopens hnumeral
  have hsubject := strtodSubject_numeral hnum htrailer
  rw [NumeralAgrees, htrim, numeralPrefix_append hnum htrailer, hnum.digit_iff, hsubject]
  constructor
  · exact fun h => h.2.2
  · intro hdot
    rw [if_neg hdot]
    refine ⟨rfl, ?_, hdot⟩
    have hvalue : strtod convert (numeral ++ trailer) = convert numeral := by
      rw [strtod, hsubject, if_neg hdot, if_neg hdenotes.ne_nil]
    have hsets : Sets (strtod convert) text k (.num (convert numeral)) := by
      refine (sets_iff hcomment hline hkey).mpr ⟨rfl, numeral, trailer, _, htrim, .num hnum, ?_⟩
      rw [htrim, CfgValue.eval, hvalue]
    obtain ⟨entry, hfind, hkind, hf64, -⟩ :=
      (heffect.tracks htracks hsuccess).findEntry (lastWrite_concat.mpr (Or.inl hsets))
    exact ⟨entry, hfind, hkind, hf64⟩

/-- `atof`, on the numerals of the parser. -/
def plainAtof : List UInt8 → F64 := strtod fun numeral => .fin (decimalValue numeral)

/-- A line with a number and a comment. -/
theorem parseEntry_numeralAgrees_iff_commented :
    ∃ outcome, parseEntry plainAtof emptyCfg ("v: -1.5#m".toList.map Char.toUInt8) = some outcome ∧
      (NumeralAgrees (fun numeral => .fin (decimalValue numeral)) outcome.cfg [118]
          (trim (" -1.5#m".toList.map Char.toUInt8)) ↔
        skipSign (numeralPrefix (trim (" -1.5#m".toList.map Char.toUInt8))) ≠ [dot]) := by
  have hcomment : ¬IsComment ("v: -1.5#m".toList.map Char.toUInt8) := by
    rw [IsComment]
    decide
  have hline : "v: -1.5#m".toList.map Char.toUInt8 =
      [118] ++ colon :: " -1.5#m".toList.map Char.toUInt8 := rfl
  have hentry : parseEntry plainAtof emptyCfg ("v: -1.5#m".toList.map Char.toUInt8) =
      some ⟨true, ⟨32, [⟨⟨0, [118]⟩, some .num, some none, some (.fin (-3 / 2)), some (-1),
        some true⟩], [[118]]⟩, []⟩ := by
    decide +kernel
  exact ⟨_, hentry, parseEntry_numeralAgrees_iff _ (tracks_empty _) hcomment hentry rfl hline
    (by decide) ⟨minus, rfl, by decide⟩⟩

/-- A number that is a dot and nothing else. -/
def loneDotFile : List UInt8 := "a: .".toList.map Char.toUInt8

/-- The parser accepts a lone dot.  `strtod` finds nothing to convert there. -/
theorem not_numeralAgrees_loneDot :
    ∃ outcome, parse plainAtof 6 emptyCfg ⟨loneDotFile, false, false⟩ = some outcome ∧
      outcome.success = true ∧ texts loneDotFile = [[97] ++ colon :: [32, dot]] ∧
      strtodSubject (trim [32, dot]) = [] ∧ numeralPrefix (trim [32, dot]) = [dot] ∧
      ¬NumeralAgrees (fun numeral => .fin (decimalValue numeral)) outcome.cfg [97]
        (trim [32, dot]) := by
  refine ⟨⟨true, ⟨32, [⟨⟨0, [97]⟩, some .num, some none, some (.fin 0), some 0, some false⟩],
    [[97]]⟩, []⟩, by decide +kernel, rfl, by decide, by decide, by decide, ?_⟩
  rintro ⟨-, -, hdigit⟩
  exact absurd hdigit (by decide)

end Config
end CCore
