import CCore.Config.Model
import CCore.Library.Scanning

/-!
# The grammar of a line

A line that is not a comment should define a key:

    key ':' ws* value ws* [comment]

Each part gets a predicate of its own, which says what the text looks like and not how
it is scanned: a numeral (`IsNumeral`), a value with what it denotes (`Denotes`), the
end of the line (`IsTrailer`), and the line as a whole (`HasForm`).

## Scanning against the grammar

A scanner takes what it can from the front of a text, and the grammar allows several
ways to cut one (`12` may be read as the numeral `1` and something else).  What the two
have in common is settled in two directions.

* Soundness: what a scanner takes off is a value, and it writes that value
  (`parseValue_sound`).
* Completeness: where the grammar cuts a text into a value and a trailer, the scanner
  cuts it at the same place (`parseValue_complete`).  A trailer begins with white space,
  `#` or `/`, and the scanners of numbers stop at those.

That a line has at most one key and one value is a consequence (`HasForm.unique`): the
parser reads only one.
-/

namespace CCore
namespace Config

open Scanning

/-! ## Values -/

/-- What a line can define its key to be: a number, by its numeral, a truth value or a
string. -/
inductive CfgValue where
  | num (text : List UInt8)
  | bool (b : Bool)
  | str (text : List UInt8)
  deriving DecidableEq

/-- A run of digits. -/
def Digits (text : List UInt8) : Prop := ∀ c ∈ text, isDigit c = true

/-- A sign, or nothing. -/
inductive IsSign : List UInt8 → Prop where
  | none : IsSign []
  | plus : IsSign [plus]
  | minus : IsSign [minus]

/-- A numeral without its sign: digits, or a dot with digits around it.  On either side of
the dot there may be none. -/
inductive IsUnsigned : List UInt8 → Prop where
  | integer {digits : List UInt8} (h : Digits digits) (hne : digits ≠ []) : IsUnsigned digits
  | fraction {digits decimals : List UInt8} (h : Digits digits) (hdecimals : Digits decimals) :
      IsUnsigned (digits ++ dot :: decimals)

/-- A numeral. -/
def IsNumeral (text : List UInt8) : Prop :=
  ∃ sign unsigned, text = sign ++ unsigned ∧ IsSign sign ∧ IsUnsigned unsigned

/-- A text that is a value, and what it denotes. -/
inductive Denotes : List UInt8 → CfgValue → Prop where
  | num {text : List UInt8} (h : IsNumeral text) : Denotes text (.num text)
  | yes : Denotes trueText (.bool true)
  | no : Denotes falseText (.bool false)
  | str {quote : UInt8} {text : List UInt8} (hquote : quote = singleQuote ∨ quote = doubleQuote)
      (h : quote ∉ text) : Denotes (quote :: (text ++ [quote])) (.str text)

/-! ## Lines -/

/-- A comment. -/
def IsComment (text : List UInt8) : Prop := [hash] <+: text ∨ [slash, slash] <+: text

/-- What may stand behind a value: white space, and then nothing or a comment. -/
def IsTrailer (text : List UInt8) : Prop :=
  ∃ spaces comment, text = spaces ++ comment ∧ (∀ c ∈ spaces, isSpace c = true) ∧
    (comment = [] ∨ IsComment comment)

/-- The form of a definition.  The key is everything before the first colon. -/
def HasForm (line key : List UInt8) (val : CfgValue) : Prop :=
  ∃ spaces text trailer, line = key ++ colon :: (spaces ++ (text ++ trailer)) ∧ colon ∉ key ∧
    (∀ c ∈ spaces, isSpace c = true) ∧ Denotes text val ∧ IsTrailer trailer

/-- **A line defines a key.**  A comment defines nothing, even if it has the form. -/
def Defines (line key : List UInt8) (val : CfgValue) : Prop :=
  ¬IsComment line ∧ HasForm line key val

/-! ## Comments and trailers -/

/-- The test of the parser.  Where nothing is left, it says yes as well. -/
theorem lineIsComment_iff (text : List UInt8) :
    lineIsComment text = true ↔ text = [] ∨ IsComment text := by
  match text with
  | [] => exact iff_of_true rfl (Or.inl rfl)
  | [c] => simp [lineIsComment, IsComment, List.cons_prefix_cons, eq_comm (a := hash)]
  | c :: d :: text =>
    simp [lineIsComment, IsComment, List.cons_prefix_cons, eq_comm (a := hash),
      eq_comm (a := slash)]

theorem IsComment.stops {text : List UInt8} (h : IsComment text) {p : UInt8 → Bool}
    (hhash : p hash = false) (hslash : p slash = false) : Stops p text := by
  rcases h with ⟨rest, rfl⟩ | ⟨rest, rfl⟩
  · exact stops_cons.mpr hhash
  · exact stops_cons.mpr hslash

/-- A trailer stops every scanner that stops at white space and at comments. -/
theorem IsTrailer.stops {text : List UInt8} (h : IsTrailer text) {p : UInt8 → Bool}
    (hspace : ∀ c, isSpace c = true → p c = false) (hhash : p hash = false)
    (hslash : p slash = false) : Stops p text := by
  obtain ⟨spaces, comment, rfl, hspaces, hcomment⟩ := h
  refine stops_append (fun c hc => hspace c (hspaces c hc)) ?_
  rcases hcomment with rfl | hcomment
  · exact stops_nil
  · exact hcomment.stops hhash hslash

theorem isTrailer_nil : IsTrailer [] :=
  ⟨[], [], rfl, fun _ hc => absurd hc List.not_mem_nil, Or.inl rfl⟩

/-- **The test at the end of a line.** -/
theorem isTrailer_iff (text : List UInt8) :
    IsTrailer text ↔ trim text = [] ∨ IsComment (trim text) := by
  constructor
  · rintro ⟨spaces, comment, rfl, hspaces, hcomment⟩
    have hstops : Stops isSpace comment := by
      rcases hcomment with rfl | hcomment
      · exact stops_nil
      · exact hcomment.stops rfl rfl
    rw [trim, dropWhile_append hspaces hstops]
    exact hcomment
  · intro h
    obtain ⟨spaces, hspaces, htext⟩ := exists_run isSpace text
    exact ⟨spaces, trim text, htext, hspaces, h⟩

/-! ## Numerals -/

/-- White space is neither a digit nor a dot. -/
theorem isSpace_disjoint {c : UInt8} (h : isSpace c = true) : isDigit c = false ∧ c ≠ dot := by
  grind [isSpace, isDigit, dot]

theorem IsTrailer.stops_isDigit {text : List UInt8} (h : IsTrailer text) : Stops isDigit text :=
  h.stops (fun _ hc => (isSpace_disjoint hc).1) rfl rfl

theorem IsTrailer.stops_dot {text : List UInt8} (h : IsTrailer text) : Stops (· = dot) text :=
  h.stops (fun _ hc => decide_eq_false (isSpace_disjoint hc).2) rfl rfl

/-- `parse_number` skips a sign if there is one. -/
theorem skipSign_sound (text : List UInt8) :
    ∃ sign, IsSign sign ∧ text = sign ++ skipSign text := by
  cases text with
  | nil => exact ⟨[], .none, rfl⟩
  | cons c text =>
    rw [skipSign]
    split
    · rename_i hc
      rcases hc with rfl | rfl
      · exact ⟨[minus], .minus, rfl⟩
      · exact ⟨[plus], .plus, rfl⟩
    · exact ⟨[], .none, rfl⟩

theorem skipSign_complete {sign text : List UInt8} (hsign : IsSign sign)
    (htext : startsNumber text = true) : skipSign (sign ++ text) = text := by
  cases hsign with
  | none =>
    cases text with
    | nil => rfl
    | cons c text =>
      rw [List.nil_append, skipSign, if_neg]
      rintro (rfl | rfl)
      · exact absurd htext Bool.false_ne_true
      · exact absurd htext Bool.false_ne_true
  | plus => rfl
  | minus => rfl

/-- What `parse_number` skips behind the sign is a numeral without a sign. -/
theorem skipDigits_sound {text : List UInt8} (h : startsNumber text = true) :
    ∃ unsigned, IsUnsigned unsigned ∧ text = unsigned ++ skipDigits text := by
  obtain ⟨digits, hdigits, htext⟩ := exists_run isDigit text
  have hstops := stops_dropWhile isDigit text
  rw [skipDigits]
  cases hrest : text.dropWhile isDigit with
  | nil =>
    rw [hrest, List.append_nil] at htext
    subst htext
    refine ⟨text, .integer hdigits ?_, (List.append_nil text).symm⟩
    rintro rfl
    exact Bool.noConfusion h
  | cons c rest =>
    rw [hrest] at htext hstops
    by_cases hc : c = dot
    · obtain ⟨decimals, hdecimals, hrest⟩ := exists_run isDigit rest
      refine ⟨digits ++ dot :: decimals, .fraction hdigits hdecimals, ?_⟩
      rw [htext]
      simp only [if_pos hc]
      rw [List.append_assoc, List.cons_append, ← hrest, hc]
    · refine ⟨digits, .integer hdigits ?_, ?_⟩
      · rintro rfl
        rw [htext, List.nil_append, startsNumber, stops_cons.mp hstops, Bool.false_or] at h
        exact hc (of_decide_eq_true h)
      · rw [htext]
        simp only [if_neg hc]

theorem IsUnsigned.startsNumber {unsigned : List UInt8} (h : IsUnsigned unsigned)
    (rest : List UInt8) : startsNumber (unsigned ++ rest) = true := by
  have hhead : ∀ {c : UInt8} (text : List UInt8), isDigit c = true ∨ c = dot →
      Config.startsNumber (c :: text) = true := by
    rintro c text (hc | rfl)
    · rw [Config.startsNumber, hc, Bool.true_or]
    · rfl
  cases h with
  | integer hdigits hne =>
    cases unsigned with
    | nil => exact absurd rfl hne
    | cons c unsigned => exact hhead _ (Or.inl (hdigits c List.mem_cons_self))
  | @fraction digits decimals hdigits hdecimals =>
    cases digits with
    | nil => rfl
    | cons c digits => exact hhead _ (Or.inl (hdigits c List.mem_cons_self))

/-- **A numeral is skipped as a whole**, in front of a text that could not continue it. -/
theorem skipDigits_complete {unsigned rest : List UInt8} (h : IsUnsigned unsigned)
    (hdigit : Stops isDigit rest) (hdot : Stops (· = dot) rest) :
    skipDigits (unsigned ++ rest) = rest := by
  rw [skipDigits]
  cases h with
  | integer hdigits hne =>
    rw [dropWhile_append hdigits hdigit]
    cases rest with
    | nil => rfl
    | cons c rest => exact if_neg (of_decide_eq_false (hdot c rfl))
  | @fraction digits decimals hdigits hdecimals =>
    have hstop : Stops isDigit (dot :: decimals ++ rest) := stops_cons.mpr rfl
    rw [List.append_assoc, dropWhile_append hdigits hstop]
    exact dropWhile_append hdecimals hdigit

/-! ## What is written into an entry -/

/-- **The entry holds the value**, in all of its fields.  `number` gives the numerals their
meaning. -/
def Holds (number : List UInt8 → F64) : CfgValue → CcCfgEntry → Prop
  | .num text, entry => entry.kind = some .num ∧ entry.f64 = some (number text) ∧
      entry.i64 = (number text).toInt ∧
      entry.b = (number text).toInt.map (fun n => decide (n ≠ 0)) ∧ entry.str = some none
  | .bool b, entry => entry.kind = some .bool ∧ entry.f64 = some (.fin (if b then 1 else 0)) ∧
      entry.i64 = some (if b then 1 else 0) ∧ entry.b = some b ∧ entry.str = some none
  | .str text, entry => entry.kind = some .str ∧ entry.f64 = some (.fin 0) ∧
      entry.i64 = some 0 ∧ entry.b = some true ∧
      ∃ str, entry.str = some (some str) ∧ str.text = text

/-- Only the numeral at hand has to mean the same. -/
theorem Holds.congr {number number' : List UInt8 → F64} {val : CfgValue} {entry : CcCfgEntry}
    (h : Holds number val entry) (heq : ∀ text, val = .num text → number text = number' text) :
    Holds number' val entry := by
  cases val with
  | num text =>
    have htext := heq text rfl
    rw [Holds, htext] at h
    exact h
  | bool b => exact h
  | str text => exact h

/-- The value is written into one entry, and the others stay. -/
def Fills (number : List UInt8 → F64) (val : CfgValue) (cfg : CcCfg) (i : ℕ) (cfg' : CcCfg) :
    Prop :=
  cfg'.capacity = cfg.capacity ∧ ∃ f : CcCfgEntry → CcCfgEntry,
    cfg'.entries = cfg.entries.modify i f ∧ (∀ entry, (f entry).key = entry.key) ∧
      ∀ entry, Holds number val (f entry)

theorem Fills.congr {number number' : List UInt8 → F64} {val : CfgValue} {cfg cfg' : CcCfg} {i : ℕ}
    (h : Fills number val cfg i cfg') (heq : ∀ text, val = .num text → number text = number' text) :
    Fills number' val cfg i cfg' := by
  obtain ⟨hcapacity, f, hentries, hkey, hholds⟩ := h
  exact ⟨hcapacity, f, hentries, hkey, fun entry => (hholds entry).congr heq⟩

/-! ## The scanners -/

theorem parseNumber_sound {atof : List UInt8 → F64} {cfg cfg' : CcCfg} {i : ℕ}
    {value rest : List UInt8} (h : parseNumber atof cfg i value = .ok (rest, cfg')) :
    ∃ text val, value = text ++ rest ∧ Denotes text val ∧
      Fills (fun _ => atof value) val cfg i cfg' := by
  rw [parseNumber] at h
  by_cases hstart : startsNumber (skipSign value) = true
  · simp only [if_pos hstart] at h
    obtain ⟨rfl, rfl⟩ := Prod.mk.inj (Except.ok.inj h)
    obtain ⟨sign, hsign, hvalue⟩ := skipSign_sound value
    obtain ⟨unsigned, hunsigned, hsrc⟩ := skipDigits_sound hstart
    refine ⟨sign ++ unsigned, .num (sign ++ unsigned), ?_,
      .num ⟨sign, unsigned, rfl, hsign, hunsigned⟩, rfl, _, rfl, fun _ => rfl, fun _ =>
        ⟨rfl, rfl, rfl, rfl, rfl⟩⟩
    rw [List.append_assoc, ← hsrc, ← hvalue]
  · simp only [if_neg hstart] at h
    exact nomatch h

theorem parseNumber_complete (atof : List UInt8 → F64) (cfg : CcCfg) (i : ℕ)
    {text rest : List UInt8} (h : IsNumeral text) (hrest : IsTrailer rest) :
    ∃ cfg', parseNumber atof cfg i (text ++ rest) = .ok (rest, cfg') := by
  obtain ⟨sign, unsigned, rfl, hsign, hunsigned⟩ := h
  have hstart := hunsigned.startsNumber rest
  have hskip : skipSign (sign ++ unsigned ++ rest) = unsigned ++ rest := by
    rw [List.append_assoc]
    exact skipSign_complete hsign hstart
  rw [parseNumber, hskip]
  simp only [if_pos hstart]
  rw [skipDigits_complete hunsigned hrest.stops_isDigit hrest.stops_dot]
  exact ⟨_, rfl⟩

theorem parseString_sound (number : List UInt8 → F64) {cfg cfg' : CcCfg} {i : ℕ}
    {start rest : List UInt8} {delim : UInt8} (hdelim : delim = singleQuote ∨ delim = doubleQuote)
    (h : parseString cfg i (delim :: start) delim = .ok (rest, cfg')) :
    ∃ text val, delim :: start = text ++ rest ∧ Denotes text val ∧
      Fills number val cfg i cfg' := by
  rw [parseString, List.tail_cons] at h
  cases hsrc : start.dropWhile (· ≠ delim) with
  | nil =>
    simp only [hsrc] at h
    exact nomatch h
  | cons c src =>
    obtain ⟨-, hstart, hnot⟩ := cut_of_dropWhile_ne hsrc
    simp only [hsrc] at h
    obtain ⟨rfl, rfl⟩ := Prod.mk.inj (Except.ok.inj h)
    refine ⟨delim :: (start.takeWhile (· ≠ delim) ++ [delim]), _, ?_, .str hdelim hnot, rfl, _,
      rfl, fun _ => rfl, fun _ => ⟨rfl, rfl, rfl, rfl, _, rfl, rfl⟩⟩
    rw [List.cons_append, List.append_assoc, List.singleton_append, ← hstart]

theorem parseString_complete (cfg : CcCfg) (i : ℕ) {text : List UInt8} {quote : UInt8}
    (h : quote ∉ text) (rest : List UInt8) :
    ∃ cfg', parseString cfg i (quote :: (text ++ [quote]) ++ rest) quote = .ok (rest, cfg') := by
  have hsrc : (text ++ quote :: rest).dropWhile (· ≠ quote) = quote :: rest :=
    dropWhile_ne_append h rest
  have htail : (quote :: (text ++ [quote]) ++ rest).tail = text ++ quote :: rest := by
    rw [List.cons_append, List.tail_cons, List.append_assoc, List.singleton_append]
  rw [parseString, htail]
  simp only [hsrc]
  exact ⟨_, rfl⟩

theorem parseBool_sound (number : List UInt8 → F64) {cfg cfg' : CcCfg} {i : ℕ}
    {value rest : List UInt8} (h : parseBool cfg i value = .ok (rest, cfg')) :
    ∃ text val, value = text ++ rest ∧ Denotes text val ∧ Fills number val cfg i cfg' := by
  rw [parseBool] at h
  split at h
  · rename_i htrue
    obtain ⟨rfl, rfl⟩ := Prod.mk.inj (Except.ok.inj h)
    obtain ⟨rest, rfl⟩ := List.isPrefixOf_iff_prefix.mp htrue
    exact ⟨trueText, _, rfl, .yes, rfl, _, rfl, fun _ => rfl, fun _ => ⟨rfl, rfl, rfl, rfl, rfl⟩⟩
  · split at h
    · rename_i hfalse
      obtain ⟨rfl, rfl⟩ := Prod.mk.inj (Except.ok.inj h)
      obtain ⟨rest, rfl⟩ := List.isPrefixOf_iff_prefix.mp hfalse
      exact ⟨falseText, _, rfl, .no, rfl, _, rfl, fun _ => rfl, fun _ => ⟨rfl, rfl, rfl, rfl, rfl⟩⟩
    · exact nomatch h

theorem parseBool_complete (cfg : CcCfg) (i : ℕ) (b : Bool) (rest : List UInt8) :
    ∃ cfg', parseBool cfg i ((if b then trueText else falseText) ++ rest) = .ok (rest, cfg') := by
  cases b with
  | true => exact ⟨_, rfl⟩
  | false => exact ⟨_, rfl⟩

/-- **Soundness of `parse_value`.**  What it takes off is a value, and it writes it. -/
theorem parseValue_sound {atof : List UInt8 → F64} {cfg cfg' : CcCfg} {i : ℕ}
    {value rest : List UInt8} (h : parseValue atof cfg i value = .ok (rest, cfg')) :
    ∃ text val, value = text ++ rest ∧ Denotes text val ∧
      Fills (fun _ => atof value) val cfg i cfg' := by
  cases value with
  | nil => exact nomatch h
  | cons c value =>
    rw [parseValue] at h
    split at h
    · exact parseNumber_sound h
    · split at h
      · exact parseBool_sound _ h
      · split at h
        · rename_i hquote
          exact parseString_sound _ hquote h
        · exact nomatch h

/-- The characters at which `parse_value` chooses `parse_number`. -/
def OpensNumber (c : UInt8) : Prop := c = dot ∨ c = plus ∨ c = minus ∨ isDigit c = true

instance : DecidablePred OpensNumber := fun _ => inferInstanceAs (Decidable (_ ∨ _))

theorem IsNumeral.opens {text : List UInt8} (h : IsNumeral text) :
    ∃ c rest, text = c :: rest ∧ OpensNumber c := by
  obtain ⟨sign, unsigned, rfl, hsign, hunsigned⟩ := h
  cases hsign with
  | none =>
    have hstart := hunsigned.startsNumber []
    rw [List.append_nil] at hstart
    cases unsigned with
    | nil => exact Bool.noConfusion hstart
    | cons c unsigned =>
      refine ⟨c, unsigned, rfl, ?_⟩
      rcases Bool.or_eq_true_iff.mp hstart with hdigit | hdot
      · exact Or.inr (Or.inr (Or.inr hdigit))
      · exact Or.inl (of_decide_eq_true hdot)
  | plus => exact ⟨plus, unsigned, rfl, Or.inr (Or.inl rfl)⟩
  | minus => exact ⟨minus, unsigned, rfl, Or.inr (Or.inr (Or.inl rfl))⟩

theorem IsNumeral.opensNumber {c : UInt8} {text : List UInt8} (h : IsNumeral (c :: text)) :
    OpensNumber c := by
  obtain ⟨d, rest, heq, hopens⟩ := h.opens
  rw [(List.cons.inj heq).1]
  exact hopens

/-- **Completeness of `parse_value`.**  Where the grammar sees a value and a trailer, it
takes off that value. -/
theorem parseValue_complete (atof : List UInt8 → F64) (cfg : CcCfg) (i : ℕ)
    {text rest : List UInt8} {val : CfgValue} (h : Denotes text val) (hrest : IsTrailer rest) :
    ∃ cfg', parseValue atof cfg i (text ++ rest) = .ok (rest, cfg') := by
  cases h with
  | num hnum =>
    obtain ⟨cfg', hparse⟩ := parseNumber_complete atof cfg i hnum hrest
    obtain ⟨c, text, rfl, hopens⟩ := hnum.opens
    refine ⟨cfg', ?_⟩
    rw [List.cons_append, parseValue]
    exact (if_pos hopens).trans hparse
  | yes => exact parseBool_complete cfg i true rest
  | no => exact parseBool_complete cfg i false rest
  | str hquote hnot =>
    obtain ⟨cfg', hparse⟩ := parseString_complete cfg i hnot rest
    refine ⟨cfg', ?_⟩
    rcases hquote with rfl | rfl
    · exact hparse
    · exact hparse

/-! ## At most one key and one value -/

/-- A value does not begin with white space, so all of the white space in front of it is
skipped. -/
theorem Denotes.stops {text : List UInt8} {val : CfgValue} (h : Denotes text val)
    (rest : List UInt8) : Stops isSpace (text ++ rest) := by
  cases h with
  | num hnum =>
    obtain ⟨c, text, rfl, hopens⟩ := hnum.opens
    refine stops_cons.mpr (Bool.eq_false_iff.mpr fun hspace => ?_)
    rcases hopens with rfl | rfl | rfl | hdigit
    · exact absurd hspace (by decide)
    · exact absurd hspace (by decide)
    · exact absurd hspace (by decide)
    · rw [(isSpace_disjoint hspace).1] at hdigit
      exact Bool.noConfusion hdigit
  | yes => exact stops_cons.mpr rfl
  | no => exact stops_cons.mpr rfl
  | str hquote hnot =>
    rcases hquote with rfl | rfl
    · exact stops_cons.mpr rfl
    · exact stops_cons.mpr rfl

/-- The first character tells the values of different kinds apart, and `true` from
`false`. -/
theorem Denotes.unique {text text' : List UInt8} {val val' : CfgValue} (h : Denotes text val)
    (h' : Denotes text' val') (heq : text = text') : val = val' := by
  have htrue : ¬IsNumeral trueText := fun h => absurd h.opensNumber (by decide)
  have hfalse : ¬IsNumeral falseText := fun h => absurd h.opensNumber (by decide)
  have hstr : ∀ {quote : UInt8} {rest : List UInt8},
      quote = singleQuote ∨ quote = doubleQuote → ¬IsNumeral (quote :: rest) := by
    rintro quote rest (rfl | rfl) h
    · exact absurd h.opensNumber (by decide)
    · exact absurd h.opensNumber (by decide)
  have hword : ∀ {quote c : UInt8} {rest rest' : List UInt8},
      quote = singleQuote ∨ quote = doubleQuote → c = 't'.toUInt8 ∨ c = 'f'.toUInt8 →
      quote :: rest ≠ c :: rest' := by
    rintro quote c rest rest' (rfl | rfl) (rfl | rfl) heq
    all_goals exact absurd (List.cons.inj heq).1 (by decide)
  cases h with
  | num hnum =>
    cases h' with
    | num hnum' => rw [heq]
    | yes => exact absurd (heq ▸ hnum) htrue
    | no => exact absurd (heq ▸ hnum) hfalse
    | str hquote' hnot' => exact absurd (heq ▸ hnum) (hstr hquote')
  | yes =>
    cases h' with
    | num hnum' => exact absurd (heq ▸ hnum') htrue
    | yes => rfl
    | no => exact absurd heq (by decide)
    | str hquote' hnot' => exact absurd heq.symm (hword hquote' (Or.inl rfl))
  | no =>
    cases h' with
    | num hnum' => exact absurd (heq ▸ hnum') hfalse
    | yes => exact absurd heq (by decide)
    | no => rfl
    | str hquote' hnot' => exact absurd heq.symm (hword hquote' (Or.inr rfl))
  | str hquote hnot =>
    cases h' with
    | num hnum' => exact absurd (heq ▸ hnum') (hstr hquote)
    | yes => exact absurd heq (hword hquote (Or.inl rfl))
    | no => exact absurd heq (hword hquote (Or.inr rfl))
    | str hquote' hnot' =>
      have htext := (List.append_inj' (List.cons.inj heq).2 rfl).1
      rw [htext]

/-- **The form of a line, behind its first colon.** -/
theorem hasForm_iff {line key after : List UInt8} (hline : line = key ++ colon :: after)
    (hkey : colon ∉ key) {key' : List UInt8} {val : CfgValue} :
    HasForm line key' val ↔ key' = key ∧ ∃ text trailer, trim after = text ++ trailer ∧
      Denotes text val ∧ IsTrailer trailer := by
  constructor
  · rintro ⟨spaces, text, trailer, hline', hkey', hspaces, hdenotes, htrailer⟩
    obtain ⟨rfl, hafter⟩ := append_cons_inj hkey' hkey (hline'.symm.trans hline)
    refine ⟨rfl, text, trailer, ?_, hdenotes, htrailer⟩
    rw [trim, ← hafter, dropWhile_append hspaces (hdenotes.stops trailer)]
  · rintro ⟨rfl, text, trailer, htrim, hdenotes, htrailer⟩
    obtain ⟨spaces, hspaces, hafter⟩ := exists_run isSpace after
    refine ⟨spaces, text, trailer, ?_, hkey, hspaces, hdenotes, htrailer⟩
    rw [hline, ← htrim, trim, ← hafter]

/-- **A line has at most one key and one value.** -/
theorem HasForm.unique {line key key' : List UInt8} {val val' : CfgValue}
    (h : HasForm line key val) (h' : HasForm line key' val') : key' = key ∧ val' = val := by
  obtain ⟨spaces, text, trailer, hline, hkey, hspaces, hdenotes, htrailer⟩ := h
  have htrim : trim (spaces ++ (text ++ trailer)) = text ++ trailer :=
    dropWhile_append hspaces (hdenotes.stops trailer)
  obtain ⟨hsame, text', trailer', hcut, hdenotes', htrailer'⟩ := (hasForm_iff hline hkey).mp h'
  rw [htrim] at hcut
  -- the scanner cuts the text in one place only
  obtain ⟨cfg, hparse⟩ := parseValue_complete (fun _ => .nan) emptyCfg 0 hdenotes htrailer
  obtain ⟨cfg', hparse'⟩ := parseValue_complete (fun _ => .nan) emptyCfg 0 hdenotes' htrailer'
  rw [hcut, hparse'] at hparse
  have hrest : trailer' = trailer := congrArg Prod.fst (Except.ok.inj hparse)
  rw [hrest] at hcut
  exact ⟨hsame, hdenotes'.unique hdenotes (List.append_cancel_right hcut).symm⟩

end Config
end CCore
