import CCore.Config.Effects

/-!
# What a configuration file means

`parse` is an accumulation over the lines of the file.  Each line that is not a comment
either stops it, or makes it write one value into the entry of one key.

## The entries

`Records` relates the entries to the lines that were read: each entry holds what the last
line that defines its key says.  It is what `Tracks` comes to (`Tracks.records`) where every
line has the form and `atof` reads numerals as the C standard says: then a line sets a key
exactly if it defines it.

## The parser and its loop

`parseLoop_eq` says that the parser's loop is the accumulation over `lines`.  The number
of its turns is at most the number of bytes and two more, since every turn but the last
two takes a line off the stream.
-/

namespace CCore
namespace Config

open LastWriter Scanning

/-! ## The entries -/

/-- **The entries are those that the lines define.**  Each key has one entry, and it holds
the value of the last line that defines the key. -/
def Records (atof : List UInt8 → F64) (cfg : CcCfg) (ls : List (List UInt8)) : Prop :=
  Room cfg ∧ Keeps Defines (fun entry : CcCfgEntry => entry.key.text) (Holds atof) cfg.entries ls

/-! ## What is asked of `atof` -/

/-- `atof` reads a numeral up to a text that does not continue it, as the C standard asks
of it. -/
def ReadsNumerals (atof : List UInt8 → F64) : Prop :=
  ∀ text rest, IsNumeral text → IsTrailer rest → atof (text ++ rest) = atof text

/-- The numeral at the front of a text, as `parse_number` finds it. -/
def numeralPrefix (text : List UInt8) : List UInt8 :=
  text.take (text.length - (skipDigits (skipSign text)).length)

/-- The number that a decimal numeral names. -/
def decimalValue (numeral : List UInt8) : ℚ :=
  let digits := (skipSign numeral).takeWhile isDigit
  let decimals := ((skipSign numeral).dropWhile isDigit).tail
  let value : ℕ := (digits ++ decimals).foldl (fun n c => 10 * n + (c.toNat - 48)) 0
  (if numeral.head? = some minus then -1 else 1) * (value : ℚ) / 10 ^ decimals.length

/-- `atof` on the texts that begin with a decimal numeral, where no rounding is needed. -/
def decimalAtof (text : List UInt8) : F64 := .fin (decimalValue (numeralPrefix text))

theorem numeralPrefix_append {text rest : List UInt8} (h : IsNumeral text)
    (hrest : IsTrailer rest) : numeralPrefix (text ++ rest) = text := by
  obtain ⟨sign, unsigned, rfl, hsign, hunsigned⟩ := h
  rw [numeralPrefix, List.append_assoc, skipSign_complete hsign (hunsigned.startsNumber rest),
    skipDigits_complete hunsigned hrest.stops_isDigit hrest.stops_dot, ← List.append_assoc,
    List.length_append, Nat.add_sub_cancel, List.take_left]

/-- The assumption is satisfiable. -/
theorem decimalAtof_readsNumerals : ReadsNumerals decimalAtof := by
  intro text rest hnum hrest
  have hself := numeralPrefix_append hnum isTrailer_nil
  rw [List.append_nil] at hself
  rw [decimalAtof, decimalAtof, numeralPrefix_append hnum hrest, hself]

/-- In front of a trailer, a value is scanned with the meaning of its own numeral. -/
theorem ReadsNumerals.eval {atof : List UInt8 → F64} (h : ReadsNumerals atof)
    {text rest : List UInt8} {val : CfgValue} (hdenotes : Denotes text val)
    (hrest : IsTrailer rest) : (val.eval fun _ => atof (text ++ rest)) = val.eval atof := by
  cases hdenotes with
  | num hnum => exact congrArg Value.num (h _ _ hnum hrest)
  | yes => rfl
  | no => rfl
  | str => rfl

/-- **A line that defines a key sets it to the value it defines.** -/
theorem ReadsNumerals.sets {atof : List UInt8 → F64} (h : ReadsNumerals atof)
    {text key : List UInt8} {val : CfgValue} (hdefines : Defines text key val) :
    Sets atof text key (val.eval atof) := by
  obtain ⟨hcomment, spaces, numeral, trailer, hline, hkey, hspaces, hdenotes, htrailer⟩ := hdefines
  refine ⟨hcomment, _, hline, hkey, numeral, trailer, val, ?_, hdenotes, ?_⟩
  · exact dropWhile_append hspaces (hdenotes.stops trailer)
  · rw [trim, dropWhile_append hspaces (hdenotes.stops trailer), h.eval hdenotes htrailer]

/-- Where every line has the form, the lines that set a key are those that define it. -/
theorem exists_defines {texts : List (List UInt8)} (hwell : ∀ text ∈ texts, WellFormed text)
    {atof : List UInt8 → F64} {text : List UInt8} (htext : text ∈ texts)
    {key : List UInt8} {w : Value}
    (hsets : Sets atof text key w) : ∃ val, Defines text key val := by
  obtain ⟨key', val, hdefines⟩ := (hwell text htext).resolve_left hsets.1
  obtain ⟨w', hsets'⟩ := hdefines.sets atof
  obtain ⟨rfl, -⟩ := hsets.unique hsets'
  exact ⟨val, hdefines⟩

/-- **Setting is defining**, as long as every line has the form. -/
theorem Tracks.records {atof : List UInt8 → F64} (hatof : ReadsNumerals atof) {cfg : CcCfg}
    {texts : List (List UInt8)} (h : Tracks atof cfg texts)
    (hwell : ∀ text ∈ texts, WellFormed text) : Records atof cfg texts :=
  ⟨h.1, h.2.comap (CfgValue.eval atof)
    (fun _ htext _ _ hsets => exists_defines hwell htext hsets)
    (fun _ _ _ _ hdefines => hatof.sets hdefines) fun _ _ hheld => holds_iff.mpr hheld⟩

/-- The last definition of a key is what sets it last. -/
theorem ReadsNumerals.lastWrite {atof : List UInt8 → F64} (h : ReadsNumerals atof)
    {texts : List (List UInt8)} (hwell : ∀ text ∈ texts, WellFormed text) {key : List UInt8}
    {val : CfgValue} (hlast : LastWrite Defines texts key val) :
    LastWrite (Sets atof) texts key (val.eval atof) :=
  hlast.map _ (fun _ htext _ _ hsets => exists_defines hwell htext hsets)
    fun _ _ _ _ hdefines => h.sets hdefines

/-! ## The loop of `parse` -/

/-- **A stream that fails keeps the loop turning.**  `read_line` has nothing to read, and
`feof` stays false. -/
theorem parseLoop_stuck (atof : List UInt8 → F64) (line : LineBuffer) (cfg : CcCfg) (fuel : ℕ) :
    parseLoop atof fuel ⟨[], false, true⟩ line cfg = none := by
  induction fuel with
  | zero => rfl
  | succ fuel ih => exact ih

/-- **The parser's loop is the accumulation over the lines**, of which a stream that fails at
its end lets nothing come out but a failure.  A stream that has reported its end has nothing
left, and the fuel covers a turn for each line, one in which the end is found and one in
which it is noticed. -/
theorem parseLoop_filter (atof : List UInt8 → F64) (f : Stream)
    (heof : f.eof = true → f.rest = [] ∧ f.failing = false) (line : LineBuffer) (cfg : CcCfg)
    (fuel : ℕ) (hfuel : f.rest.length + 2 ≤ fuel) :
    parseLoop atof fuel f line cfg =
      (parseLines atof cfg (lines f.rest)).filter
        fun outcome => !(f.failing && outcome.success) := by
  induction fuel generalizing f line cfg with
  | zero => omega
  | succ fuel ih =>
    by_cases hend : f.eof = true
    · obtain ⟨hrest, hfailing⟩ := heof hend
      rw [parseLoop, if_pos hend, hrest, hfailing]
      rfl
    · rw [parseLoop, if_neg hend]
      obtain ⟨line', hread, hstored⟩ := readLine_eq f line
      have hnext := takeLine_nextLine f.failing f.rest
      have hreport := takeLine_eof f.failing f.rest []
      rw [hread, Option.bind_some]
      generalize takeLine f.failing f.rest [] = next at *
      cases hnext with
      | none hlines =>
        show parseLoop atof fuel ⟨[], !f.failing, f.failing⟩ line' cfg = _
        rw [hlines]
        cases hfailing : f.failing with
        | true => exact parseLoop_stuck atof line' cfg fuel
        | false =>
          cases fuel with
          | zero => omega
          | succ fuel => rfl
      | @line chars f' hne hlines hlen hfailing heof' =>
        have hloop : ∀ cfg, parseLoop atof fuel f' line' cfg =
            (parseLines atof cfg (lines f'.rest)).filter
              fun outcome => !(f.failing && outcome.success) := fun cfg => by
          rw [← hfailing]
          exact ih f' (fun h => ⟨heof' h, hfailing.trans (hreport h)⟩) line' cfg (by omega)
        show (if chars.length = 0 then _ else _) = _
        rw [if_neg fun hzero => hne (List.length_eq_zero_iff.mp hzero), hstored.stored_eq,
          Option.bind_some, hstored.cString_eq hne, Option.bind_some, hlines, parseLines]
        by_cases hcomment : lineIsComment chars = true
        · rw [if_pos hcomment, if_pos hcomment, hloop]
        · rw [if_neg hcomment, if_neg hcomment]
          cases parseEntry atof cfg (cText chars) with
          | none => rfl
          | some outcome =>
            rw [Option.bind_some, Option.bind_some]
            cases hsuccess : outcome.success with
            | true => rw [if_pos rfl, if_pos rfl, hloop]
            | false =>
              rw [if_neg Bool.false_ne_true, if_neg Bool.false_ne_true, Option.filter_some,
                hsuccess, Bool.and_false, Bool.not_false, if_pos rfl]

/-- What comes out with some fuel comes out with more. -/
theorem parseLoop_mono {atof : List UInt8 → F64} {fuel fuel' : ℕ} (hfuel : fuel ≤ fuel')
    {f : Stream} {line : LineBuffer} {cfg : CcCfg} {outcome : Outcome}
    (h : parseLoop atof fuel f line cfg = some outcome) :
    parseLoop atof fuel' f line cfg = some outcome := by
  induction fuel generalizing fuel' f line cfg with
  | zero => exact nomatch h
  | succ fuel ih =>
    obtain ⟨fuel', rfl⟩ := Nat.exists_eq_add_of_lt hfuel
    have hle : fuel ≤ fuel + fuel' := Nat.le_add_right fuel fuel'
    rw [parseLoop] at h ⊢
    split at h
    · rename_i hend
      rw [if_pos hend]
      exact h
    · rename_i hend
      rw [if_neg hend]
      obtain ⟨⟨size, line', f'⟩, hread, h⟩ := Option.bind_eq_some_iff.mp h
      rw [hread, Option.bind_some]
      dsimp only at h ⊢
      split at h
      · rename_i hsize
        rw [if_pos hsize]
        exact ih hle h
      · rename_i hsize
        rw [if_neg hsize]
        obtain ⟨chars, hchars, h⟩ := Option.bind_eq_some_iff.mp h
        rw [hchars, Option.bind_some]
        split at h
        · rename_i hcomment
          rw [if_pos hcomment]
          exact ih hle h
        · rename_i hcomment
          rw [if_neg hcomment]
          obtain ⟨str, hstr, h⟩ := Option.bind_eq_some_iff.mp h
          obtain ⟨step, hstep, h⟩ := Option.bind_eq_some_iff.mp h
          rw [hstr, Option.bind_some, hstep, Option.bind_some]
          split at h
          · rename_i hsuccess
            rw [if_pos hsuccess]
            exact ih hle h
          · rename_i hsuccess
            rw [if_neg hsuccess]
            exact h

/-- At the end of a file the loop ends. -/
theorem parseLoop_eq (atof : List UInt8 → F64) (f : Stream) (hfailing : f.failing = false)
    (heof : f.eof = true → f.rest = []) (line : LineBuffer) (cfg : CcCfg) (fuel : ℕ)
    (hfuel : f.rest.length + 2 ≤ fuel) :
    parseLoop atof fuel f line cfg = parseLines atof cfg (lines f.rest) := by
  rw [parseLoop_filter atof f (fun h => ⟨heof h, hfailing⟩) line cfg fuel hfuel, hfailing]
  cases parseLines atof cfg (lines f.rest) with
  | none => rfl
  | some outcome => rfl

/-- The lines of a file, as the parser cuts them: C strings. -/
def texts (content : List UInt8) : List (List UInt8) := (lines content).map cText

/-- Without NUL bytes, these are the lines. -/
theorem texts_of_notMem {content : List UInt8} (h : 0 ∉ content) : texts content = lines content :=
  (List.map_congr_left fun _ hline => cText_of_notMem fun hmem =>
    h (mem_of_mem_lines hline hmem)).trans (List.map_id _)

/-- **A file has a verdict**, whatever its bytes are. -/
theorem parse_verdict (atof : List UInt8 → F64) (content : List UInt8) {fuel : ℕ}
    (hfuel : content.length + 2 ≤ fuel) :
    ∃ outcome, parse atof fuel emptyCfg ⟨content, false, false⟩ = some outcome ∧
      Verdict atof [] (texts content) outcome := by
  obtain ⟨outcome, hparse, hverdict⟩ := parseLines_verdict atof (lines content)
    (fun line => ne_nil_of_mem_lines) (tracks_empty atof)
  refine ⟨outcome, ?_, hverdict⟩
  exact (parseLoop_eq atof ⟨content, false, false⟩ rfl nofun [] emptyCfg fuel hfuel).trans hparse

/-! ## The whole file -/

/-- **The configuration parser accepts its line grammar, and the last definition of a key
wins.**  On every file without NUL bytes and read without an error, `parse` comes to its
end, inside its buffer and its array.  It succeeds exactly if every line is a comment or
defines a key; then the keys of the entries are distinct, they are the keys that lines
define, and each entry holds the value of the last line that defines its key.  A line feed
at the end of the file makes no difference. -/
theorem cfg_grammar_last_wins {atof : List UInt8 → F64} (hatof : ReadsNumerals atof)
    (content : List UInt8) (hnul : 0 ∉ content) (fuel : ℕ) (hfuel : content.length + 3 ≤ fuel) :
    ∃ outcome, parse atof fuel emptyCfg ⟨content, false, false⟩ = some outcome ∧
      parse atof fuel emptyCfg ⟨content ++ [newline], false, false⟩ = some outcome ∧
      (outcome.success = true ↔
        ∀ line ∈ lines content, IsComment line ∨ ∃ key val, Defines line key val) ∧
      (outcome.success = true →
        (outcome.cfg.entries.map fun entry => entry.key.text).Nodup ∧
          (∀ key, (∃ entry ∈ outcome.cfg.entries, entry.key.text = key) ↔
            ∃ line ∈ lines content, ∃ val, Defines line key val) ∧
          ∀ key val, LastWrite Defines (lines content) key val →
            ∃ entry ∈ outcome.cfg.entries, entry.key.text = key ∧ Holds atof val entry) := by
  have hloop : ∀ rest : List UInt8, rest.length + 2 ≤ fuel →
      parse atof fuel emptyCfg ⟨rest, false, false⟩ = parseLines atof emptyCfg (lines rest) :=
    fun rest hlen => parseLoop_eq atof ⟨rest, false, false⟩ rfl nofun [] emptyCfg fuel hlen
  have hlen : (content ++ [newline]).length + 2 ≤ fuel := by
    rw [List.length_append, List.length_singleton]
    omega
  obtain ⟨outcome, hparse, hverdict⟩ := parse_verdict atof content (by omega : _ ≤ fuel)
  have hsuccess := hverdict.success_iff
  rw [texts_of_notMem hnul] at hverdict hsuccess
  refine ⟨outcome, hparse, ?_, hsuccess, fun htrue => ?_⟩
  · rw [← hparse, hloop _ hlen, hloop content (by omega), lines_append_newline]
  · obtain ⟨-, hkeeps⟩ := (hverdict.tracks htrue).records hatof (hsuccess.mp htrue)
    exact ⟨hkeeps.distinct, hkeeps.exists_iff, hkeeps.last⟩

/-- A file with a quoted `#`, comments behind values, a key that changes its kind and no
line feed at its end. -/
def sampleFile : List UInt8 :=
  "name: 'a#b' // text\n\n  # nothing\r\nspeed:-12.5#m\nname :true\nname: false".toList.map
    Char.toUInt8

theorem cfg_grammar_last_wins_sample :
    ∃ outcome, parse decimalAtof 90 emptyCfg ⟨sampleFile, false, false⟩ = some outcome ∧
      parse decimalAtof 90 emptyCfg ⟨sampleFile ++ [newline], false, false⟩ = some outcome ∧
      (∀ line ∈ lines sampleFile, IsComment line ∨ ∃ key val, Defines line key val) ∧
      (outcome.cfg.entries.map fun entry => entry.key.text).Nodup := by
  obtain ⟨outcome, hparse, hparse', hsuccess, hentries⟩ :=
    cfg_grammar_last_wins decimalAtof_readsNumerals sampleFile (by decide) 90 (by decide)
  have htrue : (parse decimalAtof 90 emptyCfg ⟨sampleFile, false, false⟩).map Outcome.success =
      some true := by
    decide +kernel
  rw [hparse] at htrue
  have hdone := Option.some.inj htrue
  exact ⟨outcome, hparse, hparse', hsuccess.mp hdone, (hentries hdone).1⟩

end Config
end CCore
