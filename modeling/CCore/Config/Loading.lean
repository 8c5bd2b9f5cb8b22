import CCore.Config.Answers
import CCore.Config.Parsing

/-!
# What loading leaves behind

`cc_cfg_load` returns the configuration also when `parse` has failed.  So what matters to
the rest of the program is not only what an accepted file means, but what a rejected one
leaves in the entries, and that the call comes back at all.

* A rejected line can leave an entry that was never written: it has filed its key, and then
  there was no value to store.  `Initialised` is what one would expect of a loaded
  configuration, and `ccCfgLoad_initialised_iff` says which files break it.
* A rejected line can overwrite an earlier definition: the value is stored before the parser
  looks at what stands behind it.  `ccCfgLoad_keepsEarlier_iff` says when that happens.
* The loop of `parse` waits for `feof`, and a stream that fails does not set it:
  `ccCfgLoad_returns_iff`.
-/

namespace CCore
namespace Config

open LastWriter Scanning

/-! ## Initialised configurations -/

/-- **A fully initialised configuration.**  What an entry holds was written by a scanner that
has come to its end, on a line with the key of the entry; and no getter, nor
`cc_cfg_delete`, meets a field that was never written. -/
structure Initialised (atof : List UInt8 → F64) (texts : List (List UInt8)) (cfg : CcCfg) :
    Prop where
  written : ∀ entry ∈ cfg.entries, ∃ text ∈ texts, ∃ w, Sets atof text entry.key.text w ∧
    w.HeldBy entry
  getBool : ∀ out k, ccCfgGetBool cfg out k ≠ none
  getInt : ∀ out k, ccCfgGetInt cfg out k ≠ none
  getFloat : ∀ (φ : Type) (toFloat : F64 → φ) out k, ccCfgGetFloat toFloat cfg out k ≠ none
  getDouble : ∀ out k, ccCfgGetDouble cfg out k ≠ none
  getStr : ∀ out k, ccCfgGetStr cfg out k ≠ none
  delete : ccCfgDelete cfg ≠ none

/-- Nothing else is needed for this than that the entries are written. -/
theorem initialised_of_written {atof : List UInt8 → F64} {texts : List (List UInt8)} {cfg : CcCfg}
    (h : ∀ entry ∈ cfg.entries, ∃ text ∈ texts, ∃ w, Sets atof text entry.key.text w ∧
      w.HeldBy entry) : Initialised atof texts cfg := by
  have hwritten : Written cfg := fun entry hentry => by
    obtain ⟨text, -, w, -, hw⟩ := h entry hentry
    exact ⟨w, hw⟩
  refine ⟨h, fun out k => ?_, fun out k => ?_, fun φ toFloat out k => ?_, fun out k => ?_,
    fun out k => ?_, ccCfgDelete_ne_none hwritten⟩
  · rw [ccCfgGetBool_report hwritten]
    exact Option.some_ne_none _
  · rw [ccCfgGetInt_report hwritten]
    exact Option.some_ne_none _
  · rw [ccCfgGetFloat_report hwritten]
    exact Option.some_ne_none _
  · rw [ccCfgGetDouble_report hwritten]
    exact Option.some_ne_none _
  · rw [ccCfgGetStr_report hwritten]
    exact Option.some_ne_none _

/-- What is written by some of the lines is written by the lines of a longer file. -/
theorem Tracks.initialised {atof : List UInt8 → F64} {cfg : CcCfg}
    {texts texts' : List (List UInt8)} (h : Tracks atof cfg texts) (hsub : texts ⊆ texts') :
    Initialised atof texts' cfg := by
  refine initialised_of_written fun entry hentry => ?_
  obtain ⟨w, ⟨before, text, after, rfl, hsets, -⟩, hheld⟩ := h.2.held hentry
  exact ⟨text, hsub (List.mem_append_right _ List.mem_cons_self), w, hsets, hheld⟩

/-- The text begins with a value. -/
def BeginsWithValue (text : List UInt8) : Prop :=
  ∃ value rest val, text = value ++ rest ∧ Denotes value val

theorem beginsWithValue_iff (atof : List UInt8 → F64) {text : List UInt8} :
    BeginsWithValue text ↔ ∃ w, Scans atof text w := by
  constructor
  · rintro ⟨value, rest, val, htext, hdenotes⟩
    exact ⟨_, value, rest, val, htext, hdenotes, rfl⟩
  · rintro ⟨w, value, rest, val, htext, hdenotes, -⟩
    exact ⟨value, rest, val, htext, hdenotes⟩

/-- Behind the colon of a line that has the form, a value begins. -/
theorem WellFormed.beginsWithValue {text key rest : List UInt8} (h : WellFormed text)
    (hcomment : ¬IsComment text) (hline : text = key ++ colon :: rest) (hkey : colon ∉ key) :
    BeginsWithValue (trim rest) := by
  obtain ⟨k, val, -, hform⟩ := h.resolve_left hcomment
  obtain ⟨-, value, trailer, htrim, hdenotes, -⟩ := (hasForm_iff hline hkey).mp hform
  exact ⟨value, trailer, val, htrim, hdenotes⟩

/-- A line that has a key, which none of the lines before it defines, and no value. -/
def BlankLine (before : List (List UInt8)) (text : List UInt8) : Prop :=
  ¬IsComment text ∧ ∃ key rest, text = key ++ colon :: rest ∧ colon ∉ key ∧
    ¬BeginsWithValue (trim rest) ∧ ∀ t ∈ before, ∀ val, ¬Defines t key val

/-- **The files that leave an entry blank.**  The first line that does not have the form is
such a line. -/
def LeavesBlank (texts : List (List UInt8)) : Prop :=
  ∃ before text after, texts = before ++ text :: after ∧ (∀ t ∈ before, WellFormed t) ∧
    BlankLine before text

theorem BlankLine.not_wellFormed {before : List (List UInt8)} {text : List UInt8}
    (h : BlankLine before text) : ¬WellFormed text := by
  obtain ⟨hcomment, key, _, hline, hkey, hvalue, -⟩ := h
  exact fun hwell => hvalue (hwell.beginsWithValue hcomment hline hkey)

/-- Where that line is, is known. -/
theorem leavesBlank_iff {before after : List (List UInt8)} {text : List UInt8}
    (hwell : ∀ t ∈ before, WellFormed t) (hnot : ¬WellFormed text) :
    LeavesBlank (before ++ text :: after) ↔ BlankLine before text := by
  constructor
  · rintro ⟨before', text', after', heq, hwell', hblank⟩
    obtain ⟨rfl, rfl, -⟩ := first_unique heq hwell hwell' hnot hblank.not_wellFormed
    exact hblank
  · exact fun hblank => ⟨before, text, after, rfl, hwell, hblank⟩

/-- **What a rejected line with a key but without a value does.**  It leaves an entry blank,
unless an earlier line has filled it. -/
theorem initialised_iff_of_noValue {atof : List UInt8 → F64} {cfg cfg₁ : CcCfg} {i : ℕ}
    {before after : List (List UInt8)} {text key : List UInt8}
    (htracks : Tracks atof cfg before) (hfound : Found cfg key cfg₁ i)
    (hblank : ∀ entry ∈ cfg₁.entries, entry ∈ cfg.entries ∨ entry.kind = none) :
    Initialised atof (before ++ text :: after) cfg₁ ↔ ∃ t ∈ before, ∃ w, Sets atof t key w := by
  cases hfound with
  | @old i entry hentry hkey =>
    subst hkey
    exact iff_of_true (htracks.initialised (List.subset_append_left ..))
      (htracks.2.written entry (List.mem_of_getElem? hentry))
  | @new cfg₁ entry hnew hentries hkey =>
    have hnone : ∀ t ∈ before, ∀ w, ¬Sets atof t key w := by
      intro t ht w hsets
      obtain ⟨other, hother, hsame⟩ := (htracks.2.exists_iff key).mpr ⟨t, ht, w, hsets⟩
      exact hnew other hother hsame
    have hmem : entry ∈ cfg₁.entries := by
      rw [hentries]
      exact List.mem_append_right _ (List.mem_singleton_self entry)
    refine iff_of_false (fun hinit => ?_) fun ⟨t, ht, w, hsets⟩ => hnone t ht w hsets
    obtain ⟨t, ht, w, hsets, hheld⟩ := hinit.written entry hmem
    obtain ⟨k, hkind, -⟩ := hheld.fields
    rcases hblank entry hmem with hold | hundef
    · exact hnew entry hold hkey
    · exact nomatch hkind.symm.trans hundef

/-- **A loaded configuration is fully initialised, unless its file leaves an entry blank.**
There is no other way for an unwritten field to come into a configuration. -/
theorem ccCfgLoad_initialised_iff (atof : List UInt8 → F64) (content : List UInt8) (fuel : ℕ)
    (hfuel : content.length + 2 ≤ fuel) :
    ∃ cfg, ccCfgLoad atof fuel (some ⟨content, false, false⟩) = some (some cfg) ∧
      (Initialised atof (texts content) cfg ↔ ¬LeavesBlank (texts content)) := by
  obtain ⟨outcome, hparse, hverdict⟩ := parse_verdict atof content hfuel
  refine ⟨outcome.cfg, by rw [ccCfgLoad, hparse, Option.map_some], ?_⟩
  generalize texts content = ts at hverdict
  cases hverdict with
  | accepted hwell htracks =>
    refine iff_of_true (htracks.initialised (List.Subset.refl _)) ?_
    rintro ⟨before, text, after, rfl, -, hblank⟩
    exact hblank.not_wellFormed (hwell text (List.mem_append_right _ List.mem_cons_self))
  | @rejected before after text cfg _ htexts hwell hnot htracks heffect =>
    subst htexts
    rw [List.nil_append] at htracks
    have hcomment : ¬IsComment text := fun hc => hnot (Or.inl hc)
    -- the line may have been stored all the same
    have hstored : before ++ [text] ⊆ before ++ text :: after := by
      rw [List.append_cons before text after]
      exact List.subset_append_left ..
    rw [leavesBlank_iff hwell hnot]
    cases heffect with
    | noColon hcolon =>
      have hnone : ∀ key rest, text ≠ key ++ colon :: rest := fun key rest hline =>
        hcolon (hline ▸ List.mem_append_right _ List.mem_cons_self)
      refine iff_of_true (Tracks.initialised ⟨htracks.1, htracks.2.skip ?_⟩ hstored) ?_
      · rintro key w ⟨-, rest, hline, -⟩
        exact hnone key rest hline
      · rintro ⟨-, key, rest, hline, -⟩
        exact hnone key rest hline
    | @noValue key rest cfg₁ i errors hline hkey hscan hroom hfound hnew =>
      show Initialised atof (before ++ text :: after) cfg₁ ↔ _
      rw [initialised_iff_of_noValue htracks hfound hnew]
      constructor
      · rintro ⟨t, ht, w, hsets⟩ ⟨-, key', rest', hline', hkey', -, hnone⟩
        obtain ⟨rfl, -⟩ := append_cons_inj hkey' hkey (hline'.symm.trans hline)
        obtain ⟨val, hdefines⟩ := exists_defines hwell ht hsets
        exact hnone t ht val hdefines
      · intro hall
        by_contra hnone
        refine hall ⟨hcomment, key, rest, hline, hkey, fun hvalue => ?_,
          fun t ht val hdefines => ?_⟩
        · obtain ⟨w, hw⟩ := (beginsWithValue_iff atof).mp hvalue
          exact hscan w hw
        · obtain ⟨w, hsets⟩ := hdefines.sets atof
          exact hnone ⟨t, ht, w, hsets⟩
    | @extra key w cfg₁ cfg₂ i errors hsets hform hroom hfound hstores =>
      refine iff_of_true ((htracks.store hsets hroom hfound hstores).initialised hstored) ?_
      rintro ⟨-, key', rest', hline', hkey', hvalue, -⟩
      exact hvalue ((beginsWithValue_iff atof).mpr
        ⟨w, ((sets_iff hcomment hline' hkey').mp hsets).2⟩)
    | definition _ hform => exact absurd hform hnot

/-- A key with a value that nothing can scan. -/
def unknownValueFile : List UInt8 := "a: @".toList.map Char.toUInt8

/-- `cc_cfg_delete` reads the kind of the entry of `a`, which was never written. -/
theorem not_initialised_unknownValue :
    ∃ cfg, ccCfgLoad decimalAtof 6 (some ⟨unknownValueFile, false, false⟩) = some (some cfg) ∧
      ¬Initialised decimalAtof (texts unknownValueFile) cfg := by
  refine ⟨⟨32, [⟨⟨0, [97]⟩, none, none, none, none, none⟩], [[97]]⟩, by decide +kernel, ?_⟩
  exact fun hinit => hinit.delete rfl

/-- The line leaves an entry without a kind behind. -/
theorem ccCfgLoad_initialised_iff_unknownValueFile :
    ∃ cfg, ccCfgLoad decimalAtof 6 (some ⟨unknownValueFile, false, false⟩) = some (some cfg) ∧
      (Initialised decimalAtof (texts unknownValueFile) cfg ↔
        ¬LeavesBlank (texts unknownValueFile)) :=
  ccCfgLoad_initialised_iff decimalAtof unknownValueFile 6 (by decide)

/-! ## Earlier definitions -/

/-- **The earlier definitions stand**: each key of these lines still has the value of the last
of them that defines it. -/
def KeepsEarlier (atof : List UInt8 → F64) (before : List (List UInt8)) (cfg : CcCfg) : Prop :=
  ∀ key val, LastWrite Defines before key val →
    ∃ entry, findEntry cfg key = some entry ∧ Holds atof val entry

/-- **A line overwrites an earlier definition.**  Behind the key and the colon, it begins with
another value than the one the key has.  A number is what `atof` reads from all of the text there:
behind `a: 1`, the line `a: 1e5` is rejected for its `e5`, and makes the value 100000. -/
def Overwrites (atof : List UInt8 → F64) (before : List (List UInt8)) (text : List UInt8) : Prop :=
  ∃ key val w, LastWrite Defines before key val ∧ Sets atof text key w ∧ w ≠ val.eval atof

theorem Tracks.findEntry {atof : List UInt8 → F64} {cfg : CcCfg} {texts : List (List UInt8)}
    (h : Tracks atof cfg texts) {key : List UInt8} {w : Value}
    (hlast : LastWrite (Sets atof) texts key w) :
    ∃ entry, Config.findEntry cfg key = some entry ∧ w.HeldBy entry := by
  obtain ⟨entry, hentry, rfl, hheld⟩ := h.2.last key w hlast
  exact ⟨entry, findEntry_of_mem h.2.distinct hentry, hheld⟩

/-- An entry that is added does not hide the others. -/
theorem Found.findEntry {cfg cfg₁ : CcCfg} {key k : List UInt8} {i : ℕ} {entry : CcCfgEntry}
    (h : Found cfg key cfg₁ i) (hentry : Config.findEntry cfg k = some entry) :
    Config.findEntry cfg₁ k = some entry := by
  cases h with
  | old => exact hentry
  | new _ hentries =>
    rw [Config.findEntry] at hentry ⊢
    rw [hentries, List.find?_append, hentry, Option.some_or]

/-- **What a line sets is what it overwrites.** -/
theorem keepsEarlier_iff {atof : List UInt8 → F64} (hatof : ReadsNumerals atof) {cfg : CcCfg}
    {before : List (List UInt8)} {text : List UInt8} (hwell : ∀ t ∈ before, WellFormed t)
    (h : Tracks atof cfg (before ++ [text])) :
    KeepsEarlier atof before cfg ↔ ¬Overwrites atof before text := by
  constructor
  · rintro hkeeps ⟨key, val, w, hlast, hsets, hne⟩
    obtain ⟨entry, hentry, hholds⟩ := hkeeps key val hlast
    obtain ⟨entry', hentry', hheld⟩ := h.findEntry (lastWrite_concat.mpr (Or.inl hsets))
    obtain rfl := Option.some.inj (hentry.symm.trans hentry')
    exact hne (hheld.unique (holds_iff.mp hholds))
  · intro hnot key val hlast
    have hall : LastWrite (Sets atof) (before ++ [text]) key (val.eval atof) := by
      refine lastWrite_concat.mpr ?_
      by_cases hsets : ∃ w, Sets atof text key w
      · obtain ⟨w, hsets⟩ := hsets
        have hsame : w = val.eval atof := by
          by_contra hne
          exact hnot ⟨key, val, w, hlast, hsets, hne⟩
        exact Or.inl (hsame ▸ hsets)
      · exact Or.inr ⟨hatof.lastWrite hwell hlast, not_exists.mp hsets⟩
    obtain ⟨entry, hentry, hheld⟩ := h.findEntry hall
    exact ⟨entry, hentry, holds_iff.mpr hheld⟩

/-- **A rejected line disturbs an earlier definition exactly if it overwrites one.**  The line
is the first that does not have the form, and the configuration is what `cc_cfg_load`
returns. -/
theorem ccCfgLoad_keepsEarlier_iff {atof : List UInt8 → F64} (hatof : ReadsNumerals atof)
    (content : List UInt8) (fuel : ℕ) (hfuel : content.length + 2 ≤ fuel) :
    ∃ outcome, parse atof fuel emptyCfg ⟨content, false, false⟩ = some outcome ∧
      ccCfgLoad atof fuel (some ⟨content, false, false⟩) = some (some outcome.cfg) ∧
      (outcome.success = false → ∃ before text after, texts content = before ++ text :: after ∧
        (∀ t ∈ before, WellFormed t) ∧ ¬WellFormed text ∧
        (KeepsEarlier atof before outcome.cfg ↔ ¬Overwrites atof before text)) := by
  obtain ⟨outcome, hparse, hverdict⟩ := parse_verdict atof content hfuel
  refine ⟨outcome, hparse, by rw [ccCfgLoad, hparse, Option.map_some], fun hfailure => ?_⟩
  cases hverdict with
  | accepted => exact nomatch hfailure
  | @rejected before after text cfg _ htexts hwell hnot htracks heffect =>
    rw [List.nil_append] at htracks
    refine ⟨before, text, after, htexts, hwell, hnot, ?_⟩
    cases heffect with
    | noColon hcolon =>
      refine keepsEarlier_iff hatof hwell ⟨htracks.1, htracks.2.skip ?_⟩
      rintro key w ⟨-, rest, hline, -⟩
      exact hcolon (hline ▸ List.mem_append_right _ List.mem_cons_self)
    | @noValue key rest cfg₁ i errors hline hkey hscan hroom hfound hnew =>
      refine iff_of_true (fun k val hlast => ?_) ?_
      · obtain ⟨entry, hentry, hheld⟩ := htracks.findEntry (hatof.lastWrite hwell hlast)
        exact ⟨entry, hfound.findEntry hentry, holds_iff.mpr hheld⟩
      · rintro ⟨k, val, w, -, hsets, -⟩
        exact hscan w ((sets_iff hsets.1 hline hkey).mp hsets).2
    | @extra key w cfg₁ cfg₂ i errors hsets hform hroom hfound hstores =>
      exact keepsEarlier_iff hatof hwell (htracks.store hsets hroom hfound hstores)
    | definition _ hform => exact absurd hform hnot

/-- A file whose second line defines the key of the first again, with something behind the
value. -/
def overwritingFile : List UInt8 := "a: true\na: false x".toList.map Char.toUInt8

theorem ccCfgLoad_keepsEarlier_iff_overwritingFile :
    ∃ outcome, parse decimalAtof 20 emptyCfg ⟨overwritingFile, false, false⟩ = some outcome ∧
      ccCfgLoad decimalAtof 20 (some ⟨overwritingFile, false, false⟩) = some (some outcome.cfg) ∧
      ∃ before text after, texts overwritingFile = before ++ text :: after ∧
        (∀ t ∈ before, WellFormed t) ∧ ¬WellFormed text ∧
        (KeepsEarlier decimalAtof before outcome.cfg ↔ ¬Overwrites decimalAtof before text) := by
  obtain ⟨outcome, hparse, hload, hkeeps⟩ :=
    ccCfgLoad_keepsEarlier_iff decimalAtof_readsNumerals overwritingFile 20 (by decide)
  have hfailure : (parse decimalAtof 20 emptyCfg ⟨overwritingFile, false, false⟩).map
      Outcome.success = some false := by
    decide +kernel
  rw [hparse] at hfailure
  exact ⟨outcome, hparse, hload, hkeeps (Option.some.inj hfailure)⟩

/-- The rejected line has made `a` false. -/
theorem not_keepsEarlier_overwritingFile :
    ∃ outcome line line', parse decimalAtof 20 emptyCfg ⟨overwritingFile, false, false⟩ =
        some outcome ∧
      outcome.success = false ∧ texts overwritingFile = [line] ++ line' :: [] ∧
      LastWrite Defines [line] [97] (.bool true) ∧
        ¬KeepsEarlier decimalAtof [line] outcome.cfg := by
  have hdefines : Defines ("a: true".toList.map Char.toUInt8) [97] (.bool true) := by
    refine ⟨?_, [32], trueText, [], rfl, by decide, by decide +kernel, .yes, isTrailer_nil⟩
    rw [IsComment]
    decide
  have hlast : LastWrite Defines ["a: true".toList.map Char.toUInt8] [97] (.bool true) :=
    lastWrite_singleton hdefines
  refine ⟨⟨false, ⟨32, [⟨⟨0, [97]⟩, some .bool, some none, some (.fin 0), some 0, some false⟩],
      [[97]]⟩, [.additionalText [97]]⟩, _, "a: false x".toList.map Char.toUInt8, by decide +kernel,
    rfl, by decide, hlast, fun hkeeps => ?_⟩
  obtain ⟨entry, hentry, hholds⟩ := hkeeps _ _ hlast
  obtain rfl := Option.some.inj hentry
  exact Bool.noConfusion (Option.some.inj hholds.2.2.2.1)

/-! ## Coming back -/

/-- **Loading ends exactly if the stream ends or a line is rejected.**  On a stream that fails
behind its bytes, which may also be none at all, an accepted file keeps `parse` waiting for
ever. -/
theorem ccCfgLoad_returns_iff (atof : List UInt8 → F64) (content : List UInt8) (failing : Bool) :
    (∃ fuel cfg, ccCfgLoad atof fuel (some ⟨content, false, failing⟩) = some cfg) ↔
      failing = false ∨ ∃ text ∈ texts content, ¬WellFormed text := by
  obtain ⟨outcome, hlines, hverdict⟩ := parseLines_verdict atof (lines content)
    (fun line => ne_nil_of_mem_lines) (tracks_empty atof)
  have hloop : ∀ fuel, content.length + 2 ≤ fuel →
      parse atof fuel emptyCfg ⟨content, false, failing⟩ =
        (some outcome).filter fun outcome => !(failing && outcome.success) := fun fuel hfuel => by
    rw [← hlines]
    exact parseLoop_filter atof ⟨content, false, failing⟩ nofun [] emptyCfg fuel hfuel
  have hpasses : (!(failing && outcome.success)) = true ↔
      failing = false ∨ ∃ text ∈ texts content, ¬WellFormed text := by
    have hrejected : outcome.success = false ↔ ∃ text ∈ texts content, ¬WellFormed text := by
      rw [← Bool.not_eq_true, hverdict.success_iff, texts]
      push Not
      rfl
    rw [← hrejected, Bool.not_eq_true', Bool.and_eq_false_iff]
  rw [← hpasses]
  constructor
  · rintro ⟨fuel, cfg, hload⟩
    obtain ⟨outcome', hparse, -⟩ := Option.map_eq_some_iff.mp hload
    have hmore := parseLoop_mono (Nat.le_add_right fuel (content.length + 2)) hparse
    have hfilter := (hloop _ (Nat.le_add_left _ fuel)).symm.trans hmore
    obtain ⟨hsame, hpass⟩ := Option.filter_eq_some_iff.mp hfilter
    rw [Option.some.inj hsame]
    exact hpass
  · intro hpass
    refine ⟨content.length + 2, some outcome.cfg, ?_⟩
    rw [ccCfgLoad, hloop _ le_rfl, Option.filter_some, if_pos hpass, Option.map_some]

/-- A directory can be opened, but its first byte cannot be read. -/
theorem not_ccCfgLoad_returns_directory :
    ¬∃ fuel cfg, ccCfgLoad decimalAtof fuel (some ⟨[], false, true⟩) = some cfg := by
  rintro ⟨fuel, cfg, hload⟩
  rw [ccCfgLoad, parse, parseLoop_stuck, Option.map_none] at hload
  exact nomatch hload

end Config
end CCore
