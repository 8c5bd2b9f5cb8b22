import CCore.Config.Loading
import CCore.Config.Ownership

/-!
# Asking for a key

A key is stored at its full length, but asked for through a buffer that holds 255 characters
of it.  So a question for a longer key is a question for another one, and the two are
answered alike only by accident: if neither is defined, or if both are and say the same.

## What an answer is

An entry answers a getter if its kind allows it; `boolOf` and `fieldOf` say what the answer
is.  `AnswersFrom` is what a getter promises: it returns the answer of the entry of the key,
or returns false and leaves `*out` as it was.  `LookupExact` is this for all getters
together, and `lookupExact_iff` reduces it to the two entries that are found, the one of the
key and the one of its front.

The answer of `cc_cfg_get_str` is a pointer, and no two entries own one string; so strings
are never answered alike by two entries.
-/

namespace CCore
namespace Config

open LastWriter Scanning

/-! ## What is promised -/

/-- **What a getter promises about a key.**  If the entry of the key has an answer, the getter
returns it; else it returns false, and leaves `*out` alone. -/
def AnswersFrom {α : Type} (cfg : CcCfg) (key : List UInt8) (answer : CcCfgEntry → Option α)
    (get : α → Option (Bool × α)) : Prop :=
  (∀ entry ∈ cfg.entries, entry.key.text = key → ∀ v, answer entry = some v →
      ∀ out, get out = some (true, v)) ∧
    ((∀ entry ∈ cfg.entries, entry.key.text = key → answer entry = none) →
      ∀ out, get out = some (false, out))

theorem answersFrom_iff {α : Type} {cfg : CcCfg}
    (hdistinct : (cfg.entries.map fun entry => entry.key.text).Nodup) {key : List UInt8}
    {answer : CcCfgEntry → Option α} {get : α → Option (Bool × α)} :
    AnswersFrom cfg key answer get ↔
      ∀ out, get out = some (report out ((findEntry cfg key).bind answer)) := by
  have honly : ∀ entry ∈ cfg.entries, entry.key.text = key → findEntry cfg key = some entry := by
    rintro entry hentry rfl
    exact findEntry_of_mem hdistinct hentry
  constructor
  · rintro ⟨hsome, hnone⟩ out
    cases hanswer : (findEntry cfg key).bind answer with
    | none =>
      refine hnone (fun entry hentry hkey => ?_) out
      rw [honly entry hentry hkey] at hanswer
      exact hanswer
    | some v =>
      obtain ⟨entry, hfind, hv⟩ := Option.bind_eq_some_iff.mp hanswer
      obtain ⟨hentry, hkey⟩ := findEntry_some hfind
      exact hsome entry hentry hkey v hv out
  · intro hget
    refine ⟨fun entry hentry hkey v hv out => ?_, fun hnone out => ?_⟩
    · rw [hget, honly entry hentry hkey, Option.bind_some, hv]
      rfl
    · have hanswer : (findEntry cfg key).bind answer = none := by
        cases hfind : findEntry cfg key with
        | none => rfl
        | some entry =>
          obtain ⟨hentry, hkey⟩ := findEntry_some hfind
          exact hnone entry hentry hkey
      rw [hget, hanswer]
      rfl

/-! ## All getters together -/

/-- **Lookup agrees with definition**, for one key: it exists exactly if a line defines it, and
every getter answers from its entry. -/
structure LookupExact (texts : List (List UInt8)) (cfg : CcCfg) (k : CString) : Prop where
  exists_iff : ccCfgKeyExists cfg k = true ↔ ∃ text ∈ texts, ∃ val, Defines text k.chars val
  getBool : AnswersFrom cfg k.chars boolOf fun out => ccCfgGetBool cfg out k
  getInt : AnswersFrom cfg k.chars (fieldOf .num fun entry => some entry.i64) fun out =>
    ccCfgGetInt cfg out k
  getFloat : ∀ (φ : Type) (toFloat : F64 → φ),
    AnswersFrom cfg k.chars (fieldOf .num fun entry => entry.f64.map toFloat) fun out =>
      ccCfgGetFloat toFloat cfg out k
  getDouble : AnswersFrom cfg k.chars (fieldOf .num fun entry => entry.f64) fun out =>
    ccCfgGetDouble cfg out k
  getStr : AnswersFrom cfg k.chars (fieldOf .str fun entry => entry.str) fun out =>
    ccCfgGetStr cfg out k

/-- Two searches have the same answers. -/
structure Alike (e e' : Option CcCfgEntry) : Prop where
  found : e.isSome = e'.isSome
  bool : e.bind boolOf = e'.bind boolOf
  int : e.bind (fieldOf .num fun entry => some entry.i64) =
    e'.bind (fieldOf .num fun entry => some entry.i64)
  float : ∀ (φ : Type) (toFloat : F64 → φ),
    e.bind (fieldOf .num fun entry => entry.f64.map toFloat) =
      e'.bind (fieldOf .num fun entry => entry.f64.map toFloat)
  double : e.bind (fieldOf .num fun entry => entry.f64) =
    e'.bind (fieldOf .num fun entry => entry.f64)
  str : e.bind (fieldOf .str fun entry => entry.str) =
    e'.bind (fieldOf .str fun entry => entry.str)

theorem Alike.refl (e : Option CcCfgEntry) : Alike e e :=
  ⟨rfl, rfl, rfl, fun _ _ => rfl, rfl, rfl⟩

/-- The answers of a getter are right exactly if the two searches have the same. -/
theorem answersFrom_iff_of_eq {α : Type} {cfg : CcCfg}
    (hdistinct : (cfg.entries.map fun entry => entry.key.text).Nodup) {k : CString}
    {answer : CcCfgEntry → Option α} {get : α → Option (Bool × α)}
    (hget : ∀ out, get out = some (report out ((findEntry cfg (keyBuffer k)).bind answer))) :
    AnswersFrom cfg k.chars answer get ↔
      (findEntry cfg (keyBuffer k)).bind answer = (findEntry cfg k.chars).bind answer := by
  rw [answersFrom_iff hdistinct]
  constructor
  · exact fun h => report_inj fun out => Option.some.inj ((hget out).symm.trans (h out))
  · intro heq out
    rw [hget, heq]

/-- **Lookup is exact where the key and its front are answered alike.** -/
theorem lookupExact_iff {atof : List UInt8 → F64} {cfg : CcCfg} {texts : List (List UInt8)}
    (h : Tracks atof cfg texts) (hwell : ∀ text ∈ texts, WellFormed text) (k : CString) :
    LookupExact texts cfg k ↔ Alike (findEntry cfg (keyBuffer k)) (findEntry cfg k.chars) := by
  have hwritten := h.written
  have hfound : (findEntry cfg k.chars).isSome = true ↔
      ∃ text ∈ texts, ∃ val, Defines text k.chars val := by
    rw [Option.isSome_iff_exists]
    constructor
    · rintro ⟨entry, hfind⟩
      obtain ⟨hentry, hkey⟩ := findEntry_some hfind
      obtain ⟨text, htext, w, hsets⟩ := h.2.written entry hentry
      exact ⟨text, htext, exists_defines hwell htext (hkey ▸ hsets)⟩
    · rintro ⟨text, htext, val, hdefines⟩
      obtain ⟨w, hsets⟩ := hdefines.sets atof
      obtain ⟨w, hlast⟩ := exists_lastWrite htext hsets
      obtain ⟨entry, hfind, -⟩ := h.findEntry hlast
      exact ⟨entry, hfind⟩
  have hbool := answersFrom_iff_of_eq h.2.distinct (ccCfgGetBool_report hwritten · k)
  have hint := answersFrom_iff_of_eq h.2.distinct (ccCfgGetInt_report hwritten · k)
  have hfloat := fun (φ : Type) (toFloat : F64 → φ) =>
    answersFrom_iff_of_eq h.2.distinct (ccCfgGetFloat_report hwritten toFloat · k)
  have hdouble := answersFrom_iff_of_eq h.2.distinct (ccCfgGetDouble_report hwritten · k)
  have hstr := answersFrom_iff_of_eq h.2.distinct (ccCfgGetStr_report hwritten · k)
  constructor
  · rintro ⟨h₁, h₂, h₃, h₄, h₅, h₆⟩
    exact ⟨Bool.eq_iff_iff.mpr (h₁.trans hfound.symm), hbool.mp h₂, hint.mp h₃,
      fun φ toFloat => (hfloat φ toFloat).mp (h₄ φ toFloat), hdouble.mp h₅, hstr.mp h₆⟩
  · rintro ⟨h₁, h₂, h₃, h₄, h₅, h₆⟩
    exact ⟨(Bool.eq_iff_iff.mp h₁).trans hfound, hbool.mpr h₂, hint.mpr h₃,
      fun φ toFloat => (hfloat φ toFloat).mpr (h₄ φ toFloat), hdouble.mpr h₅, hstr.mpr h₆⟩

/-! ## What the values say -/

/-- What a value says to `cc_cfg_get_bool`. -/
def Value.truth : Value → Option Bool
  | .num f64 => some (decide (f64 ≠ .fin 0))
  | .bool b => some b
  | .str _ => none

/-- What a value says to the getters of numbers. -/
def Value.number : Value → Option F64
  | .num f64 => some f64
  | _ => none

theorem Value.HeldBy.boolOf {w : Value} {entry : CcCfgEntry} (h : w.HeldBy entry) :
    Config.boolOf entry = w.truth := by
  rw [Config.boolOf]
  cases w with
  | num f64 =>
    rw [h.1, h.2.1]
    rfl
  | bool b =>
    rw [h.1, h.2.2.2.1]
    rfl
  | str text =>
    rw [h.1]
    rfl

theorem Value.HeldBy.fieldOf_num {w : Value} {entry : CcCfgEntry} (h : w.HeldBy entry) {α : Type}
    (field : CcCfgEntry → Option α) (g : F64 → Option α)
    (hfield : ∀ f64, entry.f64 = some f64 → entry.i64 = f64.toInt → field entry = g f64) :
    fieldOf .num field entry = w.number.bind g := by
  rw [fieldOf]
  cases w with
  | num f64 =>
    rw [if_pos h.1]
    exact hfield f64 h.2.1 h.2.2.1
  | bool b =>
    rw [h.1]
    rfl
  | str text =>
    rw [h.1]
    rfl

theorem Value.HeldBy.fieldOf_str {w : Value} {entry : CcCfgEntry} (h : w.HeldBy entry) :
    fieldOf .str (fun entry => entry.str) entry =
      match w with
      | .str _ => entry.str
      | _ => none := by
  rw [fieldOf]
  cases w with
  | num f64 =>
    rw [h.1]
    rfl
  | bool b =>
    rw [h.1]
    rfl
  | str text => exact if_pos h.1

/-- **Two entries give the same answers exactly if they hold the same value and it is no
string.** -/
theorem alike_iff {cfg : CcCfg} (hseparate : Separate cfg) {entry entry' : CcCfgEntry}
    (hentry : entry ∈ cfg.entries) (hentry' : entry' ∈ cfg.entries) (hne : entry ≠ entry')
    {w w' : Value} (hw : w.HeldBy entry) (hw' : w'.HeldBy entry') :
    Alike (some entry) (some entry') ↔ w = w' ∧ ∀ text, w ≠ .str text := by
  constructor
  · rintro ⟨-, hbool, -, -, hdouble, hstr⟩
    have htruth : w.truth = w'.truth := hw.boolOf.symm.trans (hbool.trans hw'.boolOf)
    have hnumber : w.number = w'.number := by
      have h := hw.fieldOf_num (fun entry => entry.f64) some fun _ hf64 _ => hf64
      have h' := hw'.fieldOf_num (fun entry => entry.f64) some fun _ hf64 _ => hf64
      rw [Option.bind_fun_some] at h h'
      exact h.symm.trans (Eq.trans hdouble h')
    cases w with
    | num f64 =>
      cases w' with
      | num f64' => exact ⟨congrArg Value.num (Option.some.inj hnumber), nofun⟩
      | bool b' => exact nomatch hnumber
      | str text' => exact nomatch hnumber
    | bool b =>
      cases w' with
      | num f64' => exact nomatch hnumber
      | bool b' => exact ⟨congrArg Value.bool (Option.some.inj htruth), nofun⟩
      | str text' => exact nomatch htruth
    | str text =>
      cases w' with
      | num f64' => exact nomatch htruth
      | bool b' => exact nomatch htruth
      | str text' =>
        -- both answers are pointers, and no two entries have the same
        have hsame : entry.str = entry'.str :=
          hw.fieldOf_str.symm.trans (Eq.trans hstr hw'.fieldOf_str)
        obtain ⟨-, -, -, -, str, hs, -⟩ := hw
        exact absurd (hseparate.str_inj hentry hentry' hs (hsame ▸ hs)) hne
  · rintro ⟨rfl, hplain⟩
    have hnum : ∀ {α : Type} (field : CcCfgEntry → Option α) (g : F64 → Option α),
        (∀ e : CcCfgEntry, ∀ f64, e.f64 = some f64 → e.i64 = f64.toInt → field e = g f64) →
        fieldOf .num field entry = fieldOf .num field entry' := fun field g hg =>
      (hw.fieldOf_num field g (hg entry)).trans (hw'.fieldOf_num field g (hg entry')).symm
    refine ⟨rfl, hw.boolOf.trans hw'.boolOf.symm,
      hnum _ (fun f64 => some f64.toInt) fun e f64 _ hi64 => congrArg some hi64,
      fun φ toFloat => hnum (fun e => e.f64.map toFloat) (fun f64 => some (toFloat f64))
        fun e f64 hf64 _ => ?_,
      hnum _ some fun e f64 hf64 _ => hf64, hw.fieldOf_str.trans (Eq.trans ?_ hw'.fieldOf_str.symm)⟩
    · rw [hf64, Option.map_some]
    · cases w with
      | num f64 => rfl
      | bool b => rfl
      | str text => exact absurd rfl (hplain text)

/-! ## Which keys are read as they are written -/

/-- **A key that lookup gets right**: it fits into the buffer; or neither it nor its front is
defined; or their last definitions have stored the same number or the same truth value. -/
def ReadsWhole (atof : List UInt8 → F64) (texts : List (List UInt8)) (k : CString) : Prop :=
  k.chars.length ≤ 255 ∨
    (∀ text ∈ texts, ∀ val, ¬Defines text k.chars val ∧ ¬Defines text (k.chars.take 255) val) ∨
    ∃ w, LastWrite (Sets atof) texts k.chars w ∧ LastWrite (Sets atof) texts (k.chars.take 255) w ∧
      ∀ text, w ≠ .str text

/-- What a search finds holds the last value of the key. -/
theorem Tracks.of_findEntry {atof : List UInt8 → F64} {cfg : CcCfg} {texts : List (List UInt8)}
    (h : Tracks atof cfg texts) {key : List UInt8} {entry : CcCfgEntry}
    (hfind : Config.findEntry cfg key = some entry) :
    ∃ w, LastWrite (Sets atof) texts key w ∧ w.HeldBy entry := by
  obtain ⟨hentry, rfl⟩ := findEntry_some hfind
  exact h.2.held hentry

/-- A key without an entry is not defined. -/
theorem Tracks.findEntry_eq_none {atof : List UInt8 → F64} {cfg : CcCfg}
    {texts : List (List UInt8)} (h : Tracks atof cfg texts)
    (hwell : ∀ text ∈ texts, WellFormed text)
    {key : List UInt8} :
    Config.findEntry cfg key = none ↔ ∀ text ∈ texts, ∀ val, ¬Defines text key val := by
  constructor
  · intro hnone text htext val hdefines
    obtain ⟨w, hsets⟩ := hdefines.sets atof
    obtain ⟨w, hlast⟩ := exists_lastWrite htext hsets
    obtain ⟨entry, hfind, -⟩ := h.findEntry hlast
    exact nomatch hnone.symm.trans hfind
  · intro hnot
    cases hfind : Config.findEntry cfg key with
    | none => rfl
    | some entry =>
      obtain ⟨w, ⟨before, text, after, rfl, hsets, -⟩, -⟩ := h.of_findEntry hfind
      have htext : text ∈ before ++ text :: after := List.mem_append_right _ List.mem_cons_self
      obtain ⟨val, hdefines⟩ := exists_defines hwell htext hsets
      exact absurd hdefines (hnot text htext val)

theorem lookupExact_iff_readsWhole {atof : List UInt8 → F64} {cfg : CcCfg}
    {texts : List (List UInt8)} (h : Tracks atof cfg texts) (hseparate : Separate cfg)
    (hwell : ∀ text ∈ texts, WellFormed text) (k : CString) :
    LookupExact texts cfg k ↔ ReadsWhole atof texts k := by
  rw [lookupExact_iff h hwell, ReadsWhole]
  by_cases hshort : k.chars.length ≤ 255
  · rw [keyBuffer, List.take_of_length_le hshort]
    exact iff_of_true (Alike.refl _) (Or.inl hshort)
  · rw [or_iff_right hshort, keyBuffer]
    cases hfront : Config.findEntry cfg (k.chars.take 255) with
    | none =>
      have hnofront := (h.findEntry_eq_none hwell).mp hfront
      constructor
      · intro halike
        have hnone : Config.findEntry cfg k.chars = none :=
          Option.isNone_iff_eq_none.mp (Option.isSome_eq_false_iff.mp halike.found.symm)
        have hnot := (h.findEntry_eq_none hwell).mp hnone
        exact Or.inl fun text htext val => ⟨hnot text htext val, hnofront text htext val⟩
      · rintro (hnot | ⟨w, -, hlast, -⟩)
        · rw [(h.findEntry_eq_none hwell).mpr fun text htext val => (hnot text htext val).1]
          exact Alike.refl _
        · obtain ⟨entry, hfind, -⟩ := h.findEntry hlast
          exact nomatch hfront.symm.trans hfind
    | some front =>
      obtain ⟨w, hlast, hw⟩ := h.of_findEntry hfront
      obtain ⟨hfrontmem, hfrontkey⟩ := findEntry_some hfront
      have hdefined : ¬∀ text ∈ texts, ∀ val, ¬Defines text (k.chars.take 255) val := fun hnot =>
        nomatch ((h.findEntry_eq_none hwell).mpr hnot).symm.trans hfront
      cases hwhole : Config.findEntry cfg k.chars with
      | none =>
        refine iff_of_false (fun halike => nomatch halike.found) ?_
        rintro (hnot | ⟨v, hlastv, -⟩)
        · exact hdefined fun text htext val => (hnot text htext val).2
        · obtain ⟨entry, hfind, -⟩ := h.findEntry hlastv
          exact nomatch hwhole.symm.trans hfind
      | some whole =>
        obtain ⟨v, hlastv, hv⟩ := h.of_findEntry hwhole
        obtain ⟨hwholemem, hwholekey⟩ := findEntry_some hwhole
        have hne : front ≠ whole := by
          rintro rfl
          refine hshort ?_
          rw [← hwholekey, hfrontkey, List.length_take]
          exact min_le_left _ _
        rw [alike_iff hseparate hfrontmem hwholemem hne hw hv]
        constructor
        · rintro ⟨rfl, hplain⟩
          exact Or.inr ⟨w, hlastv, hlast, hplain⟩
        · rintro (hnot | ⟨u, hlastu, hlastu', hplain⟩)
          · exact absurd (fun text htext val => (hnot text htext val).2) hdefined
          · -- the entries hold the last values
            obtain ⟨e, hfind, hu⟩ := h.findEntry hlastu
            obtain ⟨e', hfind', hu'⟩ := h.findEntry hlastu'
            obtain rfl := Option.some.inj (hwhole.symm.trans hfind)
            obtain rfl := Option.some.inj (hfront.symm.trans hfind')
            obtain rfl := hw.unique hu'
            exact ⟨hv.unique hu ▸ rfl, hplain⟩

/-- **Lookup agrees with definition exactly for the keys that are read as they are
written.**  On every file that is accepted, and for every key. -/
theorem ccCfg_lookup_iff (atof : List UInt8 → F64) (content : List UInt8) (fuel : ℕ)
    (hfuel : content.length + 2 ≤ fuel) :
    ∃ outcome, parse atof fuel emptyCfg ⟨content, false, false⟩ = some outcome ∧
      (outcome.success = true → ∀ k : CString,
        LookupExact (texts content) outcome.cfg k ↔ ReadsWhole atof (texts content) k) := by
  obtain ⟨outcome, hparse, hverdict⟩ := parse_verdict atof content hfuel
  refine ⟨outcome, hparse, fun hsuccess k => ?_⟩
  have hlines : parseLines atof emptyCfg (lines content) = some outcome :=
    (parseLoop_eq atof ⟨content, false, false⟩ rfl nofun [] emptyCfg fuel hfuel).symm.trans hparse
  exact lookupExact_iff_readsWhole (hverdict.tracks hsuccess)
    (parseLines_separate hlines separate_empty) (hverdict.success_iff.mp hsuccess) k

theorem ccCfg_lookup_iff_sampleFile :
    ∃ outcome, parse decimalAtof 90 emptyCfg ⟨sampleFile, false, false⟩ = some outcome ∧
      (outcome.success = true → ∀ k : CString,
        LookupExact (texts sampleFile) outcome.cfg k ↔
          ReadsWhole decimalAtof (texts sampleFile) k) :=
  ccCfg_lookup_iff decimalAtof sampleFile 90 (by decide)

/-- A key that is one character too long. -/
def longKey : CString := ⟨List.replicate 256 97, by decide +kernel⟩

/-- A file that defines it. -/
def longKeyFile : List UInt8 := longKey.chars ++ ": true".toList.map Char.toUInt8

/-- The key is defined, and is said not to exist. -/
theorem not_lookupExact_longKey :
    ∃ outcome, parse decimalAtof 264 emptyCfg ⟨longKeyFile, false, false⟩ = some outcome ∧
      outcome.success = true ∧ ccCfgKeyExists outcome.cfg longKey = false ∧
      ¬LookupExact (texts longKeyFile) outcome.cfg longKey := by
  have hdefines : Defines longKeyFile longKey.chars (.bool true) := by
    refine ⟨?_, [32], trueText, [], rfl, by decide +kernel, by decide +kernel, .yes, isTrailer_nil⟩
    rw [IsComment]
    decide +kernel
  have hlines : lines longKeyFile = [longKeyFile] := by decide +kernel
  have htext : longKeyFile ∈ texts longKeyFile := by
    rw [texts, hlines]
    decide +kernel
  have hmissing : ccCfgKeyExists ⟨32, [⟨⟨0, longKey.chars⟩, some .bool, some none, some (.fin 1),
      some 1, some true⟩], [longKey.chars]⟩ longKey = false := by
    decide +kernel
  have hparse : parse decimalAtof 264 emptyCfg ⟨longKeyFile, false, false⟩ =
      parseLines decimalAtof emptyCfg [longKeyFile] := by
    rw [← hlines]
    exact parseLoop_eq decimalAtof ⟨longKeyFile, false, false⟩ rfl nofun [] emptyCfg 264
      (by decide +kernel)
  refine ⟨⟨true, ⟨32, [⟨⟨0, longKey.chars⟩, some .bool, some none, some (.fin 1), some 1,
    some true⟩], [longKey.chars]⟩, []⟩, hparse.trans (by decide +kernel), rfl, hmissing,
    fun hexact => ?_⟩
  have hexists := hexact.exists_iff.mpr ⟨longKeyFile, htext, _, hdefines⟩
  exact Bool.false_ne_true (hmissing.symm.trans hexists)

/-! ## Numbers read as integers -/

/-- A `double` without its fraction, if it is finite. -/
def truncated : F64 → Option ℤ
  | .fin value => some (if 0 ≤ value then ⌊value⌋ else ⌈value⌉)
  | _ => none

/-- The conversion to an `int` is the truncation, where that is an `int`. -/
theorem toInt_eq_some {f64 : F64} {n : ℤ} :
    f64.toInt = some n ↔ truncated f64 = some n ∧ -2 ^ 31 ≤ n ∧ n < 2 ^ 31 := by
  cases f64 with
  | fin value =>
    rw [F64.toInt, truncated, Option.some_inj]
    constructor
    · intro h
      obtain ⟨hrange, hn⟩ := Option.ite_none_right_eq_some.mp h
      obtain rfl := Option.some.inj hn
      exact ⟨rfl, hrange⟩
    · rintro ⟨rfl, hrange⟩
      exact if_pos hrange
  | inf negative => exact iff_of_false nofun fun h => nomatch h.1
  | nan => exact iff_of_false nofun fun h => nomatch h.1

/-- **A number is read as an integer exactly, or not at all**; and what `parse_number` has put into
the `i64` of its entry is an `int`, and not what came of a conversion that C does not define. -/
def IntExact (cfg : CcCfg) (k : CString) (f64 : F64) : Prop :=
  (∀ out, ∃ r, ccCfgGetInt cfg out k = some r ∧
      (r.1 = true → ∃ n, truncated f64 = some n ∧ r.2 = some n)) ∧
    ∃ entry, findEntry cfg k.chars = some entry ∧ ∃ n, entry.i64 = some n

/-- What `cc_cfg_get_int` does: it answers if the front of the key holds a number, with what
the conversion of that number has stored. -/
theorem ccCfgGetInt_eq {atof : List UInt8 → F64} {cfg : CcCfg} {texts : List (List UInt8)}
    (h : Tracks atof cfg texts) (out : Option ℤ) (k : CString) :
    (∃ g, LastWrite (Sets atof) texts (keyBuffer k) (.num g) ∧
        ccCfgGetInt cfg out k = some (true, g.toInt)) ∨
      (∀ g, ¬LastWrite (Sets atof) texts (keyBuffer k) (.num g)) ∧
        ccCfgGetInt cfg out k = some (false, out) := by
  rw [ccCfgGetInt_report h.written]
  cases hfind : Config.findEntry cfg (keyBuffer k) with
  | none =>
    refine Or.inr ⟨fun g hlast => ?_, rfl⟩
    obtain ⟨entry, hentry, -⟩ := h.findEntry hlast
    exact nomatch hfind.symm.trans hentry
  | some entry =>
    obtain ⟨w, hlast, hw⟩ := h.of_findEntry hfind
    have hfield := hw.fieldOf_num (fun entry => some entry.i64) (fun f64 => some f64.toInt)
      fun _ _ hi64 => congrArg some hi64
    rw [Option.bind_some, hfield]
    have hother : w.number = none → ∀ g, ¬LastWrite (Sets atof) texts (keyBuffer k) (.num g) := by
      intro hnone g hg
      obtain ⟨entry', hentry', hheld⟩ := h.findEntry hg
      obtain rfl := Option.some.inj (hfind.symm.trans hentry')
      rw [hw.unique hheld] at hnone
      exact nomatch hnone
    cases w with
    | num g => exact Or.inl ⟨g, hlast, rfl⟩
    | bool b => exact Or.inr ⟨hother rfl, rfl⟩
    | str text => exact Or.inr ⟨hother rfl, rfl⟩

/-- The conversion that stored a number is seen in its entry. -/
theorem exists_i64_iff {atof : List UInt8 → F64} {cfg : CcCfg} {texts : List (List UInt8)}
    (h : Tracks atof cfg texts) {k : CString} {f64 : F64}
    (hlast : LastWrite (Sets atof) texts k.chars (.num f64)) :
    (∃ entry, Config.findEntry cfg k.chars = some entry ∧ ∃ n, entry.i64 = some n) ↔
      f64.toInt ≠ none := by
  obtain ⟨entry, hfind, -, -, hi64, -⟩ := h.findEntry hlast
  rw [Option.ne_none_iff_exists', ← hi64]
  constructor
  · rintro ⟨entry', hfind', hn⟩
    obtain rfl := Option.some.inj (hfind.symm.trans hfind')
    exact hn
  · exact fun hn => ⟨entry, hfind, hn⟩

theorem intExact_iff {atof : List UInt8 → F64} {cfg : CcCfg} {texts : List (List UInt8)}
    (h : Tracks atof cfg texts) {k : CString} {f64 : F64}
    (hlast : LastWrite (Sets atof) texts k.chars (.num f64)) :
    IntExact cfg k f64 ↔ f64.toInt ≠ none ∧
      ∀ g, LastWrite (Sets atof) texts (keyBuffer k) (.num g) → g.toInt = f64.toInt := by
  rw [IntExact, exists_i64_iff h hlast, and_comm]
  refine and_congr_right fun hsome => ?_
  obtain ⟨n, hn⟩ := Option.ne_none_iff_exists'.mp hsome
  have htruncated := (toInt_eq_some.mp hn).1
  constructor
  · intro hexact g hlast
    obtain ⟨r, hr, hn'⟩ := hexact none
    rcases ccCfgGetInt_eq h none k with ⟨g', hlast', hget⟩ | ⟨hnot, -⟩
    · obtain rfl := Option.some.inj (hr.symm.trans hget)
      obtain ⟨m, hm, hg'⟩ := hn' rfl
      obtain ⟨entry, hfind, hheld⟩ := h.findEntry hlast
      obtain ⟨entry', hfind', hheld'⟩ := h.findEntry hlast'
      obtain rfl := Option.some.inj (hfind.symm.trans hfind')
      obtain rfl : g = g' := Value.num.inj (hheld.unique hheld')
      have hsame : m = n := Option.some.inj (hm.symm.trans htruncated)
      have hg : g.toInt = some m := hg'
      rw [hg, hn, hsame]
    · exact absurd hlast (hnot g)
  · intro hfront out
    rcases ccCfgGetInt_eq h out k with ⟨g, hlast, hget⟩ | ⟨-, hget⟩
    · exact ⟨_, hget, fun _ => ⟨n, htruncated, (hfront g hlast).trans hn⟩⟩
    · exact ⟨_, hget, fun htrue => nomatch htrue⟩

/-- A number beyond every `int`. -/
def hugeNumberFile : List UInt8 := "a: 99999999999".toList.map Char.toUInt8

end Config
end CCore
