import CCore.Config.Grammar
import CCore.Config.Lines
import CCore.Library.LastWriter

/-!
# What one line does

The parser does not look at a line as a whole.  It files the key, then scans the value
into the entry, and only then asks whether something is left; so a line that is rejected
may have done the first of these, or the first two.  `Effect` lists the four ways in which
the body of the parser's loop can end, with everything it has changed, and
`parseEntry_effect` says that there are no others.

Nothing here is about grammar alone, and nothing is assumed of `atof` or of the bytes of
the file.  A line is judged by its C string `cText`, which ends at the first NUL, if it has
one.

## All lines

`Tracks` relates the entries to the lines that were read: it is the invariant of a store
that holds what was written last, where a line writes if it sets a key.  `Verdict` is what
comes of a file: every line has the form, and the invariant holds at the end; or there is a
first line that has not, and it has had its effect on a configuration with the invariant.

## Values and texts

The same number is written in many ways, and the number scanner hands the whole rest of
the line to `atof`.  `Value` is what an entry holds in the end, and `Scans` is what
`parse_value` makes of a text: any text that begins with a value is scanned, whatever comes
behind it.
-/

namespace CCore
namespace Config

open LastWriter Scanning

/-! ## Values -/

/-- A value, as an entry holds it. -/
inductive Value where
  | num (f64 : F64)
  | bool (b : Bool)
  | str (text : List UInt8)
  deriving DecidableEq

/-- What a value of the format stands for, by the meaning of the numerals. -/
def CfgValue.eval (number : List UInt8 → F64) : CfgValue → Value
  | .num text => .num (number text)
  | .bool b => .bool b
  | .str text => .str text

/-- **An entry as a completed scanner leaves it**: its kind, and all of the fields that go
with the kind. -/
def Value.HeldBy : Value → CcCfgEntry → Prop
  | .num f64, entry => entry.kind = some .num ∧ entry.f64 = some f64 ∧ entry.i64 = f64.toInt ∧
      entry.b = f64.toInt.map (fun n => decide (n ≠ 0)) ∧ entry.str = some none
  | .bool b, entry => entry.kind = some .bool ∧ entry.f64 = some (.fin (if b then 1 else 0)) ∧
      entry.i64 = some (if b then 1 else 0) ∧ entry.b = some b ∧ entry.str = some none
  | .str text, entry => entry.kind = some .str ∧ entry.f64 = some (.fin 0) ∧
      entry.i64 = some 0 ∧ entry.b = some true ∧
      ∃ str, entry.str = some (some str) ∧ str.text = text

theorem holds_iff {number : List UInt8 → F64} {val : CfgValue} {entry : CcCfgEntry} :
    Holds number val entry ↔ (val.eval number).HeldBy entry := by
  cases val with
  | num text => rfl
  | bool b => rfl
  | str text => rfl

/-- An entry holds one value. -/
theorem Value.HeldBy.unique {v w : Value} {entry : CcCfgEntry} (hv : v.HeldBy entry)
    (hw : w.HeldBy entry) : v = w := by
  have hkind : ∀ {k l : Kind}, entry.kind = some k → entry.kind = some l → k = l := fun hk hl =>
    Option.some.inj (hk.symm.trans hl)
  cases v with
  | num f64 =>
    cases w with
    | num f64' => rw [Option.some.inj (hv.2.1.symm.trans hw.2.1)]
    | bool b' => exact nomatch hkind hv.1 hw.1
    | str text' => exact nomatch hkind hv.1 hw.1
  | bool b =>
    cases w with
    | num f64' => exact nomatch hkind hv.1 hw.1
    | bool b' => rw [Option.some.inj (hv.2.2.2.1.symm.trans hw.2.2.2.1)]
    | str text' => exact nomatch hkind hv.1 hw.1
  | str text =>
    cases w with
    | num f64' => exact nomatch hkind hv.1 hw.1
    | bool b' => exact nomatch hkind hv.1 hw.1
    | str text' =>
      obtain ⟨-, -, -, -, str, hstr, rfl⟩ := hv
      obtain ⟨-, -, -, -, str', hstr', rfl⟩ := hw
      rw [Option.some.inj (Option.some.inj (hstr.symm.trans hstr'))]

/-- The value is stored in one entry, and the others stay. -/
def Stores (w : Value) (cfg : CcCfg) (i : ℕ) (cfg' : CcCfg) : Prop :=
  cfg'.capacity = cfg.capacity ∧ ∃ f : CcCfgEntry → CcCfgEntry,
    cfg'.entries = cfg.entries.modify i f ∧ (∀ entry, (f entry).key = entry.key) ∧
      ∀ entry, w.HeldBy (f entry)

theorem fills_iff {number : List UInt8 → F64} {val : CfgValue} {cfg cfg' : CcCfg} {i : ℕ} :
    Fills number val cfg i cfg' ↔ Stores (val.eval number) cfg i cfg' := by
  simp only [Fills, Stores, holds_iff]

/-! ## Scanning a value -/

/-- **What `parse_value` makes of a text.**  The text begins with a value; a number is what
`atof` returns on all of the text. -/
def Scans (atof : List UInt8 → F64) (value : List UInt8) (w : Value) : Prop :=
  ∃ text rest val, value = text ++ rest ∧ Denotes text val ∧ w = val.eval fun _ => atof value

/-- A text that begins with a value is scanned, and the value is stored. -/
theorem Scans.parseValue {atof : List UInt8 → F64} {value : List UInt8} {w : Value}
    (h : Scans atof value w) (cfg : CcCfg) (i : ℕ) :
    ∃ rest cfg', parseValue atof cfg i value = .ok (rest, cfg') ∧ Stores w cfg i cfg' := by
  obtain ⟨text, rest, val, rfl, hdenotes, rfl⟩ := h
  cases hdenotes with
  | num hnum =>
    obtain ⟨c, tail, htext, hopens⟩ := hnum.opens
    obtain ⟨sign, unsigned, hsplit, hsign, hunsigned⟩ := hnum
    have hstart := hunsigned.startsNumber rest
    have hskip : skipSign (text ++ rest) = unsigned ++ rest := by
      rw [hsplit, List.append_assoc]
      exact skipSign_complete hsign hstart
    have hnumber : Config.parseValue atof cfg i (text ++ rest) =
        parseNumber atof cfg i (text ++ rest) := by
      rw [htext, List.cons_append, Config.parseValue]
      exact if_pos hopens
    rw [hnumber, parseNumber, hskip]
    simp only [if_pos hstart]
    exact ⟨_, _, rfl, rfl, _, rfl, fun _ => rfl, fun _ => ⟨rfl, rfl, rfl, rfl, rfl⟩⟩
  | yes => exact ⟨_, _, rfl, rfl, _, rfl, fun _ => rfl, fun _ => ⟨rfl, rfl, rfl, rfl, rfl⟩⟩
  | no => exact ⟨_, _, rfl, rfl, _, rfl, fun _ => rfl, fun _ => ⟨rfl, rfl, rfl, rfl, rfl⟩⟩
  | @str quote text hquote hnot =>
    have hsrc : (text ++ quote :: rest).dropWhile (· ≠ quote) = quote :: rest :=
      dropWhile_ne_append hnot rest
    have hstring : Config.parseValue atof cfg i (quote :: (text ++ [quote]) ++ rest) =
        parseString cfg i (quote :: (text ++ quote :: rest)) quote := by
      rw [List.cons_append, List.append_assoc, List.singleton_append]
      rcases hquote with rfl | rfl
      · rfl
      · rfl
    rw [hstring, parseString, List.tail_cons]
    simp only [hsrc]
    refine ⟨_, _, rfl, rfl, _, rfl, fun _ => rfl, fun _ => ⟨rfl, rfl, rfl, rfl, _, rfl, ?_⟩⟩
    exact takeWhile_ne_append hnot rest

/-- Conversely, what is scanned is a value at the front of the text. -/
theorem scans_of_parseValue {atof : List UInt8 → F64} {cfg cfg' : CcCfg} {i : ℕ}
    {value rest : List UInt8} (h : parseValue atof cfg i value = .ok (rest, cfg')) :
    ∃ w, Scans atof value w ∧ Stores w cfg i cfg' := by
  obtain ⟨text, val, hvalue, hdenotes, hfills⟩ := parseValue_sound h
  exact ⟨_, ⟨text, rest, val, hvalue, hdenotes, rfl⟩, fills_iff.mp hfills⟩

/-- **A text is scanned as one value**, however one cuts it. -/
theorem Scans.unique {atof : List UInt8 → F64} {value : List UInt8} {v w : Value}
    (hv : Scans atof value v) (hw : Scans atof value w) : v = w := by
  let blank : CcCfgEntry := ⟨⟨0, []⟩, none, none, none, none, none⟩
  obtain ⟨rest, cfg, hparse, -, f, hentries, -, hf⟩ := hv.parseValue ⟨1, [blank], []⟩ 0
  obtain ⟨rest', cfg', hparse', -, g, hentries', -, hg⟩ := hw.parseValue ⟨1, [blank], []⟩ 0
  have hsame : cfg = cfg' :=
    congrArg Prod.snd (Except.ok.inj (hparse.symm.trans hparse'))
  have hheld : f blank = g blank := by
    have hlist : [f blank] = [g blank] := hentries.symm.trans (hsame ▸ hentries')
    exact (List.cons.inj hlist).1
  exact (hf blank).unique (hheld ▸ hg blank)

/-! ## The entries -/

/-- There is a free slot, unless there is no array yet. -/
def Room (cfg : CcCfg) : Prop :=
  cfg.entries.length < cfg.capacity ∨ cfg.entries = [] ∧ cfg.capacity = 0

theorem ensure_entries (cfg : CcCfg) : (ensure cfg).entries = cfg.entries := by
  rw [ensure]
  split
  · rfl
  · rfl

/-- `ensure` makes room for one more entry and a free slot behind it. -/
theorem Room.ensure {cfg : CcCfg} (h : Room cfg) :
    cfg.entries.length + 1 < (Config.ensure cfg).capacity := by
  rw [Config.ensure]
  split
  · assumption
  · rename_i hfull
    show cfg.entries.length + 1 < if cfg.capacity ≠ 0 then cfg.capacity * 2 else 32
    rcases h with hlt | ⟨hnil, hzero⟩
    · rw [if_pos (by omega)]
      omega
    · rw [hnil, hzero]
      decide

/-- What `find_entry_or_add` finds: the entry of the key, or a new one at the end. -/
inductive Found (cfg : CcCfg) (key : List UInt8) : CcCfg → ℕ → Prop where
  | old {i : ℕ} {entry : CcCfgEntry} (hentry : cfg.entries[i]? = some entry)
      (hkey : entry.key.text = key) : Found cfg key cfg i
  | new {cfg' : CcCfg} {entry : CcCfgEntry} (hnew : ∀ e ∈ cfg.entries, e.key.text ≠ key)
      (hentries : cfg'.entries = cfg.entries ++ [entry]) (hkey : entry.key.text = key) :
      Found cfg key cfg' cfg.entries.length

/-- **`find_entry_or_add` stays inside the array.** -/
theorem findEntryOrAdd_spec {cfg : CcCfg} (hroom : Room cfg) (key : List UInt8) :
    ∃ cfg' i, findEntryOrAdd cfg key = some (cfg', i) ∧ Room cfg' ∧ Found cfg key cfg' i := by
  rw [findEntryOrAdd]
  cases hfind : cfg.entries.findIdx? fun entry => decide (key = entry.key.text) with
  | some i =>
    obtain ⟨hi, hkey, -⟩ := List.findIdx?_eq_some_iff_getElem.mp hfind
    exact ⟨cfg, i, rfl, hroom, .old (List.getElem?_eq_getElem hi) (of_decide_eq_true hkey).symm⟩
  | none =>
    have hlen := hroom.ensure
    have hfree : (ensure cfg).entries.length < (ensure cfg).capacity := by
      rw [ensure_entries]
      omega
    simp only [if_pos hfree]
    refine ⟨_, _, rfl, Or.inl ?_, ?_⟩
    · show ((ensure cfg).entries ++ [_]).length < (ensure cfg).capacity
      rw [List.length_append, List.length_singleton, ensure_entries]
      exact hlen
    · have hsame : ((ensure cfg).stringDuplicate key).2.entries = cfg.entries :=
        ensure_entries cfg
      rw [hsame]
      refine .new (fun e he hkey => ?_) rfl rfl
      have hnot := List.findIdx?_eq_none_iff.mp hfind e he
      exact of_decide_eq_false hnot hkey.symm

/-- A new entry has a key and nothing else. -/
theorem findEntryOrAdd_blank {cfg cfg' : CcCfg} {key : List UInt8} {i : ℕ}
    (h : findEntryOrAdd cfg key = some (cfg', i)) :
    ∀ entry ∈ cfg'.entries, entry ∈ cfg.entries ∨ entry.kind = none := by
  rw [findEntryOrAdd] at h
  split at h
  · obtain ⟨rfl, -⟩ := Prod.mk.inj (Option.some.inj h)
    exact fun entry hentry => Or.inl hentry
  · dsimp only at h
    split at h
    · obtain ⟨rfl, -⟩ := Prod.mk.inj (Option.some.inj h)
      intro entry hentry
      rcases List.mem_append.mp hentry with hentry | hentry
      · exact Or.inl (ensure_entries cfg ▸ hentry)
      · rw [List.mem_singleton.mp hentry]
        exact Or.inr rfl
    · exact nomatch h

/-! ## One line -/

/-- A line is skipped as a comment, or it defines a key. -/
def WellFormed (line : List UInt8) : Prop := IsComment line ∨ ∃ key val, Defines line key val

/-- The test behind a value. -/
theorem trailer_test (rest : List UInt8) :
    (trim rest ≠ [] ∧ ¬lineIsComment (trim rest) = true) ↔ ¬IsTrailer rest := by
  rw [isTrailer_iff, lineIsComment_iff]
  exact ⟨And.right, fun h => ⟨fun hnil => h (Or.inl hnil), h⟩⟩

/-- **A line sets a key.**  It begins with the key, a colon and a value, whatever comes
behind the value. -/
def Sets (atof : List UInt8 → F64) (text key : List UInt8) (w : Value) : Prop :=
  ¬IsComment text ∧ ∃ after, text = key ++ colon :: after ∧ colon ∉ key ∧
    Scans atof (trim after) w

theorem sets_iff {atof : List UInt8 → F64} {text key after : List UInt8}
    (hcomment : ¬IsComment text) (hline : text = key ++ colon :: after) (hkey : colon ∉ key)
    {key' : List UInt8} {w : Value} :
    Sets atof text key' w ↔ key' = key ∧ Scans atof (trim after) w := by
  constructor
  · rintro ⟨-, after', hline', hkey', hscan⟩
    obtain ⟨rfl, rfl⟩ := append_cons_inj hkey' hkey (hline'.symm.trans hline)
    exact ⟨rfl, hscan⟩
  · rintro ⟨rfl, hscan⟩
    exact ⟨hcomment, after, hline, hkey, hscan⟩

/-- **A line sets at most one key, to one value.** -/
theorem Sets.unique {atof : List UInt8 → F64} {text key key' : List UInt8} {v w : Value}
    (h : Sets atof text key v) (h' : Sets atof text key' w) : key' = key ∧ w = v := by
  obtain ⟨hcomment, after, hline, hkey, hscan⟩ := h
  obtain ⟨hsame, hscan'⟩ := (sets_iff hcomment hline hkey).mp h'
  exact ⟨hsame, hscan'.unique hscan⟩

/-- A line that defines a key sets it. -/
theorem Defines.sets {text key : List UInt8} {val : CfgValue} (h : Defines text key val)
    (atof : List UInt8 → F64) : ∃ w, Sets atof text key w := by
  obtain ⟨hcomment, spaces, numeral, trailer, hline, hkey, hspaces, hdenotes, -⟩ := h
  refine ⟨_, hcomment, _, hline, hkey, numeral, trailer, val, ?_, hdenotes, rfl⟩
  exact dropWhile_append hspaces (hdenotes.stops trailer)

/-- **What the body of the loop does with a line that is not a comment.**  There are four
ways to leave it. -/
inductive Effect (atof : List UInt8 → F64) (cfg : CcCfg) (text : List UInt8) : Outcome → Prop where
  | noColon (h : colon ∉ text) : Effect atof cfg text ⟨false, cfg, [.missingColon]⟩
  /-- The key has an entry, but there is no value to put into it. -/
  | noValue {key after : List UInt8} {cfg₁ : CcCfg} {i : ℕ} {errors : List CfgError}
      (hline : text = key ++ colon :: after) (hkey : colon ∉ key)
      (hscan : ∀ w, ¬Scans atof (trim after) w) (hroom : Room cfg₁) (hfound : Found cfg key cfg₁ i)
      (hblank : ∀ entry ∈ cfg₁.entries, entry ∈ cfg.entries ∨ entry.kind = none) :
      Effect atof cfg text ⟨false, cfg₁, errors⟩
  /-- The value is stored, but something is left behind it. -/
  | extra {key : List UInt8} {w : Value} {cfg₁ cfg₂ : CcCfg} {i : ℕ} {errors : List CfgError}
      (hsets : Sets atof text key w) (hform : ¬WellFormed text) (hroom : Room cfg₁)
      (hfound : Found cfg key cfg₁ i) (hstores : Stores w cfg₁ i cfg₂) :
      Effect atof cfg text ⟨false, cfg₂, errors⟩
  | definition {key : List UInt8} {w : Value} {cfg₁ cfg₂ : CcCfg} {i : ℕ}
      (hsets : Sets atof text key w) (hform : WellFormed text) (hroom : Room cfg₁)
      (hfound : Found cfg key cfg₁ i) (hstores : Stores w cfg₁ i cfg₂) :
      Effect atof cfg text ⟨true, cfg₂, []⟩

/-- **The body of the loop has one of these effects.** -/
theorem parseEntry_effect (atof : List UInt8 → F64) {cfg : CcCfg} (hroom : Room cfg)
    {text : List UInt8} (hcomment : ¬IsComment text) :
    ∃ outcome, parseEntry atof cfg text = some outcome ∧ Effect atof cfg text outcome := by
  rw [parseEntry]
  cases hdrop : text.dropWhile (· ≠ colon) with
  | nil => exact ⟨_, rfl, .noColon (notMem_of_dropWhile_ne hdrop)⟩
  | cons c after =>
    obtain ⟨-, hline, hkey⟩ := cut_of_dropWhile_ne hdrop
    generalize text.takeWhile (· ≠ colon) = key at hline hkey
    obtain ⟨cfg₁, i, hfind, hroom₁, hfound⟩ := findEntryOrAdd_spec hroom key
    simp only [hfind, Option.map_some]
    refine ⟨_, rfl, ?_⟩
    cases hparse : parseValue atof cfg₁ i (trim after) with
    | error error =>
      refine .noValue hline hkey (fun w hscan => ?_) hroom₁ hfound (findEntryOrAdd_blank hfind)
      obtain ⟨rest, cfg₂, hok, -⟩ := hscan.parseValue cfg₁ i
      exact nomatch hparse.symm.trans hok
    | ok result =>
      obtain ⟨rest, cfg₂⟩ := result
      obtain ⟨w, hscan, hstores⟩ := scans_of_parseValue hparse
      have hsets : Sets atof text key w := (sets_iff hcomment hline hkey).mpr ⟨rfl, hscan⟩
      by_cases htrailer : IsTrailer rest
      · obtain ⟨numeral, val, htrim, hdenotes, -⟩ := parseValue_sound hparse
        have htest := (trailer_test rest).not.mpr (not_not.mpr htrailer)
        simp only [if_neg htest]
        have hdefines : Defines text key val := ⟨hcomment, (hasForm_iff hline hkey).mpr
          ⟨rfl, numeral, rest, htrim, hdenotes, htrailer⟩⟩
        exact .definition hsets (Or.inr ⟨key, val, hdefines⟩) hroom₁ hfound hstores
      · simp only [if_pos ((trailer_test rest).mpr htrailer)]
        refine .extra hsets (fun hwell => ?_) hroom₁ hfound hstores
        obtain ⟨k, val, -, hform⟩ := hwell.resolve_left hcomment
        -- the grammar cuts off the same value, so it would see a trailer here
        obtain ⟨-, numeral, trailer, htrim, hdenotes, htrailer'⟩ :=
          (hasForm_iff hline hkey).mp hform
        obtain ⟨cfg₃, hok⟩ := parseValue_complete atof cfg₁ i hdenotes htrailer'
        rw [← htrim, hparse] at hok
        have hrest : rest = trailer := congrArg Prod.fst (Except.ok.inj hok)
        exact htrailer (hrest ▸ htrailer')

/-- The line is accepted exactly if it has the form. -/
theorem Effect.success_iff {atof : List UInt8 → F64} {cfg : CcCfg} {text : List UInt8}
    {outcome : Outcome} (hcomment : ¬IsComment text) (h : Effect atof cfg text outcome) :
    outcome.success = true ↔ WellFormed text := by
  cases h with
  | noColon hcolon =>
    refine iff_of_false Bool.false_ne_true fun hwell => hcolon ?_
    obtain ⟨key, val, -, spaces, numeral, trailer, hline, -⟩ := hwell.resolve_left hcomment
    rw [hline]
    exact List.mem_append_right _ List.mem_cons_self
  | noValue hline hkey hscan =>
    refine iff_of_false Bool.false_ne_true fun hwell => ?_
    obtain ⟨k, val, hdefines⟩ := hwell.resolve_left hcomment
    obtain ⟨w, hsets⟩ := hdefines.sets atof
    exact hscan w ((sets_iff hcomment hline hkey).mp hsets).2
  | extra _ hform => exact iff_of_false Bool.false_ne_true hform
  | definition _ hform => exact iff_of_true rfl hform

/-! ## All lines -/

/-- **The entries are those that the lines set.**  Each key has one entry, and it holds what
the last line that sets the key has put there. -/
def Tracks (atof : List UInt8 → F64) (cfg : CcCfg) (texts : List (List UInt8)) : Prop :=
  Room cfg ∧
    Keeps (Sets atof) (fun entry : CcCfgEntry => entry.key.text) Value.HeldBy cfg.entries texts

theorem tracks_empty (atof : List UInt8 → F64) : Tracks atof emptyCfg [] :=
  ⟨Or.inr ⟨rfl, rfl⟩, Keeps.nil⟩

/-- **A line that sets a key keeps the invariant**, whether or not it is accepted. -/
theorem Tracks.store {atof : List UInt8 → F64} {cfg cfg₁ cfg₂ : CcCfg} {i : ℕ}
    {texts : List (List UInt8)} {text key : List UInt8} {w : Value} (h : Tracks atof cfg texts)
    (hsets : Sets atof text key w) (hroom : Room cfg₁) (hfound : Found cfg key cfg₁ i)
    (hstores : Stores w cfg₁ i cfg₂) : Tracks atof cfg₂ (texts ++ [text]) := by
  obtain ⟨-, hkeeps⟩ := h
  obtain ⟨hcapacity, f, hentries, hkeys, hholds⟩ := hstores
  have honly : ∀ k v, Sets atof text k v → k = key ∧ v = w := fun k v hother =>
    hsets.unique hother
  refine ⟨?_, ?_⟩
  · rw [Room, hentries, hcapacity, List.length_modify]
    refine hroom.imp id fun hnone => ⟨?_, hnone.2⟩
    rw [hnone.1, List.modify_nil]
  · rw [hentries]
    cases hfound with
    | old hentry hkey =>
      subst hkey
      exact hkeeps.rewrite hentry hsets honly (fun e => congrArg _ (hkeys e)) (hholds _)
    | @new cfg₁ entry hnew hentries₁ hkey =>
      have hmodify : cfg₁.entries.modify cfg.entries.length f = cfg.entries ++ [f entry] := by
        rw [hentries₁, List.modify_eq_take_cons_drop (by simp)]
        simp
      have hfkey : (f entry).key.text = key := by rw [hkeys entry, hkey]
      subst hfkey
      rw [hmodify]
      refine hkeeps.add (fun hmem => ?_) hsets honly (hholds entry)
      obtain ⟨e, he, hsame⟩ := List.mem_map.mp hmem
      exact hnew e he hsame

/-- An accepted line keeps the invariant. -/
theorem Effect.tracks {atof : List UInt8 → F64} {cfg : CcCfg} {texts : List (List UInt8)}
    {text : List UInt8} {outcome : Outcome} (heffect : Effect atof cfg text outcome)
    (h : Tracks atof cfg texts) (hsuccess : outcome.success = true) :
    Tracks atof outcome.cfg (texts ++ [text]) := by
  cases heffect with
  | noColon => exact nomatch hsuccess
  | noValue => exact nomatch hsuccess
  | extra => exact nomatch hsuccess
  | definition hsets _ hroom hfound hstores => exact h.store hsets hroom hfound hstores

/-- The parser, on the lines of a file. -/
def parseLines (atof : List UInt8 → F64) : CcCfg → List (List UInt8) → Option Outcome
  | cfg, [] => some ⟨true, cfg, []⟩
  | cfg, line :: ls =>
    if lineIsComment line then parseLines atof cfg ls
    else
      (parseEntry atof cfg (cText line)).bind fun outcome =>
        if outcome.success then parseLines atof outcome.cfg ls else some outcome

/-- A line is a comment by its characters if it is one as a C string. -/
theorem isComment_cText (line : List UInt8) : IsComment (cText line) ↔ IsComment line := by
  have htrans : ∀ {mark : List UInt8}, cText mark = mark → (mark <+: cText line ↔ mark <+: line) :=
    fun {mark} hmark => by
      constructor
      · exact fun h => h.trans (List.takeWhile_prefix _)
      · rintro ⟨rest, rfl⟩
        rw [cText, List.takeWhile_append]
        rw [cText] at hmark
        rw [hmark, if_pos rfl]
        exact List.prefix_append _ _
  rw [IsComment, IsComment, htrans rfl, htrans rfl]

/-- **How the parser comes to its end**, on lines whose C strings are `texts`, when it has
read others before. -/
inductive Verdict (atof : List UInt8 → F64) (read texts : List (List UInt8)) : Outcome → Prop where
  | accepted {cfg : CcCfg} (hwell : ∀ text ∈ texts, WellFormed text)
      (htracks : Tracks atof cfg (read ++ texts)) : Verdict atof read texts ⟨true, cfg, []⟩
  /-- The first line that is not accepted has its effect, and is the last. -/
  | rejected {before after : List (List UInt8)} {text : List UInt8} {cfg : CcCfg}
      {outcome : Outcome} (htexts : texts = before ++ text :: after)
      (hwell : ∀ t ∈ before, WellFormed t) (hnot : ¬WellFormed text)
      (htracks : Tracks atof cfg (read ++ before)) (heffect : Effect atof cfg text outcome) :
      Verdict atof read texts outcome

/-- **A file.**  The induction is over the lines that are left; the invariant is about
those that were read. -/
theorem parseLines_verdict (atof : List UInt8 → F64) (ls : List (List UInt8))
    (hne : ∀ line ∈ ls, line ≠ []) {read : List (List UInt8)} {cfg : CcCfg}
    (h : Tracks atof cfg read) :
    ∃ outcome, parseLines atof cfg ls = some outcome ∧
      Verdict atof read (ls.map cText) outcome := by
  induction ls generalizing read cfg with
  | nil => exact ⟨_, rfl, .accepted nofun ((List.append_nil read).symm ▸ h)⟩
  | cons line ls ih =>
    have hnil : line ≠ [] := hne line List.mem_cons_self
    have hls : ∀ line ∈ ls, line ≠ [] := fun l hl => hne l (List.mem_cons_of_mem _ hl)
    -- an accepted line in front moves to those that were read
    have hcons : ∀ {cfg' : CcCfg}, WellFormed (cText line) →
        Tracks atof cfg' (read ++ [cText line]) →
        ∃ outcome, parseLines atof cfg' ls = some outcome ∧
          Verdict atof read ((line :: ls).map cText) outcome := by
      intro cfg' hwell htracks
      obtain ⟨outcome, hparse, hverdict⟩ := ih hls htracks
      refine ⟨outcome, hparse, ?_⟩
      rw [List.map_cons]
      cases hverdict with
      | accepted hwells htracks' =>
        rw [← List.append_cons] at htracks'
        exact .accepted (List.forall_mem_cons.mpr ⟨hwell, hwells⟩) htracks'
      | @rejected before after text cfg'' _ htexts hwells hnot htracks' heffect =>
        rw [← List.append_cons] at htracks'
        exact .rejected (congrArg _ htexts) (List.forall_mem_cons.mpr ⟨hwell, hwells⟩) hnot
          htracks' heffect
    rw [parseLines]
    by_cases hcomment : IsComment line
    · have hcomment' := (isComment_cText line).mpr hcomment
      rw [if_pos ((lineIsComment_iff line).mpr (Or.inr hcomment))]
      exact hcons (Or.inl hcomment') ⟨h.1, h.2.skip fun key w hsets => hsets.1 hcomment'⟩
    · have htest : ¬lineIsComment line = true := fun htest =>
        ((lineIsComment_iff line).mp htest).elim hnil hcomment
      have hcomment' := (isComment_cText line).not.mpr hcomment
      obtain ⟨outcome, hentry, heffect⟩ := parseEntry_effect atof h.1 hcomment'
      have hsuccess := heffect.success_iff hcomment'
      rw [if_neg htest, hentry, Option.bind_some]
      by_cases hwell : WellFormed (cText line)
      · rw [if_pos (hsuccess.mpr hwell)]
        exact hcons hwell (heffect.tracks h (hsuccess.mpr hwell))
      · rw [if_neg fun htrue => hwell (hsuccess.mp htrue)]
        have hfirst : (line :: ls).map cText = [] ++ cText line :: ls.map cText := rfl
        refine ⟨outcome, rfl, .rejected hfirst nofun hwell ?_ heffect⟩
        rw [List.append_nil]
        exact h

/-- The parser succeeds exactly if every line has the form. -/
theorem Verdict.success_iff {atof : List UInt8 → F64} {read texts : List (List UInt8)}
    {outcome : Outcome} (h : Verdict atof read texts outcome) :
    outcome.success = true ↔ ∀ text ∈ texts, WellFormed text := by
  cases h with
  | accepted hwell => exact iff_of_true rfl hwell
  | rejected htexts _ hnot _ heffect =>
    refine iff_of_false (fun htrue => ?_) fun hall => hnot (hall _ ?_)
    · exact hnot ((heffect.success_iff fun hcomment => hnot (Or.inl hcomment)).mp htrue)
    · rw [htexts]
      exact List.mem_append_right _ List.mem_cons_self

/-- After a success, the invariant holds of all lines. -/
theorem Verdict.tracks {atof : List UInt8 → F64} {texts : List (List UInt8)} {outcome : Outcome}
    (h : Verdict atof [] texts outcome) (hsuccess : outcome.success = true) :
    Tracks atof outcome.cfg texts := by
  have hwell := h.success_iff.mp hsuccess
  cases h with
  | accepted _ htracks => exact htracks
  | rejected htexts _ hnot =>
    refine absurd (hwell _ ?_) hnot
    rw [htexts]
    exact List.mem_append_right _ List.mem_cons_self

end Config
end CCore
