import CCore.Config.Answers
import CCore.Config.Ownership
import CCore.Library.Runs

/-!
# The ledger of the strings

`cc_cfg_delete` frees the key of each entry, and the string of each entry whose kind is
`CFG_STR`.  So these should be all the strings there are: `Balanced` says that the live strings
are on the ledger of the entries, each of them once.

A line that stores a value resets the string of its entry, and the three scanners do it in the
same way: the old pointer is overwritten.  If it was `NULL`, nothing is lost.  If the entry held a
string, the string stays allocated and no entry points to it any more.  So a file is balanced
exactly as long as no line sets a key whose value is a string at that time (`balancedLoad_iff`).

## How this is proved

No string has two owners (`Separate`), so the ledger is balanced when it is as long as the list
of the live strings, and one line is a matter of counting.  What an entry holds when a line comes
is told by the lines before it (`Tracks`), so the condition on the entries becomes one on the
file.
-/

namespace CCore
namespace Config

open LastWriter Runs Scanning

variable {atof : List UInt8 → F64} {cfg cfg' : CcCfg}

/-! ## The ledger -/

/-- The strings that belong to an entry: its key, and its `str` if its kind is `CFG_STR`. -/
def CcCfgEntry.ledger (entry : CcCfgEntry) : List ℕ :=
  entry.key.id :: if entry.kind = some .str then (entry.str.join.map Duplicate.id).toList else []

/-- The strings that belong to the entries. -/
def CcCfg.ledger (cfg : CcCfg) : List ℕ := cfg.entries.flatMap CcCfgEntry.ledger

/-- **The ledger is balanced.**  The strings that belong to the entries are the live ones, each of
them once. -/
def Balanced (cfg : CcCfg) : Prop := cfg.ledger.Perm (List.range cfg.strings.length)

theorem balanced_empty : Balanced emptyCfg := List.Perm.nil

/-- An entry that a scanner has left owns what belongs to it. -/
theorem Value.HeldBy.ledger {w : Value} {entry : CcCfgEntry} (h : w.HeldBy entry) :
    entry.ledger = entry.owned := by
  cases w with
  | num f64 =>
    obtain ⟨hkind, -, -, -, hstr⟩ := h
    rw [CcCfgEntry.ledger, hkind, owned_of_str hstr]
    rfl
  | bool b =>
    obtain ⟨hkind, -, -, -, hstr⟩ := h
    rw [CcCfgEntry.ledger, hkind, owned_of_str hstr]
    rfl
  | str text =>
    obtain ⟨hkind, -, -, -, str, hstr, -⟩ := h
    rw [CcCfgEntry.ledger, hkind, hstr, owned_of_str hstr]
    rfl

theorem Written.ledger (h : Written cfg) : cfg.ledger = cfg.owned := by
  rw [CcCfg.ledger, CcCfg.owned, List.flatMap, List.flatMap]
  refine congrArg List.flatten (List.map_congr_left fun entry hentry => ?_)
  obtain ⟨w, hw⟩ := h entry hentry
  exact hw.ledger

/-- Beside its key, an entry owns a string exactly if its kind is `CFG_STR`. -/
theorem Value.HeldBy.length_owned {w : Value} {entry : CcCfgEntry} (h : w.HeldBy entry) :
    entry.owned.length = 1 ↔ entry.kind ≠ some .str := by
  cases w with
  | num f64 =>
    obtain ⟨hkind, -, -, -, hstr⟩ := h
    rw [owned_of_str hstr, hkind]
    exact iff_of_true rfl (by decide)
  | bool b =>
    obtain ⟨hkind, -, -, -, hstr⟩ := h
    rw [owned_of_str hstr, hkind]
    exact iff_of_true rfl (by decide)
  | str text =>
    obtain ⟨hkind, -, -, -, str, hstr, -⟩ := h
    rw [owned_of_str hstr, hkind]
    exact iff_of_false (by decide : ¬ 2 = 1) (not_not.mpr rfl)

/-- **Where no string has two owners, it is enough to count.** -/
theorem balanced_iff_length (hseparate : Separate cfg) (hwritten : Written cfg) :
    Balanced cfg ↔ cfg.owned.length = cfg.strings.length := by
  rw [Balanced, hwritten.ledger]
  constructor
  · intro hperm
    rw [hperm.length_eq, List.length_range]
  · intro hlength
    refine (hseparate.nodup.subperm fun id hid => ?_).perm_of_length_le ?_
    · exact List.mem_range.mpr (hseparate.allocated id hid)
    · rw [List.length_range, hlength]

/-! ## One line -/

/-- **One turn of the parser's loop**, if it accepts the line. -/
def lineStep (atof : List UInt8 → F64) (cfg : CcCfg) (line : List UInt8) : Option CcCfg :=
  if lineIsComment line then some cfg
  else (parseEntry atof cfg (cText line)).bind fun outcome =>
    if outcome.success then some outcome.cfg else none

/-- The parser succeeds if every turn does. -/
theorem run_lineStep {ls : List (List UInt8)} {outcome : Outcome}
    (hparse : parseLines atof cfg ls = some outcome) (hsuccess : outcome.success = true) :
    run (lineStep atof) cfg ls = some outcome.cfg := by
  induction ls generalizing cfg with
  | nil =>
    rw [← Option.some.inj hparse]
    rfl
  | cons line ls ih =>
    rw [parseLines] at hparse
    rw [run_cons, lineStep]
    split at hparse
    · rename_i hcomment
      rw [if_pos hcomment]
      exact ih hparse
    · rename_i hcomment
      obtain ⟨step, hentry, hparse⟩ := Option.bind_eq_some_iff.mp hparse
      rw [if_neg hcomment, hentry, Option.bind_some]
      split at hparse
      · rename_i hstep
        rw [if_pos hstep]
        exact ih hparse
      · rename_i hstep
        rw [← Option.some.inj hparse] at hsuccess
        exact absurd hsuccess hstep

/-- What a line does that is accepted and not a comment: it finds or adds the entry of its key, and
stores a value there. -/
theorem parseEntry_stores {text : List UInt8} {outcome : Outcome} (hcomment : ¬IsComment text)
    (hentry : parseEntry atof cfg text = some outcome) (hsuccess : outcome.success = true) :
    ∃ key w cfg₁ i, Sets atof text key w ∧ findEntryOrAdd cfg key = some (cfg₁, i) ∧
      Restrings cfg₁ i outcome.cfg := by
  rw [parseEntry] at hentry
  split at hentry
  · rw [← Option.some.inj hentry] at hsuccess
    exact absurd hsuccess Bool.false_ne_true
  · rename_i c after hdrop
    obtain ⟨⟨cfg₁, i⟩, hfind, houtcome⟩ := Option.map_eq_some_iff.mp hentry
    obtain ⟨-, hline, hkey⟩ := cut_of_dropWhile_ne hdrop
    dsimp only at houtcome
    cases hparse : parseValue atof cfg₁ i (trim after) with
    | error error =>
      rw [hparse] at houtcome
      rw [← houtcome] at hsuccess
      exact absurd hsuccess Bool.false_ne_true
    | ok result =>
      obtain ⟨value, cfg₂⟩ := result
      obtain ⟨w, hscan, -⟩ := scans_of_parseValue hparse
      have hcfg : outcome.cfg = cfg₂ := by
        rw [hparse] at houtcome
        dsimp only at houtcome
        split at houtcome
        · rw [← houtcome]
        · rw [← houtcome]
      refine ⟨_, w, cfg₁, i, (sets_iff hcomment hline hkey).mpr ⟨rfl, hscan⟩, hfind, ?_⟩
      rw [hcfg]
      exact parseValue_restrings hparse

theorem length_ids (str : Option Duplicate) :
    (str.map Duplicate.id).toList.length = (str.map Duplicate.text).toList.length := by
  cases str with
  | none => rfl
  | some s => rfl

/-- **What is lost.**  Suppose that nothing was lost before.  When a line stores a value, the ledger
stays balanced exactly if the entry of the key, where there is one, does not hold a string. -/
theorem balanced_store {key : List UInt8} {cfg₁ : CcCfg} {i : ℕ} (hwritten : Written cfg)
    (hdistinct : (cfg.entries.map fun entry => entry.key.text).Nodup)
    (hlength : cfg.owned.length = cfg.strings.length)
    (hfind : findEntryOrAdd cfg key = some (cfg₁, i)) (hstore : Restrings cfg₁ i cfg') :
    cfg'.owned.length = cfg'.strings.length ↔
      ∀ entry ∈ cfg.entries, entry.key.text = key → entry.kind ≠ some .str := by
  obtain ⟨rfl, entry, hentry, hkey⟩ | ⟨hnew, howned, hstrings, entry, hentry, hstr⟩ :=
    findEntryOrAdd_owned hfind
  · obtain ⟨front, back, str, hold, hnew, hstrings, -⟩ := hstore.owned hentry
    have hmem := List.mem_of_getElem? hentry
    obtain ⟨w, hw⟩ := hwritten entry hmem
    -- the entry loses what it owned beside its key
    have hcount : cfg'.owned.length = cfg'.strings.length ↔ entry.owned.length = 1 := by
      have hsame := length_ids str
      rw [hold] at hlength
      rw [hnew, hstrings]
      simp only [List.length_append, List.length_singleton] at hlength ⊢
      omega
    rw [hcount, hw.length_owned]
    constructor
    · intro hkind other hother hsame
      rw [List.inj_on_of_nodup_map hdistinct hother hmem (hsame.trans hkey.symm)]
      exact hkind
    · exact fun h => h entry hmem hkey
  · obtain ⟨front, back, str, hold, hnew', hstrings', -⟩ := hstore.owned hentry
    refine iff_of_true ?_ fun other hother hkey => absurd hkey (hnew other hother)
    have hsame := length_ids str
    have hone : entry.owned = [entry.key.id] := by
      rw [CcCfgEntry.owned, hstr]
    have hlength' := congrArg List.length (howned.symm.trans hold)
    rw [hnew', hstrings', hstrings]
    rw [hone] at hlength'
    simp only [List.length_append, List.length_singleton] at hlength' ⊢
    omega

/-- The invariant of the loop: the entries are told by the lines that were read, and no string has
two owners. -/
def Loaded (atof : List UInt8 → F64) (cfg : CcCfg) : Prop :=
  Separate cfg ∧ ∃ texts, Tracks atof cfg texts

/-- The key that a line sets has no string. -/
def SparesStrings (atof : List UInt8 → F64) (cfg : CcCfg) (line : List UInt8) : Prop :=
  ∀ key w, Sets atof (cText line) key w →
    ∀ entry ∈ cfg.entries, entry.key.text = key → entry.kind ≠ some .str

/-- A turn of the loop skips a comment, or the body of the loop accepts the line. -/
theorem lineStep_cases {line : List UInt8} (h : lineStep atof cfg line = some cfg') :
    ((∀ key w, ¬Sets atof (cText line) key w) ∧ cfg' = cfg) ∨
      ¬IsComment (cText line) ∧ ∃ outcome, parseEntry atof cfg (cText line) = some outcome ∧
        outcome.success = true ∧ outcome.cfg = cfg' := by
  rw [lineStep] at h
  split at h
  · rename_i hcomment
    refine Or.inl ⟨?_, (Option.some.inj h).symm⟩
    rcases (lineIsComment_iff line).mp hcomment with rfl | hcomment
    · rintro key w ⟨-, after, hline, -⟩
      exact absurd hline.symm (List.append_ne_nil_of_right_ne_nil _ (List.cons_ne_nil _ _))
    · exact fun key w hsets => hsets.1 ((isComment_cText line).mpr hcomment)
  · rename_i hcomment
    refine Or.inr ⟨fun hcomment' => hcomment ?_, ?_⟩
    · exact (lineIsComment_iff line).mpr (Or.inr ((isComment_cText line).mp hcomment'))
    · obtain ⟨outcome, hentry, h⟩ := Option.bind_eq_some_iff.mp h
      split at h
      · rename_i hsuccess
        exact ⟨outcome, hentry, hsuccess, Option.some.inj h⟩
      · exact absurd h.symm (Option.some_ne_none _)

/-- A line that is accepted is read. -/
theorem lineStep_tracks {line : List UInt8} {texts : List (List UInt8)}
    (h : Tracks atof cfg texts) (hstep : lineStep atof cfg line = some cfg') :
    Tracks atof cfg' (texts ++ [cText line]) := by
  obtain ⟨hsets, rfl⟩ | ⟨hcomment, outcome, hentry, hsuccess, rfl⟩ := lineStep_cases hstep
  · exact ⟨h.1, h.2.skip hsets⟩
  · obtain ⟨outcome', hentry', heffect⟩ := parseEntry_effect atof h.1 hcomment
    obtain rfl := Option.some.inj (hentry.symm.trans hentry')
    exact heffect.tracks h hsuccess

theorem lineStep_loaded {line : List UInt8} (h : Loaded atof cfg)
    (hstep : lineStep atof cfg line = some cfg') : Loaded atof cfg' := by
  obtain ⟨hseparate, texts, htracks⟩ := h
  refine ⟨?_, _, lineStep_tracks htracks hstep⟩
  obtain ⟨-, rfl⟩ | ⟨-, outcome, hentry, -, rfl⟩ := lineStep_cases hstep
  · exact hseparate
  · exact parseEntry_separate hentry hseparate

/-- **One line keeps the ledger balanced** exactly if it spares the strings. -/
theorem lineStep_balanced {line : List UInt8} (h : Loaded atof cfg) (hbalanced : Balanced cfg)
    (hstep : lineStep atof cfg line = some cfg') :
    Balanced cfg' ↔ SparesStrings atof cfg line := by
  obtain ⟨hseparate', texts', htracks'⟩ := lineStep_loaded h hstep
  obtain ⟨hseparate, texts, htracks⟩ := h
  rw [balanced_iff_length hseparate htracks.written] at hbalanced
  rw [balanced_iff_length hseparate' htracks'.written]
  obtain ⟨hsets, rfl⟩ | ⟨hcomment, outcome, hentry, hsuccess, rfl⟩ := lineStep_cases hstep
  · exact iff_of_true hbalanced fun key w hset => absurd hset (hsets key w)
  · obtain ⟨key, w, cfg₁, i, hset, hfind, hstore⟩ := parseEntry_stores hcomment hentry hsuccess
    rw [balanced_store htracks.written htracks.2.distinct hbalanced hfind hstore]
    constructor
    · intro hspares key' w' hset'
      rw [(hset.unique hset').1]
      exact hspares
    · exact fun hspares => hspares key w hset

/-! ## All lines -/

/-- The strings are spared exactly if the last line that has set the key has set it to something
else. -/
theorem sparesStrings_iff {line : List UInt8} {texts : List (List UInt8)}
    (h : Tracks atof cfg texts) :
    SparesStrings atof cfg line ↔ ∀ key w, Sets atof (cText line) key w →
      ∀ s, ¬LastWrite (Sets atof) texts key (.str s) := by
  refine forall_congr' fun key => forall_congr' fun w => forall_congr' fun _ => ?_
  constructor
  · intro hspares s hlast
    obtain ⟨entry, hentry, hkey, hheld⟩ := h.2.last key _ hlast
    exact hspares entry hentry hkey hheld.1
  · rintro hlast entry hentry rfl hkind
    obtain ⟨v, hv, hheld⟩ := h.2.held hentry
    cases v with
    | num f64 => exact absurd (hkind.symm.trans hheld.1) (by decide)
    | bool b => exact absurd (hkind.symm.trans hheld.1) (by decide)
    | str s => exact hlast s hv

/-- **No line overwrites a string.**  Of the lines of a file, behind others that were read. -/
def NoStringRedefined (atof : List UInt8 → F64) (read texts : List (List UInt8)) : Prop :=
  ∀ before text after, texts = before ++ text :: after → ∀ key w, Sets atof text key w →
    ∀ s, ¬LastWrite (Sets atof) (read ++ before) key (.str s)

theorem noStringRedefined_cons {read texts : List (List UInt8)} {text : List UInt8} :
    NoStringRedefined atof read (text :: texts) ↔
      (∀ key w, Sets atof text key w → ∀ s, ¬LastWrite (Sets atof) read key (.str s)) ∧
        NoStringRedefined atof (read ++ [text]) texts := by
  constructor
  · intro h
    refine ⟨?_, fun before later after htexts => ?_⟩
    · have hhead := h [] text texts rfl
      rwa [List.append_nil] at hhead
    · rw [← List.append_cons read text before]
      exact h (text :: before) later after (congrArg (text :: ·) htexts)
  · rintro ⟨hhead, htail⟩ before later after htexts
    cases before with
    | nil =>
      obtain ⟨rfl, -⟩ := List.cons.inj htexts
      rwa [List.append_nil]
    | cons first before =>
      obtain ⟨rfl, hrest⟩ := List.cons.inj htexts
      rw [List.append_cons read text before]
      exact htail before later after hrest

/-- **Every line of an accepted file** spares the strings exactly if none overwrites one. -/
theorem everyStep_sparesStrings {ls read : List (List UInt8)} {cfg cfg' : CcCfg}
    (h : Tracks atof cfg read) (hrun : run (lineStep atof) cfg ls = some cfg') :
    EveryStep (lineStep atof) (SparesStrings atof) cfg ls ↔
      NoStringRedefined atof read (ls.map cText) := by
  induction ls generalizing cfg read with
  | nil =>
    refine iff_of_true trivial fun before text after hnil => ?_
    exact absurd hnil.symm (List.append_ne_nil_of_right_ne_nil _ (List.cons_ne_nil _ _))
  | cons line ls ih =>
    obtain ⟨cfg₁, hstep, hrun⟩ := (run_cons_eq_some _).mp hrun
    rw [List.map_cons, noStringRedefined_cons, ← sparesStrings_iff h,
      ← ih (lineStep_tracks h hstep) hrun]
    constructor
    · exact fun hevery => hevery cfg₁ hstep
    · intro hevery other hother
      rwa [← Option.some.inj (hstep.symm.trans hother)]

/-! ## The whole file -/

/-- Of an entry that a scanner has left, `cc_cfg_delete` frees what belongs to it. -/
theorem Value.HeldBy.freeEntry_ledger {w : Value} {entry : CcCfgEntry} (h : w.HeldBy entry) :
    ∃ freed, Config.freeEntry entry = some freed ∧ (freed.map Duplicate.id).Perm entry.ledger := by
  obtain ⟨kind, hkind, -, str, hstr⟩ := h.fields
  rw [Config.freeEntry, CcCfgEntry.ledger, hkind, hstr, Option.bind_some, Option.map_some]
  by_cases hsame : kind = .str
  · rw [if_pos hsame, if_pos (congrArg some hsame)]
    refine ⟨_, rfl, ?_⟩
    cases str with
    | none => exact List.Perm.refl _
    | some s => exact List.Perm.swap _ _ _
  · rw [if_neg hsame, if_neg fun hsome => hsame (Option.some.inj hsome)]
    exact ⟨_, rfl, List.Perm.refl _⟩

/-- **`cc_cfg_delete` frees the ledger**, each string once. -/
theorem ccCfgDelete_ledger (h : Written cfg) :
    ∃ freed, ccCfgDelete cfg = some freed ∧ (freed.map Duplicate.id).Perm cfg.ledger := by
  obtain ⟨freed, hdelete, hentries⟩ :=
    ccCfgDelete_eq (P := fun entry freed => (freed.map Duplicate.id).Perm entry.ledger) h
      fun w entry hw => hw.freeEntry_ledger
  refine ⟨freed.flatten, hdelete, ?_⟩
  rw [CcCfg.ledger]
  clear hdelete
  generalize cfg.entries = entries at hentries
  induction hentries with
  | nil => exact List.Perm.nil
  | cons hone _ ih =>
    rw [List.flatten_cons, List.map_append, List.flatMap_cons]
    exact hone.append ih

/-- **A load that is balanced**: so is the ledger behind every line, and at the end
`cc_cfg_delete` frees every string that the load has allocated, each of them once. -/
def BalancedLoad (atof : List UInt8 → F64) (content : List UInt8) (cfg : CcCfg) : Prop :=
  EveryState (lineStep atof) Balanced emptyCfg (lines content) ∧
    ∃ freed, ccCfgDelete cfg = some freed ∧
      (freed.map Duplicate.id).Perm (List.range cfg.strings.length)

/-- **Exactly which files are balanced.**  Of the files that `parse` accepts, those in which no
line sets a key that has a string at that time. -/
theorem balancedLoad_iff (atof : List UInt8 → F64) (content : List UInt8) {fuel : ℕ}
    {outcome : Outcome} (hparse : parse atof fuel emptyCfg ⟨content, false, false⟩ = some outcome)
    (hsuccess : outcome.success = true) :
    BalancedLoad atof content outcome.cfg ↔ NoStringRedefined atof [] (texts content) := by
  have hlines : parseLines atof emptyCfg (lines content) = some outcome := by
    have hmore := parseLoop_mono (Nat.le_add_right fuel (content.length + 2)) hparse
    rwa [parseLoop_eq atof ⟨content, false, false⟩ rfl nofun [] emptyCfg _
      (Nat.le_add_left _ _)] at hmore
  have hrun := run_lineStep hlines hsuccess
  have hloaded : Loaded atof emptyCfg := ⟨separate_empty, [], tracks_empty atof⟩
  have hevery : EveryState (lineStep atof) Balanced emptyCfg (lines content) ↔
      EveryStep (lineStep atof) (SparesStrings atof) emptyCfg (lines content) :=
    everyState_iff_everyStep (fun _ _ _ hI hstep => lineStep_loaded hI hstep)
      (fun _ _ _ hI hbalanced hstep => lineStep_balanced hI hbalanced hstep) hloaded balanced_empty
  rw [texts, ← everyStep_sparesStrings (tracks_empty atof) hrun, ← hevery, BalancedLoad,
    and_iff_left_of_imp]
  intro hbalanced
  obtain ⟨-, texts, htracks⟩ : Loaded atof outcome.cfg :=
    run_induction (fun _ _ _ hI hstep => lineStep_loaded hI hstep) hloaded hrun
  obtain ⟨freed, hdelete, hledger⟩ := ccCfgDelete_ledger htracks.written
  exact ⟨freed, hdelete, hledger.trans (hbalanced.last hrun)⟩

/-- A key that is a number, then a string, and never again. -/
def balancedFile : List UInt8 := "k: 1\nl: true\nk: 'a'\n".toList.map Char.toUInt8

theorem balancedLoad_iff_balancedFile :
    ∃ outcome, parse decimalAtof 30 emptyCfg ⟨balancedFile, false, false⟩ = some outcome ∧
      (BalancedLoad decimalAtof balancedFile outcome.cfg ↔
        NoStringRedefined decimalAtof [] (texts balancedFile)) := by
  have htrue : (parse decimalAtof 30 emptyCfg ⟨balancedFile, false, false⟩).map Outcome.success =
      some true := by
    decide +kernel
  obtain ⟨outcome, hparse, hsuccess⟩ := Option.map_eq_some_iff.mp htrue
  exact ⟨outcome, hparse, balancedLoad_iff decimalAtof balancedFile hparse hsuccess⟩

/-- A key that is a string twice. -/
def leakingFile : List UInt8 := "k: 'a'\nk: 'b'\n".toList.map Char.toUInt8

/-- **The first of the two strings is lost.**  Three were allocated, and `cc_cfg_delete` frees
two. -/
theorem not_balancedLoad_leakingFile :
    ∃ outcome, parse decimalAtof 20 emptyCfg ⟨leakingFile, false, false⟩ = some outcome ∧
      outcome.success = true ∧ ¬ BalancedLoad decimalAtof leakingFile outcome.cfg := by
  have hrun : (parse decimalAtof 20 emptyCfg ⟨leakingFile, false, false⟩).map (fun outcome =>
      (outcome.success, outcome.cfg.strings.length,
        (ccCfgDelete outcome.cfg).map List.length)) = some (true, 3, some 2) := by
    decide +kernel
  obtain ⟨outcome, hparse, hresult⟩ := Option.map_eq_some_iff.mp hrun
  simp only [Prod.mk.injEq] at hresult
  obtain ⟨hsuccess, hstrings, hfreed⟩ := hresult
  refine ⟨outcome, hparse, hsuccess, ?_⟩
  rintro ⟨-, freed, hdelete, hperm⟩
  rw [hdelete, Option.map_some] at hfreed
  have hlength := hperm.length_eq
  rw [List.length_map, List.length_range, hstrings, Option.some.inj hfreed] at hlength
  exact absurd hlength (by decide)

end Config
end CCore
