import CCore.Config.Parsing

/-!
# What a file means

A file that the parser accepts is a list of assignments.  Each of its lines is a comment, or gives a
value to a key; how the line is indented, which numeral or which quotes it uses, and what comment
stands behind the value, does not matter any more.

`assign` is one assignment, on the array of the entries as it is: it finds the entry of the key, or
makes one, and fills in the fields that go with the value.  `Means` reads the assignments off the
lines.  `cfg_file_assigns` says that parsing a file is making its assignments in their order, field
by field and string by string, on any configuration that other files have made.  So two files with
the same assignments leave the same configuration behind; and a file that is put behind another one
is parsed as if the first had been loaded before (`parse_append`).
-/

namespace CCore
namespace Config

open Scanning

variable {atof : List UInt8 → F64} {cfg cfg' : CcCfg} {i : ℕ} {w : Value}
  {key text value rest : List UInt8} {as : List (List UInt8 × Value)}

/-! ## Assignments -/

/-- The value is put into the entry at an index. -/
def store (cfg : CcCfg) (i : ℕ) : Value → CcCfg
  | .num f64 => cfg.modifyEntry i fun entry =>
      { entry with
        kind := some .num
        f64 := some f64
        i64 := f64.toInt
        b := f64.toInt.map (· ≠ 0)
        str := some none }
  | .bool b => cfg.modifyEntry i fun entry =>
      { entry with
        kind := some .bool
        f64 := some (.fin (if b then 1 else 0))
        i64 := some (if b then 1 else 0)
        b := some b
        str := some none }
  | .str text =>
      let (str, cfg) := cfg.stringDuplicate text
      cfg.modifyEntry i fun entry =>
      { entry with
        kind := some .str
        f64 := some (.fin 0)
        i64 := some 0
        b := some true
        str := some (some str) }

/-- **One assignment.** -/
def assign (cfg : CcCfg) (key : List UInt8) (w : Value) : Option CcCfg :=
  (findEntryOrAdd cfg key).map fun (cfg, i) => store cfg i w

def assignAll (cfg : CcCfg) (as : List (List UInt8 × Value)) : Option CcCfg :=
  as.foldlM (fun cfg a => assign cfg a.1 a.2) cfg

/-- **The assignments of a file**, by the C strings of its lines. -/
inductive Means (atof : List UInt8 → F64) :
    List (List UInt8) → List (List UInt8 × Value) → Prop where
  | nil : Means atof [] []
  | comment {text : List UInt8} {texts : List (List UInt8)} {as : List (List UInt8 × Value)} :
      IsComment text → Means atof texts as → Means atof (text :: texts) as
  | sets {text key : List UInt8} {w : Value} {texts : List (List UInt8)}
      {as : List (List UInt8 × Value)} : WellFormed text → Sets atof text key w →
      Means atof texts as → Means atof (text :: texts) ((key, w) :: as)

/-- Lines that have the form have assignments, and only these. -/
theorem exists_means_iff {texts : List (List UInt8)} :
    (∃ as, Means atof texts as) ↔ ∀ text ∈ texts, WellFormed text := by
  constructor
  · rintro ⟨as, h⟩
    induction h with
    | nil => exact nofun
    | comment hcomment _ ih => exact List.forall_mem_cons.mpr ⟨Or.inl hcomment, ih⟩
    | sets hform _ _ ih => exact List.forall_mem_cons.mpr ⟨hform, ih⟩
  · intro h
    induction texts with
    | nil => exact ⟨[], .nil⟩
    | cons text texts ih =>
      obtain ⟨hform, htexts⟩ := List.forall_mem_cons.mp h
      obtain ⟨as, has⟩ := ih htexts
      rcases hform with hcomment | ⟨key, val, hdefines⟩
      · exact ⟨as, .comment hcomment has⟩
      · obtain ⟨w, hsets⟩ := hdefines.sets atof
        exact ⟨(key, w) :: as, .sets (Or.inr ⟨key, val, hdefines⟩) hsets has⟩

/-! ## One line -/

theorem stores_store (cfg : CcCfg) (i : ℕ) (w : Value) : Stores w cfg i (store cfg i w) := by
  cases w with
  | num f64 => exact ⟨rfl, _, rfl, fun _ => rfl, fun _ => ⟨rfl, rfl, rfl, rfl, rfl⟩⟩
  | bool b => exact ⟨rfl, _, rfl, fun _ => rfl, fun _ => ⟨rfl, rfl, rfl, rfl, rfl⟩⟩
  | str text => exact ⟨rfl, _, rfl, fun _ => rfl, fun _ => ⟨rfl, rfl, rfl, rfl, _, rfl, rfl⟩⟩

/-- What a scanner does to the configuration is to store a value. -/
theorem exists_store_of_parseValue (h : Config.parseValue atof cfg i value = .ok (rest, cfg')) :
    ∃ w, cfg' = store cfg i w := by
  cases value with
  | nil => cases h
  | cons c value =>
    rw [parseValue] at h
    split at h
    · rw [parseNumber] at h
      dsimp only at h
      split at h
      · exact ⟨.num _, (congrArg Prod.snd (Except.ok.inj h)).symm⟩
      · cases h
    · split at h
      · rw [parseBool] at h
        split at h
        · exact ⟨.bool true, (congrArg Prod.snd (Except.ok.inj h)).symm⟩
        · split at h
          · exact ⟨.bool false, (congrArg Prod.snd (Except.ok.inj h)).symm⟩
          · cases h
      · split at h
        · rw [parseString] at h
          dsimp only at h
          split at h
          · cases h
          · exact ⟨.str _, (congrArg Prod.snd (Except.ok.inj h)).symm⟩
        · cases h

/-- An entry that is there tells which value has been stored in it. -/
theorem Stores.unique {v : Value} (hi : i < cfg.entries.length) (hv : Stores v cfg i cfg')
    (hw : Stores w cfg i cfg') : v = w := by
  obtain ⟨-, f, hf, -, hheld⟩ := hv
  obtain ⟨-, g, hg, -, hheld'⟩ := hw
  have hsame : f cfg.entries[i] = g cfg.entries[i] := by
    have hget := congrArg (·[i]?) (hf.symm.trans hg)
    rw [List.getElem?_modify_eq, List.getElem?_modify_eq, List.getElem?_eq_getElem hi] at hget
    exact Option.some.inj hget
  exact (hheld _).unique (hsame ▸ hheld' _)

/-- **A scanner stores the value that it scans.** -/
theorem Scans.parseValue_eq (h : Scans atof value w) (hi : i < cfg.entries.length) :
    ∃ rest, Config.parseValue atof cfg i value = .ok (rest, store cfg i w) := by
  obtain ⟨rest, cfg', hparse, hstores⟩ := h.parseValue cfg i
  obtain ⟨v, rfl⟩ := exists_store_of_parseValue hparse
  obtain rfl := (stores_store cfg i v).unique hi hstores
  exact ⟨rest, hparse⟩

theorem Found.lt_length {cfg₁ : CcCfg} (h : Found cfg key cfg₁ i) : i < cfg₁.entries.length := by
  cases h with
  | old hentry => exact (List.getElem?_eq_some_iff.mp hentry).1
  | new _ hentries =>
    rw [hentries, List.length_append]
    exact Nat.lt_succ_self _

theorem Room.store {cfg : CcCfg} (h : Room cfg) (i : ℕ) (w : Value) : Room (store cfg i w) := by
  obtain ⟨hcapacity, f, hentries, -⟩ := stores_store cfg i w
  rw [Room, hcapacity]
  rcases h with hlt | ⟨hnil, hzero⟩
  · refine Or.inl ?_
    rw [hentries, List.length_modify]
    exact hlt
  · refine Or.inr ⟨?_, hzero⟩
    rw [hentries, hnil, List.modify_nil]

/-- **A line that gives a value to a key is an assignment.** -/
theorem parseEntry_eq_assign (hroom : Room cfg) (hform : WellFormed text)
    (hsets : Sets atof text key w) : ∃ cfg', assign cfg key w = some cfg' ∧ Room cfg' ∧
      parseEntry atof cfg text = some ⟨true, cfg', []⟩ := by
  obtain ⟨outcome, hparse, heffect⟩ := parseEntry_effect atof hroom hsets.1
  have hsuccess := (heffect.success_iff hsets.1).mpr hform
  obtain ⟨cfg₁, i, hfind, hroom₁, hfound⟩ := findEntryOrAdd_spec hroom key
  obtain ⟨-, after, rfl, hkey, hscan⟩ := hsets
  obtain ⟨rest, hvalue⟩ := hscan.parseValue_eq hfound.lt_length
  refine ⟨store cfg₁ i w, by rw [assign, hfind, Option.map_some], hroom₁.store i w, ?_⟩
  rw [parseEntry, dropWhile_ne_append hkey, takeWhile_ne_append hkey] at hparse ⊢
  simp only [hfind, Option.map_some, hvalue, Option.some_inj] at hparse ⊢
  subst hparse
  by_cases hextra : trim rest ≠ [] ∧ ¬lineIsComment (trim rest) = true
  · rw [if_pos hextra] at hsuccess
    exact (Bool.false_ne_true hsuccess).elim
  · rw [if_neg hextra]

/-! ## Files -/

/-- **Lines that have the form are their assignments**, made in their order. -/
theorem parseLines_means {ls : List (List UInt8)} (hne : ∀ line ∈ ls, line ≠ [])
    (h : Means atof (ls.map cText) as) (hroom : Room cfg) :
    ∃ cfg', assignAll cfg as = some cfg' ∧ Room cfg' ∧
      parseLines atof cfg ls = some ⟨true, cfg', []⟩ := by
  induction ls generalizing cfg as with
  | nil =>
    cases h
    exact ⟨cfg, rfl, hroom, rfl⟩
  | cons line ls ih =>
    obtain ⟨hline, hls⟩ := List.forall_mem_cons.mp hne
    have hskipped : lineIsComment line = true ↔ IsComment (cText line) := by
      rw [lineIsComment_iff, or_iff_right hline, isComment_cText]
    rw [List.map_cons] at h
    cases h with
    | comment hcomment hrest =>
      obtain ⟨cfg', hassign, hroom', hparse⟩ := ih hls hrest hroom
      refine ⟨cfg', hassign, hroom', ?_⟩
      rw [parseLines, if_pos (hskipped.mpr hcomment)]
      exact hparse
    | sets hform hsets hrest =>
      obtain ⟨cfg₁, hassign₁, hroom₁, hparse₁⟩ := parseEntry_eq_assign hroom hform hsets
      obtain ⟨cfg', hassign, hroom', hparse⟩ := ih hls hrest hroom₁
      refine ⟨cfg', ?_, hroom', ?_⟩
      · rw [assignAll, List.foldlM_cons, hassign₁]
        exact hassign
      · rw [parseLines, if_neg (mt hskipped.mp hsets.1), hparse₁, Option.bind_some, if_pos rfl]
        exact hparse

/-- The lines of two texts with a line feed between them. -/
theorem lines_append_lines (a b : List UInt8) : lines (a ++ newline :: b) = lines a ++ lines b := by
  rw [lines, List.splitOn_append_cons_self, List.map_append, List.filter_append]
  rfl

/-- Lines in front of others are parsed first. -/
theorem parseLines_append (atof : List UInt8 → F64) (cfg : CcCfg)
    (before after : List (List UInt8)) :
    parseLines atof cfg (before ++ after) =
      (parseLines atof cfg before).bind fun outcome =>
        if outcome.success then parseLines atof outcome.cfg after else some outcome := by
  induction before generalizing cfg with
  | nil => rfl
  | cons line before ih =>
    rw [List.cons_append, parseLines, parseLines]
    split
    · exact ih cfg
    · rw [Option.bind_assoc]
      refine Option.bind_congr fun outcome _ => ?_
      split
      · exact ih outcome.cfg
      · next hfailed => rw [Option.bind_some, if_neg hfailed]

theorem parse_eq_parseLines (atof : List UInt8 → F64) (cfg : CcCfg) {content : List UInt8}
    {fuel : ℕ} (hfuel : content.length + 2 ≤ fuel) :
    parse atof fuel cfg ⟨content, false, false⟩ = parseLines atof cfg (lines content) :=
  parseLoop_eq atof ⟨content, false, false⟩ rfl nofun [] cfg fuel hfuel

/-- Where not every line has the form, there is a first line that has not. -/
theorem exists_first_not_wellFormed {ls : List (List UInt8)}
    (h : ¬∀ text ∈ ls.map cText, WellFormed text) : ∃ before line after,
      ls = before ++ line :: after ∧ (∀ text ∈ before.map cText, WellFormed text) ∧
        ¬WellFormed (cText line) := by
  induction ls with
  | nil => exact absurd nofun h
  | cons line ls ih =>
    by_cases hline : WellFormed (cText line)
    · obtain ⟨before, line', after, rfl, hbefore, hnot⟩ :=
        ih fun hls => h (List.forall_mem_cons.mpr ⟨hline, hls⟩)
      exact ⟨line :: before, line', after, rfl, List.forall_mem_cons.mpr ⟨hline, hbefore⟩, hnot⟩
    · exact ⟨[], line, ls, rfl, nofun, hline⟩

/-- **A file is its assignments.**  Whatever has been parsed before, a file whose lines have
assignments is accepted, and parsing it is making them in their order: the entries, their fields and
the strings come out the same, whatever the lines looked like.  Any other file is turned away at the
first line that has not the form, when the assignments of the lines before it have been made. -/
theorem cfg_file_assigns (atof : List UInt8 → F64) (content : List UInt8) (cfg : CcCfg) (fuel : ℕ)
    (hroom : Room cfg) (hfuel : content.length + 2 ≤ fuel) :
    (∀ as, Means atof (texts content) as →
      ∃ cfg', assignAll cfg as = some cfg' ∧
        parse atof fuel cfg ⟨content, false, false⟩ = some ⟨true, cfg', []⟩) ∧
    ((¬∃ as, Means atof (texts content) as) →
      ∃ before text after bs cfg' outcome, texts content = before ++ text :: after ∧
        Means atof before bs ∧ ¬WellFormed text ∧ assignAll cfg bs = some cfg' ∧
        parseEntry atof cfg' text = some outcome ∧ outcome.success = false ∧
        parse atof fuel cfg ⟨content, false, false⟩ = some outcome) := by
  rw [parse_eq_parseLines atof cfg hfuel]
  have hne : ∀ line ∈ lines content, line ≠ [] := fun line => ne_nil_of_mem_lines
  constructor
  · intro as h
    obtain ⟨cfg', hassign, -, hparse⟩ := parseLines_means hne h hroom
    exact ⟨cfg', hassign, hparse⟩
  · intro h
    obtain ⟨before, line, after, hlines, hbefore, hnot⟩ :=
      exists_first_not_wellFormed (mt exists_means_iff.mpr h)
    rw [hlines] at hne
    obtain ⟨hnebefore, hneline⟩ := List.forall_mem_append.mp hne
    obtain ⟨bs, hmeans⟩ := exists_means_iff.mpr hbefore
    obtain ⟨cfg', hassign, hroom', hparse⟩ := parseLines_means hnebefore hmeans hroom
    have hcomment : ¬IsComment (cText line) := fun hcomment => hnot (Or.inl hcomment)
    obtain ⟨outcome, hentry, heffect⟩ := parseEntry_effect atof hroom' hcomment
    have hfailed : outcome.success = false :=
      Bool.eq_false_iff.mpr (mt (heffect.success_iff hcomment).mp hnot)
    have hskipped : ¬lineIsComment line = true := by
      rw [lineIsComment_iff, or_iff_right (hneline line List.mem_cons_self), ← isComment_cText]
      exact hcomment
    refine ⟨before.map cText, cText line, after.map cText, bs, cfg', outcome, ?_, hmeans, hnot,
      hassign, hentry, hfailed, ?_⟩
    · rw [texts, hlines, List.map_append, List.map_cons]
    · rw [hlines, parseLines_append, hparse, Option.bind_some, if_pos rfl, parseLines,
        if_neg hskipped, hentry, Option.bind_some, hfailed, if_neg Bool.false_ne_true]

theorem cfg_file_assigns_sample : ∃ as cfg', Means decimalAtof (texts sampleFile) as ∧
    assignAll emptyCfg as = some cfg' ∧
      parse decimalAtof 90 emptyCfg ⟨sampleFile, false, false⟩ = some ⟨true, cfg', []⟩ := by
  have hsuccess : (parse decimalAtof 90 emptyCfg ⟨sampleFile, false, false⟩).map
      Outcome.success = some true := by decide +kernel
  obtain ⟨haccepted, hrejected⟩ :=
    cfg_file_assigns decimalAtof sampleFile emptyCfg 90 (Or.inr ⟨rfl, rfl⟩) (by decide)
  by_cases hmeans : ∃ as, Means decimalAtof (texts sampleFile) as
  · obtain ⟨as, hmeans⟩ := hmeans
    obtain ⟨cfg', hassign, hparse⟩ := haccepted as hmeans
    exact ⟨as, cfg', hmeans, hassign, hparse⟩
  · obtain ⟨-, -, -, -, -, outcome, -, -, -, -, -, hfailed, hparse⟩ := hrejected hmeans
    rw [hparse, Option.map_some, hfailed] at hsuccess
    exact absurd hsuccess (by decide)

/-- **Files compose.**  A file that is put behind another one, on a line of its own, is parsed on
what the first has left; and if the first is turned away, it is not looked at. -/
theorem parse_append (atof : List UInt8 → F64) (a b : List UInt8) (cfg : CcCfg) (fuel : ℕ)
    (hfuel : (a ++ newline :: b).length + 2 ≤ fuel) :
    parse atof fuel cfg ⟨a ++ newline :: b, false, false⟩ =
      (parse atof fuel cfg ⟨a, false, false⟩).bind fun outcome =>
        if outcome.success then parse atof fuel outcome.cfg ⟨b, false, false⟩
        else some outcome := by
  have hlength := hfuel
  rw [List.length_append, List.length_cons] at hlength
  rw [parse_eq_parseLines atof cfg hfuel, parse_eq_parseLines atof cfg (by omega),
    lines_append_lines, parseLines_append]
  refine Option.bind_congr fun outcome _ => ?_
  rw [parse_eq_parseLines atof outcome.cfg (by omega)]

/-- A second file behind the first. -/
theorem parse_append_sample : parse decimalAtof 99 emptyCfg
      ⟨sampleFile ++ newline :: [97, 58, 49], false, false⟩ =
    (parse decimalAtof 99 emptyCfg ⟨sampleFile, false, false⟩).bind fun outcome =>
      if outcome.success then parse decimalAtof 99 outcome.cfg ⟨[97, 58, 49], false, false⟩
      else some outcome :=
  parse_append decimalAtof sampleFile [97, 58, 49] emptyCfg 99 (by decide)

end Config
end CCore
