import CCore.Config.Parsing
import Mathlib.Data.List.Pairwise
import Mathlib.Data.List.Perm.Basic

/-!
# Which strings the entries own

`string_duplicate` is called for the key of a new entry and for the value of a quoted
string, and the entry keeps the pointer that it returns.  So the entries own strings, and no
two of them share one: `Separate` says so, and every line keeps it, whatever its kind and
whether or not it is accepted (`parseEntry_separate`).

A string is known by its place in `strings`.  `owned` lists the places, the key's first and
then the value's, if the entry has one.
-/

namespace CCore
namespace Config

/-- The places of the strings that an entry points to. -/
def CcCfgEntry.owned (entry : CcCfgEntry) : List ℕ :=
  match entry.str with
  | some (some str) => [entry.key.id, str.id]
  | _ => [entry.key.id]

/-- The places of the strings that the entries point to. -/
def CcCfg.owned (cfg : CcCfg) : List ℕ := cfg.entries.flatMap CcCfgEntry.owned

/-- **No string has two owners**, and all that are owned have been allocated. -/
structure Separate (cfg : CcCfg) : Prop where
  nodup : cfg.owned.Nodup
  allocated : ∀ id ∈ cfg.owned, id < cfg.strings.length

theorem separate_empty : Separate emptyCfg := ⟨List.nodup_nil, nofun⟩

/-- Whatever else an entry owns, it owns its key. -/
theorem key_sublist_owned (entry : CcCfgEntry) : [entry.key.id].Sublist entry.owned := by
  rw [CcCfgEntry.owned]
  split
  · exact List.Sublist.cons_cons _ (List.nil_sublist _)
  · exact List.Sublist.refl _

theorem owned_of_str {entry : CcCfgEntry} {str : Option Duplicate} (h : entry.str = some str) :
    entry.owned = entry.key.id :: (str.map Duplicate.id).toList := by
  rw [CcCfgEntry.owned, h]
  cases str with
  | none => rfl
  | some str => rfl

/-- What a completed scanner does with the strings of a configuration: the value of one entry
becomes `NULL`, or a string that was not there before. -/
def Restrings (cfg : CcCfg) (i : ℕ) (cfg' : CcCfg) : Prop :=
  ∃ (f : CcCfgEntry → CcCfgEntry) (str : Option Duplicate),
    cfg'.entries = cfg.entries.modify i f ∧
    (∀ entry, (f entry).key = entry.key ∧ (f entry).str = some str) ∧
    cfg'.strings = cfg.strings ++ (str.map Duplicate.text).toList ∧
    ∀ s ∈ str, s.id = cfg.strings.length

theorem parseValue_restrings {atof : List UInt8 → F64} {cfg cfg' : CcCfg} {i : ℕ}
    {value rest : List UInt8} (h : parseValue atof cfg i value = .ok (rest, cfg')) :
    Restrings cfg i cfg' := by
  have hplain : ∀ {f : CcCfgEntry → CcCfgEntry},
      (∀ entry, (f entry).key = entry.key ∧ (f entry).str = some none) →
      Restrings cfg i (cfg.modifyEntry i f) := fun {f} hf =>
    ⟨f, none, rfl, hf, (List.append_nil _).symm, fun s hs => absurd hs (Option.not_mem_none s)⟩
  cases value with
  | nil => cases h
  | cons c value =>
    rw [parseValue] at h
    split at h
    · rw [parseNumber] at h
      dsimp only at h
      split at h
      · obtain ⟨-, rfl⟩ := Prod.mk.inj (Except.ok.inj h)
        exact hplain fun entry => ⟨rfl, rfl⟩
      · cases h
    · split at h
      · rw [parseBool] at h
        split at h
        · obtain ⟨-, rfl⟩ := Prod.mk.inj (Except.ok.inj h)
          exact hplain fun entry => ⟨rfl, rfl⟩
        · split at h
          · obtain ⟨-, rfl⟩ := Prod.mk.inj (Except.ok.inj h)
            exact hplain fun entry => ⟨rfl, rfl⟩
          · cases h
      · split at h
        · rw [parseString] at h
          dsimp only at h
          split at h
          · cases h
          · obtain ⟨-, rfl⟩ := Prod.mk.inj (Except.ok.inj h)
            exact ⟨_, some _, rfl, fun entry => ⟨rfl, rfl⟩, rfl, fun s hs => by
              rw [← Option.some.inj hs]
              rfl⟩
        · cases h

/-- **What the entries own around the one that is stored into** stays. -/
theorem Restrings.owned {cfg cfg' : CcCfg} {i : ℕ} (hr : Restrings cfg i cfg') {entry : CcCfgEntry}
    (hentry : cfg.entries[i]? = some entry) :
    ∃ (front back : List ℕ) (str : Option Duplicate),
      cfg.owned = front ++ (entry.owned ++ back) ∧
      cfg'.owned = front ++ (([entry.key.id] ++ (str.map Duplicate.id).toList) ++ back) ∧
      cfg'.strings = cfg.strings ++ (str.map Duplicate.text).toList ∧
      ∀ s ∈ str, s.id = cfg.strings.length := by
  obtain ⟨f, str, hentries, hf, hstrings, hid⟩ := hr
  obtain ⟨hi, hget⟩ := List.getElem?_eq_some_iff.mp hentry
  refine ⟨(cfg.entries.take i).flatMap CcCfgEntry.owned,
    (cfg.entries.drop (i + 1)).flatMap CcCfgEntry.owned, str, ?_, ?_, hstrings, hid⟩
  · rw [← List.flatMap_cons, ← List.flatMap_append, ← hget, ← List.drop_eq_getElem_cons hi,
      List.take_append_drop]
    rfl
  · rw [CcCfg.owned, hentries, List.modify_eq_take_cons_drop hi, List.flatMap_append,
      List.flatMap_cons, hget, owned_of_str (hf entry).2, (hf entry).1, List.singleton_append]

/-- **A value that is stored has its string to itself.**  The entry gives up the string that it
had. -/
theorem Restrings.separate {cfg cfg' : CcCfg} {i : ℕ} (hr : Restrings cfg i cfg')
    (h : Separate cfg) : Separate cfg' := by
  cases hentry : cfg.entries[i]? with
  | some entry =>
    obtain ⟨front, back, str, hold, hnew, hstrings, hid⟩ := hr.owned hentry
    -- without its new string, the entry owns part of what it did
    have hpart : (front ++ ([entry.key.id] ++ back)).Sublist cfg.owned := by
      rw [hold]
      exact (List.Sublist.refl front).append ((key_sublist_owned entry).append_right back)
    have hperm : cfg'.owned.Perm
        ((str.map Duplicate.id).toList ++ (front ++ ([entry.key.id] ++ back))) := by
      rw [hnew, List.append_assoc, ← List.append_assoc front, ← List.append_assoc front]
      exact List.perm_append_comm_assoc _ _ _
    have hlen : cfg.strings.length ≤ cfg'.strings.length := by
      rw [hstrings, List.length_append]
      exact Nat.le_add_right _ _
    cases str with
    | none =>
      refine ⟨hperm.nodup_iff.mpr (h.nodup.sublist hpart), fun id hmem => ?_⟩
      exact (h.allocated id (hpart.subset (hperm.mem_iff.mp hmem))).trans_le hlen
    | some s =>
      have hs : s.id = cfg.strings.length := hid s rfl
      refine ⟨hperm.nodup_iff.mpr (List.nodup_cons.mpr ⟨fun hmem => ?_, h.nodup.sublist hpart⟩),
        fun id hmem => ?_⟩
      · have hlt := h.allocated _ (hpart.subset hmem)
        omega
      · rw [hstrings, List.length_append, Option.map_some, Option.toList_some,
          List.length_singleton]
        rcases List.mem_cons.mp (hperm.mem_iff.mp hmem) with rfl | hmem
        · omega
        · have hlt := h.allocated _ (hpart.subset hmem)
          omega
  | none =>
    obtain ⟨f, str, hentries, -, hstrings, -⟩ := hr
    have hsame : cfg'.owned = cfg.owned := by
      rw [CcCfg.owned, hentries, List.modify_eq_self (List.getElem?_eq_none_iff.mp hentry),
        CcCfg.owned]
    refine ⟨hsame ▸ h.nodup, fun id hmem => (h.allocated id (hsame ▸ hmem)).trans_le ?_⟩
    rw [hstrings, List.length_append]
    exact Nat.le_add_right _ _

theorem ensure_strings (cfg : CcCfg) : (ensure cfg).strings = cfg.strings := by
  rw [ensure]
  split
  · rfl
  · rfl

/-- **A new entry owns a new string**, and nothing else; an old one stays what it was. -/
theorem findEntryOrAdd_owned {cfg cfg' : CcCfg} {key : List UInt8} {i : ℕ}
    (hfind : findEntryOrAdd cfg key = some (cfg', i)) :
    (cfg' = cfg ∧ ∃ entry, cfg.entries[i]? = some entry ∧ entry.key.text = key) ∨
      ((∀ entry ∈ cfg.entries, entry.key.text ≠ key) ∧
        cfg'.owned = cfg.owned ++ [cfg.strings.length] ∧ cfg'.strings = cfg.strings ++ [key] ∧
        ∃ entry, cfg'.entries[i]? = some entry ∧ entry.str = none) := by
  rw [findEntryOrAdd] at hfind
  split at hfind
  · rename_i j hsearch
    obtain ⟨rfl, rfl⟩ := Prod.mk.inj (Option.some.inj hfind)
    obtain ⟨hj, hkey, -⟩ := List.findIdx?_eq_some_iff_getElem.mp hsearch
    exact Or.inl ⟨rfl, _, List.getElem?_eq_getElem hj, (of_decide_eq_true hkey).symm⟩
  · rename_i hsearch
    dsimp only at hfind
    split at hfind
    · obtain ⟨rfl, rfl⟩ := Prod.mk.inj (Option.some.inj hfind)
      refine Or.inr ⟨fun entry hentry hkey => ?_, ?_, ?_, ?_⟩
      · have hnot := List.findIdx?_eq_none_iff.mp hsearch entry hentry
        exact of_decide_eq_false hnot hkey.symm
      · show ((ensure cfg).entries ++ [_]).flatMap CcCfgEntry.owned = _
        rw [List.flatMap_append, ensure_entries]
        refine congrArg (cfg.owned ++ ·) ?_
        rw [List.flatMap_singleton, ← ensure_strings cfg]
        rfl
      · show (ensure cfg).strings ++ [key] = _
        rw [ensure_strings]
      · exact ⟨_, List.getElem?_concat_length, rfl⟩
    · cases hfind

theorem findEntryOrAdd_separate {cfg cfg' : CcCfg} {key : List UInt8} {i : ℕ}
    (hfind : findEntryOrAdd cfg key = some (cfg', i)) (h : Separate cfg) : Separate cfg' := by
  obtain ⟨rfl, -⟩ | ⟨-, howned, hstrings, -⟩ := findEntryOrAdd_owned hfind
  · exact h
  · refine ⟨?_, fun id hmem => ?_⟩
    · rw [howned]
      refine h.nodup.append (List.nodup_singleton _) fun id hmem hnew => ?_
      have hlt := h.allocated id hmem
      rw [List.mem_singleton.mp hnew] at hlt
      exact lt_irrefl _ hlt
    · rw [hstrings, List.length_append, List.length_singleton]
      rcases List.mem_append.mp (howned ▸ hmem) with hmem | hmem
      · exact (h.allocated id hmem).trans (Nat.lt_succ_self _)
      · rw [List.mem_singleton.mp hmem]
        exact Nat.lt_succ_self _

/-- **Every line keeps the strings apart.** -/
theorem parseEntry_separate {atof : List UInt8 → F64} {cfg : CcCfg} {text : List UInt8}
    {outcome : Outcome} (hentry : parseEntry atof cfg text = some outcome) (h : Separate cfg) :
    Separate outcome.cfg := by
  rw [parseEntry] at hentry
  split at hentry
  · rw [← Option.some.inj hentry]
    exact h
  · obtain ⟨⟨cfg₁, i⟩, hfind, houtcome⟩ := Option.map_eq_some_iff.mp hentry
    have h₁ := findEntryOrAdd_separate hfind h
    subst houtcome
    dsimp only
    split
    · exact h₁
    · rename_i hparse
      have h₂ := (parseValue_restrings hparse).separate h₁
      split
      · exact h₂
      · exact h₂

/-- **So does the parser.** -/
theorem parseLines_separate {atof : List UInt8 → F64} {cfg : CcCfg} {ls : List (List UInt8)}
    {outcome : Outcome} (hparse : parseLines atof cfg ls = some outcome) (h : Separate cfg) :
    Separate outcome.cfg := by
  induction ls generalizing cfg with
  | nil =>
    rw [← Option.some.inj hparse]
    exact h
  | cons line ls ih =>
    rw [parseLines] at hparse
    split at hparse
    · exact ih hparse h
    · obtain ⟨step, hentry, hparse⟩ := Option.bind_eq_some_iff.mp hparse
      have hstep := parseEntry_separate hentry h
      split at hparse
      · exact ih hparse hstep
      · rw [← Option.some.inj hparse]
        exact hstep

/-- Two entries of a configuration do not point to one string. -/
theorem Separate.str_inj {cfg : CcCfg} (h : Separate cfg) {entry entry' : CcCfgEntry}
    (hentry : entry ∈ cfg.entries) (hentry' : entry' ∈ cfg.entries) {s : Duplicate}
    (hs : entry.str = some (some s)) (hs' : entry'.str = some (some s)) : entry = entry' := by
  by_contra hne
  have hsymm : Std.Symm (Function.onFun List.Disjoint CcCfgEntry.owned) :=
    ⟨fun _ _ hdisjoint => List.Disjoint.symm hdisjoint⟩
  have hdisjoint := (List.nodup_flatMap.mp h.nodup).2.forall hentry hentry' hne
  have hmem : ∀ {e : CcCfgEntry}, e.str = some (some s) → s.id ∈ e.owned := fun {e} he => by
    rw [owned_of_str he]
    exact List.mem_cons_of_mem _ (List.mem_singleton_self _)
  exact hdisjoint (hmem hs) (hmem hs')

end Config
end CCore
