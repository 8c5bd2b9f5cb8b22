import CCore.Config.Access
import CCore.Config.Effects

/-!
# What an entry answers

A getter searches for the entry of a key, asks whether its kind allows an answer, and then
reads one field.  `boolOf` and `fieldOf` are the answers, and `report` is what becomes of
one: the getter returns true and stores it, or returns false and leaves `*out` as it was.

A field that was never written has no value, and a getter that comes to one has no result.
Where the entries are `Written`, which is what completed scanners leave, this does not happen:
each of the five getters is the search followed by the report, and `cc_cfg_delete` finds all
the strings it frees.
-/

namespace CCore
namespace Config

open LastWriter

/-! ## The entry of a key -/

theorem findEntry_some {cfg : CcCfg} {key : List UInt8} {entry : CcCfgEntry}
    (h : findEntry cfg key = some entry) : entry ∈ cfg.entries ∧ entry.key.text = key := by
  have hkey := List.find?_some (p := fun entry : CcCfgEntry => decide (key = entry.key.text)) h
  exact ⟨List.mem_of_find?_eq_some h, (of_decide_eq_true hkey).symm⟩

/-- Where the keys are distinct, an entry is found by its key. -/
theorem findEntry_of_mem {cfg : CcCfg}
    (hdistinct : (cfg.entries.map fun entry => entry.key.text).Nodup) {entry : CcCfgEntry}
    (hentry : entry ∈ cfg.entries) : findEntry cfg entry.key.text = some entry := by
  cases hfind : findEntry cfg entry.key.text with
  | none =>
    have hnot := List.find?_eq_none.mp hfind entry hentry
    exact absurd (decide_eq_true rfl) hnot
  | some other =>
    obtain ⟨hother, hkey⟩ := findEntry_some hfind
    rw [List.inj_on_of_nodup_map hdistinct hother hentry hkey]

/-! ## Answers -/

/-- What an entry says to `cc_cfg_get_bool`, if its kind allows an answer. -/
def boolOf (entry : CcCfgEntry) : Option Bool :=
  match entry.kind with
  | some .nil => some false
  | some .num => entry.f64.map fun f64 => decide (f64 ≠ .fin 0)
  | some .bool => entry.b
  | _ => none

/-- What an entry says to a getter that answers from one field. -/
def fieldOf {α : Type} (kind : Kind) (field : CcCfgEntry → Option α) (entry : CcCfgEntry) :
    Option α :=
  if entry.kind = some kind then field entry else none

/-- What a getter returns, and leaves in `*out`, for an answer or for none. -/
def report {α : Type} (out : α) : Option α → Bool × α
  | none => (false, out)
  | some v => (true, v)

theorem report_inj {α : Type} {a a' : Option α} (h : ∀ out, report out a = report out a') :
    a = a' := by
  cases a with
  | none =>
    cases a' with
    | none => rfl
    | some v' => exact nomatch congrArg Prod.fst (h v')
  | some v =>
    cases a' with
    | none => exact nomatch congrArg Prod.fst (h v)
    | some v' => exact congrArg some (congrArg Prod.snd (h v))

/-- **When a getter returns false**: there is no entry of the key, or one whose kind is another. -/
theorem getField_eq_false_iff {α : Type} {kind : Kind} {field : CcCfgEntry → Option α} {cfg : CcCfg}
    {out out' : α} {k : CString} :
    getField kind field cfg out k = some (false, out') ↔
      out = out' ∧ ∀ entry, findEntry cfg (keyBuffer k) = some entry →
        ∃ other, entry.kind = some other ∧ other ≠ kind := by
  rw [getField]
  cases hfind : findEntry cfg (keyBuffer k) with
  | none =>
    simp only [Option.some.injEq, Prod.mk.injEq, true_and, reduceCtorEq, false_implies,
      implies_true, and_true]
  | some entry =>
    simp only [Option.some.injEq, forall_eq']
    cases hkind : entry.kind with
    | none => simp only [Option.bind_none, reduceCtorEq, false_and, exists_false, and_false]
    | some other =>
      rw [Option.bind_some]
      by_cases hsame : other = kind
      · rw [if_neg (not_not.mpr hsame)]
        refine iff_of_false (fun h => ?_) ?_
        · obtain ⟨v, -, hresult⟩ := Option.map_eq_some_iff.mp h
          exact nomatch congrArg Prod.fst hresult
        · rintro ⟨-, kind', hkind', hne⟩
          exact hne (Option.some.inj hkind' ▸ hsame)
      · rw [if_pos hsame]
        constructor
        · intro h
          exact ⟨congrArg Prod.snd (Option.some.inj h), other, rfl, hsame⟩
        · rintro ⟨rfl, -⟩
          rfl

/-! ## Written entries -/

/-- The entries are as completed scanners leave them. -/
def Written (cfg : CcCfg) : Prop := ∀ entry ∈ cfg.entries, ∃ w : Value, w.HeldBy entry

theorem Tracks.written {atof : List UInt8 → F64} {cfg : CcCfg} {texts : List (List UInt8)}
    (h : Tracks atof cfg texts) : Written cfg := fun _ hentry => by
  obtain ⟨w, -, hw⟩ := h.2.held hentry
  exact ⟨w, hw⟩

/-- The fields that the getters read are written. -/
theorem Value.HeldBy.fields {w : Value} {entry : CcCfgEntry} (h : w.HeldBy entry) :
    ∃ k, entry.kind = some k ∧ (∃ f64, entry.f64 = some f64) ∧ ∃ str, entry.str = some str := by
  cases w with
  | num f64 => exact ⟨_, h.1, ⟨_, h.2.1⟩, _, h.2.2.2.2⟩
  | bool b => exact ⟨_, h.1, ⟨_, h.2.1⟩, _, h.2.2.2.2⟩
  | str text =>
    obtain ⟨hkind, hf64, -, -, str, hstr, -⟩ := h
    exact ⟨_, hkind, ⟨_, hf64⟩, _, hstr⟩

/-- Their strings can be freed. -/
theorem Value.HeldBy.freeEntry {w : Value} {entry : CcCfgEntry} (h : w.HeldBy entry) :
    ∃ strings, Config.freeEntry entry = some strings := by
  obtain ⟨kind, hkind, -, str, hstr⟩ := h.fields
  rw [Config.freeEntry, hkind, Option.bind_some, hstr, Option.map_some]
  split
  · exact ⟨_, rfl⟩
  · exact ⟨_, rfl⟩

section Getters

variable {cfg : CcCfg} (hwritten : Written cfg)
include hwritten

/-- **A getter reports the answer of the entry it finds.** -/
theorem getField_eq {α : Type} (kind : Kind) (field : CcCfgEntry → Option α)
    (hfield : ∀ entry : CcCfgEntry, ∀ w : Value, w.HeldBy entry → ∃ v, field entry = some v)
    (out : α) (k : CString) :
    getField kind field cfg out k =
      some (report out ((findEntry cfg (keyBuffer k)).bind (fieldOf kind field))) := by
  rw [getField]
  cases hfind : findEntry cfg (keyBuffer k) with
  | none => rfl
  | some entry =>
    obtain ⟨w, hw⟩ := hwritten entry (findEntry_some hfind).1
    obtain ⟨kind', hkind, -⟩ := hw.fields
    obtain ⟨v, hv⟩ := hfield entry w hw
    show entry.kind.bind _ = some (report out (fieldOf kind field entry))
    rw [fieldOf, hkind, Option.bind_some]
    by_cases hsame : kind' = kind
    · rw [if_neg (not_not.mpr hsame), if_pos (congrArg some hsame), hv]
      rfl
    · rw [if_pos hsame, if_neg fun h => hsame (Option.some.inj h)]
      rfl

theorem ccCfgGetBool_report (out : Bool) (k : CString) :
    ccCfgGetBool cfg out k =
      some (report out ((findEntry cfg (keyBuffer k)).bind boolOf)) := by
  rw [ccCfgGetBool]
  cases hfind : findEntry cfg (keyBuffer k) with
  | none => rfl
  | some entry =>
    obtain ⟨w, hw⟩ := hwritten entry (findEntry_some hfind).1
    show entry.kind.bind _ = some (report out (boolOf entry))
    rw [boolOf]
    cases w with
    | num f64 =>
      rw [hw.1, hw.2.1]
      rfl
    | bool b =>
      rw [hw.1, hw.2.2.2.1]
      rfl
    | str text =>
      rw [hw.1]
      rfl

theorem ccCfgGetInt_report (out : Option ℤ) (k : CString) :
    ccCfgGetInt cfg out k = some (report out ((findEntry cfg (keyBuffer k)).bind
      (fieldOf .num fun entry => some entry.i64))) :=
  getField_eq hwritten .num _ (fun _ _ _ => ⟨_, rfl⟩) out k

theorem ccCfgGetFloat_report {φ : Type} (toFloat : F64 → φ) (out : φ) (k : CString) :
    ccCfgGetFloat toFloat cfg out k = some (report out ((findEntry cfg (keyBuffer k)).bind
      (fieldOf .num fun entry => entry.f64.map toFloat))) := by
  refine getField_eq hwritten .num _ (fun entry w hw => ?_) out k
  obtain ⟨-, -, ⟨f64, hf64⟩, -⟩ := hw.fields
  exact ⟨toFloat f64, by rw [hf64, Option.map_some]⟩

theorem ccCfgGetDouble_report (out : F64) (k : CString) :
    ccCfgGetDouble cfg out k = some (report out ((findEntry cfg (keyBuffer k)).bind
      (fieldOf .num fun entry => entry.f64))) := by
  refine getField_eq hwritten .num _ (fun entry w hw => ?_) out k
  obtain ⟨-, -, hf64, -⟩ := hw.fields
  exact hf64

theorem ccCfgGetStr_report (out : Option Duplicate) (k : CString) :
    ccCfgGetStr cfg out k = some (report out ((findEntry cfg (keyBuffer k)).bind
      (fieldOf .str fun entry => entry.str))) := by
  refine getField_eq hwritten .str _ (fun entry w hw => ?_) out k
  obtain ⟨-, -, -, hstr⟩ := hw.fields
  exact hstr

/-- **`cc_cfg_delete` frees the strings of all entries**, and of each entry what belongs to it. -/
theorem ccCfgDelete_eq {P : CcCfgEntry → List Duplicate → Prop}
    (hfree : ∀ (w : Value) (entry : CcCfgEntry), w.HeldBy entry →
      ∃ strings, freeEntry entry = some strings ∧ P entry strings) :
    ∃ freed, ccCfgDelete cfg = some freed.flatten ∧ List.Forall₂ P cfg.entries freed := by
  have hall : ∀ entries : List CcCfgEntry, (∀ entry ∈ entries, ∃ w : Value, w.HeldBy entry) →
      ∃ freed, entries.mapM freeEntry = some freed ∧ List.Forall₂ P entries freed := by
    intro entries hentries
    induction entries with
    | nil => exact ⟨[], rfl, List.Forall₂.nil⟩
    | cons entry entries ih =>
      obtain ⟨⟨w, hw⟩, htail⟩ := List.forall_mem_cons.mp hentries
      obtain ⟨strings, hstrings, hone⟩ := hfree w entry hw
      obtain ⟨freed, hfreed, hrest⟩ := ih htail
      refine ⟨strings :: freed, ?_, List.Forall₂.cons hone hrest⟩
      rw [List.mapM_cons, hstrings, hfreed]
      rfl
  obtain ⟨freed, hfreed, hentries⟩ := hall cfg.entries hwritten
  exact ⟨freed, by rw [ccCfgDelete, hfreed, Option.map_some], hentries⟩

theorem ccCfgDelete_ne_none : ccCfgDelete cfg ≠ none := by
  obtain ⟨freed, hdelete, -⟩ := ccCfgDelete_eq hwritten (P := fun _ _ => True)
    fun w entry hw => by
      obtain ⟨strings, hstrings⟩ := hw.freeEntry
      exact ⟨strings, hstrings, trivial⟩
  rw [hdelete]
  exact Option.some_ne_none _

end Getters

end Config
end CCore
