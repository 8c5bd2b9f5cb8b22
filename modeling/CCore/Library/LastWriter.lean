import Mathlib.Data.List.Induction
import Mathlib.Data.List.Nodup
import Mathlib.Logic.Basic

/-!
# Records that hold what was written last

A store is filled from a sequence of items, some of which write a value under a key.
It has one record for each key that was written, and the record holds the value of the
last item that wrote it.  `Keeps` states this for a list of records and the items that
were processed so far; what the items, the keys, the values and the records are is left
open, and so is what it means for a record to hold a value.

There are three ways to process one more item, and each keeps the invariant: an item
that writes nothing changes nothing (`Keeps.skip`); an item whose key has a record
changes that record in place (`Keeps.rewrite`); an item whose key has none appends one
(`Keeps.add`).
-/

namespace CCore
namespace LastWriter

variable {α β κ ε : Type*}

/-- **The last write.**  The value is that of the last item which writes the key. -/
def LastWrite (Writes : α → κ → β → Prop) (items : List α) (key : κ) (val : β) : Prop :=
  ∃ before item after, items = before ++ item :: after ∧ Writes item key val ∧
    ∀ later ∈ after, ∀ v, ¬Writes later key v

variable {Writes : α → κ → β → Prop}

theorem lastWrite_singleton {item : α} {key : κ} {val : β} (h : Writes item key val) :
    LastWrite Writes [item] key val :=
  ⟨[], item, [], rfl, h, fun _ hlater => absurd hlater List.not_mem_nil⟩

/-- With one more item, the last write is the item's, or else what it was. -/
theorem lastWrite_concat {items : List α} {item : α} {key : κ} {val : β} :
    LastWrite Writes (items ++ [item]) key val ↔
      Writes item key val ∨ LastWrite Writes items key val ∧ ∀ v, ¬Writes item key v := by
  constructor
  · rintro ⟨before, last, after, heq, hwrites, hafter⟩
    rcases List.eq_nil_or_concat after with rfl | ⟨after, later, rfl⟩
    · obtain ⟨rfl, hsame⟩ := List.append_inj' heq rfl
      obtain rfl := List.singleton_inj.mp hsame
      exact Or.inl hwrites
    · rw [List.concat_eq_append, ← List.cons_append, ← List.append_assoc] at heq
      obtain ⟨rfl, hsame⟩ := List.append_inj' heq rfl
      obtain rfl := List.singleton_inj.mp hsame
      refine Or.inr ⟨⟨before, last, after, rfl, hwrites, fun l hl => hafter l ?_⟩,
        hafter item ?_⟩
      · rw [List.concat_eq_append]
        exact List.mem_append_left _ hl
      · rw [List.concat_eq_append]
        exact List.mem_append_right _ List.mem_cons_self
  · rintro (hwrites | ⟨⟨before, last, after, rfl, hwrites, hafter⟩, hitem⟩)
    · exact ⟨items, item, [], rfl, hwrites, nofun⟩
    · refine ⟨before, last, after ++ [item], by rw [List.append_assoc, List.cons_append], hwrites,
        fun l hl => ?_⟩
      rcases List.mem_append.mp hl with hl | hl
      · exact hafter l hl
      · rw [List.mem_singleton.mp hl]
        exact hitem

/-- A key that is written has a last write. -/
theorem exists_lastWrite {items : List α} {item : α} (hmem : item ∈ items) {key : κ} {val : β}
    (hwrites : Writes item key val) : ∃ val, LastWrite Writes items key val := by
  induction items using List.reverseRecOn with
  | nil => exact absurd hmem List.not_mem_nil
  | append_singleton items last ih =>
    by_cases hlast : ∃ v, Writes last key v
    · obtain ⟨v, hv⟩ := hlast
      exact ⟨v, lastWrite_concat.mpr (Or.inl hv)⟩
    · rw [not_exists] at hlast
      rcases List.mem_append.mp hmem with hmem | hmem
      · obtain ⟨v, hv⟩ := ih hmem
        exact ⟨v, lastWrite_concat.mpr (Or.inr ⟨hv, hlast⟩)⟩
      · rw [List.mem_singleton.mp hmem] at hwrites
        exact absurd hwrites (hlast val)

/-- **Two readings of the items.**  If the items write the same keys in both, and the values
of the one are those of the other under a map, then so are the last writes. -/
theorem LastWrite.map {γ : Type*} {Writes' : α → κ → γ → Prop} (f : γ → β) {items : List α}
    {key : κ} {v : γ} (h : LastWrite Writes' items key v)
    (hkeys : ∀ item ∈ items, ∀ key val, Writes item key val → ∃ v, Writes' item key v)
    (hvals : ∀ item ∈ items, ∀ key v, Writes' item key v → Writes item key (f v)) :
    LastWrite Writes items key (f v) := by
  obtain ⟨before, item, after, rfl, hwrites, hafter⟩ := h
  have hitem : item ∈ before ++ item :: after := List.mem_append_right _ List.mem_cons_self
  refine ⟨before, item, after, rfl, hvals item hitem key v hwrites, fun later hlater val hval => ?_⟩
  have hmem := List.mem_append_right before (List.mem_cons_of_mem item hlater)
  obtain ⟨u, hu⟩ := hkeys later hmem key val hval
  exact hafter later hlater u hu

variable (keyOf : ε → κ) (Holds : β → ε → Prop) (Writes)

/-- **The invariant of the store.**  The keys of the records are distinct, each of them was
written, and every last write is held by the record of its key. -/
structure Keeps (entries : List ε) (items : List α) : Prop where
  distinct : (entries.map keyOf).Nodup
  written : ∀ entry ∈ entries, ∃ item ∈ items, ∃ val, Writes item (keyOf entry) val
  last : ∀ key val, LastWrite Writes items key val →
    ∃ entry ∈ entries, keyOf entry = key ∧ Holds val entry

variable {keyOf Holds Writes} {entries : List ε} {items : List α} {item : α}

theorem Keeps.nil : Keeps Writes keyOf Holds [] [] where
  distinct := List.nodup_nil
  written := nofun
  last := by
    rintro key val ⟨before, item, after, heq, -⟩
    exact absurd heq (List.append_ne_nil_of_right_ne_nil _ (List.cons_ne_nil _ _)).symm

/-- A key has a record exactly if some item writes it. -/
theorem Keeps.exists_iff (h : Keeps Writes keyOf Holds entries items) (key : κ) :
    (∃ entry ∈ entries, keyOf entry = key) ↔ ∃ item ∈ items, ∃ val, Writes item key val := by
  constructor
  · rintro ⟨entry, hentry, rfl⟩
    exact h.written entry hentry
  · rintro ⟨item, hitem, val, hwrites⟩
    obtain ⟨val, hlast⟩ := exists_lastWrite hitem hwrites
    obtain ⟨entry, hentry, hkey, -⟩ := h.last key val hlast
    exact ⟨entry, hentry, hkey⟩

/-- A record holds the last write of its key. -/
theorem Keeps.held (h : Keeps Writes keyOf Holds entries items) {entry : ε}
    (hentry : entry ∈ entries) :
    ∃ val, LastWrite Writes items (keyOf entry) val ∧ Holds val entry := by
  obtain ⟨item, hitem, val, hwrites⟩ := h.written entry hentry
  obtain ⟨val, hlast⟩ := exists_lastWrite hitem hwrites
  obtain ⟨other, hother, hkey, hholds⟩ := h.last _ val hlast
  obtain rfl : other = entry := List.inj_on_of_nodup_map h.distinct hother hentry hkey
  exact ⟨val, hlast, hholds⟩

/-- **A coarser reading of the items.**  If the items write the same keys in both readings,
and the values of the one are those of the other under a map, the store keeps both. -/
theorem Keeps.comap {γ : Type*} {Writes' : α → κ → γ → Prop} {Holds' : γ → ε → Prop} (f : γ → β)
    (h : Keeps Writes keyOf Holds entries items)
    (hkeys : ∀ item ∈ items, ∀ key val, Writes item key val → ∃ v, Writes' item key v)
    (hvals : ∀ item ∈ items, ∀ key v, Writes' item key v → Writes item key (f v))
    (hholds : ∀ v entry, Holds (f v) entry → Holds' v entry) :
    Keeps Writes' keyOf Holds' entries items where
  distinct := h.distinct
  written entry hentry := by
    obtain ⟨item, hitem, val, hwrites⟩ := h.written entry hentry
    exact ⟨item, hitem, hkeys item hitem _ val hwrites⟩
  last key v hlast := by
    obtain ⟨entry, hentry, hkey, hv⟩ := h.last key (f v) (hlast.map f hkeys hvals)
    exact ⟨entry, hentry, hkey, hholds v entry hv⟩

/-- An item that writes nothing changes nothing. -/
theorem Keeps.skip (h : Keeps Writes keyOf Holds entries items)
    (hitem : ∀ key val, ¬Writes item key val) :
    Keeps Writes keyOf Holds entries (items ++ [item]) where
  distinct := h.distinct
  written entry hentry := by
    obtain ⟨item', hitem', hwrites⟩ := h.written entry hentry
    exact ⟨item', List.mem_append_left _ hitem', hwrites⟩
  last key val hlast := by
    rcases lastWrite_concat.mp hlast with hwrites | ⟨hlast, -⟩
    · exact absurd hwrites (hitem key val)
    · exact h.last key val hlast

/-- The step that both kinds of writing share.  The records of the other keys are what
they were, the item's key has one record, and it holds the item's value. -/
theorem Keeps.write (h : Keeps Writes keyOf Holds entries items) {entries' : List ε} {key : κ}
    {val : β} (hitem : Writes item key val)
    (honly : ∀ k v, Writes item k v → k = key ∧ v = val)
    (hdistinct : (entries'.map keyOf).Nodup)
    (hother : ∀ entry, keyOf entry ≠ key → (entry ∈ entries' ↔ entry ∈ entries))
    (hholds : ∃ entry ∈ entries', keyOf entry = key ∧ Holds val entry) :
    Keeps Writes keyOf Holds entries' (items ++ [item]) where
  distinct := hdistinct
  written entry hentry := by
    by_cases hkey : keyOf entry = key
    · exact ⟨item, List.mem_append_right _ List.mem_cons_self, val, hkey ▸ hitem⟩
    · obtain ⟨item', hitem', hwrites⟩ := h.written entry ((hother entry hkey).mp hentry)
      exact ⟨item', List.mem_append_left _ hitem', hwrites⟩
  last k v hlast := by
    rcases lastWrite_concat.mp hlast with hwrites | ⟨hlast, hnot⟩
    · obtain ⟨rfl, rfl⟩ := honly k v hwrites
      exact hholds
    · obtain ⟨entry, hentry, rfl, hv⟩ := h.last k v hlast
      have hkey : keyOf entry ≠ key := fun hkey => hnot val (hkey ▸ hitem)
      exact ⟨entry, (hother entry hkey).mpr hentry, rfl, hv⟩

/-- Changes that leave the keys alone leave the list of the keys alone. -/
theorem map_modify {f : ε → ε} (hkey : ∀ e, keyOf (f e) = keyOf e) (entries : List ε) (i : ℕ) :
    (entries.modify i f).map keyOf = entries.map keyOf := by
  refine List.ext_getElem? fun j => ?_
  rw [List.getElem?_map, List.getElem?_map]
  by_cases hij : i = j
  · subst hij
    rw [List.getElem?_modify_eq, Option.map_eq_map, Option.map_map]
    exact congrArg (fun g => Option.map g entries[i]?) (funext hkey)
  · rw [List.getElem?_modify_ne f entries hij]

/-- **An item whose key has a record changes it in place.** -/
theorem Keeps.rewrite (h : Keeps Writes keyOf Holds entries items) {i : ℕ} {entry : ε} {val : β}
    (hentry : entries[i]? = some entry) (hitem : Writes item (keyOf entry) val)
    (honly : ∀ k v, Writes item k v → k = keyOf entry ∧ v = val) {f : ε → ε}
    (hkey : ∀ e, keyOf (f e) = keyOf e) (hholds : Holds val (f entry)) :
    Keeps Writes keyOf Holds (entries.modify i f) (items ++ [item]) := by
  have hself : (entries.modify i f)[i]? = some (f entry) := by
    rw [List.getElem?_modify_eq, hentry, Option.map_eq_map, Option.map_some]
  refine h.write hitem honly ((map_modify hkey entries i).symm ▸ h.distinct) (fun e he => ?_)
    ⟨f entry, List.mem_of_getElem? hself, hkey entry, hholds⟩
  rw [List.mem_iff_getElem?, List.mem_iff_getElem?]
  refine exists_congr fun j => ?_
  by_cases hij : i = j
  · subst hij
    rw [hself, hentry, Option.some_inj, Option.some_inj]
    constructor
    · rintro rfl
      exact absurd (hkey entry) he
    · rintro rfl
      exact absurd rfl he
  · rw [List.getElem?_modify_ne f entries hij]

/-- **An item whose key has no record appends one.** -/
theorem Keeps.add (h : Keeps Writes keyOf Holds entries items) {entry : ε} {val : β}
    (hnew : keyOf entry ∉ entries.map keyOf) (hitem : Writes item (keyOf entry) val)
    (honly : ∀ k v, Writes item k v → k = keyOf entry ∧ v = val) (hholds : Holds val entry) :
    Keeps Writes keyOf Holds (entries ++ [entry]) (items ++ [item]) := by
  refine h.write hitem honly ?_ (fun e he => ?_)
    ⟨entry, List.mem_append_right _ List.mem_cons_self, rfl, hholds⟩
  · rw [List.map_append, List.map_singleton]
    exact h.distinct.append (List.nodup_singleton _) (by simpa using hnew)
  · rw [List.mem_append, List.mem_singleton, or_iff_left]
    rintro rfl
    exact he rfl

end LastWriter
end CCore
