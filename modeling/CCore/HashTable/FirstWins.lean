import CCore.HashTable.Model
import Mathlib.Data.List.Dedup

/-!
# A single-valued table is a first-wins map

An insertion under a key that the table has already is dropped.  So what a table
stands for, after any insertions, is the map that sends a key to the object of its
earliest insertion.  `FirstWins` says so node by node: every node carries the first
object that was inserted under its key, and every key that was inserted has a node.

With one node for each key this determines the three ways to look at a table: a
lookup finds the first object, the size is the number of distinct keys, and an
iteration comes to each of them once.  Nothing is assumed of the hash function, so
colliding keys are covered.
-/

namespace CCore
namespace HashTable

open KeyedBuckets

/-- The object of the earliest insertion under a key. -/
def firstObject (insertions : List (CString × Addr)) (key : CString) : Option Addr :=
  (insertions.find? fun insertion => key = insertion.1).map Prod.snd

/-- **What a single-valued table stands for.** -/
structure FirstWins (t : Table Addr) (insertions : List (CString × Addr)) : Prop where
  wellPlaced : WellPlaced t
  size : t.size = t.buckets.flatten.length
  first : ∀ node ∈ t.buckets.flatten, firstObject insertions node.key = some node.value
  covers : ∀ key ∈ insertions.map Prod.fst, ∃ node ∈ t.buckets.flatten, key = node.key

theorem firstObject_append (insertions : List (CString × Addr)) (key k : CString)
    (object : Addr) : firstObject (insertions ++ [(key, object)]) k =
      (firstObject insertions k).or (if k = key then some object else none) := by
  rw [firstObject, List.find?_append, Option.map_or, ← firstObject, List.find?_singleton]
  by_cases hk : k = key
  · simp [hk]
  · simp [hk]

theorem firstObject_eq_none {insertions : List (CString × Addr)} {key : CString} :
    firstObject insertions key = none ↔ key ∉ insertions.map Prod.fst := by
  rw [firstObject, Option.map_eq_none_iff, List.find?_eq_none, List.mem_map]
  constructor
  · rintro hnone ⟨insertion, hmem, rfl⟩
    exact hnone insertion hmem (decide_eq_true rfl)
  · intro hnone insertion hmem hkey
    exact hnone ⟨insertion, hmem, (of_decide_eq_true hkey).symm⟩

variable {t : Table Addr} {insertions : List (CString × Addr)}

theorem firstWins_init {count : UInt64} (h : 1 ≤ nextPowerOf2 count) :
    FirstWins (initTable count) [] := by
  have hempty : (initTable count : Table Addr).buckets.flatten = [] := List.flatten_replicate_nil
  refine ⟨WellPlaced.init h, ?_, fun node hnode => ?_, nofun⟩
  · rw [hempty]
    rfl
  · rw [hempty] at hnode
    exact absurd hnode List.not_mem_nil

/-- **One insertion.** -/
theorem cctableInsertSingle_firstWins (h : FirstWins t insertions) (key : CString)
    (object : Addr) :
    ∃ t', cctableInsertSingle t key object = some t' ∧
      FirstWins t' (insertions ++ [(key, object)]) := by
  obtain ⟨hplaced, hsize, hfirst, hcovers⟩ := h
  obtain ⟨b, hb⟩ := hplaced.exists_bucket key
  rw [cctableInsertSingle, hb, Option.map_some]
  refine ⟨_, rfl, ?_⟩
  split
  · -- the key is there, and the table stays as it is
    rename_i hany
    obtain ⟨node, hnode, hkey⟩ := List.any_eq_true.mp hany
    have hkey : key = node.key := of_decide_eq_true hkey
    have hmem : node ∈ t.buckets.flatten :=
      List.mem_flatten.mpr ⟨b, List.mem_of_getElem? hb, hnode⟩
    refine ⟨hplaced, hsize, fun d hd => ?_, fun k hk => ?_⟩
    · rw [firstObject_append, hfirst d hd, Option.some_or]
    · rw [List.map_append] at hk
      rcases List.mem_append.mp hk with hk | hk
      · exact hcovers k hk
      · exact ⟨node, hmem, (List.mem_singleton.mp hk).trans hkey⟩
  · rename_i hany
    have hnew : ∀ node ∈ b, key ≠ node.key := fun node hnode hkey =>
      hany (List.any_eq_true.mpr ⟨node, hnode, decide_eq_true hkey⟩)
    have hfresh : ∀ node ∈ t.buckets.flatten, key ≠ node.key := fun node hnode hkey =>
      hnew node (hplaced.placed.mem_bucket hb hnode hkey) hkey
    obtain ⟨hplaced', hperm⟩ := hplaced.push hb hnew object
    have hnone : firstObject insertions key = none := by
      rw [firstObject_eq_none]
      intro hk
      obtain ⟨node, hnode, hkey⟩ := hcovers key hk
      exact hfresh node hnode hkey
    refine ⟨hplaced'.grow, ?_, fun d hd => ?_, fun k hk => ?_⟩
    · exact (congrArg (· + 1) hsize).trans hperm.length_eq.symm
    · rw [firstObject_append]
      rcases List.mem_cons.mp (hperm.mem_iff.mp hd) with rfl | hd
      · rw [hnone, Option.none_or, if_pos rfl]
      · rw [hfirst d hd, Option.some_or]
    · rw [List.map_append] at hk
      rcases List.mem_append.mp hk with hk | hk
      · obtain ⟨node, hnode, hkey⟩ := hcovers k hk
        exact ⟨node, hperm.mem_iff.mpr (List.mem_cons_of_mem _ hnode), hkey⟩
      · exact ⟨_, hperm.mem_iff.mpr List.mem_cons_self, List.mem_singleton.mp hk⟩

/-- Any number of insertions. -/
theorem insertAll_firstWins (h : FirstWins t insertions) (more : List (CString × Addr)) :
    ∃ t', insertAll (.single t) more = some (.single t') ∧ FirstWins t' (insertions ++ more) := by
  induction more generalizing t insertions with
  | nil => exact ⟨t, rfl, (List.append_nil insertions).symm ▸ h⟩
  | cons insertion more ih =>
    obtain ⟨key, object⟩ := insertion
    obtain ⟨t₁, ht₁, h₁⟩ := cctableInsertSingle_firstWins h key object
    obtain ⟨t₂, ht₂, h₂⟩ := ih h₁
    rw [List.append_assoc, List.singleton_append] at h₂
    refine ⟨t₂, (Runs.run_cons_eq_some _).mpr ⟨.single t₁, ?_, ht₂⟩, h₂⟩
    rw [cctableInsert, ht₁, Option.map_some]

/-! ## What a caller sees -/

/-- A lookup finds the first object, or nothing. -/
theorem FirstWins.getOne (h : FirstWins t insertions) (key : CString) :
    cctableGetOne (.single t) key = some ((firstObject insertions key).getD null) := by
  obtain ⟨b, hb⟩ := h.wellPlaced.exists_bucket key
  have hfind : (findNode key b).map CcbucketNode.value = firstObject insertions key := by
    cases hnode : findNode key b with
    | none =>
      rw [Option.map_none, eq_comm, firstObject_eq_none]
      intro hk
      obtain ⟨node, hmem, hkey⟩ := h.covers key hk
      exact (h.wellPlaced.findNode_eq_none_iff hb).mp hnode node hmem hkey
    | some node =>
      obtain ⟨hmem, hkey⟩ := (h.wellPlaced.findNode_eq_some_iff hb).mp hnode
      rw [Option.map_some, hkey, h.first node hmem]
  rw [cctableGetOne, hb, Option.map_some, hfind]

/-- An iteration comes to the nodes, in the order of the buckets. -/
theorem cctableIter_single (t : Table Addr) :
    cctableIter (.single t) = t.buckets.flatten.map fun node => (node.key, node.value) := by
  rw [List.map_flatten, ← List.flatMap_def]
  rfl

/-- The keys of the nodes are the distinct keys of the insertions. -/
theorem FirstWins.keys_perm (h : FirstWins t insertions) :
    (t.buckets.flatten.map CcbucketNode.key).Perm (insertions.map Prod.fst).dedup := by
  refine (List.perm_ext_iff_of_nodup h.wellPlaced.placed.nodup (List.nodup_dedup _)).mpr
    fun key => ?_
  rw [List.mem_dedup]
  constructor
  · intro hkey
    obtain ⟨node, hnode, rfl⟩ := List.mem_map.mp hkey
    by_contra hnot
    have hnone := firstObject_eq_none.mpr hnot
    rw [h.first node hnode] at hnone
    exact absurd hnone nofun
  · intro hkey
    obtain ⟨node, hnode, hk⟩ := h.covers key hkey
    exact List.mem_map.mpr ⟨node, hnode, hk.symm⟩

/-- **A single-valued table is a first-wins map.**  After any insertions into a table
with at least one bucket, a lookup finds the object of the earliest insertion under its
key, or nothing if there was none; the size is the number of distinct keys; and an
iteration comes to each distinct key once, with the object that a lookup finds. -/
theorem cctable_first_wins {count : UInt64} (hcapacity : 1 ≤ (cctableInit count false).capacity)
    (insertions : List (CString × Addr)) :
    ∃ t, insertAll (cctableInit count false) insertions = some t ∧
      (∀ key, cctableGetOne t key = some ((firstObject insertions key).getD null)) ∧
      t.size = (insertions.map Prod.fst).dedup.length ∧
      ((cctableIter t).map Prod.fst).Perm (insertions.map Prod.fst).dedup ∧
      ∀ p ∈ cctableIter t, cctableGetOne t p.1 = some p.2 := by
  obtain ⟨t, ht, h⟩ := insertAll_firstWins (firstWins_init hcapacity) insertions
  rw [List.nil_append] at h
  refine ⟨.single t, ht, h.getOne, ?_, ?_, fun p hp => ?_⟩
  · rw [← h.keys_perm.length_eq, List.length_map]
    exact h.size
  · rw [cctableIter_single, List.map_map]
    exact h.keys_perm
  · rw [cctableIter_single] at hp
    obtain ⟨node, hnode, rfl⟩ := List.mem_map.mp hp
    rw [h.getOne, h.first node hnode, Option.getD_some]

/-- Three insertions under two keys, into two buckets. -/
theorem cctable_first_wins_two_keys :
    ∃ t, insertAll (cctableInit 2 false) [(⟨[97], by decide⟩, 10), (⟨[98], by decide⟩, 20),
        (⟨[97], by decide⟩, 30)] = some t ∧
      cctableGetOne t ⟨[97], by decide⟩ = some 10 ∧ t.size = 2 := by
  have hcapacity : 1 ≤ (cctableInit 2 false).capacity := by decide
  obtain ⟨t, ht, hget, hsize, -, -⟩ := cctable_first_wins hcapacity
    [(⟨[97], by decide⟩, 10), (⟨[98], by decide⟩, 20), (⟨[97], by decide⟩, 30)]
  exact ⟨t, ht, hget _, hsize⟩

end HashTable
end CCore
