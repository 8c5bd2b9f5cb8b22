import CCore.HashTable.Model

/-!
# A multi-valued table is a map to insertion histories

Every insertion is kept: under a key that the table has, the object goes to the
front of its list, and under a new key a node with a list of one is made.  So the
list of a key is the history of the insertions under it, the latest first, and the
table as a whole holds the pairs that were inserted, no more and no fewer.

The two halves are `Histories.values` and `Histories.pairs`.  The second does not
follow from the first without saying that the nodes have distinct keys; it is kept
along instead, since an insertion adds one pair wherever it goes.
-/

namespace CCore
namespace HashTable

open KeyedBuckets

/-- The objects inserted under a key, the latest first. -/
def history (insertions : List (CString × Addr)) (key : CString) : List Addr :=
  ((insertions.filter fun insertion => key = insertion.1).map Prod.snd).reverse

/-- **What a multi-valued table stands for.** -/
structure Histories (t : Table (List Addr)) (insertions : List (CString × Addr)) : Prop where
  wellPlaced : WellPlaced t
  size : t.size = insertions.length
  values : ∀ node ∈ t.buckets.flatten, node.value = history insertions node.key
  covers : ∀ key, key ∈ insertions.map Prod.fst ↔ ∃ node ∈ t.buckets.flatten, key = node.key
  pairs : (t.buckets.flatten.flatMap CcbucketNode.pairs).Perm insertions

theorem history_append_self (insertions : List (CString × Addr)) (key : CString)
    (object : Addr) :
    history (insertions ++ [(key, object)]) key = object :: history insertions key := by
  simp [history]

theorem history_append_of_ne {insertions : List (CString × Addr)} {key k : CString}
    {object : Addr} (h : k ≠ key) :
    history (insertions ++ [(key, object)]) k = history insertions k := by
  simp [history, h]

theorem history_eq_nil {insertions : List (CString × Addr)} {key : CString}
    (h : key ∉ insertions.map Prod.fst) : history insertions key = [] := by
  have hfilter : insertions.filter (fun insertion => key = insertion.1) = [] := by
    rw [List.filter_eq_nil_iff]
    intro insertion hmem hkey
    exact h (List.mem_map.mpr ⟨insertion, hmem, (of_decide_eq_true hkey).symm⟩)
  rw [history, hfilter]
  rfl

theorem histories_init {count : UInt64} (h : 1 ≤ nextPowerOf2 count) :
    Histories (initTable count) [] := by
  have hempty : (initTable count : Table (List Addr)).buckets.flatten = [] :=
    List.flatten_replicate_nil
  refine ⟨WellPlaced.init h, rfl, ?_, ?_, ?_⟩
  · rw [hempty]
    exact nofun
  · rw [hempty]
    exact fun key => ⟨nofun, nofun⟩
  · rw [hempty]
    exact List.Perm.refl _

variable {t : Table (List Addr)} {insertions : List (CString × Addr)}

/-- **One insertion**, in terms of the nodes.  `node` is the node of the key
afterwards, `olds` holds the node it was before, if there was one, and `rest` are the
other nodes. -/
theorem Histories.insert {t' : Table (List Addr)} {key : CString} {object : Addr}
    {rest : List (CcbucketNode (List Addr))} (h : Histories t insertions)
    (node : CcbucketNode (List Addr)) (olds : List (CcbucketNode (List Addr)))
    (hplaced : WellPlaced t') (hsize : t'.size = t.size + 1)
    (hkey : node.key = key) (hvalue : node.value = object :: history insertions key)
    (holds : ∀ d ∈ olds, d.key = key)
    (hpairs : olds.flatMap CcbucketNode.pairs = (history insertions key).map fun v => (key, v))
    (hold : t.buckets.flatten.Perm (olds ++ rest))
    (hnew : t'.buckets.flatten.Perm (node :: rest)) :
    Histories t' (insertions ++ [(key, object)]) := by
  have hrest : ∀ d ∈ rest, d.key ≠ key := by
    have hnodup := (hnew.map CcbucketNode.key).nodup_iff.mp hplaced.placed.nodup
    rw [List.map_cons, hkey] at hnodup
    exact fun d hd he => (List.nodup_cons.mp hnodup).1 (List.mem_map.mpr ⟨d, hd, he⟩)
  refine ⟨hplaced, ?_, fun d hd => ?_, fun k => ?_, ?_⟩
  · rw [hsize, h.size, List.length_append, List.length_singleton]
  · rcases List.mem_cons.mp (hnew.mem_iff.mp hd) with rfl | hd
    · rw [hkey, history_append_self, hvalue]
    · rw [history_append_of_ne (hrest d hd)]
      exact h.values d (hold.mem_iff.mpr (List.mem_append_right _ hd))
  · rw [List.map_append, List.mem_append, h.covers k, List.map_singleton, List.mem_singleton]
    constructor
    · rintro (⟨d, hd, hk⟩ | hk)
      · rcases List.mem_append.mp (hold.mem_iff.mp hd) with hd | hd
        · exact ⟨node, hnew.mem_iff.mpr List.mem_cons_self,
            hk.trans ((holds d hd).trans hkey.symm)⟩
        · exact ⟨d, hnew.mem_iff.mpr (List.mem_cons_of_mem _ hd), hk⟩
      · exact ⟨node, hnew.mem_iff.mpr List.mem_cons_self, hk.trans hkey.symm⟩
    · rintro ⟨d, hd, hk⟩
      rcases List.mem_cons.mp (hnew.mem_iff.mp hd) with rfl | hd
      · exact Or.inr (hk.trans hkey)
      · exact Or.inl ⟨d, hold.mem_iff.mpr (List.mem_append_right _ hd), hk⟩
  · have hnode : node.pairs = (key, object) :: olds.flatMap CcbucketNode.pairs := by
      rw [CcbucketNode.pairs, hvalue, hkey, hpairs, List.map_cons]
    have hsplit : (node :: rest).flatMap CcbucketNode.pairs =
        (key, object) :: (olds ++ rest).flatMap CcbucketNode.pairs := by
      rw [List.flatMap_cons, hnode, List.flatMap_append, List.cons_append]
    calc
      List.Perm _ ((node :: rest).flatMap CcbucketNode.pairs) := hnew.flatMap_right _
      _ = (key, object) :: (olds ++ rest).flatMap CcbucketNode.pairs := hsplit
      List.Perm _ ((key, object) :: t.buckets.flatten.flatMap CcbucketNode.pairs) :=
        (hold.symm.flatMap_right _).cons _
      List.Perm _ ((key, object) :: insertions) := h.pairs.cons _
      List.Perm _ (insertions ++ [(key, object)]) := (List.perm_append_singleton _ _).symm

/-- **One call of `cctable_insert`.** -/
theorem cctableInsertMany_histories (h : Histories t insertions) (key : CString) (object : Addr) :
    ∃ t', cctableInsertMany t key object = some t' ∧
      Histories t' (insertions ++ [(key, object)]) := by
  have hplaced := h.wellPlaced
  obtain ⟨b, hb⟩ := hplaced.exists_bucket key
  rw [cctableInsertMany, hb, Option.map_some]
  refine ⟨_, rfl, ?_⟩
  cases hu : updateFirst (fun node => key = node.key) (CcbucketNode.insertValue object) b with
  | some b' =>
    -- the key has a node, and the object goes to the front of its list
    obtain ⟨hplaced', e, rest, hkey, hold, hnew⟩ :=
      hplaced.placed.update (f := CcbucketNode.insertValue object) hb (fun _ => rfl) hu
    have hvalue : e.value = history insertions key := by
      rw [hkey]
      exact h.values e (hold.mem_iff.mpr List.mem_cons_self)
    refine h.insert (e.insertValue object) [e] (hplaced.setBucket hplaced').grow rfl hkey.symm
      (congrArg (object :: ·) hvalue) ?_ ?_ hold hnew
    · exact List.forall_mem_singleton.mpr hkey.symm
    · rw [List.flatMap_singleton, CcbucketNode.pairs, hvalue, hkey]
  | none =>
    have hb' := updateFirst_eq_none hu
    have hnew : ∀ node ∈ b, key ≠ node.key := fun node hnode => of_decide_eq_false (hb' node hnode)
    obtain ⟨hplaced', hperm⟩ := hplaced.push hb hnew [object]
    have hnil : history insertions key = [] := by
      refine history_eq_nil fun hk => ?_
      obtain ⟨node, hnode, hkey⟩ := (h.covers key).mp hk
      exact hnew node (hplaced.placed.mem_bucket hb hnode hkey) hkey
    refine h.insert ⟨key, [object]⟩ [] hplaced'.grow rfl rfl ?_ nofun ?_ (List.Perm.refl _) hperm
    · exact congrArg (object :: ·) hnil.symm
    · rw [hnil]
      rfl

/-- Any number of calls. -/
theorem insertAll_histories (h : Histories t insertions) (more : List (CString × Addr)) :
    ∃ t', insertAll (.many t) more = some (.many t') ∧ Histories t' (insertions ++ more) := by
  induction more generalizing t insertions with
  | nil => exact ⟨t, rfl, (List.append_nil insertions).symm ▸ h⟩
  | cons insertion more ih =>
    obtain ⟨key, object⟩ := insertion
    obtain ⟨t₁, ht₁, h₁⟩ := cctableInsertMany_histories h key object
    obtain ⟨t₂, ht₂, h₂⟩ := ih h₁
    rw [List.append_assoc, List.singleton_append] at h₂
    refine ⟨t₂, (Runs.run_cons_eq_some _).mpr ⟨.many t₁, ?_, ht₂⟩, h₂⟩
    rw [cctableInsert, ht₁, Option.map_some]

/-! ## What a caller sees -/

/-- A lookup finds the history of the key, if it has one. -/
theorem Histories.getMany (h : Histories t insertions) (key : CString) :
    cctableGetMany (.many t) key = some
      (if key ∈ insertions.map Prod.fst then some (history insertions key) else none) := by
  obtain ⟨b, hb⟩ := h.wellPlaced.exists_bucket key
  have hfind : (findNode key b).map CcbucketNode.value =
      if key ∈ insertions.map Prod.fst then some (history insertions key) else none := by
    cases hnode : findNode key b with
    | none =>
      have hnot : key ∉ insertions.map Prod.fst := fun hk => by
        obtain ⟨node, hmem, hkey⟩ := (h.covers key).mp hk
        exact (h.wellPlaced.findNode_eq_none_iff hb).mp hnode node hmem hkey
      rw [if_neg hnot, Option.map_none]
    | some node =>
      obtain ⟨hmem, hkey⟩ := (h.wellPlaced.findNode_eq_some_iff hb).mp hnode
      rw [if_pos ((h.covers key).mpr ⟨node, hmem, hkey⟩), Option.map_some, h.values node hmem,
        hkey]
  rw [cctableGetMany, hb, Option.map_some, hfind]

/-- An iteration comes to the pairs of the nodes, in the order of the buckets. -/
theorem cctableIter_many (t : Table (List Addr)) :
    cctableIter (.many t) = t.buckets.flatten.flatMap CcbucketNode.pairs := by
  rw [cctableIter, ← List.flatMap_id, List.flatMap_assoc]
  rfl

/-- **A multi-valued table is a map to insertion histories.**  After any insertions into
a table with at least one bucket, a lookup finds the objects inserted under its key, the
latest first, or `NULL` if there was none; the size is the number of insertions; an
iteration comes to the inserted pairs, each as often as it was inserted; and one more
insertion changes the list of no other key. -/
theorem cctable_histories {count : UInt64} (hcapacity : 1 ≤ (cctableInit count true).capacity)
    (insertions : List (CString × Addr)) :
    ∃ t, insertAll (cctableInit count true) insertions = some t ∧
      (∀ key, cctableGetMany t key = some
        (if key ∈ insertions.map Prod.fst then some (history insertions key) else none)) ∧
      t.size = insertions.length ∧
      (cctableIter t).Perm insertions ∧
      ∀ key object, ∃ t', cctableInsert t key object = some t' ∧
        ∀ k, k ≠ key → cctableGetMany t' k = cctableGetMany t k := by
  obtain ⟨t, ht, h⟩ := insertAll_histories (histories_init hcapacity) insertions
  rw [List.nil_append] at h
  refine ⟨.many t, ht, h.getMany, h.size, ?_, fun key object => ?_⟩
  · rw [cctableIter_many]
    exact h.pairs
  · obtain ⟨t', ht', h'⟩ := cctableInsertMany_histories h key object
    refine ⟨.many t', by rw [cctableInsert, ht', Option.map_some], fun k hk => ?_⟩
    have hmem : k ∈ (insertions ++ [(key, object)]).map Prod.fst ↔ k ∈ insertions.map Prod.fst := by
      simp [hk]
    rw [h'.getMany, h.getMany, history_append_of_ne hk, if_congr hmem rfl rfl]

/-- Three insertions under two keys, into two buckets. -/
theorem cctable_histories_two_keys :
    ∃ t, insertAll (cctableInit 2 true) [(⟨[97], by decide⟩, 10), (⟨[98], by decide⟩, 20),
        (⟨[97], by decide⟩, 10)] = some t ∧
      cctableGetMany t ⟨[97], by decide⟩ = some (some [10, 10]) ∧ t.size = 3 := by
  have hcapacity : 1 ≤ (cctableInit 2 true).capacity := by decide
  obtain ⟨t, ht, hget, hsize, -, -⟩ := cctable_histories hcapacity
    [(⟨[97], by decide⟩, 10), (⟨[98], by decide⟩, 20), (⟨[97], by decide⟩, 10)]
  exact ⟨t, ht, hget _, hsize⟩

end HashTable
end CCore
