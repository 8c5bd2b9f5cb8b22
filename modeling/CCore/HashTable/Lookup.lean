import Mathlib.Data.List.Find
import CCore.HashTable.Teardown

/-!
# Lookups in memory

`cctable_get_one` and `cctable_get_many` go through the nodes of a bucket as an insertion does.  The
second returns the address of a list that lies inside a node, and the caller keeps it: it is walked
with `cclist_next` later, perhaps after more insertions.

So there are three things to say.  A lookup answers what the model's table answers
(`cctableGetOne_eq`, `cctableGetMany_eq`), and for `cctable_get_many` this is about the list at the
address that is returned.  An insertion needs nothing but its memory: where `cc_alloc` finds a place
it succeeds (`cctableInsert_isSome`).  And a node is never moved: the list of a key stays where it
was, and further insertions under the key come to its front (`getMany_insert`).
-/

namespace CCore
namespace HashTable
namespace InMemory

open CircularLinks LinkedList KeyedBuckets

/-- `cctable_get_one` -/
def cctableGetOne (m : Mem) (t : CctableT) (key : CString) : Option Addr :=
  ccassert (t.allowMultiple = false) <|
  (searchBucket m (t.bucketAt (bucketIdx t.capacity key)) key).bind fun
  | some node => m.access node 8 (some (oneValue m node))
  | none => some null

/-- `cctable_get_many`: the address of the list, which is that of its node. -/
def cctableGetMany (m : Mem) (t : CctableT) (key : CString) : Option Addr :=
  ccassert (t.allowMultiple = true) <|
  (searchBucket m (t.bucketAt (bucketIdx t.capacity key)) key).bind fun
  | some node => some node
  | none => some null

variable {m m₁ m' : Mem} {t t' : CctableT} {W W' : World} {key k : CString} {x z list : Addr}
  {object newNode newValue : Addr} {insertions : List Insertion} {i : Insertion}

/-! ## What a lookup finds -/

/-- The first node of its bucket that has the key. -/
def CctableT.nodeOf (t : CctableT) (m : Mem) (W : World) (key : CString) : Option Addr :=
  (t.nodesAt W (bucketIdx t.capacity key)).find? fun x => key = m.rest.key x

theorem search_eq (h : Laid m t W) (hrep : Represents m.heap W) (key : CString) :
    searchBucket m (t.bucketAt (bucketIdx t.capacity key)) key = some (t.nodeOf m W key) :=
  searchBucket_eq h hrep (bucketIdx_lt h.capacity_pos key) key

theorem mem_nodes_of_nodeOf (h : Laid m t W) (hx : t.nodeOf m W key = some x) : x ∈ t.nodes W :=
  CctableT.mem_nodes.mpr ⟨_, bucketIdx_lt h.capacity_pos key, List.mem_of_find?_eq_some hx⟩

/-- What the model finds in the bucket. -/
theorem findNode_map {β : Type} {view : Addr → CcbucketNode β}
    (hkey : ∀ x, (view x).key = m.rest.key x) (xs : List Addr) :
    findNode key (xs.map view) = (xs.find? fun x => key = m.rest.key x).map view := by
  have hsame : (fun node : CcbucketNode β => decide (key = node.key)) ∘ view =
      fun x => decide (key = m.rest.key x) := funext fun x => by rw [Function.comp_apply, hkey]
  rw [findNode, List.find?_map, hsame]

theorem cctableGetOne_eq {T : Table Addr} (h : Stores m t W (.single T)) (key : CString) :
    cctableGetOne m t key = HashTable.cctableGetOne (.single T) key := by
  obtain ⟨hrep, hlaid, ⟨hsingle, hshows⟩, -, -, -⟩ := h
  have hj := bucketIdx_lt hlaid.capacity_pos key
  rw [cctableGetOne, ccassert_pos hsingle, search_eq hlaid hrep, Option.bind_some,
    HashTable.cctableGetOne, hshows.bucket hj, Option.map_some, findNode_map (fun _ => rfl)]
  show _ = some (((t.nodeOf m W key).map (oneNode m)).map CcbucketNode.value |>.getD null)
  cases hnode : t.nodeOf m W key with
  | none => rfl
  | some x =>
    have hblock := hlaid.nodeBlock x (mem_nodes_of_nodeOf hlaid hnode)
    exact Memory.access_pos (hblock.accessible_start (by decide))

/-- The list of a key. -/
theorem cctableGetMany_eq {T : Table (List Addr)} (h : Stores m t W (.many T)) (key : CString) :
    ∃ list, cctableGetMany m t key = some list ∧
      ((list = null ∧ HashTable.cctableGetMany (.many T) key = some none) ∨
        ∃ cells, Holds m.heap list ⟨8, cells⟩ ∧
          HashTable.cctableGetMany (.many T) key = some (some (cells.map m.rest.value))) := by
  obtain ⟨hrep, hlaid, ⟨hmany, hshows⟩, -, -, -⟩ := h
  have hj := bucketIdx_lt hlaid.capacity_pos key
  rw [cctableGetMany, ccassert_pos hmany, search_eq hlaid hrep, Option.bind_some,
    HashTable.cctableGetMany, hshows.bucket hj, Option.map_some, findNode_map (fun _ => rfl)]
  show ∃ list, _ ∧ ((_ ∧ some (((t.nodeOf m W key).map (manyNode m W)).map
    CcbucketNode.value) = _) ∨ ∃ cells, _ ∧ some (((t.nodeOf m W key).map (manyNode m W)).map
    CcbucketNode.value) = _)
  cases hnode : t.nodeOf m W key with
  | none => exact ⟨null, rfl, Or.inl ⟨rfl, rfl⟩⟩
  | some x =>
    have hx := hrep.holds _ _ (hlaid.list_of_node hmany (mem_nodes_of_nodeOf hlaid hnode))
    exact ⟨x, rfl, Or.inr ⟨objectsOf W x, hx, rfl⟩⟩

/-! ## One more insertion -/

/-- Whether there is a place for a block depends on the blocks. -/
theorem ccAlloc_isSome_of_subset {ρ : Type} {m m' : Memory ρ} {size : ℕ} {ptr : Addr}
    (h : (ccAlloc m size ptr).isSome) (hsub : m'.blocks ⊆ m.blocks) :
    (ccAlloc m' size ptr).isSome := by
  rw [ccAlloc] at h ⊢
  split
  · rw [if_pos ‹_›] at h
    split
    · rfl
    · rw [if_neg ‹_›] at h
      exact absurd h (by simp)
  · rw [if_neg ‹_›] at h
    split
    · rw [dif_pos ‹_›] at h
      obtain ⟨hall, -⟩ := Option.ite_none_right_eq_some.mp (Option.some_get h).symm
      rw [if_pos fun b hb => hall b (hsub hb)]
      rfl
    · rw [dif_neg ‹_›] at h
      exact absurd h (by simp)

/-- `cc_alloc` finds places for a node and for a value. -/
structure Insertion.HasRoom (i : Insertion) (m : Mem) : Prop where
  node : (ccAlloc m (48 + i.key.chars.length + 1) i.newNode).isSome
  value : ∀ m₁, ccAlloc m (48 + i.key.chars.length + 1) i.newNode = some m₁ →
    (ccAlloc m₁ 24 i.newValue).isSome

/-- What an insertion leaves of the nodes: they keep their keys and their order, and where there
is a new one it is at the front of its bucket, and its key had none. -/
structure Kept (m : Mem) (t : CctableT) (W : World) (m' : Mem) (t' : CctableT) (W' : World) :
    Prop where
  capacity : t'.capacity = t.capacity
  keys : ∀ x ∈ t.nodes W, m'.rest.key x = m.rest.key x
  nodes : ∀ j < t.capacity.toNat, t'.nodesAt W' j = t.nodesAt W j ∨
    ∃ z, t'.nodesAt W' j = z :: t.nodesAt W j ∧ t.nodeOf m W (m'.rest.key z) = none

/-- **A key keeps its node.** -/
theorem Kept.nodeOf (h : Kept m t W m' t' W') (hlaid : Laid m t W)
    (hx : t.nodeOf m W key = some x) : t'.nodeOf m' W' key = some x := by
  have hj := bucketIdx_lt hlaid.capacity_pos key
  have hsame : (t.nodesAt W (bucketIdx t.capacity key)).find?
      (fun y => key = m'.rest.key y) = some x := by
    rw [← hx, CctableT.nodeOf]
    refine List.find?_congr fun y hy => ?_
    rw [h.keys y (CctableT.mem_nodes.mpr ⟨_, hj, hy⟩)]
  rw [CctableT.nodeOf, h.capacity]
  rcases h.nodes _ hj with hnodes | ⟨z, hnodes, hnew⟩
  · rw [hnodes, hsame]
  · have hz : key ≠ m'.rest.key z := by
      rintro rfl
      rw [hnew] at hx
      exact absurd hx (by simp)
    rw [hnodes, List.find?_cons_of_neg (by simpa using hz), hsame]

/-- An allocation does not look at what is in memory. -/
theorem ccAlloc_with {ρ : Type} (m : Memory ρ) (size : ℕ) (ptr : Addr) (heap : Heap) (rest : ρ) :
    ccAlloc { m with heap := heap, rest := rest } size ptr =
      (ccAlloc m size ptr).map fun m => { m with heap := heap, rest := rest } := by
  simp only [ccAlloc]
  split
  · split <;> rfl
  · split
    · split <;> rfl
    · rfl

theorem one_le_size_node (key : CString) : 48 ≤ 48 + key.chars.length + 1 :=
  (Nat.le_add_right _ _).trans (Nat.le_add_right _ _)

/-- The nodes when there is a new one. -/
theorem kept_withNode (hlaid : Laid m t W) (hz : W z = none)
    (hkey : m'.rest.key z = key) (hkeys : ∀ x ∈ t.nodes W, m'.rest.key x = m.rest.key x)
    (hnew : t.nodeOf m W key = none) (hcapacity : t'.capacity = t.capacity)
    (hnodes : ∀ j < t.capacity.toNat,
      t'.nodesAt W' j = t.nodesAt (withNode t W (bucketIdx t.capacity key) z) j) :
    Kept m t W m' t' W' := by
  refine ⟨hcapacity, hkeys, fun j hj => ?_⟩
  have hidx := bucketIdx_lt hlaid.capacity_pos key
  rw [hnodes j hj]
  by_cases hji : j = bucketIdx t.capacity key
  · rw [hji]
    exact Or.inr ⟨z, objectsOf_eq withNode_bucket, hkey ▸ hnew⟩
  · exact Or.inl (objectsOf_withNode hz (hlaid.bucketAt_ne hj hidx hji))

section Insert

variable (hlaid : Laid m t W) (hrep : Represents m.heap W)
include hlaid hrep

/-- A single-valued table gets a new key. -/
theorem insertSingle_new (hsingle : t.allowMultiple = false) (hnew : t.nodeOf m W key = none)
    (ha : ccAlloc m (48 + key.chars.length + 1) newNode = some m₁) (object : Addr) :
    ∃ m' t' W', cctableInsertSingle m t key object newNode = some (m', t') ∧
      Represents m'.heap W' ∧ Laid m' t' W' ∧ Kept m t W m' t' W' := by
  have hall := allocated_of_ccAlloc (Nat.succ_ne_zero _) ha
  have hsize := one_le_size_node key
  have hj := bucketIdx_lt hlaid.capacity_pos key
  have hz : W newNode = none := hlaid.eq_none hall (Nat.le_trans (by decide) hsize)
  obtain ⟨heap, hheap, hrep', -, -⟩ := insertNode_single hlaid hrep hall hsingle hsize hj key object
  obtain ⟨hkey, hkeys⟩ := keys_setKey hlaid hall key
  refine ⟨{ setKey m₁ newNode key with heap := heap }, { t with size := t.size + 1 }, _, ?_, hrep',
    (hlaid.pushNode hall hsize hj).grow.of_blocks rfl,
    kept_withNode hlaid hz hkey hkeys hnew rfl fun _ _ => rfl⟩
  rw [cctableInsertSingle, search_eq hlaid hrep, hnew, Option.bind_some, ha]
  exact congrArg (Option.map _) hheap

/-- A key of a multi-valued table gets a new value. -/
theorem insertMany_found (hmany : t.allowMultiple = true) (hx : t.nodeOf m W key = some x)
    (ha : ccAlloc m 24 newValue = some m₁) (object newNode : Addr) :
    ∃ m' t' W', cctableInsertMany m t key object newNode newValue = some (m', t') ∧
      Represents m'.heap W' ∧ Laid m' t' W' ∧ Kept m t W m' t' W' := by
  have hall := allocated_of_ccAlloc (by decide) ha
  have hmem := mem_nodes_of_nodeOf hlaid hx
  obtain ⟨heap, hheap, hrep'⟩ := insertValue_many hlaid hrep hall hmany le_rfl hmem object
  refine ⟨{ setValue m₁ newValue object with heap := heap }, { t with size := t.size + 1 }, _, ?_,
    hrep', (hlaid.pushValue hmany hmem hall le_rfl).grow.of_blocks rfl, rfl, fun y _ => ?_,
    fun j hj => Or.inl (hlaid.nodesAt_withValue hmem hj)⟩
  · rw [cctableInsertMany, search_eq hlaid hrep, hx, Option.bind_some, valueManyNew, ha]
    exact congrArg (Option.map _) hheap
  · exact congrFun (congrArg Contents.key hall.rest) y

/-- A multi-valued table gets a new key. -/
theorem insertMany_new {m₂ : Mem} (hmany : t.allowMultiple = true)
    (hnew : t.nodeOf m W key = none)
    (ha : ccAlloc m (48 + key.chars.length + 1) newNode = some m₁)
    (ha₂ : ccAlloc m₁ 24 newValue = some m₂) (object : Addr) :
    ∃ m' t' W', cctableInsertMany m t key object newNode newValue = some (m', t') ∧
      Represents m'.heap W' ∧ Laid m' t' W' ∧ Kept m t W m' t' W' := by
  have hall := allocated_of_ccAlloc (Nat.succ_ne_zero _) ha
  have hsize := one_le_size_node key
  have hj := bucketIdx_lt hlaid.capacity_pos key
  have hz : W newNode = none := hlaid.eq_none hall (Nat.le_trans (by decide) hsize)
  obtain ⟨heap₁, heap₂, hinit, hfirst, hrep₂⟩ :=
    insertNode_many hlaid hrep hall hmany hsize hj key
  have hlaid₂ : Laid { setKey m₁ newNode key with heap := heap₂ } t _ :=
    (hlaid.pushNode hall hsize hj).of_blocks rfl
  have halloc : ccAlloc { setKey m₁ newNode key with heap := heap₂ } 24 newValue =
      some { m₂ with heap := heap₂, rest := (setKey m₁ newNode key).rest } :=
    (ccAlloc_with m₁ 24 newValue heap₂ _).trans (congrArg (Option.map _) ha₂)
  have hall₂ := allocated_of_ccAlloc (by decide) halloc
  have hnode : newNode ∈ t.nodes (withNode t W (bucketIdx t.capacity key) newNode) :=
    (hlaid.nodes_withNode hz hj).mem_iff.mpr List.mem_cons_self
  obtain ⟨heap, hheap, hrep'⟩ := insertValue_many hlaid₂ hrep₂ hall₂ hmany le_rfl hnode object
  obtain ⟨hkey, hkeys⟩ := keys_setKey hlaid hall key
  refine ⟨{ setValue { m₂ with heap := heap₂, rest := (setKey m₁ newNode key).rest } newValue object
    with heap := heap }, { t with size := t.size + 1 }, _, ?_, hrep',
    (hlaid₂.pushValue hmany hnode hall₂ le_rfl).grow.of_blocks rfl,
    kept_withNode hlaid hz hkey hkeys hnew rfl fun j hj => ?_⟩
  · rw [cctableInsertMany, search_eq hlaid hrep, hnew, Option.bind_some, ha, Option.bind_some]
    dsimp only
    rw [hinit, Option.bind_some, hfirst, Option.bind_some, valueManyNew, halloc]
    exact congrArg (Option.map _) hheap
  · exact hlaid₂.nodesAt_withValue hnode hj

end Insert

/-! ## Every insertion -/

theorem Kept.refl : Kept m t W m t W := ⟨rfl, fun _ _ => rfl, fun _ _ => Or.inl rfl⟩

theorem cctableInsert_single (h : t.allowMultiple = false) :
    cctableInsert (m, t) i = cctableInsertSingle m t i.key i.object i.newNode := by
  rw [cctableInsert, h]
  exact if_neg Bool.false_ne_true

theorem cctableInsert_many (h : t.allowMultiple = true) :
    cctableInsert (m, t) i = cctableInsertMany m t i.key i.object i.newNode i.newValue := by
  rw [cctableInsert, h]
  exact if_pos rfl

/-- **Insertions need nothing but their memory.** -/
theorem cctableInsert_isSome (hlaid : Laid m t W) (hrep : Represents m.heap W)
    (hroom : i.HasRoom m) : (cctableInsert (m, t) i).isSome := by
  obtain ⟨m₁, ha⟩ := Option.isSome_iff_exists.mp hroom.node
  obtain ⟨m₂, ha₂⟩ := Option.isSome_iff_exists.mp (hroom.value m₁ ha)
  cases hmany : t.allowMultiple with
  | false =>
    rw [cctableInsert_single hmany]
    cases hfind : t.nodeOf m W i.key with
    | some x =>
      rw [cctableInsertSingle, search_eq hlaid hrep, hfind]
      rfl
    | none =>
      obtain ⟨m', t', W', hins, -⟩ := insertSingle_new hlaid hrep hmany hfind ha i.object
      exact Option.isSome_of_eq_some hins
  | true =>
    rw [cctableInsert_many hmany]
    cases hfind : t.nodeOf m W i.key with
    | some x =>
      -- only the value is allocated, and there is more room without the node
      have hsub : m.blocks ⊆ m₁.blocks := by
        obtain ⟨b, -, -, hblocks⟩ := (allocated_of_ccAlloc (Nat.succ_ne_zero _) ha).blocks
        exact hblocks ▸ List.subset_cons_self b m.blocks
      obtain ⟨m₃, ha₃⟩ := Option.isSome_iff_exists.mp
        (ccAlloc_isSome_of_subset (hroom.value m₁ ha) hsub)
      obtain ⟨m', t', W', hins, -⟩ := insertMany_found hlaid hrep hmany hfind ha₃ i.object i.newNode
      exact Option.isSome_of_eq_some hins
    | none =>
      obtain ⟨m', t', W', hins, -⟩ := insertMany_new hlaid hrep hmany hfind ha ha₂ i.object
      exact Option.isSome_of_eq_some hins

/-- The allocations of an insertion that has been made under a new key. -/
theorem exists_allocs_of_insertMany {s : Mem × CctableT} (hlaid : Laid m t W)
    (hrep : Represents m.heap W) (hnew : t.nodeOf m W key = none)
    (hins : cctableInsertMany m t key object newNode newValue = some s) :
    ∃ m₁ m₂, ccAlloc m (48 + key.chars.length + 1) newNode = some m₁ ∧
      ccAlloc m₁ 24 newValue = some m₂ := by
  rw [cctableInsertMany, search_eq hlaid hrep, hnew, Option.bind_some] at hins
  obtain ⟨m₁, ha, hins⟩ := Option.bind_eq_some_iff.mp hins
  obtain ⟨m₂, hinit, hins⟩ := Option.bind_eq_some_iff.mp hins
  obtain ⟨m₃, hfirst, hins⟩ := Option.bind_eq_some_iff.mp hins
  obtain ⟨m₄, hvalue, -⟩ := Option.bind_eq_some_iff.mp hins
  obtain ⟨heap₂, -, rfl⟩ := Option.map_eq_some_iff.mp hinit
  obtain ⟨heap₃, -, rfl⟩ := Option.map_eq_some_iff.mp hfirst
  obtain ⟨m₅, hvalue, -⟩ := Option.map_eq_some_iff.mp hvalue
  obtain ⟨m₆, hm₆, -⟩ := Option.map_eq_some_iff.mp
    ((ccAlloc_with m₁ 24 newValue heap₃ (setKey m₁ newNode key).rest).symm.trans hvalue)
  exact ⟨m₁, m₆, ha, hm₆⟩

/-- **What an insertion leaves of the nodes.** -/
theorem kept_of_insert (hlaid : Laid m t W) (hrep : Represents m.heap W)
    (hins : cctableInsert (m, t) i = some (m', t')) :
    ∃ W', Represents m'.heap W' ∧ Laid m' t' W' ∧ Kept m t W m' t' W' := by
  have hsame : ∀ {s}, s = some (m', t') →
      (∃ m'' t'' W', s = some (m'', t'') ∧ Represents m''.heap W' ∧ Laid m'' t'' W' ∧
        Kept m t W m'' t'' W') →
      ∃ W', Represents m'.heap W' ∧ Laid m' t' W' ∧ Kept m t W m' t' W' := by
    rintro s hs ⟨m'', t'', W', hs', h⟩
    obtain ⟨rfl, rfl⟩ := Prod.mk.inj (Option.some.inj (hs'.symm.trans hs))
    exact ⟨W', h⟩
  cases hmany : t.allowMultiple with
  | false =>
    rw [cctableInsert_single hmany] at hins
    refine hsame hins ?_
    cases hfind : t.nodeOf m W i.key with
    | some x =>
      refine ⟨m, t, W, ?_, hrep, hlaid, Kept.refl⟩
      rw [cctableInsertSingle, search_eq hlaid hrep, hfind]
      rfl
    | none =>
      rw [cctableInsertSingle, search_eq hlaid hrep, hfind, Option.bind_some] at hins
      obtain ⟨m₁, ha, -⟩ := Option.bind_eq_some_iff.mp hins
      exact insertSingle_new hlaid hrep hmany hfind ha i.object
  | true =>
    rw [cctableInsert_many hmany] at hins
    refine hsame hins ?_
    cases hfind : t.nodeOf m W i.key with
    | some x =>
      rw [cctableInsertMany, search_eq hlaid hrep, hfind, Option.bind_some] at hins
      obtain ⟨m₁, hvalue, -⟩ := Option.bind_eq_some_iff.mp hins
      obtain ⟨m₂, ha, -⟩ := Option.map_eq_some_iff.mp hvalue
      exact insertMany_found hlaid hrep hmany hfind ha i.object i.newNode
    | none =>
      obtain ⟨m₁, m₂, ha, ha₂⟩ := exists_allocs_of_insertMany hlaid hrep hfind hins
      exact insertMany_new hlaid hrep hmany hfind ha ha₂ i.object

/-- A key keeps its node through any insertions. -/
theorem nodeOf_of_insertAll (hlaid : Laid m t W) (hrep : Represents m.heap W)
    (hrun : insertAll (m, t) insertions = some (m', t')) (hx : t.nodeOf m W key = some x) :
    ∃ W', Represents m'.heap W' ∧ Laid m' t' W' ∧ t'.nodeOf m' W' key = some x := by
  induction insertions generalizing m t W with
  | nil =>
    obtain ⟨rfl, rfl⟩ := Prod.mk.inj (Option.some.inj hrun)
    exact ⟨W, hrep, hlaid, hx⟩
  | cons i insertions ih =>
    obtain ⟨⟨m₁, t₁⟩, hins, hrest⟩ := (Runs.run_cons_eq_some _).mp hrun
    obtain ⟨W₁, hrep₁, hlaid₁, hkept⟩ := kept_of_insert hlaid hrep hins
    exact ih hlaid₁ hrep₁ hrest (hkept.nodeOf hlaid hx)

/-! ## What a caller sees -/

/-- The keys and the objects. -/
def pairs (insertions : List Insertion) : List (CString × Addr) :=
  insertions.map fun i => (i.key, i.object)

/-- What the model makes of a single-valued table. -/
theorem insertAll_single {T : Cctable} {count : UInt64} (hcapacity : 1 ≤ nextPowerOf2 count)
    (hT : HashTable.insertAll (HashTable.cctableInit count false) (pairs insertions) = some T) :
    ∃ U, T = .single U ∧ FirstWins U (pairs insertions) := by
  obtain ⟨U, hU, hfirst⟩ := insertAll_firstWins (firstWins_init hcapacity) (pairs insertions)
  exact ⟨U, Option.some.inj (hT.symm.trans hU), hfirst⟩

/-- And of a multi-valued one. -/
theorem insertAll_many {T : Cctable} {count : UInt64} (hcapacity : 1 ≤ nextPowerOf2 count)
    (hT : HashTable.insertAll (HashTable.cctableInit count true) (pairs insertions) = some T) :
    ∃ U, T = .many U ∧ Histories U (pairs insertions) := by
  obtain ⟨U, hU, hhist⟩ := insertAll_histories (histories_init hcapacity) (pairs insertions)
  exact ⟨U, Option.some.inj (hT.symm.trans hU), hhist⟩

/-- The list of a key, in a table that has been filled. -/
theorem getMany_shows {T : Table (List Addr)} (h : Stores m t W (.many T))
    (hhist : Histories T (pairs insertions)) (key : CString) :
    ∃ list, cctableGetMany m t key = some list ∧
      (list = null ↔ key ∉ (pairs insertions).map Prod.fst) ∧
      (list ≠ null → ∃ cells, LinkedList.Shows m.heap list cells ∧
        cells.map m.rest.value = history (pairs insertions) key) := by
  obtain ⟨list, hget, hlist⟩ := cctableGetMany_eq h key
  refine ⟨list, hget, ?_⟩
  rw [hhist.getMany key] at hlist
  by_cases hkey : key ∈ (pairs insertions).map Prod.fst
  · rw [if_pos hkey] at hlist
    rcases hlist with ⟨-, hnone⟩ | ⟨cells, hcells, hvalues⟩
    · exact absurd hnone (by simp)
    · have hvalues := Option.some.inj (Option.some.inj hvalues)
      exact ⟨iff_of_false hcells.list_ne_null (not_not.mpr hkey),
        fun _ => ⟨cells, hcells.shows, hvalues.symm⟩⟩
  · rw [if_neg hkey] at hlist
    rcases hlist with ⟨hnull, -⟩ | ⟨cells, -, hvalues⟩
    · exact ⟨iff_of_true hnull hkey, fun hne => absurd hnull hne⟩
    · exact absurd (Option.some.inj hvalues) (by simp)

section Filled

variable {heap : Heap} {keys : Addr → CString} {values : Addr → Addr} {count : UInt64}
  {allowMultiple : Bool} {buckets : Addr} {s₀ : Mem × CctableT}

/-- **A table in memory is the map of its insertions.**  Take any memory, a table of either kind
with at least one bucket that has been made in it, and any insertions.  `cctable_get_one` returns
the first object that was inserted under a key, or `NULL`.  `cctable_get_many` returns `NULL` for a
key that was not inserted, and otherwise the address of a list; going through it, in either
direction, one finds all objects that were inserted under the key, the latest first.  And a further
insertion cannot fail, whatever else is in memory, as long as `cc_alloc` finds a place. -/
theorem cctable_lookups (hcapacity : 1 ≤ nextPowerOf2 count)
    (hinit : cctableInit (memBefore heap keys values) count allowMultiple buckets = some s₀)
    (hinsert : insertAll s₀ insertions = some (m, t)) :
    (allowMultiple = false → ∀ key, cctableGetOne m t key =
      some ((firstObject (pairs insertions) key).getD null)) ∧
    (allowMultiple = true → ∀ key, ∃ list, cctableGetMany m t key = some list ∧
      (list = null ↔ key ∉ (pairs insertions).map Prod.fst) ∧
      (list ≠ null → ∃ cells, LinkedList.Shows m.heap list cells ∧
        cells.map m.rest.value = history (pairs insertions) key)) ∧
    ∀ i : Insertion, i.HasRoom m → (cctableInsert (m, t) i).isSome := by
  obtain ⟨W₀, h₀⟩ := cctableInit_stores hcapacity hinit
  obtain ⟨W, T, hT, h⟩ := insertAll_stores h₀ hinsert
  refine ⟨?_, ?_, fun i => cctableInsert_isSome h.laid h.represents⟩
  · rintro rfl key
    obtain ⟨U, rfl, hfirst⟩ := insertAll_single hcapacity hT
    rw [cctableGetOne_eq h, hfirst.getOne]
  · rintro rfl key
    obtain ⟨U, rfl, hhist⟩ := insertAll_many hcapacity hT
    exact getMany_shows h hhist key

/-- **The list of a key stays where it is.**  A list that `cctable_get_many` has returned is still
the list of its key after any further insertions, under this key or others, and shows them. -/
theorem cctable_get_many_stays (hcapacity : 1 ≤ nextPowerOf2 count)
    (hinit : cctableInit (memBefore heap keys values) count true buckets = some s₀)
    (hinsert : insertAll s₀ insertions = some (m, t)) (hget : cctableGetMany m t key = some list)
    (hlist : list ≠ null) {more : List Insertion} (hmore : insertAll (m, t) more = some (m', t')) :
    cctableGetMany m' t' key = some list ∧ ∃ cells, LinkedList.Shows m'.heap list cells ∧
      cells.map m'.rest.value = history (pairs (insertions ++ more)) key := by
  obtain ⟨W₀, h₀⟩ := cctableInit_stores hcapacity hinit
  obtain ⟨W, T, hT, h⟩ := insertAll_stores h₀ hinsert
  have hall := (Runs.run_append_eq_some cctableInsert).mpr ⟨_, hinsert, hmore⟩
  obtain ⟨V, U, hU, h'⟩ := insertAll_stores h₀ hall
  obtain ⟨U, rfl, hhist⟩ := insertAll_many hcapacity hU
  have hstays : cctableGetMany m' t' key = some list := by
    obtain ⟨-, hget⟩ := ccassert_eq_some.mp hget
    rw [search_eq h.laid h.represents, Option.bind_some] at hget
    cases hnode : t.nodeOf m W key with
    | none =>
      rw [hnode] at hget
      exact absurd (Option.some.inj hget).symm hlist
    | some x =>
      rw [hnode] at hget
      obtain ⟨V', hrep', hlaid', hnode'⟩ := nodeOf_of_insertAll h.laid h.represents hmore hnode
      rw [cctableGetMany, ccassert_pos h'.shows.1, search_eq hlaid' hrep', hnode']
      exact hget
  obtain ⟨list', hget', -, hshows⟩ := getMany_shows h' hhist key
  obtain rfl := Option.some.inj (hget'.symm.trans hstays)
  exact ⟨hstays, hshows hlist⟩

end Filled

/-- A table with two keys of one bucket, one of which gets another object. -/
theorem exists_filled : ∃ s₀ m t m' t',
    cctableInit (memBefore ⟨fun _ => 7, fun _ => 7, fun _ => 7, fun _ => 7⟩
      (fun _ => ⟨[], List.not_mem_nil⟩) fun _ => 7) 1 true 1000 = some s₀ ∧
    insertAll s₀ [⟨⟨[97], by decide⟩, 10, 2000, 3000⟩, ⟨⟨[98], by decide⟩, 20, 2100, 3100⟩] =
      some (m, t) ∧
    cctableGetMany m t ⟨[97], by decide⟩ = some 2000 ∧
    insertAll (m, t) [⟨⟨[97], by decide⟩, 30, 2200, 3200⟩] = some (m', t') := by
  have hsome : ((cctableInit (memBefore ⟨fun _ => 7, fun _ => 7, fun _ => 7, fun _ => 7⟩
      (fun _ => ⟨[], List.not_mem_nil⟩) fun _ => 7) 1 true 1000).bind fun s₀ =>
      (insertAll s₀ [⟨⟨[97], by decide⟩, 10, 2000, 3000⟩,
        ⟨⟨[98], by decide⟩, 20, 2100, 3100⟩]).bind fun s =>
      if cctableGetMany s.1 s.2 ⟨[97], by decide⟩ = some 2000 then
        insertAll s [⟨⟨[97], by decide⟩, 30, 2200, 3200⟩] else none).isSome = true := by
    decide +kernel
  obtain ⟨⟨m', t'⟩, hs⟩ := Option.isSome_iff_exists.mp hsome
  obtain ⟨s₀, hinit, hs⟩ := Option.bind_eq_some_iff.mp hs
  obtain ⟨⟨m, t⟩, hinsert, hs⟩ := Option.bind_eq_some_iff.mp hs
  obtain ⟨hget, hmore⟩ := Option.ite_none_right_eq_some.mp hs
  exact ⟨s₀, m, t, m', t', hinit, hinsert, hget, hmore⟩

/-- The key that comes first in the bucket is not the one that is looked for. -/
theorem cctable_lookups_two_keys : ∃ m t list cells,
    cctableGetMany m t ⟨[97], by decide⟩ = some list ∧ LinkedList.Shows m.heap list cells ∧
      cells.map m.rest.value = [10] := by
  obtain ⟨s₀, m, t, -, -, hinit, hinsert, hget, -⟩ := exists_filled
  obtain ⟨list, hlist, -, hshows⟩ :=
    (cctable_lookups (by decide) hinit hinsert).2.1 rfl ⟨[97], by decide⟩
  obtain rfl := Option.some.inj (hlist.symm.trans hget)
  obtain ⟨cells, hcells, hvalues⟩ := hshows (by decide)
  exact ⟨m, t, _, cells, hget, hcells, hvalues.trans (by decide +kernel)⟩

/-- The list has got its second object. -/
theorem cctable_get_many_stays_two_objects : ∃ m t cells,
    cctableGetMany m t ⟨[97], by decide⟩ = some 2000 ∧ LinkedList.Shows m.heap 2000 cells ∧
      cells.map m.rest.value = [30, 10] := by
  obtain ⟨s₀, m, t, m', t', hinit, hinsert, hget, hmore⟩ := exists_filled
  obtain ⟨hstays, cells, hcells, hvalues⟩ :=
    cctable_get_many_stays (by decide) hinit hinsert hget (by decide) hmore
  exact ⟨m', t', cells, hstays, hcells, hvalues.trans (by decide +kernel)⟩

end InMemory
end HashTable
end CCore
