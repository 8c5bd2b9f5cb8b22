import CCore.HashTable.Layout

/-!
# Insertion in memory

`Shows` reads a table off the memory: the nodes of its buckets in the order of the lists, each
with its key and with one value or several.  `Stores` is the state of a table that has been made
and filled: besides, the blocks lie as they should, and everything that was allocated is in use.

`cctableInit_stores` says that `cctable_init` begins with the empty table, and
`cctableInsert_stores` is the simulation: an insertion in memory does to the table that the memory
shows what the insertion of the model does.
-/

namespace CCore
namespace HashTable
namespace InMemory

open CircularLinks LinkedList KeyedBuckets

variable {m m₁ : Mem} {t : CctableT} {W W' : World} {list x z : Addr} {size j : ℕ}

/-! ## The writes -/

theorem represents_setSize {heap : Heap} {a value : Addr} (h : Represents heap W)
    (ha : W a = none) : Represents (heap.setSize a value) W := by
  refine ⟨fun list c hc => ?_, h.disjoint⟩
  have hlist : list ≠ a := fun he => by
    rw [he, ha] at hc
    cases hc
  exact (h.holds list c hc).congr (fun _ _ => ⟨rfl, rfl⟩) (Function.update_of_ne hlist ..) rfl

/-- `cclist_insert_first`, of an object that is in no list. -/
theorem insertFirst_represents {c : Content} {object : Addr} (h : Represents m.heap W)
    (hlist : W list = some c) (hobject : object ≠ null) (hfree : W.Free (object + c.offset)) :
    ∃ heap, insertFirst m list object = some { m with heap := heap } ∧
      Represents heap (Function.update W list (some ⟨c.offset, object :: c.objects⟩)) ∧
      ∀ x, x ≠ list → heap.size x = m.heap.size x := by
  have hlegal : W.Legal (.insertFirst list object) := ⟨c, hlist, hobject, hfree⟩
  obtain ⟨heap, hheap, hrep, -⟩ := exec_represents h hlegal
  rw [World.exec_eq (by nofun) hlist] at hrep
  have hheap : cclistInsertFirst m.heap list object = some heap := hheap
  refine ⟨heap, ?_, hrep, fun x hx => ?_⟩
  · rw [insertFirst, hheap, Option.map_some]
  · rw [cclistInsertFirst, ccassert_pos (h.holds _ _ hlist).list_ne_null] at hheap
    rw [← Option.some.inj hheap, cclistDoInsertAfter_size, Function.update_of_ne hx]

/-- `cclist_init`, at a place that is in no list. -/
theorem initList_represents (h : Represents m.heap W) (hlist : list ≠ null)
    (hfree : W.Free (headOf list)) (offset : UInt64) :
    ∃ heap, initList m list offset = some { m with heap := heap } ∧
      Represents heap (Function.update W list (some ⟨offset, []⟩)) := by
  have hlegal : W.Legal (.init list offset) := ⟨hlist, fun other c hc _ => hfree other c hc⟩
  obtain ⟨heap, hheap, hrep, -⟩ := exec_represents h hlegal
  have hheap : cclistInit m.heap list offset = some heap := hheap
  refine ⟨heap, ?_, hrep⟩
  rw [initList, hheap, Option.map_some]

/-- The search of a bucket finds its first node with the key. -/
theorem searchBucket_eq (h : Laid m t W) (hrep : Represents m.heap W)
    (hj : j < t.capacity.toNat) (key : CString) :
    searchBucket m (t.bucketAt j) key =
      some ((t.nodesAt W j).find? fun x => key = m.rest.key x) := by
  have hholds := hrep.holds _ _ (h.nodesAt_eq hj)
  rw [searchBucket, hholds.cclistFirst_eq, Option.bind_some]
  exact findTo_eq _ hholds.isChain_cclistNext hholds.null_notMem hholds.size_toNat.ge

section Writes

variable (h : Laid m t W) (hrep : Represents m.heap W) (ha : m.Allocated z size m₁)
include h hrep ha

/-- **A node with one value.** -/
theorem insertNode_single (hsingle : t.allowMultiple = false) (hsize : 48 ≤ size)
    (hj : j < t.capacity.toNat) (key : CString) (object : Addr) :
    ∃ heap, insertFirst (setOneValue (setKey m₁ z key) z object) (t.bucketAt j) z =
        some { setKey m₁ z key with heap := heap } ∧
      Represents heap (withNode t W j z) ∧ heap.size z = object ∧
      ∀ x ∈ t.nodes W, heap.size x = m.heap.size x := by
  have hz : W z = none := h.eq_none ha (Nat.le_trans (by decide) hsize)
  have hzj : z ≠ t.bucketAt j := h.ne_bucketAt_of_eq_none hz hj
  have hrep₁ : Represents (setOneValue (setKey m₁ z key) z object).heap W :=
    represents_setSize (ha.heap ▸ hrep) hz
  obtain ⟨heap, hheap, hrep', hsizes⟩ := insertFirst_represents hrep₁ (h.nodesAt_eq hj)
    ha.hasBlock.ne_null (h.free ha ((show (32 : UInt64).toNat < 48 by decide).trans_le hsize))
  refine ⟨heap, hheap, ?_, ?_, fun x hx => ?_⟩
  · rw [withNode, hsingle]
    exact hrep'
  · rw [hsizes z hzj]
    exact Function.update_self ..
  · have hxz : x ≠ z := fun he => h.notMem_nodes ha (he ▸ hx)
    rw [hsizes x (h.ne_bucketAt hx hj), ← ha.heap]
    exact Function.update_of_ne hxz ..

/-- **A node with a list of values**, which is empty. -/
theorem insertNode_many (hmany : t.allowMultiple = true) (hsize : 48 ≤ size)
    (hj : j < t.capacity.toNat) (key : CString) :
    ∃ heap₁ heap, initList (setKey m₁ z key) z 8 = some { setKey m₁ z key with heap := heap₁ } ∧
      insertFirst { setKey m₁ z key with heap := heap₁ } (t.bucketAt j) z =
        some { setKey m₁ z key with heap := heap } ∧
      Represents heap (withNode t W j z) := by
  have hz : W z = none := h.eq_none ha (Nat.le_trans (by decide) hsize)
  have hzj : z ≠ t.bucketAt j := h.ne_bucketAt_of_eq_none hz hj
  have hrep₁ : Represents (setKey m₁ z key).heap W := ha.heap ▸ hrep
  have hhead : W.Free (z + 8) := h.free ha ((show (8 : UInt64).toNat < 48 by decide).trans_le hsize)
  have hnode : W.Free (z + 32) :=
    h.free ha ((show (32 : UInt64).toNat < 48 by decide).trans_le hsize)
  obtain ⟨heap₁, hheap₁, hrep₂⟩ := initList_represents hrep₁ ha.hasBlock.ne_null hhead 8
  have hapart : z + 32 ∉ places z ⟨8, []⟩ := fun hmem => by
    rw [places_mk, List.map_nil, List.mem_singleton, headOf] at hmem
    exact absurd (UInt64.add_right_inj z |>.mp hmem) (by decide)
  have hlist : Function.update W z (some ⟨8, []⟩) (t.bucketAt j) = some ⟨32, t.nodesAt W j⟩ := by
    rw [Function.update_of_ne hzj.symm]
    exact h.nodesAt_eq hj
  have hrep₂ : Represents ({ setKey m₁ z key with heap := heap₁ } : Mem).heap
      (Function.update W z (some ⟨8, []⟩)) := hrep₂
  obtain ⟨heap, hheap, hrep', -⟩ := insertFirst_represents hrep₂ hlist ha.hasBlock.ne_null
    (hnode.update hapart)
  refine ⟨heap₁, heap, hheap₁, hheap, ?_⟩
  rw [withNode, hmany]
  exact hrep'

/-- **A value of a node.** -/
theorem insertValue_many (hmany : t.allowMultiple = true) (hsize : 24 ≤ size)
    (hx : x ∈ t.nodes W) (object : Addr) :
    ∃ heap, insertFirst (setValue m₁ z object) x z =
        some { setValue m₁ z object with heap := heap } ∧
      Represents heap (withValue W x z) := by
  have hrep₁ : Represents (setValue m₁ z object).heap W := ha.heap ▸ hrep
  obtain ⟨heap, hheap, hrep', -⟩ := insertFirst_represents hrep₁ (h.list_of_node hmany hx)
    ha.hasBlock.ne_null (h.free ha ((show (8 : UInt64).toNat < 24 by decide).trans_le hsize))
  exact ⟨heap, hheap, hrep'⟩

end Writes

/-! ## What the memory shows -/

/-- A node, read with `one_value`. -/
def oneNode (m : Mem) (x : Addr) : CcbucketNode Addr := ⟨m.rest.key x, oneValue m x⟩

/-- A node, read with `many_values`. -/
def manyNode (m : Mem) (W : World) (x : Addr) : CcbucketNode (List Addr) :=
  ⟨m.rest.key x, (objectsOf W x).map m.rest.value⟩

theorem oneNode_eq {key : CString} {object : Addr} (hkey : m.rest.key x = key)
    (hobject : oneValue m x = object) : oneNode m x = ⟨key, object⟩ := by
  rw [oneNode, hkey, hobject]

theorem manyNode_eq {key : CString} {objects : List Addr} (hkey : m.rest.key x = key)
    (hobjects : (objectsOf W x).map m.rest.value = objects) :
    manyNode m W x = ⟨key, objects⟩ := by
  rw [manyNode, hkey, hobjects]

variable {β : Type} {view view' : Addr → CcbucketNode β} {T : Table β}

/-- The table `T` is what one reads off the lists, with `view` for the nodes. -/
structure ShowsAs (t : CctableT) (W : World) (view : Addr → CcbucketNode β) (T : Table β) :
    Prop where
  capacity : T.capacity = t.capacity
  size : t.size = UInt64.ofNat T.size
  buckets : T.buckets = (List.range t.capacity.toNat).map fun i => (t.nodesAt W i).map view

/-- **The table that the memory shows.** -/
def Shows (m : Mem) (t : CctableT) (W : World) : Cctable → Prop
  | .single T => t.allowMultiple = false ∧ ShowsAs t W (oneNode m) T
  | .many T => t.allowMultiple = true ∧ ShowsAs t W (manyNode m W) T

namespace ShowsAs

theorem bucket (h : ShowsAs t W view T) {key : CString}
    (hj : bucketIdx t.capacity key < t.capacity.toNat) :
    T.bucket key = some ((t.nodesAt W (bucketIdx t.capacity key)).map view) := by
  rw [Table.bucket, h.capacity, h.buckets, List.getElem?_map, List.getElem?_range hj,
    Option.map_some]

/-- **One bucket is changed**, and the table has grown. -/
theorem set (h : ShowsAs t W view T) (key : CString)
    (hother : ∀ i < t.capacity.toNat, i ≠ bucketIdx t.capacity key →
      (t.nodesAt W' i).map view' = (t.nodesAt W i).map view) :
    ShowsAs { t with size := t.size + 1 } W' view'
      { T.setBucket key ((t.nodesAt W' (bucketIdx t.capacity key)).map view') with
        size := T.size + 1 } := by
  refine ⟨h.capacity, ?_, ?_⟩
  · rw [h.size, UInt64.ofNat_add]
    rfl
  · rw [Table.setBucket, h.capacity, h.buckets]
    refine List.ext_getElem (by simp) fun i hi hi' => ?_
    have hlt : i < t.capacity.toNat := by simpa using hi'
    rw [List.getElem_set, List.getElem_map, List.getElem_map, List.getElem_range]
    split
    · rename_i hij
      rw [hij]
      rfl
    · rename_i hij
      exact (hother i hlt (Ne.symm hij)).symm

/-- **A new node**, with the nodes that were there as they were. -/
theorem pushNode (h : ShowsAs t W view T) (hlaid : Laid m t W) (hz : W z = none) {key : CString}
    (hj : bucketIdx t.capacity key < t.capacity.toNat)
    (hnodes : ∀ i < t.capacity.toNat,
      t.nodesAt W' i = t.nodesAt (withNode t W (bucketIdx t.capacity key) z) i)
    (hview : ∀ x ∈ t.nodes W, view' x = view x) :
    ShowsAs { t with size := t.size + 1 } W' view'
      { T.setBucket key (view' z :: (t.nodesAt W (bucketIdx t.capacity key)).map view) with
        size := T.size + 1 } := by
  have hmap : ∀ i < t.capacity.toNat, (t.nodesAt W i).map view' = (t.nodesAt W i).map view :=
    fun i hi => List.map_congr_left fun x hx => hview x (CctableT.mem_nodes.mpr ⟨i, hi, hx⟩)
  have hbucket : (t.nodesAt W' (bucketIdx t.capacity key)).map view' =
      view' z :: (t.nodesAt W (bucketIdx t.capacity key)).map view := by
    rw [hnodes _ hj, CctableT.nodesAt, objectsOf_eq withNode_bucket, List.map_cons, hmap _ hj]
  rw [← hbucket]
  refine h.set key fun i hi hij => ?_
  rw [hnodes i hi, CctableT.nodesAt, objectsOf_withNode hz (hlaid.bucketAt_ne hi hj hij)]
  exact hmap i hi

/-- **A changed node**, which is the first one with the key. -/
theorem update (h : ShowsAs t W view T) (hlaid : Laid m t W) {key : CString}
    {f : CcbucketNode β → CcbucketNode β} (hj : bucketIdx t.capacity key < t.capacity.toNat)
    (hfind : (t.nodesAt W (bucketIdx t.capacity key)).find? (fun x => key = (view x).key) = some x)
    (hx : view' x = f (view x)) (hview : ∀ y ∈ t.nodes W, y ≠ x → view' y = view y) :
    ∃ bucket, updateFirst (fun node => key = node.key) f
        ((t.nodesAt W (bucketIdx t.capacity key)).map view) = some bucket ∧
      ShowsAs { t with size := t.size + 1 } (withValue W x z) view'
        { T.setBucket key bucket with size := T.size + 1 } := by
  have hmem := List.mem_of_find?_eq_some hfind
  have hnode : x ∈ t.nodes W := CctableT.mem_nodes.mpr ⟨_, hj, hmem⟩
  have hsame : ∀ i < t.capacity.toNat, ∀ y ∈ t.nodesAt W i, y ≠ x → view' y = view y :=
    fun i hi y hy => hview y (CctableT.mem_nodes.mpr ⟨i, hi, hy⟩)
  refine ⟨_, updateFirst_map (hlaid.nodup_nodesAt hj) hfind hx (hsame _ hj), ?_⟩
  rw [← hlaid.nodesAt_withValue (z := z) hnode hj]
  refine h.set key fun i hi hij => ?_
  rw [hlaid.nodesAt_withValue hnode hi]
  refine List.map_congr_left fun y hy => hsame i hi y hy fun he => ?_
  exact hlaid.notMem_nodesAt hi hj hij hmem (he ▸ hy)

end ShowsAs

/-- **The memory of a table that has been filled.**  Nothing has been freed and no destructor
called. -/
structure Stores (m : Mem) (t : CctableT) (W : World) (T : Cctable) : Prop where
  represents : Represents m.heap W
  laid : Laid m t W
  shows : Shows m t W T
  allocated : m.allocated.Perm m.starts
  freed : m.freed = []
  destroyed : m.rest.destroyed = []

/-! ## The simulation -/

/-- An allocation that succeeds. -/
theorem exists_allocated {α : Type} {m : Mem} {size : ℕ} {ptr : Addr} {f : Mem → Option α} {s : α}
    (hsize : size ≠ 0) (h : (ccAlloc m size ptr).bind f = some s) :
    ∃ m₁, m.Allocated ptr size m₁ ∧ f m₁ = some s := by
  obtain ⟨m₁, halloc, hf⟩ := Option.bind_eq_some_iff.mp h
  exact ⟨m₁, allocated_of_ccAlloc hsize halloc, hf⟩

/-- The keys, when a new node has got its own. -/
theorem keys_setKey (h : Laid m t W) (ha : m.Allocated z size m₁) (key : CString) :
    (setKey m₁ z key).rest.key z = key ∧
      ∀ x ∈ t.nodes W, (setKey m₁ z key).rest.key x = m.rest.key x := by
  refine ⟨Function.update_self .., fun x hx => ?_⟩
  have hne : x ≠ z := fun he => h.notMem_nodes ha (he ▸ hx)
  exact (Function.update_of_ne hne ..).trans (congrFun (congrArg Contents.key ha.rest) x)

variable {m' : Mem} {t' : CctableT} {key : CString} {object newNode newValue : Addr}

/-- **An insertion into a single-valued table.** -/
theorem cctableInsertSingle_stores {T : Table Addr} (h : Stores m t W (.single T))
    (hi : cctableInsertSingle m t key object newNode = some (m', t')) :
    ∃ W' T', HashTable.cctableInsertSingle T key object = some T' ∧
      Stores m' t' W' (.single T') := by
  obtain ⟨hrep, hlaid, ⟨hsingle, hshows⟩, hallocated, hfreed, hdestroyed⟩ := h
  have hj := bucketIdx_lt hlaid.capacity_pos key
  rw [cctableInsertSingle, searchBucket_eq hlaid hrep hj, Option.bind_some] at hi
  rw [HashTable.cctableInsertSingle, hshows.bucket hj, Option.map_some]
  cases hfind : (t.nodesAt W (bucketIdx t.capacity key)).find? fun x => key = m.rest.key x with
  | some x =>
    -- the key is there, and nothing is done
    rw [hfind] at hi
    cases hi
    have hmem := List.mem_of_find?_eq_some hfind
    have hkey := List.find?_some hfind
    have hany : ((t.nodesAt W (bucketIdx t.capacity key)).map (oneNode m)).any
        (fun node => key = node.key) = true :=
      List.any_eq_true.mpr ⟨_, List.mem_map_of_mem hmem, hkey⟩
    rw [if_pos hany]
    exact ⟨W, T, rfl, hrep, hlaid, ⟨hsingle, hshows⟩, hallocated, hfreed, hdestroyed⟩
  | none =>
    rw [hfind] at hi
    obtain ⟨m₁, ha, hi⟩ := exists_allocated (Nat.succ_ne_zero _) hi
    have hsize : 48 ≤ 48 + key.chars.length + 1 :=
      (Nat.le_add_right _ _).trans (Nat.le_add_right _ _)
    obtain ⟨heap, hheap, hrep', hone, hold⟩ :=
      insertNode_single hlaid hrep ha hsingle hsize hj key object
    dsimp only at hi
    rw [hheap, Option.map_some] at hi
    cases hi
    have hany : ¬((t.nodesAt W (bucketIdx t.capacity key)).map (oneNode m)).any
        (fun node => key = node.key) = true := by
      intro hany
      obtain ⟨node, hnode, hkey⟩ := List.any_eq_true.mp hany
      obtain ⟨x, hx, rfl⟩ := List.mem_map.mp hnode
      exact List.find?_eq_none.mp hfind x hx hkey
    rw [if_neg hany]
    have hkeys := keys_setKey hlaid ha key
    have hview : ∀ x ∈ t.nodes W, oneNode { setKey m₁ newNode key with heap := heap } x =
        oneNode m x := fun x hx => oneNode_eq (hkeys.2 x hx) (hold x hx)
    have hnew : oneNode { setKey m₁ newNode key with heap := heap } newNode = ⟨key, object⟩ :=
      oneNode_eq hkeys.1 hone
    have hset := hshows.pushNode hlaid (hlaid.eq_none ha (Nat.le_trans (by decide) hsize)) hj
      (fun _ _ => rfl) hview
    rw [hnew] at hset
    exact ⟨_, _, rfl, hrep', (hlaid.pushNode ha hsize hj).grow.of_blocks rfl, ⟨hsingle, hset⟩,
      ha.perm_starts hallocated, ha.freed.trans hfreed,
      (congrArg Contents.destroyed ha.rest).trans hdestroyed⟩

/-- The nodes, when one of them has got a new value. -/
theorem manyNode_withValue (h : Laid m t W) (ha : m.Allocated z size m₁) (hx : x ∈ t.nodes W)
    (object : Addr) (heap : Heap) :
    manyNode { setValue m₁ z object with heap := heap } (withValue W x z) x =
        CcbucketNode.insertValue object (manyNode m W x) ∧
      ∀ y ∈ t.nodes W, y ≠ x →
        manyNode { setValue m₁ z object with heap := heap } (withValue W x z) y =
          manyNode m W y := by
  have hnew : (setValue m₁ z object).rest.value z = object := Function.update_self ..
  have hold : ∀ y ∈ t.nodes W, (objectsOf W y).map (setValue m₁ z object).rest.value =
      (objectsOf W y).map m.rest.value := fun y hy => by
    refine List.map_congr_left fun v hv => ?_
    have hne : v ≠ z := fun he => ha.start_fresh (he ▸ h.value_mem_starts hy hv)
    exact (Function.update_of_ne hne ..).trans (congrFun (congrArg Contents.value ha.rest) v)
  have hkeys : ∀ y, (setValue m₁ z object).rest.key y = m.rest.key y := fun y =>
    congrFun (congrArg Contents.key ha.rest) y
  refine ⟨manyNode_eq (hkeys x) ?_, fun y hy hyx => manyNode_eq (hkeys y) ?_⟩
  · rw [objectsOf_eq withValue_self, List.map_cons]
    exact congr (congrArg List.cons hnew) (hold x hx)
  · rw [objectsOf_congr (withValue_of_ne hyx)]
    exact hold y hy

/-- The nodes, when one more has been linked, which has no value yet. -/
theorem manyNode_withNode (h : Laid m t W) (ha : m.Allocated z size m₁) (hz : W z = none)
    (hj : j < t.capacity.toNat) (key : CString) (heap : Heap) :
    manyNode { setKey m₁ z key with heap := heap } (withNode t W j z) z = ⟨key, []⟩ ∧
      ∀ x ∈ t.nodes W, manyNode { setKey m₁ z key with heap := heap } (withNode t W j z) x =
        manyNode m W x := by
  obtain ⟨hkey, hkeys⟩ := keys_setKey h ha key
  have hvalues : m₁.rest.value = m.rest.value := congrArg Contents.value ha.rest
  refine ⟨manyNode_eq hkey ?_, fun x hx => manyNode_eq (hkeys x hx) ?_⟩
  · rw [objectsOf_withNode hz (h.ne_bucketAt_of_eq_none hz hj), objectsOf_of_none hz, List.map_nil]
  · rw [objectsOf_congr (h.withNode_of_mem ha hx hj)]
    exact congrArg (List.map · (objectsOf W x)) hvalues

/-- The values that `value_many_new` allocates. -/
theorem exists_valueManyNew {α : Type} {f : Mem → Option α} {s : α}
    (h : (valueManyNew m object newValue).bind f = some s) :
    ∃ m₁, m.Allocated newValue 24 m₁ ∧ f (setValue m₁ newValue object) = some s := by
  rw [valueManyNew, Option.bind_map] at h
  exact exists_allocated (by decide) h

/-- **An insertion into a multi-valued table.** -/
theorem cctableInsertMany_stores {T : Table (List Addr)} (h : Stores m t W (.many T))
    (hi : cctableInsertMany m t key object newNode newValue = some (m', t')) :
    ∃ W' T', HashTable.cctableInsertMany T key object = some T' ∧
      Stores m' t' W' (.many T') := by
  obtain ⟨hrep, hlaid, ⟨hmany, hshows⟩, hallocated, hfreed, hdestroyed⟩ := h
  have hj := bucketIdx_lt hlaid.capacity_pos key
  rw [cctableInsertMany, searchBucket_eq hlaid hrep hj, Option.bind_some] at hi
  rw [HashTable.cctableInsertMany, hshows.bucket hj, Option.map_some]
  cases hfind : (t.nodesAt W (bucketIdx t.capacity key)).find? fun x => key = m.rest.key x with
  | some x =>
    -- the key has a node, which gets one more value
    rw [hfind] at hi
    have hx : x ∈ t.nodes W := CctableT.mem_nodes.mpr ⟨_, hj, List.mem_of_find?_eq_some hfind⟩
    obtain ⟨m₁, ha, hi⟩ := exists_valueManyNew hi
    obtain ⟨heap, hheap, hrep'⟩ := insertValue_many hlaid hrep ha hmany le_rfl hx object
    rw [hheap, Option.map_some] at hi
    cases hi
    obtain ⟨hself, hother⟩ := manyNode_withValue hlaid ha hx object heap
    obtain ⟨bucket, hbucket, hset⟩ := hshows.update (z := newValue) hlaid hj hfind hself hother
    rw [hbucket]
    exact ⟨_, _, rfl, hrep', (hlaid.pushValue hmany hx ha le_rfl).grow.of_blocks rfl, ⟨hmany, hset⟩,
      ha.perm_starts hallocated, ha.freed.trans hfreed,
      (congrArg Contents.destroyed ha.rest).trans hdestroyed⟩
  | none =>
    rw [hfind] at hi
    obtain ⟨m₁, ha, hi⟩ := exists_allocated (Nat.succ_ne_zero _) hi
    have hsize : 48 ≤ 48 + key.chars.length + 1 :=
      (Nat.le_add_right _ _).trans (Nat.le_add_right _ _)
    obtain ⟨heap₁, heap₂, hinit, hfirst, hrep₂⟩ := insertNode_many hlaid hrep ha hmany hsize hj key
    dsimp only at hi
    rw [hinit, Option.bind_some, hfirst, Option.bind_some] at hi
    obtain ⟨m₃, ha₃, hi⟩ := exists_valueManyNew hi
    have hz : W newNode = none := hlaid.eq_none ha (Nat.le_trans (by decide) hsize)
    have hlaid₂ : Laid { setKey m₁ newNode key with heap := heap₂ } t _ :=
      (hlaid.pushNode ha hsize hj).of_blocks rfl
    have hnode : newNode ∈ t.nodes (withNode t W (bucketIdx t.capacity key) newNode) :=
      (hlaid.nodes_withNode hz hj).mem_iff.mpr List.mem_cons_self
    obtain ⟨heap, hheap, hrep'⟩ := insertValue_many hlaid₂ hrep₂ ha₃ hmany le_rfl hnode object
    rw [hheap, Option.map_some] at hi
    cases hi
    have hfound : updateFirst (fun node => key = node.key) (CcbucketNode.insertValue object)
        ((t.nodesAt W (bucketIdx t.capacity key)).map (manyNode m W)) = none := by
      refine updateFirst_of_eq_false fun node hmem => ?_
      obtain ⟨x, hx, rfl⟩ := List.mem_map.mp hmem
      exact Bool.eq_false_of_not_eq_true (List.find?_eq_none.mp hfind x hx)
    rw [hfound]
    obtain ⟨hempty, hlinked⟩ := manyNode_withNode hlaid ha hz hj key heap₂
    obtain ⟨hself, hother⟩ := manyNode_withValue hlaid₂ ha₃ hnode object heap
    have hcalls : m₁.rest.destroyed = m.rest.destroyed := congrArg Contents.destroyed ha.rest
    have hview : ∀ x ∈ t.nodes W,
        manyNode { setValue m₃ newValue object with heap := heap }
          (withValue (withNode t W (bucketIdx t.capacity key) newNode) newNode newValue) x =
            manyNode m W x := fun x hx => by
      have hne : x ≠ newNode := fun he => hlaid.notMem_nodes ha (he ▸ hx)
      have hmem := (hlaid.nodes_withNode hz hj).mem_iff.mpr (List.mem_cons_of_mem _ hx)
      exact (hother x hmem hne).trans (hlinked x hx)
    have hset := hshows.pushNode hlaid hz hj
      (fun i hi => hlaid₂.nodesAt_withValue (z := newValue) hnode hi) hview
    rw [hself, hempty] at hset
    exact ⟨_, _, rfl, hrep', (hlaid₂.pushValue hmany hnode ha₃ le_rfl).grow.of_blocks rfl,
      ⟨hmany, hset⟩, ha₃.perm_starts (ha.perm_starts hallocated),
      (ha₃.freed.trans ha.freed).trans hfreed,
      (congrArg Contents.destroyed ha₃.rest).trans (hcalls.trans hdestroyed)⟩

/-! ## The empty table -/

/-- The lists of the first `n` buckets, which are empty. -/
def emptyBuckets (t : CctableT) (n : ℕ) : World := fun list =>
  if list ∈ (List.range n).map t.bucketAt then some ⟨32, []⟩ else none

theorem emptyBuckets_eq_some {n : ℕ} {c : Content} (h : emptyBuckets t n list = some c) :
    c = ⟨32, []⟩ ∧ ∃ i < n, list = t.bucketAt i := by
  obtain ⟨hmem, hc⟩ := Option.ite_none_right_eq_some.mp h
  obtain ⟨i, hi, rfl⟩ := List.mem_map.mp hmem
  exact ⟨(Option.some.inj hc).symm, i, List.mem_range.mp hi, rfl⟩

theorem emptyBuckets_bucketAt {n i : ℕ} (hi : i < n) :
    emptyBuckets t n (t.bucketAt i) = some ⟨32, []⟩ :=
  if_pos (List.mem_map_of_mem (List.mem_range.mpr hi))

theorem objectsOf_emptyBuckets (n : ℕ) : objectsOf (emptyBuckets t n) list = [] := by
  cases h : emptyBuckets t n list with
  | none => exact objectsOf_of_none h
  | some c =>
    rw [objectsOf_eq h, (emptyBuckets_eq_some h).1]

theorem emptyBuckets_succ (t : CctableT) (n : ℕ) :
    emptyBuckets t (n + 1) =
      Function.update (emptyBuckets t n) (t.bucketAt n) (some ⟨32, []⟩) := by
  funext list
  by_cases hlist : list = t.bucketAt n
  · rw [hlist, Function.update_self]
    exact emptyBuckets_bucketAt n.lt_succ_self
  · rw [Function.update_of_ne hlist, emptyBuckets, List.range_succ, List.map_append,
      List.map_singleton]
    refine if_congr ?_ rfl rfl
    rw [List.mem_append, List.mem_singleton, or_iff_left hlist]

/-- **The loop of `cctable_init`.** -/
theorem foldlM_initBucket {m m' : Mem} {n : ℕ}
    (h : (List.range n).foldlM (initBucket t) m = some m') :
    ∃ heap, m' = { m with heap := heap } ∧ Represents heap (emptyBuckets t n) ∧
      ∀ i < n, m.Accessible (t.bucketAt i) 32 := by
  induction n generalizing m' with
  | zero =>
    cases h
    exact ⟨m.heap, rfl, represents_empty m.heap, fun i hi => absurd hi (Nat.not_lt_zero i)⟩
  | succ n ih =>
    rw [List.range_succ, List.foldlM_append] at h
    obtain ⟨m₁, hm₁, h⟩ := Option.bind_eq_some_iff.mp h
    obtain ⟨heap₁, rfl, hrep, haccess⟩ := ih hm₁
    rw [List.foldlM_cons] at h
    obtain ⟨m₂, hm₂, h⟩ := Option.bind_eq_some_iff.mp h
    cases h
    obtain ⟨hin, hinit⟩ := Option.ite_none_right_eq_some.mp hm₂
    obtain ⟨heap₂, hheap₂, rfl⟩ := Option.map_eq_some_iff.mp hinit
    obtain ⟨hlist, -⟩ := ccassert_eq_some.mp hheap₂
    have hlegal : (emptyBuckets t n).Legal (.init (t.bucketAt n) 32) := by
      refine ⟨hlist, fun other c hc hother hmem => ?_⟩
      obtain ⟨rfl, -⟩ := emptyBuckets_eq_some hc
      rw [places_mk, List.map_nil, List.mem_singleton] at hmem
      exact hother ((UInt64.add_left_inj 8).mp hmem).symm
    obtain ⟨heap₃, hheap₃, hrep₃, -⟩ := exec_represents hrep hlegal
    obtain rfl : heap₂ = heap₃ := Option.some.inj (hheap₂.symm.trans hheap₃)
    refine ⟨heap₂, rfl, ?_, fun i hi => ?_⟩
    · rw [emptyBuckets_succ]
      exact hrep₃
    · rcases Nat.lt_succ_iff_lt_or_eq.mp hi with hi | rfl
      · exact haccess i hi
      · exact hin

/-- If every bucket is in use then the size of the array has not wrapped: a bucket that lies
right before the array would be among them. -/
theorem size_array {b : Block} (hstart : b.start = t.buckets)
    (hsize : b.size = (t.capacity * 32).toNat)
    (hcover : ∀ i < t.capacity.toNat, b.Covers (t.bucketAt i) 32) :
    32 * t.capacity.toNat ≤ b.size := by
  have h32 : (32 : UInt64).toNat = 32 := rfl
  have hb : b.size = t.capacity.toNat * 32 % 2 ^ 64 := by
    rw [hsize, UInt64.toNat_mul, h32]
  by_cases hwrap : t.capacity.toNat * 32 < 2 ^ 64
  · rw [hb, Nat.mod_eq_of_lt hwrap, Nat.mul_comm]
  · have hlast : 2 ^ 59 - 1 < t.capacity.toNat := by omega
    obtain ⟨hle, hin⟩ := hcover _ hlast
    have haddr : (t.bucketAt (2 ^ 59 - 1)).toNat = (t.buckets.toNat + (2 ^ 64 - 32)) % 2 ^ 64 :=
      UInt64.toNat_add ..
    have hstart' : b.start.toNat = t.buckets.toNat := congrArg UInt64.toNat hstart
    have hlt := t.buckets.toNat_lt
    omega

theorem shows_emptyBuckets {count : UInt64} {allowMultiple : Bool} {buckets : Addr} (m : Mem) :
    Shows m ⟨nextPowerOf2 count, 0, allowMultiple, buckets⟩
      (emptyBuckets ⟨nextPowerOf2 count, 0, allowMultiple, buckets⟩ (nextPowerOf2 count).toNat)
      (HashTable.cctableInit count allowMultiple) := by
  have hbuckets : ∀ {β : Type} (view : Addr → CcbucketNode β) (t : CctableT) (n : ℕ),
      List.replicate n [] =
        (List.range n).map fun i => (t.nodesAt (emptyBuckets t n) i).map view := by
    intro β view t n
    rw [← List.length_range (n := n), ← List.map_const', List.length_range]
    exact List.map_congr_left fun i _ => by rw [CctableT.nodesAt, objectsOf_emptyBuckets]; rfl
  cases allowMultiple with
  | false => exact ⟨rfl, rfl, rfl, hbuckets _ _ _⟩
  | true => exact ⟨rfl, rfl, rfl, hbuckets _ _ _⟩

theorem nodes_emptyBuckets (t : CctableT) (n : ℕ) : t.nodes (emptyBuckets t n) = [] :=
  List.flatMap_eq_nil_iff.mpr fun _ _ => objectsOf_emptyBuckets n

theorem laid_emptyBuckets {m : Mem} {b : Block} (hpos : 1 ≤ t.capacity) (hblocks : m.blocks = [b])
    (hstart : b.start = t.buckets) (hsize : b.size = (t.capacity * 32).toNat)
    (haccess : ∀ i < t.capacity.toNat, m.Accessible (t.bucketAt i) 32) :
    Laid m t (emptyBuckets t t.capacity.toNat) := by
  have hmem : b ∈ m.blocks := hblocks ▸ List.mem_cons_self
  have hcover : ∀ i < t.capacity.toNat, b.Covers (t.bucketAt i) 32 := fun i hi => by
    obtain ⟨b', hb', hcover⟩ := haccess i hi
    rw [hblocks, List.mem_singleton] at hb'
    exact hb' ▸ hcover
  have hstarts : m.starts = [t.buckets] := by
    rw [Memory.starts, hblocks, List.map_singleton, hstart]
  refine ⟨hpos, ⟨b, hmem, hstart, size_array hstart hsize hcover⟩, fun i hi => ?_, ?_, ?_, ?_, ?_,
    ?_, ?_⟩
  · exact ⟨[], emptyBuckets_bucketAt hi⟩
  · rw [nodes_emptyBuckets]
    exact List.forall_mem_nil _
  · intro list c hc p hp
    obtain ⟨rfl, i, hi, rfl⟩ := emptyBuckets_eq_some hc
    rw [places_mk, List.map_nil, List.mem_singleton] at hp
    rw [hp]
    exact (haccess i hi).part (by decide) (by decide)
  · rw [nodes_emptyBuckets]
    exact List.forall_mem_nil _
  · rw [nodes_emptyBuckets]
    exact List.forall_mem_nil _
  · rw [hstarts, CctableT.owned, nodes_emptyBuckets]
    exact List.Perm.refl _
  · rw [hstarts]
    exact List.nodup_singleton _

/-- **A table that has been made.** -/
theorem cctableInit_stores {heap : Heap} {keys : Addr → CString} {values : Addr → Addr}
    {count : UInt64} {allowMultiple : Bool} {buckets : Addr} (hcapacity : 1 ≤ nextPowerOf2 count)
    (h : cctableInit (memBefore heap keys values) count allowMultiple buckets = some (m, t)) :
    ∃ W, Stores m t W (HashTable.cctableInit count allowMultiple) := by
  obtain ⟨m₁, halloc, h⟩ := Option.bind_eq_some_iff.mp h
  obtain ⟨m₂, hloop, h⟩ := Option.map_eq_some_iff.mp h
  cases h
  obtain ⟨heap₂, rfl, hrep, haccess⟩ := foldlM_initBucket hloop
  have hpos : 0 < (nextPowerOf2 count).toNat := UInt64.le_iff_toNat_le.mp hcapacity
  have hsize : (nextPowerOf2 count * 32).toNat ≠ 0 := by
    -- nothing would be in use
    intro hzero
    rw [ccAlloc, if_pos hzero] at halloc
    obtain ⟨-, halloc⟩ := Option.ite_none_right_eq_some.mp halloc
    cases halloc
    obtain ⟨b, hb, -⟩ := haccess 0 hpos
    exact absurd hb List.not_mem_nil
  have ha := allocated_of_ccAlloc hsize halloc
  obtain ⟨b, hstart, hbsize, hblocks⟩ := ha.blocks
  have hlaid := laid_emptyBuckets (t := ⟨nextPowerOf2 count, 0, allowMultiple, buckets⟩) hcapacity
    hblocks hstart hbsize haccess
  exact ⟨_, hrep, hlaid.of_blocks rfl, shows_emptyBuckets _,
    ha.perm_starts (List.Perm.refl []), ha.freed, congrArg Contents.destroyed ha.rest⟩

/-- **One call of `cctable_insert`.** -/
theorem cctableInsert_stores {m' : Mem} {t' : CctableT} {T : Cctable} {i : Insertion}
    (h : Stores m t W T) (hi : cctableInsert (m, t) i = some (m', t')) :
    ∃ W' T', HashTable.cctableInsert T i.key i.object = some T' ∧ Stores m' t' W' T' := by
  have hshows := h.shows
  cases T with
  | single T =>
    have hi : cctableInsertSingle m t i.key i.object i.newNode = some (m', t') := by
      rw [cctableInsert, hshows.1, if_neg Bool.false_ne_true] at hi
      exact hi
    obtain ⟨W', T', hT', hstores⟩ := cctableInsertSingle_stores h hi
    exact ⟨W', .single T', by rw [HashTable.cctableInsert, hT', Option.map_some], hstores⟩
  | many T =>
    have hi : cctableInsertMany m t i.key i.object i.newNode i.newValue = some (m', t') := by
      rw [cctableInsert, hshows.1, if_pos rfl] at hi
      exact hi
    obtain ⟨W', T', hT', hstores⟩ := cctableInsertMany_stores h hi
    exact ⟨W', .many T', by rw [HashTable.cctableInsert, hT', Option.map_some], hstores⟩

/-- **Any number of calls.** -/
theorem insertAll_stores {m' : Mem} {t' : CctableT} {T : Cctable} {insertions : List Insertion}
    (h : Stores m t W T) (hrun : insertAll (m, t) insertions = some (m', t')) :
    ∃ W' T', HashTable.insertAll T (insertions.map fun i => (i.key, i.object)) = some T' ∧
      Stores m' t' W' T' := by
  induction insertions generalizing m t W T with
  | nil =>
    cases hrun
    exact ⟨W, T, rfl, h⟩
  | cons i insertions ih =>
    obtain ⟨⟨m₁, t₁⟩, hi, hrun⟩ := (Runs.run_cons_eq_some cctableInsert).mp hrun
    obtain ⟨W₁, T₁, hT₁, h₁⟩ := cctableInsert_stores h hi
    obtain ⟨W', T', hT', h'⟩ := ih h₁ hrun
    exact ⟨W', T', (Runs.run_cons_eq_some _).mpr ⟨T₁, hT₁, hT'⟩, h'⟩

end InMemory
end HashTable
end CCore
