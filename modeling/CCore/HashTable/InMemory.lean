import CCore.HashTable.Model
import CCore.LinkedList.Clear

/-!
# The hash table in memory

`HashTable.Model` takes the lists of `list.c` for sequences.  That is enough for what a table
holds, but not for how it is taken down: then the nodes and the cells of the values are blocks of
memory, they are freed while the lists that link them are walked, and each has to be freed once.
So here is the table once more, with its lists in the heap, its blocks from `cc_alloc`, and
the addresses that `cc_alloc` returns as choices of the environment.

## Layout

A `cclist_t` has thirty-two bytes, with its head after the first eight.  A `ccbucket_node_t` begins
with a union of `many_values`, which is a `cclist_t`, and `one_value`, a pointer; `list_node`
follows at 32 and the characters of the key at 48.  A `ccbucket_value_t` has the pointer `value`,
and `list_node` at 8, in twenty-four bytes.

The union is modelled as it lies: `one_value` is the same word as the `size` of `many_values`, and
which of the two it is depends on `allow_multiple` alone.
-/

namespace CCore
namespace HashTable
namespace InMemory

open CircularLinks LinkedList

/-- What the nodes and the values hold besides their links, and the calls of the destructor that
is passed to `cctable_deinit`, with the object and the user data of each.  What the destructor
does with an object is the caller's affair: the blocks of the table are not its own. -/
structure Contents where
  key : Addr → CString
  value : Addr → Addr
  destroyed : List (Addr × Addr)

/-- The memory of a table. -/
abbrev Mem := Memory Contents

/-- The memory before a table is made.  It may hold anything, and nothing of it is the table's. -/
def memBefore (heap : Heap) (key : Addr → CString) (value : Addr → Addr) : Mem where
  heap := heap
  blocks := []
  allocated := []
  freed := []
  rest := ⟨key, value, []⟩

/-- `cctable_t` -/
structure CctableT where
  capacity : UInt64
  size : UInt64
  allowMultiple : Bool
  buckets : Addr
  deriving DecidableEq

/-- `&table->buckets[i]` -/
def CctableT.bucketAt (t : CctableT) (i : ℕ) : Addr := t.buckets + 32 * UInt64.ofNat i

/-- `node->one_value` -/
def oneValue (m : Mem) (node : Addr) : Addr := m.heap.size node

/-- `node->one_value = object` -/
def setOneValue (m : Mem) (node object : Addr) : Mem :=
  { m with heap := m.heap.setSize node object }

/-- `memcpy(node->key, key, key_length); node->key[key_length] = 0` -/
def setKey (m : Mem) (node : Addr) (key : CString) : Mem :=
  { m with rest := { m.rest with key := Function.update m.rest.key node key } }

/-- `cell->value = object` -/
def setValue (m : Mem) (cell object : Addr) : Mem :=
  { m with rest := { m.rest with value := Function.update m.rest.value cell object } }

/-- `cclist_init`, in the memory of a table. -/
def initList (m : Mem) (list : Addr) (offset : UInt64) : Option Mem :=
  (cclistInit m.heap list offset).map fun heap => { m with heap := heap }

/-- `cclist_insert_first`, in the memory of a table. -/
def insertFirst (m : Mem) (list object : Addr) : Option Mem :=
  (cclistInsertFirst m.heap list object).map fun heap => { m with heap := heap }

/-! ## Making a table and filling it -/

/-- The body of the loop of `cctable_init`. -/
def initBucket (t : CctableT) (m : Mem) (i : ℕ) : Option Mem :=
  m.access (t.bucketAt i) 32 <|
  initList m (t.bucketAt i) 32

/-- `cctable_init`.  `buckets` is the address of the array. -/
def cctableInit (m : Mem) (count : UInt64) (allowMultiple : Bool) (buckets : Addr) :
    Option (Mem × CctableT) :=
  let capacity := nextPowerOf2 count
  let t : CctableT := ⟨capacity, 0, allowMultiple, buckets⟩
  -- the size of an element is that of a `cctable_t`, which is the one of a `cclist_t`
  (ccAlloc m (capacity * 32).toNat buckets).bind fun m =>
    ((List.range capacity.toNat).foldlM (initBucket t) m).map fun m => (m, t)

/-- The loop over the nodes of a bucket that looks for a key. -/
def searchBucket (m : Mem) (bucket : Addr) (key : CString) : Option (Option Addr) :=
  (cclistFirst m.heap bucket).bind fun node =>
    findTo (cclistNext m.heap bucket) (fun node => key = m.rest.key node) null
      (m.heap.size bucket).toNat node

/-- `cctable_insert_single`.  `newNode` is the address of the node, if one is allocated. -/
def cctableInsertSingle (m : Mem) (t : CctableT) (key : CString) (object newNode : Addr) :
    Option (Mem × CctableT) :=
  let bucket := t.bucketAt (bucketIdx t.capacity key)
  (searchBucket m bucket key).bind fun
  | some _ => some (m, t)
  | none =>
    (ccAlloc m (48 + key.chars.length + 1) newNode).bind fun m =>
      let m := setKey m newNode key
      let m := setOneValue m newNode object
      (insertFirst m bucket newNode).map fun m => (m, { t with size := t.size + 1 })

/-- `value_many_new` -/
def valueManyNew (m : Mem) (object newValue : Addr) : Option Mem :=
  (ccAlloc m 24 newValue).map fun m => setValue m newValue object

/-- `cctable_insert_many`.  `newNode` and `newValue` are the addresses of what is allocated. -/
def cctableInsertMany (m : Mem) (t : CctableT) (key : CString) (object newNode newValue : Addr) :
    Option (Mem × CctableT) :=
  let bucket := t.bucketAt (bucketIdx t.capacity key)
  (searchBucket m bucket key).bind fun
  | some node =>
    let t := { t with size := t.size + 1 }
    (valueManyNew m object newValue).bind fun m =>
      (insertFirst m node newValue).map fun m => (m, t)
  | none =>
    (ccAlloc m (48 + key.chars.length + 1) newNode).bind fun m =>
      let m := setKey m newNode key
      (initList m newNode 8).bind fun m =>
        (insertFirst m bucket newNode).bind fun m =>
          let t := { t with size := t.size + 1 }
          (valueManyNew m object newValue).bind fun m =>
            (insertFirst m newNode newValue).map fun m => (m, t)

/-- A call of `cctable_insert`, with what `cc_alloc` returns in it. -/
structure Insertion where
  key : CString
  object : Addr
  newNode : Addr
  newValue : Addr

/-- `cctable_insert` -/
def cctableInsert (s : Mem × CctableT) (i : Insertion) : Option (Mem × CctableT) :=
  if s.2.allowMultiple then cctableInsertMany s.1 s.2 i.key i.object i.newNode i.newValue
  else cctableInsertSingle s.1 s.2 i.key i.object i.newNode

/-- The calls of `cctable_insert`, in order. -/
def insertAll (s : Mem × CctableT) (insertions : List Insertion) : Option (Mem × CctableT) :=
  Runs.run cctableInsert s insertions

/-! ## Going through it -/

/-- A loop over `xs` whose body makes the calls `f` of a callback: all the calls, in order. -/
def collect {α β : Type} (f : α → Option (List β)) : List α → Option (List β)
  | [] => some []
  | x :: xs => (f x).bind fun ys => (collect f xs).map (ys ++ ·)

/-- What the body of the loop over the nodes of `cctable_iter` passes to the callback. -/
def iterNode (m : Mem) (t : CctableT) (n : Addr) : Option (List (CString × Addr)) :=
  if ¬t.allowMultiple then some [(m.rest.key n, oneValue m n)]
  else
    (walkForward m.heap n (m.heap.size n).toNat).map fun values =>
      values.map fun value => (m.rest.key n, m.rest.value value)

/-- `cctable_iter`: the pairs that are passed to the callback, in order. -/
def cctableIter (m : Mem) (t : CctableT) : Option (List (CString × Addr)) :=
  collect (fun i =>
    (walkForward m.heap (t.bucketAt i) (m.heap.size (t.bucketAt i)).toNat).bind
      (collect (iterNode m t))) (List.range t.capacity.toNat)

/-! ## Taking it down -/

/-- `struct destructor_data` -/
structure DestructorData where
  destructor : Addr
  userData : Addr

/-- What the two destructors that free one object's block have in common: if there is a
destructor it is called on the object, which is read from the first word of the block, and the
block is freed. -/
def destroyWith (object : Mem → Addr → Addr) (m : Mem) (ptr : Addr) (data : DestructorData) :
    Option Mem :=
  (if data.destructor ≠ null then
    m.access ptr 8 <|
    some { m with rest := { m.rest with
      destroyed := m.rest.destroyed ++ [(object m ptr, data.userData)] } }
  else some m).bind fun m => ccFree m ptr

/-- `node_destructor_single` -/
def nodeDestructorSingle : Mem → Addr → DestructorData → Option Mem := destroyWith oneValue

/-- `value_destructor_many` -/
def valueDestructorMany : Mem → Addr → DestructorData → Option Mem :=
  destroyWith fun m value => m.rest.value value

/-- `node_destructor_many` -/
def nodeDestructorMany (m : Mem) (node : Addr) (data : DestructorData) : Option Mem :=
  (cclistClear m node (some valueDestructorMany) data).bind fun m => ccFree m node

/-- `node_destructor` in `cctable_deinit` -/
def CctableT.nodeDestructor (t : CctableT) : Mem → Addr → DestructorData → Option Mem :=
  if t.allowMultiple then nodeDestructorMany else nodeDestructorSingle

/-- The body of the loop of `cctable_deinit`. -/
def clearBucket (t : CctableT) (data : DestructorData) (m : Mem) (i : ℕ) : Option Mem :=
  cclistClear m (t.bucketAt i) (some t.nodeDestructor) data

/-- `cctable_deinit` -/
def cctableDeinit (m : Mem) (t : CctableT) (des ptr : Addr) : Option (Mem × CctableT) :=
  let data : DestructorData := ⟨des, ptr⟩
  ((List.range t.capacity.toNat).foldlM (clearBucket t data) m).bind fun m =>
    (ccFree m t.buckets).map fun m => (m, { t with capacity := 0, size := 0, buckets := null })

end InMemory
end HashTable
end CCore
