import CCore.Base
import CCore.Library.KeyedBuckets
import CCore.Library.Runs

/-!
# The hash table

`table.c` keeps an array of buckets, each of them a linked list of nodes; a node has
its key at its end, and either one value or a list of values.  Which of the two it
is was decided when the table was made, by `allow_multiple`.

The linked lists are those of `list.c`, used through `cclist_insert_first`,
`cclist_first` and `cclist_next` only.  What these do to a sequence is proved where
the lists are modelled, and here a list is the sequence: an insertion puts an
element at its front, and a loop goes through it in order.

## The union

`ccbucket_node_t` has its values in a union.  A table of one kind has nodes of one
kind, so the model makes the kind a type: `Table Addr` is a table whose nodes have
`one_value`, `Table (List Addr)` one whose nodes have `many_values`, and `Cctable`
is the choice between the two that `allow_multiple` makes.  The wrong member of the
union cannot be read because it cannot be written down.

## Sizes

`capacity` has its sixty-four bits, since the masks are taken of it.  `cctable_init`
writes every bucket of the array, so a table that it has made has an array that fits
into memory.  `size` is a natural number: every increment goes with an allocation, and
memory ends before the counter does.
-/

namespace CCore
namespace HashTable

open KeyedBuckets

/-- `next_power_of_2` -/
def nextPowerOf2 (v : UInt64) : UInt64 :=
  let v := v - 1
  let v := v ||| v >>> 1
  let v := v ||| v >>> 2
  let v := v ||| v >>> 4
  let v := v ||| v >>> 8
  let v := v ||| v >>> 16
  v + 1

/-- `hash_string`.  A `char` is signed, and is extended with its sign. -/
def hashString (string : CString) : UInt64 :=
  string.chars.foldl
    (fun hash c => (hash ^^^ c.toInt8.toInt64.toUInt64) * 0x100000001b3) 0x84222325cbf29ce4

/-- `ccbucket_node_t`, with the member of its union that its table uses. -/
structure CcbucketNode (β : Type) where
  key : CString
  value : β
  deriving DecidableEq

/-- `cctable_t`, for nodes of one kind. -/
structure Table (β : Type) where
  capacity : UInt64
  size : ℕ
  buckets : List (List (CcbucketNode β))
  deriving DecidableEq

/-- `cctable_t`: `single` if `allow_multiple` is false, `many` if it is true. -/
inductive Cctable where
  | single (table : Table Addr)
  | many (table : Table (List Addr))
  deriving DecidableEq

variable {β : Type}

/-- `cctable_init`, for nodes of one kind. -/
def initTable (count : UInt64) : Table β where
  capacity := nextPowerOf2 count
  size := 0
  buckets := List.replicate (nextPowerOf2 count).toNat []

/-- `cctable_init` -/
def cctableInit (count : UInt64) (allowMultiple : Bool) : Cctable :=
  if allowMultiple then .many (initTable count) else .single (initTable count)

/-- `hash_string(key) & (table->capacity-1)` -/
def bucketIdx (capacity : UInt64) (key : CString) : ℕ :=
  (hashString key &&& (capacity - 1)).toNat

namespace Table

/-- `&table->buckets[bucket_idx]`; `none` outside the array. -/
def bucket (t : Table β) (key : CString) : Option (List (CcbucketNode β)) :=
  t.buckets[bucketIdx t.capacity key]?

/-- The table with another list in the bucket of `key`. -/
def setBucket (t : Table β) (key : CString) (bucket : List (CcbucketNode β)) : Table β :=
  { t with buckets := t.buckets.set (bucketIdx t.capacity key) bucket }

end Table

/-- `cctable_insert_single`: the loop returns as soon as it meets the key. -/
def cctableInsertSingle (t : Table Addr) (key : CString) (object : Addr) :
    Option (Table Addr) :=
  (t.bucket key).map fun bucket =>
    if bucket.any fun node => key = node.key then t
    else
      let t := t.setBucket key (⟨key, object⟩ :: bucket)
      { t with size := t.size + 1 }

/-- `cclist_insert_first(&node->many_values, value_many_new(object))` -/
def CcbucketNode.insertValue (object : Addr) (node : CcbucketNode (List Addr)) :
    CcbucketNode (List Addr) :=
  { node with value := object :: node.value }

/-- `cctable_insert_many`: the loop puts the value into the first node that has the
key, and returns. -/
def cctableInsertMany (t : Table (List Addr)) (key : CString) (object : Addr) :
    Option (Table (List Addr)) :=
  (t.bucket key).map fun bucket =>
    match updateFirst (fun node => key = node.key) (CcbucketNode.insertValue object) bucket with
    | some bucket =>
      let t := t.setBucket key bucket
      { t with size := t.size + 1 }
    | none =>
      let t := t.setBucket key (⟨key, [object]⟩ :: bucket)
      { t with size := t.size + 1 }

/-- `cctable_insert` -/
def cctableInsert (table : Cctable) (key : CString) (object : Addr) : Option Cctable :=
  match table with
  | .single t => (cctableInsertSingle t key object).map .single
  | .many t => (cctableInsertMany t key object).map .many

/-- The first node of a bucket that has the key. -/
def findNode (key : CString) (bucket : List (CcbucketNode β)) : Option (CcbucketNode β) :=
  bucket.find? fun node => key = node.key

/-- `cctable_get_many`: the list of a key, or `NULL`, which is the inner `none`. -/
def cctableGetMany (table : Cctable) (key : CString) : Option (Option (List Addr)) :=
  match table with
  | .single _ => none
  | .many t => (t.bucket key).map fun bucket => (findNode key bucket).map CcbucketNode.value

/-- `cctable_get_one` -/
def cctableGetOne (table : Cctable) (key : CString) : Option Addr :=
  match table with
  | .single t => (t.bucket key).map fun bucket =>
      ((findNode key bucket).map CcbucketNode.value).getD null
  | .many _ => none

/-- The calls of the callback that one node of a many-valued table gives rise to. -/
def CcbucketNode.pairs (node : CcbucketNode (List Addr)) : List (CString × Addr) :=
  node.value.map fun value => (node.key, value)

/-- `cctable_iter`: the pairs that are passed to the callback, in order. -/
def cctableIter (table : Cctable) : List (CString × Addr) :=
  match table with
  | .single t => t.buckets.flatMap fun bucket => bucket.map fun n => (n.key, n.value)
  | .many t => t.buckets.flatMap fun bucket => bucket.flatMap CcbucketNode.pairs

/-- `table->capacity` -/
def Cctable.capacity : Cctable → UInt64
  | .single t => t.capacity
  | .many t => t.capacity

/-- `table->size` -/
def Cctable.size : Cctable → ℕ
  | .single t => t.size
  | .many t => t.size

/-- The calls of `cctable_insert` with these keys and objects, in order. -/
def insertAll (table : Cctable) (insertions : List (CString × Addr)) : Option Cctable :=
  Runs.run (fun table insertion => cctableInsert table insertion.1 insertion.2) table insertions

/-! ## The bucket of a key -/

/-- **A masked hash is an index of the array.** -/
theorem bucketIdx_lt {capacity : UInt64} (h : 1 ≤ capacity) (key : CString) :
    bucketIdx capacity key < capacity.toNat := by
  have hpos : 1 ≤ capacity.toNat := UInt64.le_iff_toNat_le.mp h
  have hmask : (hashString key &&& (capacity - 1)).toNat ≤ (capacity - 1).toNat :=
    UInt64.le_iff_toNat_le.mp UInt64.and_le_right
  rw [UInt64.toNat_sub_of_le _ _ h, UInt64.toNat_one] at hmask
  rw [bucketIdx]
  omega

/-- **The invariant of a table**: the array has as many buckets as the capacity says,
one at least, and the nodes are where their keys say. -/
structure WellPlaced (t : Table β) : Prop where
  capacity_pos : 1 ≤ t.capacity
  length : t.buckets.length = t.capacity.toNat
  placed : Placed CcbucketNode.key (bucketIdx t.capacity) t.buckets

namespace WellPlaced

variable {t : Table β} {key : CString} {b : List (CcbucketNode β)}

theorem init {count : UInt64} (h : 1 ≤ nextPowerOf2 count) :
    WellPlaced (initTable count : Table β) :=
  ⟨h, List.length_replicate, placed_replicate ..⟩

/-- Every key has a bucket. -/
theorem exists_bucket (h : WellPlaced t) (key : CString) : ∃ b, t.bucket key = some b := by
  have hlt := bucketIdx_lt h.capacity_pos key
  rw [← h.length] at hlt
  exact ⟨_, List.getElem?_eq_getElem hlt⟩

theorem findNode_eq_some_iff (h : WellPlaced t) (hb : t.bucket key = some b)
    {node : CcbucketNode β} :
    findNode key b = some node ↔ node ∈ t.buckets.flatten ∧ key = node.key :=
  h.placed.find?_eq_some_iff hb

theorem findNode_eq_none_iff (h : WellPlaced t) (hb : t.bucket key = some b) :
    findNode key b = none ↔ ∀ node ∈ t.buckets.flatten, key ≠ node.key :=
  h.placed.find?_eq_none_iff hb

/-- Changing one bucket changes neither the capacity nor the number of buckets. -/
theorem setBucket (h : WellPlaced t)
    (hplaced : Placed CcbucketNode.key (bucketIdx t.capacity) (t.setBucket key b).buckets) :
    WellPlaced (t.setBucket key b) :=
  ⟨h.capacity_pos, List.length_set.trans h.length, hplaced⟩

/-- Nor does counting one more. -/
theorem grow (h : WellPlaced t) : WellPlaced { t with size := t.size + 1 } :=
  ⟨h.capacity_pos, h.length, h.placed⟩

/-- A node for a new key. -/
theorem push (h : WellPlaced t) (hb : t.bucket key = some b)
    (hnew : ∀ node ∈ b, key ≠ node.key) (value : β) :
    WellPlaced (t.setBucket key (⟨key, value⟩ :: b)) ∧
      (t.setBucket key (⟨key, value⟩ :: b)).buckets.flatten.Perm
        (⟨key, value⟩ :: t.buckets.flatten) := by
  obtain ⟨hplaced, hperm⟩ := h.placed.push (e := CcbucketNode.mk key value) hb hnew
  exact ⟨h.setBucket hplaced, hperm⟩

end WellPlaced

end HashTable
end CCore
