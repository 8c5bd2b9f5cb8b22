import CCore.LinkedList.Refinement

/-!
# Memory that is handed out and taken back

`cclist_clear` calls a destructor on every object of a list, and the destructor may free it.  So
it is here that the heap needs to know which of its addresses are in use: `Memory` adds to the
fields of the nodes and the lists the blocks that `cc_alloc` has handed out and that have not
been passed to `cc_free`.

Whoever reads or writes through an address says so with `access`, which fails unless the bytes
lie in such a block.  A program that comes to its end has therefore read nothing that it had
freed before.  In the same way `ccFree` fails at an address where no block begins.

`rest` is whatever else the program keeps in memory, and no function of a list looks at it.

`cclistClear_rule` is what `cclist_clear` asks of a destructor: it may do what it likes as long
as the nodes that are still to come, and the list itself, stay what they are.
-/

namespace CCore
namespace LinkedList

open CircularLinks

/-! ## Blocks -/

/-- A block of memory.  It does not begin at `NULL`, it has a byte at least, and it does not
reach beyond the last address. -/
structure Block where
  start : Addr
  size : ℕ
  start_ne_null : start ≠ null
  size_pos : 0 < size
  fits : start.toNat + size ≤ 2 ^ 64

/-- The `size` bytes at `a` lie in the block. -/
def Block.Covers (b : Block) (a : Addr) (size : ℕ) : Prop :=
  b.start.toNat ≤ a.toNat ∧ a.toNat + size ≤ b.start.toNat + b.size

/-- No byte is in both blocks. -/
def Block.Apart (b c : Block) : Prop :=
  b.start.toNat + b.size ≤ c.start.toNat ∨ c.start.toNat + c.size ≤ b.start.toNat

instance (b : Block) (a : Addr) (size : ℕ) : Decidable (b.Covers a size) := by
  unfold Block.Covers; infer_instance

instance (b c : Block) : Decidable (b.Apart c) := by
  unfold Block.Apart; infer_instance

/-- The memory of a program with lists.  `allocated` and `freed` are history: the addresses that
`cc_alloc` has returned and those that have been passed to `cc_free`, in order. -/
structure Memory (ρ : Type) where
  heap : Heap
  blocks : List Block
  allocated : List Addr
  freed : List Addr
  rest : ρ

variable {ρ δ : Type}

namespace Memory

/-- The `size` bytes at `a` are in use. -/
def Accessible (m : Memory ρ) (a : Addr) (size : ℕ) : Prop := ∃ b ∈ m.blocks, b.Covers a size

instance (m : Memory ρ) (a : Addr) (size : ℕ) : Decidable (m.Accessible a size) := by
  unfold Accessible; infer_instance

/-- The code that comes after a read or a write of `size` bytes at `a`. -/
def access {β : Type} (m : Memory ρ) (a : Addr) (size : ℕ) (rest : Option β) : Option β :=
  if m.Accessible a size then rest else none

/-- A block of `size` bytes or more begins at `a`. -/
def HasBlock (m : Memory ρ) (a : Addr) (size : ℕ) : Prop :=
  ∃ b ∈ m.blocks, b.start = a ∧ size ≤ b.size

/-- The addresses where the blocks begin. -/
def starts (m : Memory ρ) : List Addr := m.blocks.map Block.start

end Memory

/-- `cc_alloc(size)`.  `ptr` is the address it returns: `NULL` for nothing, and the beginning of
a block that has no byte in common with those in use otherwise. -/
def ccAlloc (m : Memory ρ) (size : ℕ) (ptr : Addr) : Option (Memory ρ) :=
  if size = 0 then if ptr = null then some m else none
  else if h : ptr ≠ null ∧ 0 < size ∧ ptr.toNat + size ≤ 2 ^ 64 then
    let block : Block := ⟨ptr, size, h.1, h.2.1, h.2.2⟩
    if ∀ b ∈ m.blocks, b.Apart block then
      some { m with blocks := block :: m.blocks, allocated := m.allocated ++ [ptr] }
    else none
  else none

/-- `cc_free(ptr)` -/
def ccFree (m : Memory ρ) (ptr : Addr) : Option (Memory ρ) :=
  if ptr = null then some m
  else if ∃ b ∈ m.blocks, b.start = ptr then
    some { m with blocks := m.blocks.filter (·.start ≠ ptr), freed := m.freed ++ [ptr] }
  else none

namespace Memory

variable {m m' : Memory ρ} {a : Addr} {size : ℕ}

theorem access_pos {β : Type} {rest : Option β} (h : m.Accessible a size) :
    m.access a size rest = rest := if_pos h

/-- A part of what is in use. -/
theorem Accessible.part (h : m.Accessible a size) {k : UInt64} {part : ℕ} (hpos : 0 < part)
    (hpart : k.toNat + part ≤ size) : m.Accessible (a + k) part := by
  obtain ⟨b, hb, hle, hcover⟩ := h
  have hfits := b.fits
  have hadd : (a + k).toNat = a.toNat + k.toNat := by
    rw [UInt64.toNat_add]
    exact Nat.mod_eq_of_lt (by omega)
  refine ⟨b, hb, ?_, ?_⟩
  · rw [hadd]
    exact Nat.le_add_right_of_le hle
  · rw [hadd]
    omega

/-- The beginning of a block. -/
theorem HasBlock.accessible_start (h : m.HasBlock a size) {part : ℕ} (hpart : part ≤ size) :
    m.Accessible a part := by
  obtain ⟨b, hb, rfl, hsize⟩ := h
  exact ⟨b, hb, le_rfl, Nat.add_le_add_left (hpart.trans hsize) _⟩

/-- A part of a block. -/
theorem HasBlock.accessible (h : m.HasBlock a size) {k : UInt64} {part : ℕ} (hpos : 0 < part)
    (hpart : k.toNat + part ≤ size) : m.Accessible (a + k) part :=
  (h.accessible_start le_rfl).part hpos hpart

theorem HasBlock.mono (h : m.HasBlock a size) {size' : ℕ} (hle : size' ≤ size) :
    m.HasBlock a size' := by
  obtain ⟨b, hb, ha, hsize⟩ := h
  exact ⟨b, hb, ha, hle.trans hsize⟩

theorem HasBlock.ne_null (h : m.HasBlock a size) : a ≠ null := by
  obtain ⟨b, -, rfl, -⟩ := h
  exact b.start_ne_null

/-- What an allocation does, if it is not one of nothing. -/
structure Allocated (m : Memory ρ) (ptr : Addr) (size : ℕ) (m' : Memory ρ) : Prop where
  blocks : ∃ b : Block, b.start = ptr ∧ b.size = size ∧ m'.blocks = b :: m.blocks
  hasBlock : m'.HasBlock ptr size
  keeps : ∀ a n, m.HasBlock a n → m'.HasBlock a n
  keeps_accessible : ∀ a n, m.Accessible a n → m'.Accessible a n
  starts : m'.starts = ptr :: m.starts
  start_fresh : ptr ∉ m.starts
  fresh : ∀ a n, 0 < n → m.Accessible a n → ∀ k, k.toNat < size → a ≠ ptr + k
  heap : m'.heap = m.heap
  allocated : m'.allocated = m.allocated ++ [ptr]
  freed : m'.freed = m.freed
  rest : m'.rest = m.rest

/-- As long as nothing is freed, what has been allocated is what is in use. -/
theorem Allocated.perm_starts {ptr : Addr} (ha : m.Allocated ptr size m')
    (h : m.allocated.Perm m.starts) : m'.allocated.Perm m'.starts := by
  rw [ha.allocated, ha.starts]
  exact (List.perm_append_singleton ptr _).trans (h.cons ptr)

end Memory

theorem allocated_of_ccAlloc {m m' : Memory ρ} {size : ℕ} {ptr : Addr} (hsize : size ≠ 0)
    (h : ccAlloc m size ptr = some m') : m.Allocated ptr size m' := by
  rw [ccAlloc, if_neg hsize] at h
  split at h
  · rename_i hblock
    obtain ⟨hapart, h⟩ := Option.ite_none_right_eq_some.mp h
    cases h
    refine ⟨⟨_, rfl, rfl, rfl⟩, ⟨_, List.mem_cons_self, rfl, le_rfl⟩, ?_, ?_, rfl, ?_, ?_, rfl, rfl,
      rfl, rfl⟩
    · rintro a n ⟨b, hb, ha⟩
      exact ⟨b, List.mem_cons_of_mem _ hb, ha⟩
    · rintro a n ⟨b, hb, ha⟩
      exact ⟨b, List.mem_cons_of_mem _ hb, ha⟩
    · intro hmem
      obtain ⟨b, hb, hstart⟩ := List.mem_map.mp hmem
      have hpos := b.size_pos
      have hapart : b.start.toNat + b.size ≤ ptr.toNat ∨ ptr.toNat + size ≤ b.start.toNat :=
        hapart b hb
      rw [hstart] at hapart
      omega
    · rintro a n hn ⟨b, hb, hle, hcover⟩ k hk rfl
      have hadd : (ptr + k).toNat = ptr.toNat + k.toNat := by
        rw [UInt64.toNat_add]
        exact Nat.mod_eq_of_lt (by omega)
      have hapart : b.start.toNat + b.size ≤ ptr.toNat ∨ ptr.toNat + size ≤ b.start.toNat :=
        hapart b hb
      omega
  · cases h

theorem ccFree_of_hasBlock {m : Memory ρ} {ptr : Addr} {size : ℕ} (h : m.HasBlock ptr size) :
    ccFree m ptr =
      some { m with blocks := m.blocks.filter (·.start ≠ ptr), freed := m.freed ++ [ptr] } := by
  have hnull := h.ne_null
  obtain ⟨b, hb, hstart, -⟩ := h
  rw [ccFree, if_neg hnull, if_pos ⟨b, hb, hstart⟩]

/-! ## Clearing -/

/-- `cclist_clear`.  A destructor is called with an object and with what `user_data` points to.
The fuel is the size of the list. -/
def cclistClear (m : Memory ρ) (list : Addr)
    (des : Option (Memory ρ → Addr → δ → Option (Memory ρ))) (userData : δ) :
    Option (Memory ρ) :=
  let follow (m : Memory ρ) (item : Addr) :=
    m.access list 32 <|
    m.access item 16 <|
    some (m.heap.next item)
  let destroy (m : Memory ρ) (item : Addr) :=
    match des with
    | none => some m
    | some des => des m (getPtr m.heap list item) userData
  ccassert (list ≠ null) <|
  m.access list 32 <|
  (drainTo follow destroy (headOf list) (m.heap.size list).toNat m
    (m.heap.next (headOf list))).bind fun m =>
    m.access list 32 <|
    (cclistInit m.heap list (m.heap.offset list)).map fun heap => { m with heap := heap }

variable {m : Memory ρ} {list : Addr}

/-- **What a destructor has to leave alone.**  `Q xs m` says that the objects `xs` are still to
come in the memory `m`.  It has to imply that the list is in use and has its offset, and that the
node of the first of the objects is in use and leads to that of the next one; and the destructor
has to establish it for the objects that are left. -/
theorem cclistClear_rule {des : Memory ρ → Addr → δ → Option (Memory ρ)} {userData : δ}
    {Q : List Addr → Memory ρ → Prop} {offset : UInt64} {xs : List Addr}
    (hlist : list ≠ null)
    (hheld : ∀ xs m, Q xs m → m.Accessible list 32 ∧ m.heap.offset list = offset)
    (hstep : ∀ x xs m, Q (x :: xs) m → x + offset ≠ headOf list ∧ m.Accessible (x + offset) 16 ∧
      m.heap.next (x + offset) = (xs.map (· + offset)).headD (headOf list) ∧
      ∃ m', des m x userData = some m' ∧ Q xs m')
    (hstart : Q xs m) (hsize : xs.length ≤ (m.heap.size list).toNat)
    (hnext : m.heap.next (headOf list) = (xs.map (· + offset)).headD (headOf list)) :
    ∃ m₁ heap, Q [] m₁ ∧ cclistInit m₁.heap list offset = some heap ∧
      cclistClear m list (some des) userData = some { m₁ with heap := heap } := by
  have hturn : ∀ x xs m, Q (x :: xs) m → x + offset ≠ headOf list ∧
      (m.access list 32 <| m.access (x + offset) 16 <| some (m.heap.next (x + offset))) =
        some ((xs.map (· + offset)).headD (headOf list)) ∧
      ∃ m', des m (getPtr m.heap list (x + offset)) userData = some m' ∧ Q xs m' := by
    intro x xs m hQ
    obtain ⟨haccess, hoffset⟩ := hheld _ m hQ
    obtain ⟨hhead, hnode, hlink, hdestroyed⟩ := hstep x xs m hQ
    have hptr : getPtr m.heap list (x + offset) = x := by
      rw [getPtr, hoffset]
      exact UInt64.add_sub_cancel x offset
    refine ⟨hhead, ?_, ?_⟩
    · rw [Memory.access_pos haccess, Memory.access_pos hnode, hlink]
    · rw [hptr]
      exact hdestroyed
  obtain ⟨haccess, -⟩ := hheld xs m hstart
  obtain ⟨m₁, hm₁, hQ⟩ := drainTo_rule
    (fun m item => m.access list 32 <| m.access item 16 <| some (m.heap.next item))
    (fun m item => des m (getPtr m.heap list item) userData) (· + offset) hturn hstart hsize
  obtain ⟨haccess₁, hoffset₁⟩ := hheld [] m₁ hQ
  obtain ⟨heap, hheap⟩ : ∃ heap, cclistInit m₁.heap list offset = some heap :=
    ⟨_, ccassert_pos hlist⟩
  refine ⟨m₁, heap, hQ, hheap, ?_⟩
  rw [cclistClear, ccassert_pos hlist, Memory.access_pos haccess, hnext, hm₁, Option.bind_some,
    Memory.access_pos haccess₁, hoffset₁, hheap, Option.map_some]

end LinkedList
end CCore
