import CCore.LinkedList.Destructors

/-!
# The books of a program that allocates and frees

A program begins in a memory where the blocks of others are, at the addresses `old`.  From then on
it allocates blocks, and frees them.  `Books old m live` says that what it has allocated is what it
has freed together with what is still live, each allocation once, and that the blocks in use are
the live ones and the old ones, which the program has left alone.

An address may be handed out again after it has been freed, so the history is compared by
multiplicities: the books say that every allocation has been freed exactly once or is still live.
-/

namespace CCore
namespace LinkedList

variable {ρ : Type} {m m' : Memory ρ} {old live : List Addr} {ptr : Addr} {size : ℕ}

/-- What a program has allocated, freed, and has left. -/
structure Books (old : List Addr) (m : Memory ρ) (live : List Addr) : Prop where
  starts : m.starts.Perm (live ++ old)
  apart : m.blocks.Pairwise Block.Apart
  allocated : m.allocated.Perm (m.freed ++ live)

instance : Std.Symm Block.Apart := ⟨fun _ _ h => Or.symm h⟩

/-- Two blocks with no byte in common do not begin at the same address. -/
theorem Block.Apart.start_ne {b c : Block} (h : b.Apart c) : b.start ≠ c.start := by
  intro heq
  have hb := b.size_pos
  have hc := c.size_pos
  rw [Block.Apart, heq] at h
  omega

/-- What `cc_alloc` returns has no byte in common with what is in use. -/
theorem pairwise_apart_ccAlloc (hsize : size ≠ 0) (h : ccAlloc m size ptr = some m')
    (hapart : m.blocks.Pairwise Block.Apart) : m'.blocks.Pairwise Block.Apart := by
  rw [ccAlloc, if_neg hsize] at h
  split at h
  · obtain ⟨hnew, h⟩ := Option.ite_none_right_eq_some.mp h
    cases h
    exact List.pairwise_cons.mpr ⟨fun b hb => Std.Symm.symm _ _ (hnew b hb), hapart⟩
  · exact absurd h (by simp)

namespace Books

/-- At the beginning. -/
theorem start (hapart : m.blocks.Pairwise Block.Apart) (hallocated : m.allocated = [])
    (hfreed : m.freed = []) : Books m.starts m [] := by
  refine ⟨List.Perm.refl _, hapart, ?_⟩
  rw [hallocated, hfreed]
  exact List.Perm.refl _

theorem perm (h : Books old m live) {live' : List Addr} (hperm : live.Perm live') :
    Books old m live' :=
  ⟨h.starts.trans (hperm.append_right old), h.apart, h.allocated.trans (hperm.append_left m.freed)⟩

/-- The books do not depend on what is written into the blocks. -/
theorem congr (h : Books old m live) (hblocks : m'.blocks = m.blocks)
    (hallocated : m'.allocated = m.allocated) (hfreed : m'.freed = m.freed) :
    Books old m' live := by
  have hstarts : m'.starts = m.starts := congrArg (List.map Block.start) hblocks
  exact ⟨hstarts ▸ h.starts, hblocks ▸ h.apart, hallocated ▸ hfreed ▸ h.allocated⟩

theorem nodup (h : Books old m live) : m.starts.Nodup :=
  List.pairwise_map.mpr (h.apart.imp fun hbc => hbc.start_ne)

theorem nodup_append (h : Books old m live) : (live ++ old).Nodup :=
  h.starts.nodup_iff.mp h.nodup

theorem nodup_live (h : Books old m live) : live.Nodup :=
  (List.nodup_append.mp h.nodup_append).1

/-- A block more. -/
theorem alloc (h : Books old m live) (hsize : size ≠ 0) (hm : ccAlloc m size ptr = some m') :
    Books old m' (ptr :: live) := by
  have ha := allocated_of_ccAlloc hsize hm
  refine ⟨?_, pairwise_apart_ccAlloc hsize hm h.apart, ?_⟩
  · rw [ha.starts]
    exact h.starts.cons ptr
  · rw [ha.allocated, ha.freed]
    calc (m.allocated ++ [ptr]).Perm (ptr :: m.allocated) := List.perm_append_singleton ptr _
      List.Perm _ (ptr :: (m.freed ++ live)) := h.allocated.cons ptr
      List.Perm _ (m.freed ++ ptr :: live) := List.perm_middle.symm

theorem starts_freedAll (before : List Addr) :
    (freedAll m before).starts = m.starts.filter (· ∉ before) := by
  show List.map Block.start (m.blocks.filter fun b => b.start ∉ before) = _
  rw [Memory.starts, List.filter_map]
  rfl

/-- Blocks less. -/
theorem freeAll {before : List Addr} (h : Books old m (before ++ live)) :
    Books old (freedAll m before) live := by
  have hnodup := h.nodup_append
  rw [List.append_assoc] at hnodup
  have hapart := (List.nodup_append.mp hnodup).2.2
  constructor
  · have hbefore : before.filter (· ∉ before) = [] :=
      List.filter_eq_nil_iff.mpr fun a ha => by simpa using ha
    have hrest : (live ++ old).filter (· ∉ before) = live ++ old :=
      List.filter_eq_self.mpr fun a ha => decide_eq_true fun hb => hapart a hb a ha rfl
    have hstarts := h.starts.filter (· ∉ before)
    rwa [List.append_assoc, List.filter_append, hbefore, hrest, List.nil_append,
      ← starts_freedAll] at hstarts
  · exact h.apart.filter _
  · have hallocated := h.allocated
    rw [← List.append_assoc] at hallocated
    exact hallocated

/-- What has been freed is not in use any more. -/
theorem not_accessible_freedAll (h : Books old m live) (hptr : m.HasBlock ptr size) {part : ℕ}
    (hpart : 0 < part) : ¬ (freedAll m [ptr]).Accessible ptr part := by
  rintro ⟨c, hc, hle, hcover⟩
  obtain ⟨hmem, hstart⟩ := List.mem_filter.mp hc
  obtain ⟨b, hb, rfl, -⟩ := hptr
  have hne : c ≠ b := fun e => (of_decide_eq_true hstart) (e ▸ List.mem_singleton_self _)
  have hapart : c.Apart b := h.apart.forall hmem hb hne
  have hpos := b.size_pos
  rw [Block.Apart] at hapart
  have hcstart : c.start.toNat ≠ b.start.toNat := fun e =>
    (of_decide_eq_true hstart) (List.mem_singleton.mpr (UInt64.toNat_inj.mp e))
  omega

/-- An address in one block is none in another. -/
theorem add_ne (h : Books old m live) {a b : Addr} {n k : ℕ} (ha : m.HasBlock a n)
    (hb : m.HasBlock b k) (hne : a ≠ b) {i j : UInt64} (hi : i.toNat < n) (hj : j.toNat < k) :
    a + i ≠ b + j := by
  obtain ⟨c, hc, rfl, hcsize⟩ := ha
  obtain ⟨d, hd, rfl, hdsize⟩ := hb
  have hapart : c.Apart d := h.apart.forall hc hd fun e => hne (congrArg Block.start e)
  have hcfits := c.fits
  have hdfits := d.fits
  intro heq
  have hsum := congrArg UInt64.toNat heq
  rw [UInt64.toNat_add, UInt64.toNat_add, Nat.mod_eq_of_lt (by omega),
    Nat.mod_eq_of_lt (by omega)] at hsum
  rw [Block.Apart] at hapart
  omega

end Books

/-- Nothing is at `NULL`. -/
theorem not_accessible_null : ¬ m.Accessible null size := by
  rintro ⟨b, -, hle, -⟩
  exact b.start_ne_null (UInt64.toNat_inj.mp (Nat.le_zero.mp hle))

/-- `cc_free` frees one block. -/
theorem ccFree_eq_freedAll (h : m.HasBlock ptr size) :
    ccFree m ptr = some (freedAll m [ptr]) := by
  have hfilter : m.blocks.filter (fun b => b.start ≠ ptr) =
      m.blocks.filter fun b => b.start ∉ [ptr] :=
    List.filter_congr fun b _ => decide_eq_decide.mpr (List.mem_singleton (b := ptr)).not.symm
  rw [ccFree_of_hasBlock h, hfilter]
  rfl

end LinkedList
end CCore
