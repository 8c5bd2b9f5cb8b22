import CCore.LinkedList.Model
import Mathlib.Data.Finset.Range
import Mathlib.Data.Finset.Card

/-!
# What one list holds

A list represents the sequence of objects whose nodes one meets on the way around
from its head.  `Holds` is that statement together with the bookkeeping that goes
with it: the size is the length, the offset is the one the list was made with, and
no object is `NULL`, which is what `cclist_first` and `cclist_next` return at the
end.

## The two splices

The eight operations are four insertions, three removals and an initialisation.
What the insertions write is an `Inserted` at some gap of the ring, and what the
removals write is a `Removed` at some place of it --- including
`cclist_remove_first` and `cclist_remove_last`, which go about it differently and
leave the links of the removed node alone.  So there is one lemma for the writers
of each kind, and two lemmas, `Holds.insert_gap` and `Holds.remove_place`, that
carry the representation.

## What a call can touch

`Updates` is the contract of a call: what the list holds afterwards, and that
nothing outside a given list of places has changed.  The places are those of the
list and the node of the object that is inserted.
-/

namespace CCore
namespace LinkedList

open CircularLinks

/-- What a list is meant to hold: how far into an object its node lies, and the
objects in order. -/
structure Content where
  offset : UInt64
  objects : List Addr

/-- The nodes of the objects. -/
def Content.nodes (c : Content) : List Addr := c.objects.map (· + c.offset)

/-- The nodes of a list, its head included. -/
def places (list : Addr) (c : Content) : List Addr := headOf list :: c.nodes

@[simp] theorem Content.nodes_mk (offset : UInt64) (objects : List Addr) :
    Content.nodes ⟨offset, objects⟩ = objects.map (· + offset) := rfl

@[simp] theorem places_mk (list : Addr) (offset : UInt64) (objects : List Addr) :
    places list ⟨offset, objects⟩ = headOf list :: objects.map (· + offset) := rfl

/-- **The list at `list` holds `c`.** -/
structure Holds (m : Heap) (list : Addr) (c : Content) : Prop where
  list_ne_null : list ≠ null
  offset : m.offset list = c.offset
  size : m.size list = UInt64.ofNat c.objects.length
  ring : Ring m.next m.prev (headOf list) c.nodes
  null_notMem : null ∉ c.objects

/-- What a call on `list` achieves, where only the nodes in `touched` may have been
written. -/
structure Updates (m m' : Heap) (list : Addr) (c' : Content) (touched : List Addr) : Prop where
  holds : Holds m' list c'
  places_subset : places list c' ⊆ touched
  next_other : ∀ x, x ∉ touched → m'.next x = m.next x
  prev_other : ∀ x, x ∉ touched → m'.prev x = m.prev x
  size_other : ∀ other, other ≠ list → m'.size other = m.size other
  offset_other : ∀ other, other ≠ list → m'.offset other = m.offset other

namespace Holds

variable {m : Heap} {list : Addr} {c : Content}

theorem getNode (h : Holds m list c) (ptr : Addr) : getNode m list ptr = ptr + c.offset :=
  congrArg (ptr + ·) h.offset

theorem nodup (h : Holds m list c) : c.objects.Nodup :=
  (List.nodup_cons.mp h.ring.nodup).2.of_map _

/-- There are not enough addresses for `size` to wrap. -/
theorem length_lt (h : Holds m list c) : c.objects.length < 2 ^ 64 := by
  have hnodup : (null :: c.objects).Nodup := List.nodup_cons.mpr ⟨h.null_notMem, h.nodup⟩
  have hsub : ((null :: c.objects).map UInt64.toNat).toFinset ⊆ Finset.range (2 ^ 64) := by
    intro x hx
    obtain ⟨a, -, rfl⟩ := List.mem_map.mp (List.mem_toFinset.mp hx)
    exact Finset.mem_range.mpr a.toNat_lt
  have hcard := Finset.card_le_card hsub
  rw [List.toFinset_card_of_nodup (hnodup.map fun _ _ e => UInt64.toNat_inj.mp e),
    List.length_map, List.length_cons, Finset.card_range] at hcard
  exact hcard

theorem size_toNat (h : Holds m list c) : (m.size list).toNat = c.objects.length := by
  rw [h.size, UInt64.toNat_ofNat']
  exact Nat.mod_eq_of_lt h.length_lt

end Holds

/-! ## The writers -/

section Writers

variable {m : Heap} {list object node : Addr}

/-- `cclist_do_insert_after` puts the object's node behind `node`. -/
theorem inserted_cclistDoInsertAfter (hnode : getNode m list object ≠ node)
    (hnext : getNode m list object ≠ m.next node) :
    Inserted m.next m.prev (cclistDoInsertAfter m list object node).next
      (cclistDoInsertAfter m list object node).prev node (getNode m list object)
      (m.next node) := by
  unfold cclistDoInsertAfter
  refine ⟨⟨fun x hp hn => ?_, fun x hq hn => ?_⟩, ⟨?_, ?_⟩, ⟨?_, ?_⟩⟩
  all_goals simp [hnode.symm, *]

/-- `cclist_do_insert_before` puts the object's node before `node`. -/
theorem inserted_cclistDoInsertBefore (hnode : getNode m list object ≠ node)
    (hprev : getNode m list object ≠ m.prev node) :
    Inserted m.next m.prev (cclistDoInsertBefore m list object node).next
      (cclistDoInsertBefore m list object node).prev (m.prev node) (getNode m list object)
      node := by
  unfold cclistDoInsertBefore
  refine ⟨⟨fun x hp hn => ?_, fun x hq hn => ?_⟩, ⟨?_, ?_⟩, ⟨?_, ?_⟩⟩
  all_goals simp [hnode.symm, *]

@[simp] theorem cclistDoInsertAfter_size : (cclistDoInsertAfter m list object node).size =
    Function.update m.size list (m.size list + 1) := rfl

@[simp] theorem cclistDoInsertAfter_offset :
    (cclistDoInsertAfter m list object node).offset = m.offset := rfl

@[simp] theorem cclistDoInsertBefore_size : (cclistDoInsertBefore m list object node).size =
    Function.update m.size list (m.size list + 1) := rfl

@[simp] theorem cclistDoInsertBefore_offset :
    (cclistDoInsertBefore m list object node).offset = m.offset := rfl

/-- What a removal does to `size` and `offset`. -/
structure Shrunk (m m' : Heap) (list : Addr) : Prop where
  size : m'.size = Function.update m.size list (m.size list - 1)
  offset : m'.offset = m.offset

/-- `cclist_remove` takes the object's node out. -/
theorem removed_cclistRemove (hlist : list ≠ null) (hobject : object ≠ null)
    (hprev : m.prev (getNode m list object) ≠ getNode m list object)
    (hnext : m.next (getNode m list object) ≠ getNode m list object) :
    ∃ m', cclistRemove m list object = some m' ∧ Shrunk m m' list ∧
      Removed m.next m.prev m'.next m'.prev (m.prev (getNode m list object))
        (getNode m list object) (m.next (getNode m list object)) := by
  rw [cclistRemove, ccassert_pos hlist, ccassert_pos hobject]
  refine ⟨_, rfl, ⟨rfl, rfl⟩, ⟨fun x hp hn => ?_, fun x hq hn => ?_⟩, ?_, ?_⟩
  all_goals simp [hprev.symm, *]

/-- `cclist_remove_first` takes out the node behind the head. -/
theorem removed_cclistRemoveFirst (hlist : list ≠ null) (hsize : m.size list ≠ 0) :
    ∃ m', cclistRemoveFirst m list = some m' ∧ Shrunk m m' list ∧
      Removed m.next m.prev m'.next m'.prev (headOf list) (m.next (headOf list))
        (m.next (m.next (headOf list))) := by
  rw [cclistRemoveFirst, ccassert_pos hlist, if_neg hsize]
  refine ⟨_, rfl, ⟨rfl, rfl⟩, ⟨fun x hp hn => ?_, fun x hq hn => ?_⟩, ?_, ?_⟩
  all_goals simp [*]

/-- `cclist_remove_last` takes out the node before the head. -/
theorem removed_cclistRemoveLast (hlist : list ≠ null) (hsize : m.size list ≠ 0) :
    ∃ m', cclistRemoveLast m list = some m' ∧ Shrunk m m' list ∧
      Removed m.next m.prev m'.next m'.prev (m.prev (m.prev (headOf list)))
        (m.prev (headOf list)) (headOf list) := by
  rw [cclistRemoveLast, ccassert_pos hlist, if_neg hsize]
  refine ⟨_, rfl, ⟨rfl, rfl⟩, ⟨fun x hp hn => ?_, fun x hq hn => ?_⟩, ?_, ?_⟩
  all_goals simp [*]

end Writers

/-! ## Insertion and removal keep the representation -/

section Representation

variable {m m' : Heap} {list : Addr} {offset : UInt64} {xs ys : List Addr} {object : Addr}

/-- A splice among places that are touched leaves the others alone. -/
theorem Holds.updates {c' : Content} {touched : List Addr} {p n q : Addr} {size : UInt64}
    (h' : Holds m' list c') (hs : Spliced m.next m.prev m'.next m'.prev p n q)
    (hsize : m'.size = Function.update m.size list size) (hoffset : m'.offset = m.offset)
    (hp : p ∈ touched) (hn : n ∈ touched) (hq : q ∈ touched)
    (hplaces : places list c' ⊆ touched) : Updates m m' list c' touched := by
  refine ⟨h', hplaces, fun x hx => ?_, fun x hx => ?_, fun other hother => ?_, fun _ _ => ?_⟩
  · exact hs.next_other x (fun e => hx (e ▸ hp)) fun e => hx (e ▸ hn)
  · exact hs.prev_other x (fun e => hx (e ▸ hq)) fun e => hx (e ▸ hn)
  · rw [hsize, Function.update_of_ne hother]
  · rw [hoffset]

/-- The right neighbour of a gap is a place of the list. -/
theorem headD_mem_places : (ys.map (· + offset)).headD (headOf list) ∈
    headOf list :: (xs ++ ys).map (· + offset) := by
  cases ys with
  | nil => exact List.mem_cons_self
  | cons y ys =>
    rw [List.map_append, List.map_cons, List.headD_cons]
    exact List.mem_cons_of_mem _ (List.mem_append_right _ List.mem_cons_self)

/-- The left neighbour of a gap is a place of the list. -/
theorem getLastD_mem_places : (xs.map (· + offset)).getLastD (headOf list) ∈
    headOf list :: (xs ++ ys).map (· + offset) := by
  rw [List.map_append, ← List.cons_append]
  exact List.mem_append_left _ List.getLastD_mem_cons

/-- **Putting an object into a gap.** -/
theorem Holds.insert_gap (h : Holds m list ⟨offset, xs ++ ys⟩) (hobject : object ≠ null)
    (hfree : object + offset ∉ places list ⟨offset, xs ++ ys⟩)
    (hi : Inserted m.next m.prev m'.next m'.prev ((xs.map (· + offset)).getLastD (headOf list))
      (object + offset) ((ys.map (· + offset)).headD (headOf list)))
    (hsize : m'.size = Function.update m.size list (m.size list + 1))
    (hoffset : m'.offset = m.offset) :
    Updates m m' list ⟨offset, xs ++ object :: ys⟩
      ((object + offset) :: places list ⟨offset, xs ++ ys⟩) := by
  have hring := h.ring
  rw [Content.nodes_mk, List.map_append] at hring
  rw [places_mk, List.map_append] at hfree
  have hholds : Holds m' list ⟨offset, xs ++ object :: ys⟩ := by
    refine ⟨h.list_ne_null, ?_, ?_, ?_, ?_⟩
    · rw [hoffset]
      exact h.offset
    · have hlen : (xs ++ object :: ys).length = (xs ++ ys).length + 1 := by
        rw [List.length_append, List.length_cons, List.length_append, Nat.add_assoc]
      rw [hsize, Function.update_self, h.size, hlen, UInt64.ofNat_add]
      rfl
    · rw [Content.nodes_mk, List.map_append, List.map_cons]
      exact hring.insert hfree hi
    · have hnull := h.null_notMem
      simp only [List.mem_append, List.mem_cons, not_or] at hnull ⊢
      exact ⟨hnull.1, hobject.symm, hnull.2⟩
  refine hholds.updates hi.toSpliced hsize hoffset
    (List.mem_cons_of_mem _ getLastD_mem_places) List.mem_cons_self
    (List.mem_cons_of_mem _ headD_mem_places) fun x hx => ?_
  rw [places_mk, List.map_append, List.map_cons] at hx
  rw [places_mk, List.map_append]
  exact (Ring.perm_front.mem_iff).mp hx

/-- **Taking an object out.** -/
theorem Holds.remove_place (h : Holds m list ⟨offset, xs ++ object :: ys⟩)
    (hr : Removed m.next m.prev m'.next m'.prev ((xs.map (· + offset)).getLastD (headOf list))
      (object + offset) ((ys.map (· + offset)).headD (headOf list)))
    (hs : Shrunk m m' list) :
    Updates m m' list ⟨offset, xs ++ ys⟩ (places list ⟨offset, xs ++ object :: ys⟩) := by
  have hring := h.ring
  rw [Content.nodes_mk, List.map_append, List.map_cons] at hring
  have hsub : places list ⟨offset, xs ++ ys⟩ ⊆ places list ⟨offset, xs ++ object :: ys⟩ := by
    rw [places_mk, places_mk]
    refine List.cons_subset_cons _ (List.map_subset _ fun x hx => ?_)
    exact (List.mem_append.mp hx).elim (fun hx => List.mem_append_left _ hx)
      fun hx => List.mem_append_right _ (List.mem_cons_of_mem _ hx)
  have hobject : object + offset ∈ places list ⟨offset, xs ++ object :: ys⟩ := by
    rw [places_mk, List.map_append, List.map_cons]
    exact Ring.perm_front.mem_iff.mpr List.mem_cons_self
  have hholds : Holds m' list ⟨offset, xs ++ ys⟩ := by
    refine ⟨h.list_ne_null, ?_, ?_, ?_, ?_⟩
    · rw [hs.offset]
      exact h.offset
    · have hlen : (xs ++ object :: ys).length = (xs ++ ys).length + 1 := by
        rw [List.length_append, List.length_cons, List.length_append, Nat.add_assoc]
      rw [hs.size, Function.update_self, h.size, hlen, UInt64.ofNat_add]
      exact UInt64.add_sub_cancel _ _
    · rw [Content.nodes_mk, List.map_append]
      exact hring.remove hr
    · have hnull := h.null_notMem
      simp only [List.mem_append, List.mem_cons, not_or] at hnull ⊢
      exact ⟨hnull.1, hnull.2.2⟩
  exact hholds.updates hr.toSpliced hs.size hs.offset (hsub getLastD_mem_places) hobject
    (hsub headD_mem_places) hsub

end Representation

/-! ## The operations -/

section Operations

variable {m : Heap} {list : Addr} {offset : UInt64} {xs ys : List Addr} {object item : Addr}

theorem cclistInit_updates (hlist : list ≠ null) :
    ∃ m', cclistInit m list offset = some m' ∧
      Updates m m' list ⟨offset, []⟩ (places list ⟨offset, []⟩) := by
  rw [cclistInit, ccassert_pos hlist]
  refine ⟨_, rfl, ⟨hlist, ?_, ?_, ⟨List.isChain_pair.mpr ⟨?_, ?_⟩, List.nodup_singleton _⟩,
    List.not_mem_nil⟩, List.Subset.refl _, fun x hx => ?_, fun x hx => ?_, fun other hother => ?_,
    fun other hother => ?_⟩
  · exact Function.update_self ..
  · exact Function.update_self ..
  · exact Function.update_self ..
  · exact Function.update_self ..
  · exact Function.update_of_ne (List.ne_of_not_mem_cons hx) ..
  · exact Function.update_of_ne (List.ne_of_not_mem_cons hx) ..
  · exact Function.update_of_ne hother ..
  · exact Function.update_of_ne hother ..

/-- Insertion behind the last place of `xs`. -/
theorem cclistDoInsertAfter_updates {node : Addr} (h : Holds m list ⟨offset, xs ++ ys⟩)
    (hobject : object ≠ null) (hfree : object + offset ∉ places list ⟨offset, xs ++ ys⟩)
    (hnode : node = (xs.map (· + offset)).getLastD (headOf list)) :
    Updates m (cclistDoInsertAfter m list object node) list ⟨offset, xs ++ object :: ys⟩
      ((object + offset) :: places list ⟨offset, xs ++ ys⟩) := by
  have hring := h.ring
  rw [Content.nodes_mk, List.map_append] at hring
  have hgap : m.next node = (ys.map (· + offset)).headD (headOf list) := hnode ▸ hring.gap.1
  have hitem : getNode m list object = object + offset := h.getNode object
  have hi : Inserted m.next m.prev (cclistDoInsertAfter m list object node).next
      (cclistDoInsertAfter m list object node).prev node (getNode m list object)
      (m.next node) := by
    refine inserted_cclistDoInsertAfter ?_ ?_
    · rw [hitem, hnode]
      exact fun e => hfree (e ▸ getLastD_mem_places)
    · rw [hitem, hgap]
      exact fun e => hfree (e ▸ headD_mem_places)
  rw [hgap, hitem, hnode] at hi
  exact h.insert_gap hobject hfree (hnode ▸ hi) rfl rfl

/-- Insertion before the first place of `ys`. -/
theorem cclistDoInsertBefore_updates {node : Addr} (h : Holds m list ⟨offset, xs ++ ys⟩)
    (hobject : object ≠ null) (hfree : object + offset ∉ places list ⟨offset, xs ++ ys⟩)
    (hnode : node = (ys.map (· + offset)).headD (headOf list)) :
    Updates m (cclistDoInsertBefore m list object node) list ⟨offset, xs ++ object :: ys⟩
      ((object + offset) :: places list ⟨offset, xs ++ ys⟩) := by
  have hring := h.ring
  rw [Content.nodes_mk, List.map_append] at hring
  have hgap : m.prev node = (xs.map (· + offset)).getLastD (headOf list) := hnode ▸ hring.gap.2
  have hitem : getNode m list object = object + offset := h.getNode object
  have hi : Inserted m.next m.prev (cclistDoInsertBefore m list object node).next
      (cclistDoInsertBefore m list object node).prev (m.prev node) (getNode m list object)
      node := by
    refine inserted_cclistDoInsertBefore ?_ ?_
    · rw [hitem, hnode]
      exact fun e => hfree (e ▸ headD_mem_places)
    · rw [hitem, hgap]
      exact fun e => hfree (e ▸ getLastD_mem_places)
  rw [hgap, hitem, hnode] at hi
  exact h.insert_gap hobject hfree (hnode ▸ hi) rfl rfl

theorem cclistInsertFirst_updates (h : Holds m list ⟨offset, xs⟩) (hobject : object ≠ null)
    (hfree : object + offset ∉ places list ⟨offset, xs⟩) :
    ∃ m', cclistInsertFirst m list object = some m' ∧
      Updates m m' list ⟨offset, object :: xs⟩ ((object + offset) :: places list ⟨offset, xs⟩) := by
  rw [cclistInsertFirst, ccassert_pos h.list_ne_null]
  refine ⟨_, rfl, ?_⟩
  rw [← List.nil_append xs] at h hfree ⊢
  exact cclistDoInsertAfter_updates h hobject hfree rfl

theorem cclistInsertLast_updates (h : Holds m list ⟨offset, xs⟩) (hobject : object ≠ null)
    (hfree : object + offset ∉ places list ⟨offset, xs⟩) :
    ∃ m', cclistInsertLast m list object = some m' ∧
      Updates m m' list ⟨offset, xs ++ [object]⟩
        ((object + offset) :: places list ⟨offset, xs⟩) := by
  rw [cclistInsertLast, ccassert_pos h.list_ne_null]
  refine ⟨_, rfl, ?_⟩
  rw [← List.append_nil xs] at h hfree
  rw [← List.append_nil xs, List.append_assoc, List.nil_append]
  exact cclistDoInsertBefore_updates h hobject hfree rfl

theorem cclistInsertAfter_updates (h : Holds m list ⟨offset, xs ++ item :: ys⟩)
    (hobject : object ≠ null) (hfree : object + offset ∉ places list ⟨offset, xs ++ item :: ys⟩) :
    ∃ m', cclistInsertAfter m list object item = some m' ∧
      Updates m m' list ⟨offset, xs ++ item :: object :: ys⟩
        ((object + offset) :: places list ⟨offset, xs ++ item :: ys⟩) := by
  have hitem : item ≠ null := fun e =>
    h.null_notMem (e ▸ List.mem_append_right _ List.mem_cons_self)
  rw [cclistInsertAfter, ccassert_pos h.list_ne_null, ccassert_pos hitem]
  refine ⟨_, rfl, ?_⟩
  have hnode : LinkedList.getNode m list item =
      ((xs ++ [item]).map (· + offset)).getLastD (headOf list) := by
    rw [h.getNode, List.map_append, List.map_singleton, List.getLastD_concat]
  rw [List.append_cons] at h hfree ⊢
  rw [List.append_cons xs item ys]
  exact cclistDoInsertAfter_updates h hobject hfree hnode

theorem cclistInsertBefore_updates (h : Holds m list ⟨offset, xs ++ item :: ys⟩)
    (hobject : object ≠ null) (hfree : object + offset ∉ places list ⟨offset, xs ++ item :: ys⟩) :
    ∃ m', cclistInsertBefore m list object item = some m' ∧
      Updates m m' list ⟨offset, xs ++ object :: item :: ys⟩
        ((object + offset) :: places list ⟨offset, xs ++ item :: ys⟩) := by
  have hitem : item ≠ null := fun e =>
    h.null_notMem (e ▸ List.mem_append_right _ List.mem_cons_self)
  rw [cclistInsertBefore, ccassert_pos h.list_ne_null, ccassert_pos hitem]
  exact ⟨_, rfl, cclistDoInsertBefore_updates h hobject hfree (h.getNode item)⟩

theorem cclistRemove_updates (h : Holds m list ⟨offset, xs ++ object :: ys⟩) :
    ∃ m', cclistRemove m list object = some m' ∧
      Updates m m' list ⟨offset, xs ++ ys⟩ (places list ⟨offset, xs ++ object :: ys⟩) := by
  have hobject : object ≠ null := fun e =>
    h.null_notMem (e ▸ List.mem_append_right _ List.mem_cons_self)
  have hring := h.ring
  rw [Content.nodes_mk, List.map_append, List.map_cons] at hring
  have hnode : LinkedList.getNode m list object = object + offset := h.getNode object
  obtain ⟨m', hm', hs, hr⟩ := removed_cclistRemove (m := m) h.list_ne_null hobject
    (by rw [hnode]; exact hring.prev_ne) (by rw [hnode]; exact hring.next_ne)
  rw [hnode, hring.prev_mem, hring.next_mem] at hr
  exact ⟨m', hm', h.remove_place hr hs⟩

theorem Holds.size_nil (h : Holds m list ⟨offset, []⟩) : m.size list = 0 := h.size

/-- An empty list and one that is not are told apart by the size. -/
theorem Holds.size_ne_zero (h : Holds m list ⟨offset, xs ++ object :: ys⟩) :
    m.size list ≠ 0 := by
  intro hzero
  have hsize := h.size_toNat
  rw [hzero, UInt64.toNat_zero, List.length_append, List.length_cons] at hsize
  omega

theorem cclistRemoveFirst_updates (h : Holds m list ⟨offset, object :: xs⟩) :
    ∃ m', cclistRemoveFirst m list = some m' ∧
      Updates m m' list ⟨offset, xs⟩ (places list ⟨offset, object :: xs⟩) := by
  rw [← List.nil_append (object :: xs)] at h
  have hring := h.ring
  rw [Content.nodes_mk, List.map_append, List.map_cons] at hring
  obtain ⟨m', hm', hs, hr⟩ := removed_cclistRemoveFirst h.list_ne_null h.size_ne_zero
  have hfirst : m.next (headOf list) = object + offset := hring.gap.1
  rw [hfirst, hring.next_mem] at hr
  exact ⟨m', hm', h.remove_place hr hs⟩

theorem cclistRemoveLast_updates (h : Holds m list ⟨offset, xs ++ [object]⟩) :
    ∃ m', cclistRemoveLast m list = some m' ∧
      Updates m m' list ⟨offset, xs⟩ (places list ⟨offset, xs ++ [object]⟩) := by
  have hring := h.ring
  rw [Content.nodes_mk, List.map_append, List.map_cons] at hring
  obtain ⟨m', hm', hs, hr⟩ := removed_cclistRemoveLast h.list_ne_null h.size_ne_zero
  have hlast : m.prev (headOf list) = object + offset := by
    rw [hring.prev_head, List.map_nil, List.getLastD_concat]
  rw [hlast, hring.prev_mem] at hr
  have hupdates := h.remove_place hr hs
  rw [List.append_nil] at hupdates
  exact ⟨m', hm', hupdates⟩

end Operations

end LinkedList
end CCore
