import CCore.LinkedList.Representation
import CCore.Library.Runs

/-!
# The linked lists refine sequences

The abstract side of this file is a `World`: which lists there are, and the
sequence of objects that each of them holds.  A call changes one sequence, as its
name says (`Op.onObjects`), and no other.

`Represents` relates a heap to a world: every list holds its sequence, and no node
is a place of two lists.  The second half is what a call on one list needs in
order not to disturb another, and it is kept because the node of an object that is
inserted has to be free.

## What is proved

`exec_represents` is the simulation: a legal call succeeds on every heap that
represents a world, and the heap it leaves represents the world after the call.
`cclist_refines_sequences` says what that means for a caller who sees the lists
through `cclist_first`, `cclist_last`, `cclist_next` and `cclist_prev` only: the
two walks show the sequence and its reverse, after every legal run.
-/

namespace CCore
namespace LinkedList

open CircularLinks Runs

/-! ## Sequences -/

/-- The lists there are, and what they hold. -/
abbrev World := Addr → Option Content

/-- What a call makes of the sequence of its list. -/
def Op.onObjects : Op → List Addr → List Addr
  | .init _ _, _ => []
  | .insertFirst _ object, xs => object :: xs
  | .insertLast _ object, xs => xs ++ [object]
  | .insertAfter _ object item, xs => xs.insertIdx (xs.idxOf item + 1) object
  | .insertBefore _ object item, xs => xs.insertIdx (xs.idxOf item) object
  | .remove _ object, xs => xs.erase object
  | .removeFirst _, xs => xs.tail
  | .removeLast _, xs => xs.dropLast

namespace World

/-- A call on the sequences. -/
def exec (W : World) : Op → World
  | .init list offset => Function.update W list (some ⟨offset, []⟩)
  | op => Function.update W op.list
      ((W op.list).map fun c => ⟨c.offset, op.onObjects c.objects⟩)

/-- The sequences after a run of calls. -/
def run (W : World) (ops : List Op) : World := ops.foldl exec W

/-- `node` is not in use: it is neither the head of a list nor the node of an
object in one. -/
def Free (W : World) (node : Addr) : Prop := ∀ list c, W list = some c → node ∉ places list c

/-- What the calls ask for.  An object that is inserted is not in any list --- the
node in it is free --- and the item next to it, like an object that is removed, is
in the list.  A list is initialised at a place where no other list has a node. -/
def Legal (W : World) : Op → Prop
  | .init list _ => list ≠ null ∧ ∀ other c, W other = some c → other ≠ list →
      headOf list ∉ places other c
  | .insertFirst list object => ∃ c, W list = some c ∧ object ≠ null ∧
      W.Free (object + c.offset)
  | .insertLast list object => ∃ c, W list = some c ∧ object ≠ null ∧
      W.Free (object + c.offset)
  | .insertAfter list object item => ∃ c, W list = some c ∧ object ≠ null ∧
      W.Free (object + c.offset) ∧ item ∈ c.objects
  | .insertBefore list object item => ∃ c, W list = some c ∧ object ≠ null ∧
      W.Free (object + c.offset) ∧ item ∈ c.objects
  | .remove list object => ∃ c, W list = some c ∧ object ∈ c.objects
  | .removeFirst list => ∃ c, W list = some c
  | .removeLast list => ∃ c, W list = some c

/-- Every call of the run asks for what it may ask for. -/
def LegalRun : World → List Op → Prop
  | _, [] => True
  | W, op :: ops => W.Legal op ∧ LegalRun (W.exec op) ops

/-- A call on a list that there is, other than its initialisation. -/
theorem exec_eq {W : World} {op : Op} {c : Content} (hop : ∀ list offset, op ≠ .init list offset)
    (hc : W op.list = some c) :
    W.exec op = Function.update W op.list (some ⟨c.offset, op.onObjects c.objects⟩) := by
  cases op with
  | init list offset => exact absurd rfl (hop list offset)
  | _ => exact congrArg (Function.update W _) (hc ▸ rfl)

@[simp] theorem run_nil (W : World) : W.run [] = W := rfl

@[simp] theorem run_cons (W : World) (op : Op) (ops : List Op) :
    W.run (op :: ops) = (W.exec op).run ops := rfl

theorem legalRun_append {W : World} {ops ops' : List Op} :
    W.LegalRun (ops ++ ops') ↔ W.LegalRun ops ∧ (W.run ops).LegalRun ops' := by
  induction ops generalizing W with
  | nil => exact ⟨fun h => ⟨trivial, h⟩, fun h => h.2⟩
  | cons op ops ih =>
    rw [List.cons_append, LegalRun, LegalRun, ih, run_cons, and_assoc]

end World

/-! ## Heaps that represent a world -/

/-- Every list of the world holds its sequence, and the lists have no place in
common. -/
structure Represents (m : Heap) (W : World) : Prop where
  holds : ∀ list c, W list = some c → Holds m list c
  disjoint : ∀ list other c d, list ≠ other → W list = some c → W other = some d →
    (places list c).Disjoint (places other d)

/-- The lists other than `list` are as they were: the links of their nodes and of
their heads, their sizes and their offsets. -/
def LeavesOthers (W : World) (list : Addr) (m m' : Heap) : Prop :=
  ∀ other c, W other = some c → other ≠ list →
    (∀ x ∈ places other c, m'.next x = m.next x ∧ m'.prev x = m.prev x) ∧
      m'.size other = m.size other ∧ m'.offset other = m.offset other

section Represents

variable {m m' : Heap} {W : World} {list : Addr} {c c' : Content} {touched : List Addr}

/-- A list depends on its own places and fields. -/
theorem Holds.congr (h : Holds m list c)
    (hlinks : ∀ x ∈ places list c, m'.next x = m.next x ∧ m'.prev x = m.prev x)
    (hsize : m'.size list = m.size list) (hoffset : m'.offset list = m.offset list) :
    Holds m' list c := by
  refine ⟨h.list_ne_null, hoffset.trans h.offset, hsize.trans h.size, ?_, h.null_notMem⟩
  exact h.ring.congr (fun x hx => (hlinks x hx).1) fun x hx => (hlinks x hx).2

/-- A call whose touched places no other list has leaves the other lists alone. -/
theorem Updates.leavesOthers (hu : Updates m m' list c' touched)
    (hothers : ∀ other d, W other = some d → other ≠ list →
      touched.Disjoint (places other d)) : LeavesOthers W list m m' := by
  intro other d hd hother
  refine ⟨fun x hx => ?_, hu.size_other other hother, hu.offset_other other hother⟩
  have hx' : x ∉ touched := fun e => hothers other d hd hother e hx
  exact ⟨hu.next_other x hx', hu.prev_other x hx'⟩

/-- **One list changes, the world follows.** -/
theorem Represents.update (h : Represents m W) (hu : Updates m m' list c' touched)
    (hothers : ∀ other d, W other = some d → other ≠ list →
      touched.Disjoint (places other d)) :
    Represents m' (Function.update W list (some c')) ∧ LeavesOthers W list m m' := by
  have hleaves := hu.leavesOthers hothers
  have hfar : ∀ other d, W other = some d → other ≠ list →
      (places list c').Disjoint (places other d) := fun other d hd hother x hx =>
    hothers other d hd hother (hu.places_subset hx)
  refine ⟨⟨fun l d hd => ?_, fun l other d e hne hd he => ?_⟩, hleaves⟩
  · rcases eq_or_ne l list with rfl | hl
    · rw [Function.update_self, Option.some.injEq] at hd
      exact hd ▸ hu.holds
    · rw [Function.update_of_ne hl] at hd
      obtain ⟨hlinks, hsize, hoffset⟩ := hleaves l d hd hl
      exact (h.holds l d hd).congr hlinks hsize hoffset
  · rcases eq_or_ne l list with rfl | hl
    · rw [Function.update_self, Option.some.injEq] at hd
      rw [Function.update_of_ne hne.symm] at he
      exact hd ▸ hfar other e he hne.symm
    · rw [Function.update_of_ne hl] at hd
      rcases eq_or_ne other list with rfl | ho
      · rw [Function.update_self, Option.some.injEq] at he
        exact he ▸ (hfar l d hd hl).symm
      · rw [Function.update_of_ne ho] at he
        exact h.disjoint l other d e hne hd he

/-- The places of one list are not those of another. -/
theorem Represents.places_disjoint (h : Represents m W) (hc : W list = some c) :
    ∀ other d, W other = some d → other ≠ list → (places list c).Disjoint (places other d) :=
  fun other d hd hother => h.disjoint list other c d hother.symm hc hd

/-- Nor is a free node. -/
theorem Represents.free_disjoint (h : Represents m W) (hc : W list = some c) {node : Addr}
    (hfree : W.Free node) :
    ∀ other d, W other = some d → other ≠ list →
      (node :: places list c).Disjoint (places other d) := by
  intro other d hd hother
  rw [List.disjoint_cons_left]
  exact ⟨hfree other d hd, h.places_disjoint hc other d hd hother⟩

end Represents

/-! ## The simulation -/

section Simulation

variable {m : Heap} {W : World}

/-- What remains of a step once its call is known to update its list. -/
theorem Represents.call {op : Op} {c' : Content} {touched : List Addr} (h : Represents m W)
    (hexec : W.exec op = Function.update W op.list (some c'))
    (hcall : ∃ m', exec m op = some m' ∧ Updates m m' op.list c' touched)
    (hothers : ∀ other d, W other = some d → other ≠ op.list →
      touched.Disjoint (places other d)) :
    ∃ m', exec m op = some m' ∧ Represents m' (W.exec op) ∧ LeavesOthers W op.list m m' := by
  obtain ⟨m', hm', hu⟩ := hcall
  rw [hexec]
  exact ⟨m', hm', h.update hu hothers⟩

/-- An empty removal is no update at all. -/
theorem Holds.updates_self {list : Addr} {c : Content} (h : Holds m list c) :
    Updates m m list c (places list c) :=
  ⟨h, List.Subset.refl _, fun _ _ => rfl, fun _ _ => rfl, fun _ _ => rfl, fun _ _ => rfl⟩

/-- `cclist_remove_first`, whether or not there is an object to remove. -/
theorem cclistRemoveFirst_tail {list : Addr} {offset : UInt64} {xs : List Addr}
    (h : Holds m list ⟨offset, xs⟩) :
    ∃ m', cclistRemoveFirst m list = some m' ∧
      Updates m m' list ⟨offset, xs.tail⟩ (places list ⟨offset, xs⟩) := by
  cases xs with
  | nil =>
    rw [cclistRemoveFirst, ccassert_pos h.list_ne_null, if_pos h.size_nil]
    exact ⟨m, rfl, h.updates_self⟩
  | cons x xs => exact cclistRemoveFirst_updates h

/-- `cclist_remove_last`, whether or not there is an object to remove. -/
theorem cclistRemoveLast_dropLast {list : Addr} {offset : UInt64} {xs : List Addr}
    (h : Holds m list ⟨offset, xs⟩) :
    ∃ m', cclistRemoveLast m list = some m' ∧
      Updates m m' list ⟨offset, xs.dropLast⟩ (places list ⟨offset, xs⟩) := by
  induction xs using List.reverseRecOn with
  | nil =>
    rw [cclistRemoveLast, ccassert_pos h.list_ne_null, if_pos h.size_nil]
    exact ⟨m, rfl, h.updates_self⟩
  | append_singleton xs x _ =>
    rw [List.dropLast_concat]
    exact cclistRemoveLast_updates h

/-- An item of a list without repetitions, and what it is inserted next to or
removed from. -/
theorem exists_split {item : Addr} {xs : List Addr} (hnodup : xs.Nodup) (hitem : item ∈ xs) :
    ∃ as bs, xs = as ++ item :: bs ∧ item ∉ as ∧ xs.idxOf item = as.length := by
  obtain ⟨as, bs, rfl⟩ := List.append_of_mem hitem
  have has : item ∉ as := fun hm =>
    (List.nodup_append.mp hnodup).2.2 item hm item List.mem_cons_self rfl
  refine ⟨as, bs, rfl, has, ?_⟩
  rw [List.idxOf_append_of_notMem has, List.idxOf_cons_self, Nat.add_zero]

/-- Inserting at the seam of two lists. -/
theorem insertIdx_length_append (as bs : List Addr) (x : Addr) :
    (as ++ bs).insertIdx as.length x = as ++ x :: bs := by
  induction as with
  | nil => rfl
  | cons a as ih => rw [List.cons_append, List.length_cons, List.insertIdx_succ_cons, ih]; rfl

/-- **One call.**  From a heap that represents a world, a legal call succeeds, ends
in a heap that represents the world after it, and leaves the other lists alone. -/
theorem exec_represents {op : Op} (h : Represents m W) (hlegal : W.Legal op) :
    ∃ m', exec m op = some m' ∧ Represents m' (W.exec op) ∧ LeavesOthers W op.list m m' := by
  cases op with
  | init list offset =>
    obtain ⟨hlist, hfree⟩ := hlegal
    refine h.call rfl (cclistInit_updates hlist) fun other d hd hother => ?_
    exact List.singleton_disjoint.mpr (hfree other d hd hother)
  | insertFirst list object =>
    obtain ⟨⟨offset, xs⟩, hc, hobject, hfree⟩ := hlegal
    exact h.call (World.exec_eq (by nofun) hc)
      (cclistInsertFirst_updates (h.holds _ _ hc) hobject (hfree _ _ hc))
      (h.free_disjoint hc hfree)
  | insertLast list object =>
    obtain ⟨⟨offset, xs⟩, hc, hobject, hfree⟩ := hlegal
    exact h.call (World.exec_eq (by nofun) hc)
      (cclistInsertLast_updates (h.holds _ _ hc) hobject (hfree _ _ hc))
      (h.free_disjoint hc hfree)
  | insertAfter list object item =>
    obtain ⟨⟨offset, xs⟩, hc, hobject, hfree, hitem⟩ := hlegal
    obtain ⟨as, bs, rfl, -, hidx⟩ := exists_split (h.holds _ _ hc).nodup hitem
    have hins : (as ++ item :: bs).insertIdx ((as ++ item :: bs).idxOf item + 1) object =
        as ++ item :: object :: bs := by
      have hseam := insertIdx_length_append (as ++ [item]) bs object
      rwa [List.length_append, List.length_singleton, ← List.append_cons,
        ← List.append_cons, ← hidx] at hseam
    refine h.call (World.exec_eq (by nofun) hc) ?_ (h.free_disjoint hc hfree)
    rw [Op.onObjects, hins]
    exact cclistInsertAfter_updates (h.holds _ _ hc) hobject (hfree _ _ hc)
  | insertBefore list object item =>
    obtain ⟨⟨offset, xs⟩, hc, hobject, hfree, hitem⟩ := hlegal
    obtain ⟨as, bs, rfl, -, hidx⟩ := exists_split (h.holds _ _ hc).nodup hitem
    refine h.call (World.exec_eq (by nofun) hc) ?_ (h.free_disjoint hc hfree)
    rw [Op.onObjects, hidx, insertIdx_length_append]
    exact cclistInsertBefore_updates (h.holds _ _ hc) hobject (hfree _ _ hc)
  | remove list object =>
    obtain ⟨⟨offset, xs⟩, hc, hobject⟩ := hlegal
    obtain ⟨as, bs, rfl, has, -⟩ := exists_split (h.holds _ _ hc).nodup hobject
    refine h.call (World.exec_eq (by nofun) hc) ?_ (h.places_disjoint hc)
    rw [Op.onObjects, List.erase_append_right _ has, List.erase_cons_head]
    exact cclistRemove_updates (h.holds _ _ hc)
  | removeFirst list =>
    obtain ⟨⟨offset, xs⟩, hc⟩ := hlegal
    exact h.call (World.exec_eq (by nofun) hc) (cclistRemoveFirst_tail (h.holds _ _ hc))
      (h.places_disjoint hc)
  | removeLast list =>
    obtain ⟨⟨offset, xs⟩, hc⟩ := hlegal
    exact h.call (World.exec_eq (by nofun) hc) (cclistRemoveLast_dropLast (h.holds _ _ hc))
      (h.places_disjoint hc)

/-- **A run of calls.** -/
theorem run_represents {ops : List Op} (h : Represents m W) (hlegal : W.LegalRun ops) :
    ∃ m', Runs.run exec m ops = some m' ∧ Represents m' (W.run ops) := by
  induction ops generalizing m W with
  | nil => exact ⟨m, rfl, h⟩
  | cons op ops ih =>
    obtain ⟨hop, hops⟩ := hlegal
    obtain ⟨m₁, hm₁, h₁, -⟩ := exec_represents h hop
    obtain ⟨m₂, hm₂, h₂⟩ := ih h₁ hops
    exact ⟨m₂, (run_cons_eq_some exec).mpr ⟨m₁, hm₁, hm₂⟩, h₂⟩

end Simulation

/-! ## What a caller sees -/

section Walks

/-- A step of `cclist_next` or `cclist_prev`, by the link that it follows. -/
theorem isChain_objects {link step : Addr → Addr} {head : Addr} {offset : UInt64}
    (hstep : ∀ p, step p =
      if link (p + offset) = head then null else link (p + offset) - offset)
    {xs : List Addr} (hlinks : (xs.map (· + offset) ++ [head]).IsChain fun a b => link a = b)
    (hhead : head ∉ xs.map (· + offset)) : (xs ++ [null]).IsChain fun p q => step p = q := by
  induction xs with
  | nil => exact List.IsChain.singleton null
  | cons x xs ih =>
    obtain ⟨-, hxs⟩ := not_or.mp (mt List.mem_cons.mpr hhead)
    have hrest := ih (List.isChain_of_isChain_cons hlinks) hxs
    have hx := hstep x
    cases xs with
    | nil =>
      have hlink : link (x + offset) = head := (List.isChain_cons_cons.mp hlinks).1
      rw [if_pos hlink] at hx
      exact List.isChain_pair.mpr hx
    | cons y ys =>
      have hlink : link (x + offset) = y + offset := (List.isChain_cons_cons.mp hlinks).1
      have hy : y + offset ≠ head := fun e => hxs (e ▸ List.mem_cons_self)
      rw [hlink, if_neg hy, UInt64.add_sub_cancel] at hx
      exact List.isChain_cons_cons.mpr ⟨hx, hrest⟩

/-- The object that `cclist_first` and `cclist_last` begin with. -/
theorem entry_eq {link : Addr → Addr} {head : Addr} {offset : UInt64} {xs : List Addr}
    (hlink : link head = (xs.map (· + offset)).headD head)
    (hhead : head ∉ xs.map (· + offset)) :
    (if link head = head then null else link head - offset) = xs.headD null := by
  rw [hlink]
  cases xs with
  | nil => exact if_pos rfl
  | cons x xs =>
    have hx : x + offset ≠ head := fun e => hhead (e ▸ List.mem_cons_self)
    exact (if_neg hx).trans (UInt64.add_sub_cancel x offset)

variable {m : Heap} {list : Addr} {c : Content}

/-- The object that a loop begins with. -/
theorem Holds.cclistFirst_eq (h : Holds m list c) :
    cclistFirst m list = some (c.objects.headD null) := by
  rw [cclistFirst, ccassert_pos h.list_ne_null, getPtr, h.offset,
    ← entry_eq h.ring.next_head h.ring.head_notMem, apply_ite some]

/-- The objects that it goes through, with the `NULL` that ends it. -/
theorem Holds.isChain_cclistNext (h : Holds m list c) :
    (c.objects ++ [null]).IsChain fun p q => cclistNext m list p = q := by
  refine isChain_objects (fun p => ?_)
    ((List.isChain_of_isChain_cons h.ring.links).imp fun a b hab => hab.1) h.ring.head_notMem
  rw [cclistNext, h.getNode, getPtr, h.offset]

theorem Holds.walkForward (h : Holds m list c) {fuel : ℕ} (hfuel : c.objects.length ≤ fuel) :
    walkForward m list fuel = some c.objects := by
  rw [LinkedList.walkForward, h.cclistFirst_eq, Option.bind_some]
  exact walkTo_eq h.isChain_cclistNext h.null_notMem hfuel

theorem Holds.walkBackward (h : Holds m list c) {fuel : ℕ} (hfuel : c.objects.length ≤ fuel) :
    walkBackward m list fuel = some c.objects.reverse := by
  have hring := h.ring.reverse
  rw [Content.nodes, ← List.map_reverse] at hring
  have hlast : cclistLast m list = some (c.objects.reverse.headD null) := by
    rw [cclistLast, ccassert_pos h.list_ne_null, getPtr, h.offset,
      ← entry_eq hring.next_head hring.head_notMem, apply_ite some]
  have hchain : (c.objects.reverse ++ [null]).IsChain fun p q => cclistPrev m list p = q := by
    refine isChain_objects (fun p => ?_)
      ((List.isChain_of_isChain_cons hring.links).imp fun a b hab => hab.1) hring.head_notMem
    rw [cclistPrev, h.getNode, getPtr, h.offset]
  rw [LinkedList.walkBackward, hlast, Option.bind_some]
  exact walkTo_eq hchain (mt List.mem_reverse.mp h.null_notMem)
    (List.length_reverse.trans_le hfuel)

end Walks

/-- The list at `list` shows `xs`: the two walks visit `xs` and its reverse and
then meet `NULL`, and the size is the length. -/
structure Shows (m : Heap) (list : Addr) (xs : List Addr) : Prop where
  nodup : xs.Nodup
  forward : ∀ fuel, xs.length ≤ fuel → walkForward m list fuel = some xs
  backward : ∀ fuel, xs.length ≤ fuel → walkBackward m list fuel = some xs.reverse
  size : (m.size list).toNat = xs.length

theorem Holds.shows {m : Heap} {list : Addr} {c : Content} (h : Holds m list c) :
    Shows m list c.objects :=
  ⟨h.nodup, fun _ hfuel => h.walkForward hfuel, fun _ hfuel => h.walkBackward hfuel,
    h.size_toNat⟩

/-- A node stays free if it is not a place of the list that changes. -/
theorem World.Free.update {W : World} {node list : Addr} {c : Content} (h : W.Free node)
    (hc : node ∉ places list c) : World.Free (Function.update W list (some c)) node := by
  intro other d hd
  rcases eq_or_ne other list with rfl | hother
  · rw [Function.update_self, Option.some.injEq] at hd
    exact hd ▸ hc
  · rw [Function.update_of_ne hother] at hd
    exact h other d hd

/-- No list, and any memory: there is nothing to represent. -/
theorem represents_empty (m : Heap) : Represents m fun _ => none :=
  ⟨nofun, nofun⟩

/-- **The linked lists refine sequences.**  Take any memory, and any run of calls
that ask for what they may ask for, beginning with no list at all.  The run
succeeds, every list shows the sequence that the calls on it make up, and each
call of the run leaves the links, the sizes and the offsets of all other lists as
they were. -/
theorem cclist_refines_sequences (m : Heap) (ops : List Op)
    (hlegal : World.LegalRun (fun _ => none) ops) :
    (∃ m', Runs.run exec m ops = some m' ∧
      ∀ list c, World.run (fun _ => none) ops list = some c → Shows m' list c.objects) ∧
    ∀ pre op post, ops = pre ++ op :: post →
      ∃ m₁ m₂, Runs.run exec m pre = some m₁ ∧ exec m₁ op = some m₂ ∧
        LeavesOthers (World.run (fun _ => none) pre) op.list m₁ m₂ := by
  constructor
  · obtain ⟨m', hm', h⟩ := run_represents (represents_empty m) hlegal
    exact ⟨m', hm', fun list c hc => (h.holds list c hc).shows⟩
  · rintro pre op post rfl
    obtain ⟨hpre, hop, -⟩ := World.legalRun_append.mp hlegal
    obtain ⟨m₁, hm₁, h₁⟩ := run_represents (represents_empty m) hpre
    obtain ⟨m₂, hm₂, -, hleaves⟩ := exec_represents h₁ hop
    exact ⟨m₁, m₂, hm₁, hm₂, hleaves⟩

/-- Two lists at 100 and 200, whose objects carry their nodes at different
offsets. -/
theorem cclist_refines_sequences_two_lists :
    ∃ m', Runs.run exec ⟨fun _ => 7, fun _ => 7, fun _ => 7, fun _ => 7⟩
        [.init 100 16, .init 200 0, .insertFirst 100 1000, .insertLast 200 2000,
          .insertBefore 100 3000 1000, .removeFirst 200] = some m' ∧
      Shows m' 100 [3000, 1000] ∧ Shows m' 200 [] := by
  have hlegal : World.LegalRun (fun _ => none)
      [.init 100 16, .init 200 0, .insertFirst 100 1000, .insertLast 200 2000,
        .insertBefore 100 3000 1000, .removeFirst 200] := by
    have hfree : ∀ node, World.Free (fun _ => none) node := fun _ _ _ h => nomatch h
    refine ⟨⟨by decide, fun other c hc _ => hfree _ other c hc⟩,
      ⟨by decide, fun other c hc _ => (hfree _).update (by decide) other c hc⟩,
      ⟨_, rfl, by decide, ?_⟩, ⟨_, rfl, by decide, ?_⟩, ⟨_, rfl, by decide, ?_, by decide⟩,
      ⟨_, rfl⟩, trivial⟩
    · exact ((hfree _).update (by decide)).update (by decide)
    · exact (((hfree _).update (by decide)).update (by decide)).update (by decide)
    · exact ((((hfree _).update (by decide)).update (by decide)).update (by decide)).update
        (by decide)
  obtain ⟨m', hm', hshows⟩ := (cclist_refines_sequences _ _ hlegal).1
  exact ⟨m', hm', hshows 100 ⟨16, [3000, 1000]⟩ rfl, hshows 200 ⟨0, []⟩ rfl⟩

end LinkedList
end CCore
