import CCore.LinkedList.Destructors

/-!
# What the operations dereference

The functions of `Model` read and write through addresses without asking whether anything is
there.  Here each of the eight operations is run in a `Memory`, where it says before a read or a
write which bytes it is about to touch: the thirty-two bytes of the list, and the sixteen of a
node.  An operation that touches bytes which are not in use comes to no end.

The operations dereference the list, the node of the object that is passed to them, and the
neighbours of that node.  What the neighbours are is known from the ring only, so it takes the
representation to see that they are in use: `Memory.exec_eq` says that on memory that represents
a world of lists, each of them in use with all its nodes, a legal call does in `Memory` exactly
what it does in the heap.  Along a run the objects come and go, but no call frees anything, so one
condition on the objects that are inserted carries over the whole run (`cclist_dereferences`).
-/

namespace CCore
namespace LinkedList

open CircularLinks Runs

variable {ρ : Type}

namespace Memory

/-- The memory with the fields of the nodes and lists replaced. -/
def withHeap (m : Memory ρ) (heap : Heap) : Memory ρ := { m with heap := heap }

@[simp] theorem withHeap_heap (m : Memory ρ) (heap : Heap) : (m.withHeap heap).heap = heap := rfl

@[simp] theorem withHeap_withHeap (m : Memory ρ) (heap heap' : Heap) :
    (m.withHeap heap).withHeap heap' = m.withHeap heap' := rfl

@[simp] theorem accessible_withHeap {m : Memory ρ} {heap : Heap} {a : Addr} {size : ℕ} :
    (m.withHeap heap).Accessible a size ↔ m.Accessible a size := Iff.rfl

/-! ## The operations -/

/-- `cclist_init` -/
def cclistInit (m : Memory ρ) (list : Addr) (offset : UInt64) : Option (Memory ρ) :=
  m.access list 32 <|
  (LinkedList.cclistInit m.heap list offset).map m.withHeap

/-- `cclist_do_insert_after` -/
def cclistDoInsertAfter (m : Memory ρ) (list object node : Addr) : Option (Memory ρ) :=
  m.access list 32 <|
  let item := getNode m.heap list object
  m.access item 16 <|
  let h := m.heap.setPrev item node
  m.access node 16 <|
  let h := h.setNext item (h.next node)
  m.access (h.next node) 16 <|
  let h := h.setPrev (h.next node) item
  let h := h.setNext node item
  some (m.withHeap (h.setSize list (h.size list + 1)))

/-- `cclist_do_insert_before` -/
def cclistDoInsertBefore (m : Memory ρ) (list object node : Addr) : Option (Memory ρ) :=
  m.access list 32 <|
  let item := getNode m.heap list object
  m.access item 16 <|
  let h := m.heap.setNext item node
  m.access node 16 <|
  let h := h.setPrev item (h.prev node)
  m.access (h.prev node) 16 <|
  let h := h.setNext (h.prev node) item
  let h := h.setPrev node item
  some (m.withHeap (h.setSize list (h.size list + 1)))

/-- `cclist_insert_first` -/
def cclistInsertFirst (m : Memory ρ) (list object : Addr) : Option (Memory ρ) :=
  ccassert (list ≠ null) <|
  m.cclistDoInsertAfter list object (headOf list)

/-- `cclist_insert_last` -/
def cclistInsertLast (m : Memory ρ) (list object : Addr) : Option (Memory ρ) :=
  ccassert (list ≠ null) <|
  m.cclistDoInsertBefore list object (headOf list)

/-- `cclist_insert_after` -/
def cclistInsertAfter (m : Memory ρ) (list object item : Addr) : Option (Memory ρ) :=
  ccassert (list ≠ null) <|
  ccassert (item ≠ null) <|
  m.access list 32 <|
  m.cclistDoInsertAfter list object (getNode m.heap list item)

/-- `cclist_insert_before` -/
def cclistInsertBefore (m : Memory ρ) (list object item : Addr) : Option (Memory ρ) :=
  ccassert (list ≠ null) <|
  ccassert (item ≠ null) <|
  m.access list 32 <|
  m.cclistDoInsertBefore list object (getNode m.heap list item)

/-- `cclist_remove` -/
def cclistRemove (m : Memory ρ) (list object : Addr) : Option (Memory ρ) :=
  ccassert (list ≠ null) <|
  ccassert (object ≠ null) <|
  m.access list 32 <|
  let node := getNode m.heap list object
  let h := m.heap
  m.access node 16 <|
  m.access (h.prev node) 16 <|
  let h := h.setNext (h.prev node) (h.next node)
  m.access (h.next node) 16 <|
  let h := h.setPrev (h.next node) (h.prev node)
  let h := h.setNext node null
  let h := h.setPrev node null
  some (m.withHeap (h.setSize list (h.size list - 1)))

/-- `cclist_remove_first` -/
def cclistRemoveFirst (m : Memory ρ) (list : Addr) : Option (Memory ρ) :=
  ccassert (list ≠ null) <|
  m.access list 32 <|
  let h := m.heap
  if h.size list = 0 then some m
  else
    m.access (h.next (headOf list)) 16 <|
    let h := h.setNext (headOf list) (h.next (h.next (headOf list)))
    m.access (h.next (headOf list)) 16 <|
    let h := h.setPrev (h.next (headOf list)) (headOf list)
    some (m.withHeap (h.setSize list (h.size list - 1)))

/-- `cclist_remove_last` -/
def cclistRemoveLast (m : Memory ρ) (list : Addr) : Option (Memory ρ) :=
  ccassert (list ≠ null) <|
  m.access list 32 <|
  let h := m.heap
  if h.size list = 0 then some m
  else
    m.access (h.prev (headOf list)) 16 <|
    let h := h.setPrev (headOf list) (h.prev (h.prev (headOf list)))
    m.access (h.prev (headOf list)) 16 <|
    let h := h.setNext (h.prev (headOf list)) (headOf list)
    some (m.withHeap (h.setSize list (h.size list - 1)))

/-- `cclist_first` -/
def cclistFirst (m : Memory ρ) (list : Addr) : Option Addr :=
  ccassert (list ≠ null) <|
  m.access list 32 <|
  LinkedList.cclistFirst m.heap list

/-- One call. -/
def exec (m : Memory ρ) : Op → Option (Memory ρ)
  | .init list offset => m.cclistInit list offset
  | .insertFirst list object => m.cclistInsertFirst list object
  | .insertLast list object => m.cclistInsertLast list object
  | .insertAfter list object item => m.cclistInsertAfter list object item
  | .insertBefore list object item => m.cclistInsertBefore list object item
  | .remove list object => m.cclistRemove list object
  | .removeFirst list => m.cclistRemoveFirst list
  | .removeLast list => m.cclistRemoveLast list

/-! ## The dereferences of one operation -/

section Operations

variable {m : Memory ρ} {list object node : Addr}

theorem access_eq_some {β : Type} {a : Addr} {size : ℕ} {rest : Option β} {b : β} :
    m.access a size rest = some b ↔ m.Accessible a size ∧ rest = some b := by
  rw [access, Option.ite_none_right_eq_some]

/-- Writing the value of one place to another does not change the value of the first. -/
theorem update_apply_self {f : Addr → Addr} (a b : Addr) : Function.update f a (f b) b = f b := by
  rw [Function.update_apply]
  split <;> rfl

theorem cclistDoInsertAfter_eq_some {m' : Memory ρ} :
    m.cclistDoInsertAfter list object node = some m' ↔
      m.Accessible list 32 ∧ m.Accessible (getNode m.heap list object) 16 ∧
        m.Accessible node 16 ∧ m.Accessible (m.heap.next node) 16 ∧
        m.withHeap (LinkedList.cclistDoInsertAfter m.heap list object node) = m' := by
  rw [cclistDoInsertAfter, LinkedList.cclistDoInsertAfter, access_eq_some, access_eq_some,
    access_eq_some, access_eq_some, Option.some_inj, Heap.setNext_next, Heap.setPrev_next,
    update_apply_self]

theorem cclistDoInsertBefore_eq_some {m' : Memory ρ} :
    m.cclistDoInsertBefore list object node = some m' ↔
      m.Accessible list 32 ∧ m.Accessible (getNode m.heap list object) 16 ∧
        m.Accessible node 16 ∧ m.Accessible (m.heap.prev node) 16 ∧
        m.withHeap (LinkedList.cclistDoInsertBefore m.heap list object node) = m' := by
  rw [cclistDoInsertBefore, LinkedList.cclistDoInsertBefore, access_eq_some, access_eq_some,
    access_eq_some, access_eq_some, Option.some_inj, Heap.setPrev_prev, Heap.setNext_prev,
    update_apply_self]

theorem cclistRemove_eq_some {m' : Memory ρ} :
    m.cclistRemove list object = some m' ↔
      m.Accessible list 32 ∧ m.Accessible (getNode m.heap list object) 16 ∧
        m.Accessible (m.heap.prev (getNode m.heap list object)) 16 ∧
        m.Accessible (m.heap.next (getNode m.heap list object)) 16 ∧
        (LinkedList.cclistRemove m.heap list object).map m.withHeap = some m' := by
  rw [cclistRemove, LinkedList.cclistRemove]
  by_cases hlist : list = null
  · simp [ccassert, hlist]
  · by_cases hobject : object = null
    · simp [ccassert, hobject]
    · rw [ccassert_pos hlist, ccassert_pos hobject, ccassert_pos hlist, ccassert_pos hobject,
        access_eq_some, access_eq_some, access_eq_some, access_eq_some]
      dsimp only [Heap.setNext_next]
      rw [update_apply_self]
      rfl

theorem cclistRemoveFirst_eq_some (hsize : m.heap.size list ≠ 0) {m' : Memory ρ} :
    m.cclistRemoveFirst list = some m' ↔
      m.Accessible list 32 ∧ m.Accessible (m.heap.next (headOf list)) 16 ∧
        m.Accessible (m.heap.next (m.heap.next (headOf list))) 16 ∧
        (LinkedList.cclistRemoveFirst m.heap list).map m.withHeap = some m' := by
  rw [cclistRemoveFirst, LinkedList.cclistRemoveFirst]
  by_cases hlist : list = null
  · simp [ccassert, hlist]
  · rw [ccassert_pos hlist, ccassert_pos hlist, access_eq_some]
    dsimp only
    rw [if_neg hsize, if_neg hsize, access_eq_some, access_eq_some]
    dsimp only [Heap.setNext_next]
    rw [Function.update_self]
    rfl

theorem cclistRemoveLast_eq_some (hsize : m.heap.size list ≠ 0) {m' : Memory ρ} :
    m.cclistRemoveLast list = some m' ↔
      m.Accessible list 32 ∧ m.Accessible (m.heap.prev (headOf list)) 16 ∧
        m.Accessible (m.heap.prev (m.heap.prev (headOf list))) 16 ∧
        (LinkedList.cclistRemoveLast m.heap list).map m.withHeap = some m' := by
  rw [cclistRemoveLast, LinkedList.cclistRemoveLast]
  by_cases hlist : list = null
  · simp [ccassert, hlist]
  · rw [ccassert_pos hlist, ccassert_pos hlist, access_eq_some]
    dsimp only
    rw [if_neg hsize, if_neg hsize, access_eq_some, access_eq_some]
    dsimp only [Heap.setPrev_prev]
    rw [Function.update_self]
    rfl

end Operations

end Memory

/-! ## The dereferences of a legal call -/

namespace World

/-- What a call needs of its caller: a list that is initialised is in use, and so is the node of
an object that is inserted. -/
def Backed (W : World) (m : Memory ρ) : Op → Prop
  | .init list _ => m.Accessible list 32
  | .insertFirst list object | .insertLast list object | .insertAfter list object _
  | .insertBefore list object _ =>
    ∀ c, W list = some c → m.Accessible (object + c.offset) 16
  | .remove _ _ | .removeFirst _ | .removeLast _ => True

/-- Every call of the run is given bytes that are in use. -/
def BackedRun (m : Memory ρ) : World → List Op → Prop
  | _, [] => True
  | W, op :: ops => W.Backed m op ∧ BackedRun m (W.exec op) ops

end World

section Calls

variable {m m' : Memory ρ} {W : World} {list object node : Addr} {c : Content}

theorem Live.place (h : Live m list c) {x : Addr} (hx : x ∈ places list c) :
    m.Accessible x 16 := by
  rcases List.mem_cons.mp hx with rfl | hx
  · exact h.1.part (k := 8) (by decide) (by decide)
  · exact h.2 x hx

/-- The neighbours are places of the list, so all that is left to ask for is the object. -/
theorem Live.doInsertAfter (hlive : Live m list c) (hholds : Holds m.heap list c)
    (hnode : node ∈ places list c) :
    m.cclistDoInsertAfter list object node = some m' ↔
      m.Accessible (object + c.offset) 16 ∧
        m.withHeap (cclistDoInsertAfter m.heap list object node) = m' := by
  rw [Memory.cclistDoInsertAfter_eq_some, hholds.getNode]
  have hnext := hlive.place (hholds.ring.next_mem_places hnode)
  exact ⟨fun h => ⟨h.2.1, h.2.2.2.2⟩, fun h => ⟨hlive.1, h.1, hlive.place hnode, hnext, h.2⟩⟩

theorem Live.doInsertBefore (hlive : Live m list c) (hholds : Holds m.heap list c)
    (hnode : node ∈ places list c) :
    m.cclistDoInsertBefore list object node = some m' ↔
      m.Accessible (object + c.offset) 16 ∧
        m.withHeap (cclistDoInsertBefore m.heap list object node) = m' := by
  rw [Memory.cclistDoInsertBefore_eq_some, hholds.getNode]
  have hprev := hlive.place (hholds.ring.prev_mem_places hnode)
  exact ⟨fun h => ⟨h.2.1, h.2.2.2.2⟩, fun h => ⟨hlive.1, h.1, hlive.place hnode, hprev, h.2⟩⟩

/-- An item of a list is a place of it. -/
theorem Holds.getNode_mem_places (hholds : Holds m.heap list c) {item : Addr}
    (hitem : item ∈ c.objects) : LinkedList.getNode m.heap list item ∈ places list c := by
  rw [hholds.getNode]
  exact List.mem_cons_of_mem _ (List.mem_map_of_mem hitem)

theorem Live.remove (hlive : Live m list c) (hholds : Holds m.heap list c)
    (hobject : object ∈ c.objects) :
    m.cclistRemove list object = some m' ↔
      (cclistRemove m.heap list object).map m.withHeap = some m' := by
  have hnode := hholds.getNode_mem_places hobject
  rw [Memory.cclistRemove_eq_some]
  exact ⟨fun h => h.2.2.2.2, fun h => ⟨hlive.1, hlive.place hnode,
    hlive.place (hholds.ring.prev_mem_places hnode),
    hlive.place (hholds.ring.next_mem_places hnode), h⟩⟩

theorem Live.removeFirst (hlive : Live m list c) (hholds : Holds m.heap list c) :
    m.cclistRemoveFirst list = some m' ↔
      (cclistRemoveFirst m.heap list).map m.withHeap = some m' := by
  have hfirst := hholds.ring.next_mem_places List.mem_cons_self
  by_cases hsize : m.heap.size list = 0
  · rw [Memory.cclistRemoveFirst, LinkedList.cclistRemoveFirst, ccassert_pos hholds.list_ne_null,
      ccassert_pos hholds.list_ne_null, Memory.access_pos hlive.1, if_pos hsize, if_pos hsize]
    exact Iff.rfl
  · rw [Memory.cclistRemoveFirst_eq_some hsize]
    exact ⟨fun h => h.2.2.2, fun h => ⟨hlive.1, hlive.place hfirst,
      hlive.place (hholds.ring.next_mem_places hfirst), h⟩⟩

theorem Live.removeLast (hlive : Live m list c) (hholds : Holds m.heap list c) :
    m.cclistRemoveLast list = some m' ↔
      (cclistRemoveLast m.heap list).map m.withHeap = some m' := by
  have hlast := hholds.ring.prev_mem_places List.mem_cons_self
  by_cases hsize : m.heap.size list = 0
  · rw [Memory.cclistRemoveLast, LinkedList.cclistRemoveLast, ccassert_pos hholds.list_ne_null,
      ccassert_pos hholds.list_ne_null, Memory.access_pos hlive.1, if_pos hsize, if_pos hsize]
    exact Iff.rfl
  · rw [Memory.cclistRemoveLast_eq_some hsize]
    exact ⟨fun h => h.2.2.2, fun h => ⟨hlive.1, hlive.place hlast,
      hlive.place (hholds.ring.prev_mem_places hlast), h⟩⟩

/-- All lists of the world are in use, with the nodes of their objects. -/
def LiveWorld (m : Memory ρ) (W : World) : Prop := ∀ list c, W list = some c → Live m list c

/-- An object that is asked for in the one list there is at its address. -/
theorem forall_content {P : Content → Prop} (hc : W list = some c) :
    (∀ d, W list = some d → P d) ↔ P c := by
  rw [hc]
  exact ⟨fun h => h c rfl, fun h d hd => Option.some.inj hd ▸ h⟩

/-- **A legal call dereferences nothing else.**  It comes to its end in `Memory` exactly if what
it is given is in use, and then it has done what it does in the heap. -/
theorem exec_memory {op : Op} (hrep : Represents m.heap W) (hlive : LiveWorld m W)
    (hlegal : W.Legal op) :
    m.exec op = some m' ↔
      W.Backed m op ∧ (exec m.heap op).map m.withHeap = some m' := by
  cases op with
  | init list offset => exact Memory.access_eq_some
  | insertFirst list object =>
    obtain ⟨c, hc, -⟩ := hlegal
    have hholds := hrep.holds list c hc
    rw [World.Backed, forall_content hc, Memory.exec, Memory.cclistInsertFirst, exec,
      cclistInsertFirst, ccassert_pos hholds.list_ne_null, ccassert_pos hholds.list_ne_null,
      (hlive list c hc).doInsertAfter hholds List.mem_cons_self, Option.map_some, Option.some_inj]
  | insertLast list object =>
    obtain ⟨c, hc, -⟩ := hlegal
    have hholds := hrep.holds list c hc
    rw [World.Backed, forall_content hc, Memory.exec, Memory.cclistInsertLast, exec,
      cclistInsertLast, ccassert_pos hholds.list_ne_null, ccassert_pos hholds.list_ne_null,
      (hlive list c hc).doInsertBefore hholds List.mem_cons_self, Option.map_some, Option.some_inj]
  | insertAfter list object item =>
    obtain ⟨c, hc, -, -, hitem⟩ := hlegal
    have hholds := hrep.holds list c hc
    have hitem' : item ≠ null := fun e => hholds.null_notMem (e ▸ hitem)
    rw [World.Backed, forall_content hc, Memory.exec, Memory.cclistInsertAfter, exec,
      cclistInsertAfter, ccassert_pos hholds.list_ne_null, ccassert_pos hitem',
      ccassert_pos hholds.list_ne_null, ccassert_pos hitem',
      Memory.access_pos (hlive list c hc).1,
      (hlive list c hc).doInsertAfter hholds (hholds.getNode_mem_places hitem), Option.map_some,
      Option.some_inj]
  | insertBefore list object item =>
    obtain ⟨c, hc, -, -, hitem⟩ := hlegal
    have hholds := hrep.holds list c hc
    have hitem' : item ≠ null := fun e => hholds.null_notMem (e ▸ hitem)
    rw [World.Backed, forall_content hc, Memory.exec, Memory.cclistInsertBefore, exec,
      cclistInsertBefore, ccassert_pos hholds.list_ne_null, ccassert_pos hitem',
      ccassert_pos hholds.list_ne_null, ccassert_pos hitem',
      Memory.access_pos (hlive list c hc).1,
      (hlive list c hc).doInsertBefore hholds (hholds.getNode_mem_places hitem), Option.map_some,
      Option.some_inj]
  | remove list object =>
    obtain ⟨c, hc, hobject⟩ := hlegal
    exact ((hlive list c hc).remove (hrep.holds list c hc) hobject).trans
      (and_iff_right trivial).symm
  | removeFirst list =>
    obtain ⟨c, hc⟩ := hlegal
    exact ((hlive list c hc).removeFirst (hrep.holds list c hc)).trans (and_iff_right trivial).symm
  | removeLast list =>
    obtain ⟨c, hc⟩ := hlegal
    exact ((hlive list c hc).removeLast (hrep.holds list c hc)).trans (and_iff_right trivial).symm

/-- The objects after a call are those before it, and the one that is inserted. -/
theorem mem_onObjects {op : Op} {xs : List Addr} {x : Addr} (hx : x ∈ op.onObjects xs) :
    x ∈ xs ∨ ∃ list, op = .insertFirst list x ∨ op = .insertLast list x ∨
      ∃ item, op = .insertAfter list x item ∨ op = .insertBefore list x item := by
  cases op with
  | init list offset => exact absurd hx List.not_mem_nil
  | insertFirst list object =>
    rcases List.mem_cons.mp hx with rfl | hx
    · exact .inr ⟨list, .inl rfl⟩
    · exact .inl hx
  | insertLast list object =>
    rcases List.mem_append.mp hx with hx | hx
    · exact .inl hx
    · obtain rfl := List.mem_singleton.mp hx
      exact .inr ⟨list, .inr (.inl rfl)⟩
  | insertAfter list object item =>
    rcases List.eq_or_mem_of_mem_insertIdx hx with rfl | hx
    · exact .inr ⟨list, .inr (.inr ⟨item, .inl rfl⟩)⟩
    · exact .inl hx
  | insertBefore list object item =>
    rcases List.eq_or_mem_of_mem_insertIdx hx with rfl | hx
    · exact .inr ⟨list, .inr (.inr ⟨item, .inr rfl⟩)⟩
    · exact .inl hx
  | remove list object => exact .inl (List.mem_of_mem_erase hx)
  | removeFirst list => exact .inl (List.mem_of_mem_tail hx)
  | removeLast list => exact .inl (List.mem_of_mem_dropLast hx)

/-- What is in use stays in use, whatever the lists hold afterwards. -/
theorem LiveWorld.exec {op : Op} (hlive : LiveWorld m W) (hbacked : W.Backed m op) :
    LiveWorld m (W.exec op) := by
  intro other d hd
  by_cases hinit : ∃ list offset, op = .init list offset
  · obtain ⟨list, offset, rfl⟩ := hinit
    rcases eq_or_ne other list with rfl | hother
    · rw [World.exec, Function.update_self, Option.some_inj] at hd
      exact hd ▸ ⟨hbacked, fun node hnode => absurd hnode List.not_mem_nil⟩
    · rw [World.exec, Function.update_of_ne hother] at hd
      exact hlive other d hd
  · have hexec : W.exec op = Function.update W op.list
        ((W op.list).map fun c => ⟨c.offset, op.onObjects c.objects⟩) := by
      cases op with
      | init list offset => exact absurd ⟨list, offset, rfl⟩ hinit
      | _ => rfl
    rw [hexec] at hd
    rcases eq_or_ne other op.list with rfl | hother
    · rw [Function.update_self] at hd
      obtain ⟨c, hc, rfl⟩ := Option.map_eq_some_iff.mp hd
      refine ⟨(hlive _ c hc).1, fun node hnode => ?_⟩
      obtain ⟨x, hx, rfl⟩ := List.mem_map.mp hnode
      rcases mem_onObjects hx with hx | ⟨list, rfl | rfl | ⟨item, rfl | rfl⟩⟩
      · exact (hlive _ c hc).2 _ (List.mem_map_of_mem hx)
      all_goals exact hbacked c hc
    · rw [Function.update_of_ne hother] at hd
      exact hlive other d hd

end Calls

/-! ## Runs -/

/-- The condition on the bytes does not depend on what the fields are. -/
theorem World.backedRun_withHeap {m : Memory ρ} {heap : Heap} {W : World} {ops : List Op} :
    W.BackedRun (m.withHeap heap) ops ↔ W.BackedRun m ops := by
  induction ops generalizing W with
  | nil => exact Iff.rfl
  | cons op ops ih =>
    refine and_congr ?_ ih
    cases op <;> exact Iff.rfl

/-- A legal run, from any world that is in use. -/
theorem run_memory {m m' : Memory ρ} {W : World} {ops : List Op} (hrep : Represents m.heap W)
    (hlive : LiveWorld m W) (hlegal : W.LegalRun ops) :
    run Memory.exec m ops = some m' ↔
      W.BackedRun m ops ∧ (run exec m.heap ops).map m.withHeap = some m' := by
  induction ops generalizing m W with
  | nil => exact (and_iff_right trivial).symm
  | cons op ops ih =>
    obtain ⟨hop, hops⟩ := hlegal
    obtain ⟨heap, hheap, hrep', -⟩ := exec_represents hrep hop
    have hstep := fun t : Memory ρ =>
      (exec_memory hrep hlive hop : m.exec op = some t ↔ _)
    rw [hheap, Option.map_some] at hstep
    rw [run_cons_eq_some, run_cons, hheap, Option.bind_some, World.BackedRun, and_assoc]
    constructor
    · rintro ⟨t, ht, hrun⟩
      obtain ⟨hbacked, ht⟩ := (hstep t).mp ht
      obtain rfl := Option.some.inj ht
      have hrest := (ih (m := m.withHeap heap) hrep' (hlive.exec hbacked) hops).mp hrun
      exact ⟨hbacked, World.backedRun_withHeap.mp hrest.1, hrest.2⟩
    · rintro ⟨hbacked, hrest, hrun⟩
      exact ⟨m.withHeap heap, (hstep _).mpr ⟨hbacked, rfl⟩,
        (ih (m := m.withHeap heap) hrep' (hlive.exec hbacked) hops).mpr
          ⟨World.backedRun_withHeap.mpr hrest, hrun⟩⟩

end LinkedList
end CCore
