import CCore.Base
import CCore.Library.CircularLinks

/-!
# The doubly linked list, write by write

`list.c` keeps lists whose nodes are embedded in the objects they hold: a list
remembers how far into an object its node lies (`offset`), and goes from object
to node and back by adding and subtracting that.  The head of a list is a node
too, embedded in the `cclist_t` itself, so the links run around through it and
no operation has a case of its own for the ends.

## The heap

`Heap` has one function for each field, as a heap of typed records has: `prev`
and `next` for the two fields of `cclist_node_t`, `size` and `offset` for the two
fields of `cclist_t` that are not its head.  The head node of the list at `list`
is the node at `headOf list`, eight bytes further.

Each function below makes the writes of the C function it is named after, in
their order; a read happens in the heap that the writes before it have left.
-/

namespace CCore
namespace LinkedList

/-- The fields of the nodes and of the lists, by their addresses. -/
structure Heap where
  prev : Addr → Addr
  next : Addr → Addr
  size : Addr → UInt64
  offset : Addr → UInt64

namespace Heap

/-- `node->prev = value` -/
def setPrev (m : Heap) (node value : Addr) : Heap :=
  { m with prev := Function.update m.prev node value }

/-- `node->next = value` -/
def setNext (m : Heap) (node value : Addr) : Heap :=
  { m with next := Function.update m.next node value }

/-- `list->size = value` -/
def setSize (m : Heap) (list : Addr) (value : UInt64) : Heap :=
  { m with size := Function.update m.size list value }

/-- `list->offset = value` -/
def setOffset (m : Heap) (list : Addr) (value : UInt64) : Heap :=
  { m with offset := Function.update m.offset list value }

variable (m : Heap) (a v : Addr)

@[simp] theorem setPrev_prev : (m.setPrev a v).prev = Function.update m.prev a v := rfl
@[simp] theorem setPrev_next : (m.setPrev a v).next = m.next := rfl
@[simp] theorem setPrev_size : (m.setPrev a v).size = m.size := rfl
@[simp] theorem setPrev_offset : (m.setPrev a v).offset = m.offset := rfl
@[simp] theorem setNext_prev : (m.setNext a v).prev = m.prev := rfl
@[simp] theorem setNext_next : (m.setNext a v).next = Function.update m.next a v := rfl
@[simp] theorem setNext_size : (m.setNext a v).size = m.size := rfl
@[simp] theorem setNext_offset : (m.setNext a v).offset = m.offset := rfl
@[simp] theorem setSize_prev : (m.setSize a v).prev = m.prev := rfl
@[simp] theorem setSize_next : (m.setSize a v).next = m.next := rfl
@[simp] theorem setSize_size : (m.setSize a v).size = Function.update m.size a v := rfl
@[simp] theorem setSize_offset : (m.setSize a v).offset = m.offset := rfl
@[simp] theorem setOffset_prev : (m.setOffset a v).prev = m.prev := rfl
@[simp] theorem setOffset_next : (m.setOffset a v).next = m.next := rfl
@[simp] theorem setOffset_size : (m.setOffset a v).size = m.size := rfl
@[simp] theorem setOffset_offset : (m.setOffset a v).offset = Function.update m.offset a v := rfl

end Heap

/-- `&list->head`: the head comes after `size` in `cclist_t`. -/
def headOf (list : Addr) : Addr := list + 8

/-- `get_node` -/
def getNode (m : Heap) (list ptr : Addr) : Addr := ptr + m.offset list

/-- `get_ptr` -/
def getPtr (m : Heap) (list node : Addr) : Addr := node - m.offset list

/-- `cclist_init` -/
def cclistInit (m : Heap) (list : Addr) (offset : UInt64) : Option Heap :=
  ccassert (list ≠ null) <|
  let m := m.setSize list 0
  let m := m.setNext (headOf list) (headOf list)
  let m := m.setPrev (headOf list) (headOf list)
  some (m.setOffset list offset)

/-- `cclist_do_insert_after` -/
def cclistDoInsertAfter (m : Heap) (list object node : Addr) : Heap :=
  let item := getNode m list object
  let m := m.setPrev item node
  let m := m.setNext item (m.next node)
  let m := m.setPrev (m.next node) item
  let m := m.setNext node item
  m.setSize list (m.size list + 1)

/-- `cclist_do_insert_before` -/
def cclistDoInsertBefore (m : Heap) (list object node : Addr) : Heap :=
  let item := getNode m list object
  let m := m.setNext item node
  let m := m.setPrev item (m.prev node)
  let m := m.setNext (m.prev node) item
  let m := m.setPrev node item
  m.setSize list (m.size list + 1)

/-- `cclist_insert_first` -/
def cclistInsertFirst (m : Heap) (list object : Addr) : Option Heap :=
  ccassert (list ≠ null) <|
  some (cclistDoInsertAfter m list object (headOf list))

/-- `cclist_insert_last` -/
def cclistInsertLast (m : Heap) (list object : Addr) : Option Heap :=
  ccassert (list ≠ null) <|
  some (cclistDoInsertBefore m list object (headOf list))

/-- `cclist_insert_after` -/
def cclistInsertAfter (m : Heap) (list object item : Addr) : Option Heap :=
  ccassert (list ≠ null) <|
  ccassert (item ≠ null) <|
  some (cclistDoInsertAfter m list object (getNode m list item))

/-- `cclist_insert_before` -/
def cclistInsertBefore (m : Heap) (list object item : Addr) : Option Heap :=
  ccassert (list ≠ null) <|
  ccassert (item ≠ null) <|
  some (cclistDoInsertBefore m list object (getNode m list item))

/-- `cclist_remove` -/
def cclistRemove (m : Heap) (list object : Addr) : Option Heap :=
  ccassert (list ≠ null) <|
  ccassert (object ≠ null) <|
  let node := getNode m list object
  let m := m.setNext (m.prev node) (m.next node)
  let m := m.setPrev (m.next node) (m.prev node)
  let m := m.setNext node null
  let m := m.setPrev node null
  some (m.setSize list (m.size list - 1))

/-- `cclist_remove_first` -/
def cclistRemoveFirst (m : Heap) (list : Addr) : Option Heap :=
  ccassert (list ≠ null) <|
  if m.size list = 0 then some m
  else
    let m := m.setNext (headOf list) (m.next (m.next (headOf list)))
    let m := m.setPrev (m.next (headOf list)) (headOf list)
    some (m.setSize list (m.size list - 1))

/-- `cclist_remove_last` -/
def cclistRemoveLast (m : Heap) (list : Addr) : Option Heap :=
  ccassert (list ≠ null) <|
  if m.size list = 0 then some m
  else
    let m := m.setPrev (headOf list) (m.prev (m.prev (headOf list)))
    let m := m.setNext (m.prev (headOf list)) (headOf list)
    some (m.setSize list (m.size list - 1))

/-- `cclist_first` -/
def cclistFirst (m : Heap) (list : Addr) : Option Addr :=
  ccassert (list ≠ null) <|
  if m.next (headOf list) = headOf list then some null
  else some (getPtr m list (m.next (headOf list)))

/-- `cclist_last` -/
def cclistLast (m : Heap) (list : Addr) : Option Addr :=
  ccassert (list ≠ null) <|
  if m.prev (headOf list) = headOf list then some null
  else some (getPtr m list (m.prev (headOf list)))

/-- `cclist_next` -/
def cclistNext (m : Heap) (list current : Addr) : Addr :=
  let node := getNode m list current
  if m.next node = headOf list then null else getPtr m list (m.next node)

/-- `cclist_prev` -/
def cclistPrev (m : Heap) (list current : Addr) : Addr :=
  let node := getNode m list current
  if m.prev node = headOf list then null else getPtr m list (m.prev node)

/-! ## Operations and walks -/

/-- The calls that change a list. -/
inductive Op where
  | init (list : Addr) (offset : UInt64)
  | insertFirst (list object : Addr)
  | insertLast (list object : Addr)
  | insertAfter (list object item : Addr)
  | insertBefore (list object item : Addr)
  | remove (list object : Addr)
  | removeFirst (list : Addr)
  | removeLast (list : Addr)

/-- The list that is passed to a call. -/
def Op.list : Op → Addr
  | .init list _ => list
  | .insertFirst list _ => list
  | .insertLast list _ => list
  | .insertAfter list _ _ => list
  | .insertBefore list _ _ => list
  | .remove list _ => list
  | .removeFirst list => list
  | .removeLast list => list

/-- One call. -/
def exec (m : Heap) : Op → Option Heap
  | .init list offset => cclistInit m list offset
  | .insertFirst list object => cclistInsertFirst m list object
  | .insertLast list object => cclistInsertLast m list object
  | .insertAfter list object item => cclistInsertAfter m list object item
  | .insertBefore list object item => cclistInsertBefore m list object item
  | .remove list object => cclistRemove m list object
  | .removeFirst list => cclistRemoveFirst m list
  | .removeLast list => cclistRemoveLast m list

/-- `for(p = cclist_first(list); p; p = cclist_next(list, p))`: the objects it
visits before it meets `NULL`, if it does within the fuel. -/
def walkForward (m : Heap) (list : Addr) (fuel : ℕ) : Option (List Addr) :=
  (cclistFirst m list).bind fun p => CircularLinks.walkTo (cclistNext m list) null fuel p

/-- `for(p = cclist_last(list); p; p = cclist_prev(list, p))`: likewise. -/
def walkBackward (m : Heap) (list : Addr) (fuel : ℕ) : Option (List Addr) :=
  (cclistLast m list).bind fun p => CircularLinks.walkTo (cclistPrev m list) null fuel p

end LinkedList
end CCore
