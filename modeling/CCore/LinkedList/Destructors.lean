import CCore.LinkedList.Clear

/-!
# Destructors that destroy

`cclist_clear` hands each object of a list to a destructor, and the destructor may do with it what
it likes: free it, overwrite its links, put it into another list.  The loop reads the link of a
node before it hands the object over and does not come back to it, and the head is initialised
afresh at the end, so nothing that the destructor does to an object is seen later.

What is asked of the destructor is `TouchesOnlyItsOwn`: from the states that the earlier calls have
left, it returns, and it leaves the list itself and the objects that are still to come as they
are.  Nothing is asked about the object it is given, or about those it has been given before.

To say what is not read, the loop is run with a log of the links that it follows and of the calls
it makes (`cclistClearLogged`); without its log it is `cclist_clear`
(`cclistClearLogged_map_fst`).  The pool frees its tasks in this way (`cclistClear_ccFree`), and the
table its values and its nodes.
-/

namespace CCore
namespace LinkedList

open CircularLinks

variable {ρ δ : Type}

/-! ## The log -/

/-- What `cclist_clear` does with the objects of the list. -/
inductive ClearEvent (δ : Type) where
  /-- `item->next` is read -/
  | follow (node : Addr)
  /-- `des(to_free, user_data)` -/
  | destroy (object : Addr) (userData : δ)
  deriving DecidableEq

/-- `cclist_clear`, with a log. -/
def cclistClearLogged (m : Memory ρ) (list : Addr)
    (des : Option (Memory ρ → Addr → δ → Option (Memory ρ))) (userData : δ) :
    Option (Memory ρ × List (ClearEvent δ)) :=
  let follow (m : Memory ρ) (item : Addr) :=
    m.access list 32 <|
    m.access item 16 <|
    some (m.heap.next item)
  let destroy (m : Memory ρ) (item : Addr) :=
    match des with
    | none => some m
    | some des => des m (getPtr m.heap list item) userData
  let reads (_ : Memory ρ) (item : Addr) : List (ClearEvent δ) := [.follow item]
  let runs (m : Memory ρ) (item : Addr) : List (ClearEvent δ) :=
    match des with
    | none => []
    | some _ => [.destroy (getPtr m.heap list item) userData]
  ccassert (list ≠ null) <|
  m.access list 32 <|
  (drainLogged follow destroy reads runs (headOf list) (m.heap.size list).toNat m []
    (m.heap.next (headOf list))).bind fun (m, log) =>
    m.access list 32 <|
    (cclistInit m.heap list (m.heap.offset list)).map fun heap => ({ m with heap := heap }, log)

namespace Memory

/-- The code that comes after a read or a write, under a map. -/
theorem map_access {β γ : Type} (f : β → γ) (m : Memory ρ) (a : Addr) (size : ℕ)
    (rest : Option β) : (m.access a size rest).map f = m.access a size (rest.map f) := by
  rw [access, access, apply_ite (Option.map f), Option.map_none]

end Memory

/-- **The log is only a log.** -/
theorem cclistClearLogged_map_fst (m : Memory ρ) (list : Addr)
    (des : Option (Memory ρ → Addr → δ → Option (Memory ρ))) (userData : δ) :
    (cclistClearLogged m list des userData).map Prod.fst = cclistClear m list des userData := by
  rw [cclistClearLogged, cclistClear, ccassert, ccassert, apply_ite (Option.map Prod.fst),
    Memory.map_access, Option.map_bind, ← drainLogged_map_fst, Option.bind_map]
  refine congrArg (fun rest => ite _ (m.access list 32 rest) _) (Option.bind_congr ?_)
  rintro ⟨m', log⟩ -
  rw [Function.comp_apply, Memory.map_access, Option.map_map]
  rfl

/-! ## What a destructor may do -/

/-- The list at `list` is what it was. -/
structure LeavesList (m m' : Memory ρ) (list : Addr) : Prop where
  size : m'.heap.size list = m.heap.size list
  offset : m'.heap.offset list = m.heap.offset list
  next : m'.heap.next (headOf list) = m.heap.next (headOf list)
  prev : m'.heap.prev (headOf list) = m.heap.prev (headOf list)
  accessible : m.Accessible list 32 → m'.Accessible list 32

/-- The node at `node` is what it was. -/
structure LeavesNode (m m' : Memory ρ) (node : Addr) : Prop where
  next : m'.heap.next node = m.heap.next node
  prev : m'.heap.prev node = m.heap.prev node
  accessible : m.Accessible node 16 → m'.Accessible node 16

/-- The calls of a destructor with some objects, one after the other. -/
def destroyAll (des : Memory ρ → Addr → δ → Option (Memory ρ)) (userData : δ) (m : Memory ρ)
    (objects : List Addr) : Option (Memory ρ) :=
  objects.foldlM (fun m object => des m object userData) m

theorem destroyAll_snoc (des : Memory ρ → Addr → δ → Option (Memory ρ)) (userData : δ)
    (m : Memory ρ) (before : List Addr) (x : Addr) :
    destroyAll des userData m (before ++ [x]) =
      (destroyAll des userData m before).bind fun m₁ => des m₁ x userData := by
  rw [destroyAll, List.foldlM_append]
  exact Option.bind_congr fun m₁ _ => bind_pure (des m₁ x userData)

/-- **The destructor touches only what it is given.**  When the objects before `x` have been
destroyed, it returns from its call with `x`, and has left the list and the objects behind `x` as
they were. -/
def TouchesOnlyItsOwn (m : Memory ρ) (list : Addr) (c : Content)
    (des : Memory ρ → Addr → δ → Option (Memory ρ)) (userData : δ) : Prop :=
  ∀ before x after m₁, c.objects = before ++ x :: after →
    destroyAll des userData m before = some m₁ →
    ∃ m₂, des m₁ x userData = some m₂ ∧ LeavesList m₁ m₂ list ∧
      ∀ y ∈ after, LeavesNode m₁ m₂ (y + c.offset)

/-- The list and the nodes of its objects are in use. -/
def Live (m : Memory ρ) (list : Addr) (c : Content) : Prop :=
  m.Accessible list 32 ∧ ∀ node ∈ c.nodes, m.Accessible node 16

/-- What the log of a list with these objects is. -/
def clearLog (c : Content) (userData : δ) : List (ClearEvent δ) :=
  c.objects.flatMap fun x => [.follow (x + c.offset), .destroy x userData]

/-! ## Clearing -/

variable {m m₁ : Memory ρ} {list : Addr} {c : Content} {userData : δ}
  {des : Memory ρ → Addr → δ → Option (Memory ρ)}

/-- The objects `after` are still to come. -/
structure Destroying (m : Memory ρ) (list : Addr) (c : Content)
    (des : Memory ρ → Addr → δ → Option (Memory ρ)) (userData : δ) (after : List Addr)
    (m₁ : Memory ρ) : Prop where
  reached : ∃ before, c.objects = before ++ after ∧ destroyAll des userData m before = some m₁
  offset : m₁.heap.offset list = c.offset
  accessible : m₁.Accessible list 32
  next : ∀ x ∈ after, m₁.heap.next (x + c.offset) = m.heap.next (x + c.offset)
  live : ∀ x ∈ after, m₁.Accessible (x + c.offset) 16

theorem Destroying.start (hholds : Holds m.heap list c) (hlive : Live m list c) :
    Destroying m list c des userData c.objects m :=
  ⟨⟨[], rfl, rfl⟩, hholds.offset, hlive.1, fun _ _ => rfl,
    fun _ hx => hlive.2 _ (List.mem_map_of_mem hx)⟩

/-- The link that is followed is that of the list as it was at the beginning. -/
theorem Destroying.next_eq (hholds : Holds m.heap list c) {x : Addr} {after : List Addr}
    (h : Destroying m list c des userData (x :: after) m₁) :
    x + c.offset ≠ headOf list ∧
      m₁.heap.next (x + c.offset) = (after.map (· + c.offset)).headD (headOf list) := by
  obtain ⟨before, hobjects, -⟩ := h.reached
  have hring := hholds.ring
  rw [Content.nodes, hobjects, List.map_append, List.map_cons] at hring
  refine ⟨?_, ?_⟩
  · rintro heq
    exact hring.head_notMem (heq ▸ List.mem_append_right _ List.mem_cons_self)
  · rw [h.next x List.mem_cons_self, hring.next_mem]

/-- **One call.** -/
theorem Destroying.step (hdes : TouchesOnlyItsOwn m list c des userData) {x : Addr}
    {after : List Addr} (h : Destroying m list c des userData (x :: after) m₁) :
    ∃ m₂, des m₁ x userData = some m₂ ∧ Destroying m list c des userData after m₂ := by
  obtain ⟨before, hobjects, hbefore⟩ := h.reached
  obtain ⟨m₂, hm₂, hlist, hnodes⟩ := hdes before x after m₁ hobjects hbefore
  refine ⟨m₂, hm₂, ⟨before ++ [x], ?_, ?_⟩, hlist.offset.trans h.offset,
    hlist.accessible h.accessible, fun y hy => ?_, fun y hy => ?_⟩
  · rw [← List.append_cons]
    exact hobjects
  · rw [destroyAll_snoc, hbefore]
    exact hm₂
  · exact ((hnodes y hy).next).trans (h.next y (List.mem_cons_of_mem x hy))
  · exact (hnodes y hy).accessible (h.live y (List.mem_cons_of_mem x hy))

/-- **One turn of the loop**, in the order of its reads and its call. -/
theorem Destroying.turn (hholds : Holds m.heap list c)
    (hdes : TouchesOnlyItsOwn m list c des userData) {x : Addr} {after : List Addr}
    (h : Destroying m list c des userData (x :: after) m₁) :
    x + c.offset ≠ headOf list ∧
      (m₁.access list 32 <| m₁.access (x + c.offset) 16 <|
        some (m₁.heap.next (x + c.offset))) =
          some ((after.map (· + c.offset)).headD (headOf list)) ∧
      [ClearEvent.follow (x + c.offset)] ++
        [.destroy (getPtr m₁.heap list (x + c.offset)) userData] =
          [.follow (x + c.offset), .destroy x userData] ∧
      ∃ m₂, des m₁ (getPtr m₁.heap list (x + c.offset)) userData = some m₂ ∧
        Destroying m list c des userData after m₂ := by
  obtain ⟨hhead, hnext⟩ := h.next_eq hholds
  have hptr : getPtr m₁.heap list (x + c.offset) = x := by
    rw [getPtr, h.offset]
    exact UInt64.add_sub_cancel x c.offset
  rw [hptr]
  refine ⟨hhead, ?_, rfl, h.step hdes⟩
  rw [Memory.access_pos h.accessible, Memory.access_pos (h.live x List.mem_cons_self), hnext]

/-- **Clearing destroys the objects one after the other**, and empties the list. -/
theorem cclistClearLogged_eq (hholds : Holds m.heap list c) (hlive : Live m list c)
    (hdes : TouchesOnlyItsOwn m list c des userData) :
    ∃ m₁ heap, destroyAll des userData m c.objects = some m₁ ∧
      cclistClearLogged m list (some des) userData =
        some ({ m₁ with heap := heap }, clearLog c userData) ∧
      Holds heap list ⟨c.offset, []⟩ := by
  obtain ⟨m₁, hdrain, hlast⟩ := drainLogged_rule
    (fun m item => m.access list 32 <| m.access item 16 <| some (m.heap.next item))
    (fun m item => des m (getPtr m.heap list item) userData)
    (fun _ item => [ClearEvent.follow item])
    (fun m item => [ClearEvent.destroy (getPtr m.heap list item) userData])
    (· + c.offset) (fun x => [ClearEvent.follow (x + c.offset), .destroy x userData])
    (fun x after m₁ h => h.turn hholds hdes) (Destroying.start hholds hlive)
    hholds.size_toNat.ge []
  obtain ⟨before, hobjects, hm₁⟩ := hlast.reached
  obtain ⟨heap, hheap, hempty⟩ : ∃ heap, cclistInit m₁.heap list c.offset = some heap ∧
      Updates m₁.heap heap list ⟨c.offset, []⟩ (places list ⟨c.offset, []⟩) :=
    cclistInit_updates hholds.list_ne_null
  rw [List.append_nil] at hobjects
  refine ⟨m₁, heap, ?_, ?_, hempty.holds⟩
  · rw [hobjects]
    exact hm₁
  · rw [cclistClearLogged, ccassert_pos hholds.list_ne_null, Memory.access_pos hlive.1,
      hholds.ring.next_head, Content.nodes]
    show (Option.bind (drainLogged _ _ _ _ _ _ _ _ _) _) = _
    rw [hdrain, Option.bind_some]
    show m₁.access list 32 (Option.map _ _) = _
    rw [Memory.access_pos hlast.accessible, hlast.offset, hheap]
    rfl

/-- No link of a node is followed once its object has been handed over. -/
theorem follow_notMem_clearLog (hnodup : c.nodes.Nodup) {before after : List (ClearEvent δ)}
    {x : Addr} (h : clearLog c userData = before ++ .destroy x userData :: after) :
    .follow (x + c.offset) ∉ after := by
  obtain ⟨offset, objects⟩ := c
  rw [clearLog] at h
  rw [Content.nodes_mk] at hnodup
  dsimp only at h hnodup ⊢
  induction objects generalizing before with
  | nil => exact absurd h (List.append_ne_nil_of_right_ne_nil _ (List.cons_ne_nil _ _)).symm
  | cons y objects ih =>
    obtain ⟨hy, hnodup⟩ := List.nodup_cons.mp hnodup
    rw [List.flatMap_cons, List.cons_append, List.cons_append, List.nil_append] at h
    match before, h with
    | [], h => exact absurd (List.cons.inj h).1 (by simp)
    | [e], h =>
      obtain ⟨-, h⟩ := List.cons.inj h
      obtain ⟨hevent, rfl⟩ := List.cons.inj h
      obtain ⟨rfl, -⟩ := ClearEvent.destroy.inj hevent
      intro hmem
      obtain ⟨z, hz, hfollow⟩ := List.mem_flatMap.mp hmem
      have heq : y + offset = z + offset := by simpa using hfollow
      exact hy (List.mem_map.mpr ⟨z, hz, heq.symm⟩)
    | _ :: _ :: before, h =>
      exact ih hnodup (List.cons.inj (List.cons.inj h).2).2

/-- **Clearing a list tolerates destructive destructors.**  It calls the destructor with each
object of the list, in order and with the user data, follows the link of a node just before its
object is handed over and never after that, comes to an end, and leaves an empty list with the
same offset. -/
theorem cclistClear_tolerates_destruction (m : Memory ρ) (list : Addr) (c : Content)
    (des : Memory ρ → Addr → δ → Option (Memory ρ)) (userData : δ) (hholds : Holds m.heap list c)
    (hlive : Live m list c) (hdes : TouchesOnlyItsOwn m list c des userData) :
    ∃ m₁ heap, destroyAll des userData m c.objects = some m₁ ∧
      cclistClear m list (some des) userData = some { m₁ with heap := heap } ∧
      cclistClearLogged m list (some des) userData =
        some ({ m₁ with heap := heap }, clearLog c userData) ∧
      (∀ before x after, clearLog c userData = before ++ .destroy x userData :: after →
        .follow (x + c.offset) ∉ after) ∧
      Holds heap list ⟨c.offset, []⟩ := by
  obtain ⟨m₁, heap, hm₁, hlogged, hempty⟩ := cclistClearLogged_eq hholds hlive hdes
  have hclear := cclistClearLogged_map_fst m list (some des) userData
  rw [hlogged] at hclear
  exact ⟨m₁, heap, hm₁, hclear.symm, hlogged,
    fun _ _ _ => follow_notMem_clearLog (List.nodup_cons.mp hholds.ring.nodup).2, hempty⟩

/-- A list at 100 with objects at 1000 and 2000, each of the three in a block of its own. -/
def twoObjects : Memory Unit where
  heap := {
    prev := fun a => if a = 1016 then 108 else if a = 2016 then 1016 else 2016
    next := fun a => if a = 108 then 1016 else if a = 1016 then 2016 else 108
    size := fun _ => 2
    offset := fun _ => 16 }
  blocks := [⟨100, 40, by decide, by decide, by decide⟩,
    ⟨1000, 40, by decide, by decide, by decide⟩, ⟨2000, 40, by decide, by decide, by decide⟩]
  allocated := []
  freed := []
  rest := ()

/-- A destructor that overwrites the links of an object before it frees it. -/
def overwriteAndFree (m : Memory Unit) (x : Addr) (_ : ℕ) : Option (Memory Unit) :=
  ccFree { m with heap := (m.heap.setNext (x + 16) 7).setPrev (x + 16) 7 } x

theorem cclistClear_tolerates_destruction_two :
    ∃ m₁ heap, destroyAll overwriteAndFree 5 twoObjects [1000, 2000] = some m₁ ∧
      cclistClear twoObjects 100 (some overwriteAndFree) 5 = some { m₁ with heap := heap } ∧
      cclistClearLogged twoObjects 100 (some overwriteAndFree) 5 =
        some ({ m₁ with heap := heap },
          [.follow 1016, .destroy 1000 5, .follow 2016, .destroy 2000 5]) ∧
      (∀ before x after, clearLog ⟨16, [1000, 2000]⟩ 5 = before ++ .destroy x 5 :: after →
        .follow (x + 16) ∉ after) ∧
      Holds heap 100 ⟨16, []⟩ := by
  refine cclistClear_tolerates_destruction twoObjects 100 ⟨16, [1000, 2000]⟩ overwriteAndFree 5
    ?_ ?_ ?_
  · exact ⟨by decide, rfl, rfl, ⟨.cons_cons ⟨rfl, rfl⟩ (.cons_cons ⟨rfl, rfl⟩
      (.cons_cons ⟨rfl, rfl⟩ (.singleton _))), by decide⟩, by decide⟩
  · exact ⟨by decide, List.forall_mem_cons.mpr ⟨by decide, List.forall_mem_cons.mpr
      ⟨by decide, List.forall_mem_nil _⟩⟩⟩
  · intro before x after m₁ hobjects hm₁
    match before, hobjects with
    | [], hobjects =>
      obtain ⟨rfl, rfl⟩ := List.cons.inj hobjects
      obtain rfl := Option.some.inj hm₁
      refine ⟨_, rfl, ⟨rfl, rfl, rfl, rfl, fun _ => by decide⟩, fun y hy => ?_⟩
      obtain rfl := List.mem_singleton.mp hy
      exact ⟨rfl, rfl, fun _ => by decide⟩
    | [y], hobjects =>
      obtain ⟨rfl, h⟩ := List.cons.inj hobjects
      obtain ⟨rfl, rfl⟩ := List.cons.inj h
      obtain rfl := Option.some.inj hm₁
      exact ⟨_, rfl, ⟨rfl, rfl, rfl, rfl, fun _ => by decide⟩, fun y hy => absurd hy (by simp)⟩
    | y :: z :: before, hobjects =>
      exact absurd (List.cons.inj (List.cons.inj hobjects).2).2 (by simp)

/-! ## Tasks -/

/-- `task_destructor`, of the thread pool. -/
def taskDestructor (m : Memory ρ) (task : Addr) (_refcon : δ) : Option (Memory ρ) := ccFree m task

/-- What is left when the tasks `before` have been freed. -/
def freedAll (m : Memory ρ) (before : List Addr) : Memory ρ :=
  { m with blocks := m.blocks.filter (·.start ∉ before), freed := m.freed ++ before }

theorem freedAll_hasBlock {before : List Addr} {a : Addr} {n : ℕ} (h : m.HasBlock a n)
    (ha : a ∉ before) : (freedAll m before).HasBlock a n := by
  obtain ⟨b, hb, rfl, hsize⟩ := h
  exact ⟨b, List.mem_filter.mpr ⟨hb, decide_eq_true ha⟩, rfl, hsize⟩

/-- One task more. -/
theorem taskDestructor_freedAll {before : List Addr} {x : Addr} {n : ℕ} (h : m.HasBlock x n)
    (hx : x ∉ before) :
    taskDestructor (freedAll m before) x userData = some (freedAll m (before ++ [x])) := by
  have hfilter : (m.blocks.filter fun b => b.start ∉ before).filter (fun b => b.start ≠ x) =
      m.blocks.filter fun b => b.start ∉ before ++ [x] := by
    rw [List.filter_filter]
    refine List.filter_congr fun b _ => ?_
    rw [← Bool.decide_and]
    refine decide_eq_decide.mpr ?_
    rw [List.mem_append, List.mem_singleton, not_or, and_comm]
  rw [taskDestructor, ccFree_of_hasBlock (freedAll_hasBlock h hx)]
  show some { m with
    blocks := (m.blocks.filter fun b : Block => b.start ∉ before).filter
      fun b : Block => b.start ≠ x
    freed := m.freed ++ before ++ [x] } = _
  rw [hfilter, List.append_assoc]
  rfl

theorem destroyAll_taskDestructor {before : List Addr} {n : ℕ}
    (hblocks : ∀ x ∈ before, m.HasBlock x n) (hnodup : before.Nodup) :
    destroyAll taskDestructor userData m before = some (freedAll m before) := by
  induction before using List.reverseRecOn with
  | nil =>
    have hfilter : m.blocks.filter (fun b => b.start ∉ ([] : List Addr)) = m.blocks :=
      List.filter_eq_self.mpr fun b _ => decide_eq_true List.not_mem_nil
    rw [freedAll, List.append_nil, hfilter]
    rfl
  | append_singleton before x ih =>
    obtain ⟨hx, hbefore⟩ := List.nodup_cons.mp (List.nodup_append_comm.mp hnodup)
    rw [destroyAll_snoc, ih (fun y hy => hblocks y (List.mem_append_left _ hy)) hbefore,
      Option.bind_some]
    exact taskDestructor_freedAll (hblocks x (List.mem_append_right _ (List.mem_singleton_self x)))
      hx

/-- **Freeing an object touches nothing else**, if each object begins a block, and the list lies
in another one. -/
theorem touchesOnlyItsOwn_taskDestructor {a k : Addr} {n : ℕ} (hholds : Holds m.heap (a + k) c)
    (hlist : m.HasBlock a n) (hk : k.toNat + 32 ≤ n) (ha : a ∉ c.objects)
    (hblocks : ∀ x ∈ c.objects, m.HasBlock x (c.offset.toNat + 16)) :
    TouchesOnlyItsOwn m (a + k) c taskDestructor userData := by
  intro before x after m₁ hobjects hm₁
  have hnodup := hholds.nodup
  rw [hobjects] at ha hblocks hnodup
  rw [List.append_cons] at ha hblocks hnodup
  obtain ⟨hfront, -, hapart⟩ := List.nodup_append.mp hnodup
  obtain ⟨hx, hbefore⟩ := List.nodup_cons.mp (List.nodup_append_comm.mp hfront)
  rw [List.mem_append, not_or] at ha
  rw [destroyAll_taskDestructor (fun y hy => hblocks y (List.mem_append_left _
    (List.mem_append_left _ hy))) hbefore, Option.some_inj] at hm₁
  obtain rfl := hm₁
  refine ⟨_, taskDestructor_freedAll (hblocks x (List.mem_append_left _
    (List.mem_append_right _ (List.mem_singleton_self x)))) hx, ⟨rfl, rfl, rfl, rfl, fun _ => ?_⟩,
    fun y hy => ⟨rfl, rfl, fun _ => ?_⟩⟩
  · exact (freedAll_hasBlock hlist ha.1).accessible (by decide) hk
  · refine (freedAll_hasBlock (hblocks y (List.mem_append_right _ hy)) fun hmem => ?_).accessible
      (by decide) le_rfl
    exact hapart y hmem y hy rfl

/-- **Stopping the pool frees the tasks that are left in it**, each of them once, in the order of
the queue. -/
theorem cclistClear_taskDestructor {a k : Addr} {n : ℕ} (hholds : Holds m.heap (a + k) c)
    (hlist : m.HasBlock a n) (hk : k.toNat + 32 ≤ n) (ha : a ∉ c.objects)
    (hblocks : ∀ x ∈ c.objects, m.HasBlock x (c.offset.toNat + 16)) (userData : δ) :
    ∃ heap, cclistClear m (a + k) (some taskDestructor) userData =
        some { freedAll m c.objects with heap := heap } ∧ Holds heap (a + k) ⟨c.offset, []⟩ := by
  have hlive : Live m (a + k) c := by
    refine ⟨hlist.accessible (by decide) hk, fun node hnode => ?_⟩
    obtain ⟨x, hx, rfl⟩ := List.mem_map.mp hnode
    exact (hblocks x hx).accessible (by decide) le_rfl
  have hdes : TouchesOnlyItsOwn m (a + k) c taskDestructor userData :=
    touchesOnlyItsOwn_taskDestructor hholds hlist hk ha hblocks
  obtain ⟨m₁, heap, hm₁, hlogged, hempty⟩ := cclistClearLogged_eq hholds hlive hdes
  have hclear := cclistClearLogged_map_fst m (a + k) (some taskDestructor) userData
  rw [destroyAll_taskDestructor hblocks hholds.nodup, Option.some_inj] at hm₁
  rw [hlogged] at hclear
  subst hm₁
  exact ⟨heap, hclear.symm, hempty⟩

end LinkedList
end CCore
