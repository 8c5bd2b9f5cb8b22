import CCore.LinkedList.Books
import CCore.Library.Runs

/-!
# The objects of a collector

`gc_new` allocates an object and puts it in front of a list that runs through the objects
themselves, by a pointer in the header of each.  `gc_deinit` follows this list and frees what it
meets, reading the pointer of an object before it frees it.  `gc_collect` follows the list too, and
marks nothing and frees nothing, so that passing the threshold changes nothing.

The list is safe only as long as the program leaves the headers alone and frees no object itself:
this is `Legal`.  The program may do everything else in between, and allocate, free and write what
it likes.  Then every object stays allocated until `gc_deinit`, which frees it, once, the last
object first; and no function of the collector touches what is not in use (`gc_keeps_objects`).

A list without a loop has no more objects than there are blocks, and their number is the fuel of the
two loops.
-/

namespace CCore
namespace Value

open CircularLinks LinkedList Runs

/-- The fields of an `object_t`. -/
structure ObjectFields where
  kind : Addr → ℤ
  next : Addr → Addr
  isMarked : Addr → Bool

/-- `sizeof(object_t)` -/
def objectSize : ℕ := 24

/-- `offsetof(object_t, next)` -/
def nextOffset : UInt64 := 8

/-- `offsetof(object_t, is_marked)` -/
def isMarkedOffset : UInt64 := 16

/-- `obj_gc_t` -/
structure ObjGc where
  markFlag : Bool
  head : Addr
  allocated : UInt64
  nextCollect : UInt64
  deriving DecidableEq

/-- `GC_INITIAL_THRESHOLD` -/
def gcInitialThreshold : UInt64 := 128

/-- `gc_init` -/
def gcInit : ObjGc where
  markFlag := true
  head := null
  allocated := 0
  nextCollect := gcInitialThreshold

/-- A program with a collector.  `objects` is history: what `gc_new` has returned since the last
`gc_init`, the latest first. -/
structure World where
  gc : ObjGc
  memory : Memory ObjectFields
  objects : List Addr

/-- `obj->next` -/
def follow (m : Memory ObjectFields) (obj : Addr) : Option Addr :=
  m.access (obj + nextOffset) 8 (some (m.rest.next obj))

/-- `gc_deinit` -/
def gcDeinit (w : World) : Option World :=
  (drainTo follow ccFree null w.memory.blocks.length w.memory w.gc.head).map fun m =>
    ⟨gcInit, m, []⟩

/-- `gc_collect` -/
def gcCollect (w : World) : Option World :=
  (drainTo follow (fun m _ => some m) null w.memory.blocks.length w.memory w.gc.head).map fun m =>
    { w with memory := m }

/-- The three fields of an object are written. -/
def withHeader (m : Memory ObjectFields) (obj : Addr) (isMarked : Bool) (kind : ℤ) (next : Addr) :
    Memory ObjectFields :=
  { m with
    rest :=
      { isMarked := Function.update m.rest.isMarked obj isMarked
        kind := Function.update m.rest.kind obj kind
        next := Function.update m.rest.next obj next } }

/-- `gc_new`.  `ptr` is what `cc_alloc` returns. -/
def gcNew (w : World) (size : ℕ) (kind : ℤ) (ptr : Addr) : Option World :=
  ccassert (objectSize < size) <|
  (ccAlloc w.memory size ptr).bind fun m =>
  let obj := ptr
  let w := { w with gc := { w.gc with allocated := w.gc.allocated + 1 }, memory := m }
  (if w.gc.nextCollect < w.gc.allocated then gcCollect w else some w).bind fun w =>
  let m := w.memory
  m.access (obj + isMarkedOffset) 1 <|
  m.access obj 4 <|
  m.access (obj + nextOffset) 8 <|
  some
    { gc := { w.gc with head := obj }
      memory := withHeader m obj (!w.gc.markFlag) kind w.gc.head
      objects := obj :: w.objects }

/-- What happens in the program. -/
inductive Action where
  | gcNew (size : ℕ) (kind : ℤ) (ptr : Addr)
  | gcCollect
  | gcDeinit
  /-- the program allocates something else -/
  | alloc (size : ℕ) (ptr : Addr)
  /-- the program frees something -/
  | free (ptr : Addr)
  /-- the program writes, and what is at the places of the fields is this then -/
  | write (fields : ObjectFields)

def step (w : World) : Action → Option World
  | .gcNew size kind ptr => gcNew w size kind ptr
  | .gcCollect => gcCollect w
  | .gcDeinit => gcDeinit w
  | .alloc size ptr => (ccAlloc w.memory size ptr).map fun m => { w with memory := m }
  | .free ptr => (ccFree w.memory ptr).map fun m => { w with memory := m }
  | .write fields => some { w with memory := { w.memory with rest := fields } }

/-- The program leaves the objects to the collector, and their headers as they are. -/
def Legal (w : World) : Action → Prop
  | .free ptr => ptr ∉ w.objects
  | .write fields => ∀ obj ∈ w.objects, fields.next obj = w.memory.rest.next obj
  | _ => True

/-- `gc_init`, in a program that has this memory. -/
def start (m : Memory ObjectFields) : World := ⟨gcInit, m, []⟩

/-! ## The list of the objects -/

variable {w w' : World} {m m' : Memory ObjectFields} {objs : List Addr} {ptr : Addr}

/-- The objects are linked from `head` on, in this order, and each of them is in use. -/
structure Objects (m : Memory ObjectFields) (head : Addr) (objs : List Addr) : Prop where
  head : head = objs.headD null
  next : ∀ before obj rest, objs = before ++ obj :: rest → m.rest.next obj = rest.headD null
  nodup : objs.Nodup
  hasBlock : ∀ obj ∈ objs, m.HasBlock obj objectSize

/-- **The invariant.** -/
structure Sound (w : World) : Prop where
  objects : Objects w.memory w.gc.head w.objects
  apart : w.memory.blocks.Pairwise Block.Apart
  allocated : w.gc.allocated = UInt64.ofNat w.objects.length

namespace Objects

variable {head : Addr}

/-- There are blocks enough. -/
theorem length_le (h : Objects m head objs) : objs.length ≤ m.blocks.length := by
  have hsub : objs ⊆ m.starts := by
    intro obj hobj
    obtain ⟨b, hb, rfl, -⟩ := h.hasBlock obj hobj
    exact List.mem_map_of_mem hb
  have hle := (h.nodup.subperm hsub).length_le
  rwa [Memory.starts, List.length_map] at hle

/-- **The loop over the objects.**  Its body makes `after before` of the memory, step by step, and
leaves the pointers alone, and the objects to come. -/
theorem drain (h : Objects m head objs)
    (body : Memory ObjectFields → Addr → Option (Memory ObjectFields))
    (after : List Addr → Memory ObjectFields) (hrest : ∀ before, (after before).rest = m.rest)
    (hturn : ∀ before obj rest, objs = before ++ obj :: rest →
      (after before).HasBlock obj objectSize ∧
        body (after before) obj = some (after (before ++ [obj]))) :
    drainTo follow body null m.blocks.length (after []) head = some (after objs) := by
  have hstep : ∀ obj rest m', (∃ before, objs = before ++ obj :: rest ∧ m' = after before) →
      obj ≠ null ∧ follow m' obj = some ((rest.map fun obj => obj).headD null) ∧
        ∃ m'', body m' obj = some m'' ∧ ∃ before, objs = before ++ rest ∧ m'' = after before := by
    rintro obj rest _ ⟨before, hobjs, rfl⟩
    obtain ⟨hblock, hbody⟩ := hturn before obj rest hobjs
    refine ⟨hblock.ne_null, ?_, _, hbody, before ++ [obj], ?_, rfl⟩
    · rw [follow, Memory.access_pos (hblock.accessible (by decide) (by decide)), hrest,
        List.map_id', h.next before obj rest hobjs]
    · rw [hobjs, List.append_assoc, List.singleton_append]
  obtain ⟨m', hdrain, before, hobjs, rfl⟩ :=
    drainTo_rule follow body (fun obj => obj)
      (Q := fun rest m' => ∃ before, objs = before ++ rest ∧ m' = after before) hstep
      ⟨[], rfl, rfl⟩ h.length_le
  rw [List.append_nil] at hobjs
  rwa [List.map_id', ← h.head, ← hobjs] at hdrain

/-- Objects that keep their pointers and their blocks. -/
theorem congr (h : Objects m head objs) (hnext : ∀ obj ∈ objs, m'.rest.next obj = m.rest.next obj)
    (hkeeps : ∀ obj ∈ objs, m'.HasBlock obj objectSize) : Objects m' head objs := by
  refine ⟨h.head, fun before obj rest hobjs => ?_, h.nodup, hkeeps⟩
  rw [hnext obj (hobjs ▸ List.mem_append_right _ List.mem_cons_self)]
  exact h.next before obj rest hobjs

/-- An object more. -/
theorem cons (h : Objects m head objs) (hptr : m.rest.next ptr = head)
    (hblock : m.HasBlock ptr objectSize) (hnew : ptr ∉ objs) : Objects m ptr (ptr :: objs) := by
  refine ⟨rfl, fun before obj rest hobjs => ?_, List.nodup_cons.mpr ⟨hnew, h.nodup⟩,
    List.forall_mem_cons.mpr ⟨hblock, h.hasBlock⟩⟩
  cases before with
  | nil =>
    obtain ⟨rfl, rfl⟩ := List.cons.inj hobjs
    exact hptr.trans h.head
  | cons b before => exact h.next before obj rest (List.cons.inj hobjs).2

/-- An object more, in front of the others. -/
theorem withHeader (h : Objects m head objs) (hblock : m.HasBlock ptr objectSize)
    (hnew : ptr ∉ objs) (isMarked : Bool) (kind : ℤ) :
    Objects (Value.withHeader m ptr isMarked kind head) ptr (ptr :: objs) := by
  have hothers : Objects (Value.withHeader m ptr isMarked kind head) head objs :=
    h.congr (fun obj hobj => Function.update_of_ne (ne_of_mem_of_not_mem hobj hnew) _ _) h.hasBlock
  exact hothers.cons (Function.update_self _ _ _) hblock hnew

end Objects

/-! ## What the functions do -/

/-- **`gc_collect` changes nothing.** -/
theorem Objects.gcCollect_eq (h : Objects w.memory w.gc.head objs) : gcCollect w = some w := by
  have hdrain := h.drain (fun m _ => some m) (fun _ => w.memory) (fun _ => rfl)
    fun before obj rest hobjs =>
      ⟨h.hasBlock obj (hobjs ▸ List.mem_append_right _ List.mem_cons_self), rfl⟩
  rw [gcCollect, hdrain]
  rfl

/-- **`gc_deinit` frees the objects**, in their order. -/
theorem Sound.gcDeinit_eq (h : Sound w) :
    gcDeinit w = some ⟨gcInit, freedAll w.memory w.objects, []⟩ := by
  have hturn : ∀ before obj rest, w.objects = before ++ obj :: rest →
      (freedAll w.memory before).HasBlock obj objectSize ∧
        ccFree (freedAll w.memory before) obj = some (freedAll w.memory (before ++ [obj])) := by
    intro before obj rest hobjs
    have hblock := h.objects.hasBlock obj (hobjs ▸ List.mem_append_right _ List.mem_cons_self)
    have hnot : obj ∉ before := by
      have hnodup := h.objects.nodup
      rw [hobjs] at hnodup
      exact fun hb => (List.nodup_append.mp hnodup).2.2 obj hb obj List.mem_cons_self rfl
    have hfree : taskDestructor (freedAll w.memory before) obj () =
        some (freedAll w.memory (before ++ [obj])) := taskDestructor_freedAll hblock hnot
    exact ⟨freedAll_hasBlock hblock hnot, hfree⟩
  have hnothing : freedAll w.memory [] = w.memory := by
    rw [freedAll, List.append_nil,
      List.filter_eq_self.mpr fun b _ => decide_eq_true List.not_mem_nil]
  have hdrain := h.objects.drain ccFree (freedAll w.memory) (fun _ => rfl) hturn
  rw [hnothing] at hdrain
  rw [gcDeinit, hdrain]
  rfl

/-- What the program allocates is none of the objects. -/
theorem Sound.alloc (h : Sound w) {size : ℕ} (hm : ccAlloc w.memory size ptr = some m) :
    Sound { w with memory := m } := by
  rcases eq_or_ne size 0 with rfl | hsize
  · rw [ccAlloc, if_pos rfl] at hm
    obtain ⟨-, hm⟩ := Option.ite_none_right_eq_some.mp hm
    obtain rfl := Option.some.inj hm
    exact h
  · have ha := allocated_of_ccAlloc hsize hm
    exact ⟨h.objects.congr (fun obj _ => by rw [ha.rest])
      fun obj hobj => ha.keeps obj _ (h.objects.hasBlock obj hobj),
      pairwise_apart_ccAlloc hsize hm h.apart, h.allocated⟩

/-- **`gc_new`** comes to its end whenever `cc_alloc` does. -/
theorem Sound.gcNew_eq (h : Sound w) {size : ℕ} (kind : ℤ) (hsize : objectSize < size)
    (hm : ccAlloc w.memory size ptr = some m) :
    ∃ w', gcNew w size kind ptr = some w' ∧ Sound w' ∧ w'.objects = ptr :: w.objects ∧
      w'.memory.freed = w.memory.freed := by
  have hne : size ≠ 0 := Nat.ne_zero_of_lt hsize
  have ha := allocated_of_ccAlloc hne hm
  have hnew : ptr ∉ w.objects := by
    intro hmem
    obtain ⟨b, hb, hstart, -⟩ := h.objects.hasBlock ptr hmem
    exact ha.start_fresh (hstart ▸ List.mem_map_of_mem hb)
  have hblock : m.HasBlock ptr objectSize := ha.hasBlock.mono hsize.le
  have hobjects : Objects m w.gc.head w.objects := h.objects.congr (fun obj _ => by rw [ha.rest])
    fun obj hobj => ha.keeps obj _ (h.objects.hasBlock obj hobj)
  rw [gcNew, ccassert_pos hsize, hm, Option.bind_some]
  dsimp only
  -- passing the threshold makes no difference
  rw [Objects.gcCollect_eq hobjects, ite_self, Option.bind_some]
  dsimp only
  rw [Memory.access_pos (hblock.accessible (by decide) (by decide)),
    Memory.access_pos (hblock.accessible_start (by decide)),
    Memory.access_pos (hblock.accessible (by decide) (by decide))]
  have hapart : m.blocks.Pairwise Block.Apart := pairwise_apart_ccAlloc hne hm h.apart
  refine ⟨_, rfl, ⟨hobjects.withHeader hblock hnew _ kind, hapart, ?_⟩, rfl, ha.freed⟩
  show w.gc.allocated + 1 = UInt64.ofNat (w.objects.length + 1)
  rw [h.allocated, UInt64.ofNat_add]
  rfl

/-! ## Runs -/

theorem sound_start (hapart : m.blocks.Pairwise Block.Apart) : Sound (start m) := by
  refine ⟨⟨rfl, fun before obj rest hobjs => ?_, List.nodup_nil, nofun⟩, hapart, rfl⟩
  exact absurd hobjs.symm (List.append_ne_nil_of_right_ne_nil _ (List.cons_ne_nil _ _))

/-- What `gc_new` returns. -/
def Action.created : Action → List Addr
  | .gcNew _ _ ptr => [ptr]
  | _ => []

/-- What the program frees itself. -/
def Action.freed : Action → List Addr
  | .free ptr => if ptr = null then [] else [ptr]
  | _ => []

/-- **One step** keeps the invariant, if it is a legal one.  The objects that it takes away are
freed. -/
theorem Sound.of_step {a : Action} (h : Sound w) (ha : Legal w a) (hstep : step w a = some w') :
    Sound w' ∧ ∃ collected, (w.objects ++ a.created).Perm (collected ++ w'.objects) ∧
      w'.memory.freed = w.memory.freed ++ a.freed ++ collected := by
  have hnone : ∀ l : List Addr, l = l ++ [] ++ [] := fun l => by
    rw [List.append_nil, List.append_nil]
  cases a with
  | gcNew size kind ptr =>
    have hnew := hstep
    rw [step, gcNew, ccassert_eq_some] at hstep
    obtain ⟨hsize, hstep⟩ := hstep
    obtain ⟨m, hm, -⟩ := Option.bind_eq_some_iff.mp hstep
    obtain ⟨w₁, hw₁, hsound, hobjects, hfreed⟩ := h.gcNew_eq kind hsize hm
    rw [hw₁.symm.trans hnew |> Option.some.inj] at hsound hobjects hfreed
    refine ⟨hsound, [], ?_, hfreed.trans (hnone _)⟩
    rw [hobjects]
    exact List.perm_append_singleton ptr w.objects
  | gcCollect =>
    obtain rfl := Option.some.inj (h.objects.gcCollect_eq.symm.trans hstep)
    exact ⟨h, [], .of_eq (List.append_nil _), hnone _⟩
  | gcDeinit =>
    obtain rfl := Option.some.inj (h.gcDeinit_eq.symm.trans hstep)
    refine ⟨sound_start (h.apart.filter _), w.objects, .refl _, ?_⟩
    exact congrArg (· ++ w.objects) (List.append_nil w.memory.freed).symm
  | alloc size ptr =>
    obtain ⟨m, hm, rfl⟩ := Option.map_eq_some_iff.mp hstep
    refine ⟨h.alloc hm, [], .of_eq (List.append_nil _), ?_⟩
    rcases eq_or_ne size 0 with rfl | hsize
    · rw [ccAlloc, if_pos rfl] at hm
      obtain ⟨-, hm⟩ := Option.ite_none_right_eq_some.mp hm
      exact (Option.some.inj hm) ▸ hnone _
    · exact (allocated_of_ccAlloc hsize hm).freed.trans (hnone _)
  | free ptr =>
    obtain ⟨m, hm, rfl⟩ := Option.map_eq_some_iff.mp hstep
    rw [ccFree] at hm
    split at hm
    · next hnull =>
      obtain rfl := Option.some.inj hm
      refine ⟨h, [], .of_eq (List.append_nil _), ?_⟩
      rw [Action.freed, if_pos hnull]
      exact hnone _
    · next hnull =>
      obtain ⟨-, hm⟩ := Option.ite_none_right_eq_some.mp hm
      obtain rfl := Option.some.inj hm
      refine ⟨⟨h.objects.congr (fun _ _ => rfl) fun obj hobj => ?_, h.apart.filter _, h.allocated⟩,
        [], .of_eq (List.append_nil _), ?_⟩
      · obtain ⟨b, hb, rfl, hsize⟩ := h.objects.hasBlock obj hobj
        exact ⟨b, List.mem_filter.mpr ⟨hb, decide_eq_true (ne_of_mem_of_not_mem hobj ha)⟩, rfl,
          hsize⟩
      · rw [Action.freed, if_neg hnull, List.append_nil]
  | write fields =>
    obtain rfl := Option.some.inj hstep
    exact ⟨⟨h.objects.congr ha h.objects.hasBlock, h.apart, h.allocated⟩, [],
      .of_eq (List.append_nil _), hnone _⟩

/-- **The books of a run**: what `gc_new` has returned is what is left of the objects, and what has
been freed besides what the program has freed. -/
def Balanced (old : List Addr) (as : List Action) (w : World) : Prop :=
  ∃ collected, (as.flatMap Action.created).Perm (collected ++ w.objects) ∧
    w.memory.freed.Perm (old ++ as.flatMap Action.freed ++ collected)

theorem balanced_of_step {old : List Addr} {as : List Action} {a : Action} (h : Sound w)
    (hbalanced : Balanced old as w) (ha : Legal w a) (hstep : step w a = some w') :
    Balanced old (as ++ [a]) w' := by
  obtain ⟨collected, hcreated, hfreed⟩ := hbalanced
  obtain ⟨-, more, hobjects, hmore⟩ := h.of_step ha hstep
  refine ⟨collected ++ more, ?_, ?_⟩
  · rw [List.flatMap_append, List.flatMap_singleton]
    calc (as.flatMap Action.created ++ a.created).Perm (collected ++ w.objects ++ a.created) :=
          hcreated.append_right _
      List.Perm _ (collected ++ (w.objects ++ a.created)) := .of_eq (List.append_assoc _ _ _)
      List.Perm _ (collected ++ (more ++ w'.objects)) := hobjects.append_left _
      List.Perm _ (collected ++ more ++ w'.objects) := .of_eq (List.append_assoc _ _ _).symm
  · rw [List.flatMap_append, List.flatMap_singleton, hmore]
    calc (w.memory.freed ++ a.freed ++ more).Perm
          (old ++ as.flatMap Action.freed ++ collected ++ a.freed ++ more) :=
            (hfreed.append_right _).append_right _
      List.Perm _ (old ++ as.flatMap Action.freed ++ (collected ++ a.freed) ++ more) := by
            rw [List.append_assoc (old ++ as.flatMap Action.freed) collected a.freed]
      List.Perm _ (old ++ as.flatMap Action.freed ++ (a.freed ++ collected) ++ more) :=
            (List.perm_append_comm.append_left _).append_right _
      List.Perm _ (old ++ (as.flatMap Action.freed ++ a.freed) ++ (collected ++ more)) := by
            simp only [List.append_assoc, List.Perm.refl]

/-- **Objects live until `gc_deinit`.**  In every run of a program that leaves them to the
collector, the objects are all in use and each is another block; `gc_collect` changes nothing,
`gc_new` comes to its end whenever `cc_alloc` does, and `gc_deinit` comes to its end in any case and
frees all of them, the latest first.  What `gc_new` has returned is freed once or still there. -/
theorem gc_keeps_objects (m : Memory ObjectFields) (as : List Action) (w : World)
    (hapart : m.blocks.Pairwise Block.Apart) (hrun : run step (start m) as = some w)
    (hlegal : EveryStep step Legal (start m) as) :
    (∀ obj ∈ w.objects, w.memory.HasBlock obj objectSize) ∧ w.objects.Nodup ∧
    w.gc.allocated = UInt64.ofNat w.objects.length ∧
    (∃ collected, (as.flatMap Action.created).Perm (collected ++ w.objects) ∧
      w.memory.freed.Perm (m.freed ++ as.flatMap Action.freed ++ collected)) ∧
    gcCollect w = some w ∧
    (∀ size kind ptr m', objectSize < size → ccAlloc w.memory size ptr = some m' →
      ∃ w', gcNew w size kind ptr = some w' ∧ w'.objects = ptr :: w.objects) ∧
    ∃ w', gcDeinit w = some w' ∧ w'.gc = gcInit ∧ w'.objects = [] ∧
      w'.memory.freed = w.memory.freed ++ w.objects ∧
      w'.memory.starts = w.memory.starts.filter (· ∉ w.objects) := by
  have hstart : Sound (start m) ∧ Balanced m.freed [] (start m) := by
    refine ⟨sound_start hapart, [], List.Perm.refl _, ?_⟩
    rw [List.flatMap_nil, List.append_nil, List.append_nil]
    exact List.Perm.refl _
  obtain ⟨hsound, hbalanced⟩ : Sound w ∧ Balanced m.freed as w :=
    run_history_of_everyStep (P := fun as w => Sound w ∧ Balanced m.freed as w)
      (fun as w a w' h ha hstep => ⟨(h.1.of_step ha hstep).1,
        balanced_of_step h.1 h.2 ha hstep⟩) hstart hlegal hrun
  refine ⟨hsound.objects.hasBlock, hsound.objects.nodup, hsound.allocated, hbalanced,
    hsound.objects.gcCollect_eq, fun size kind ptr m' hsize hm => ?_,
    _, hsound.gcDeinit_eq, rfl, rfl, rfl, Books.starts_freedAll _⟩
  obtain ⟨w', hw', -, hobjects, -⟩ := hsound.gcNew_eq kind hsize hm
  exact ⟨w', hw', hobjects⟩

/-- A memory with nothing in it. -/
def emptyMemory : Memory ObjectFields where
  heap := ⟨fun _ => 0, fun _ => 0, fun _ => 0, fun _ => 0⟩
  blocks := []
  allocated := []
  freed := []
  rest := ⟨fun _ => 0, fun _ => 0, fun _ => false⟩

/-- Two objects, with a block of the program's own between them. -/
def twoNews : List Action := [.gcNew 32 0 4096, .alloc 16 8192, .gcNew 40 1 4160, .gcCollect]

/-- The second one is freed first. -/
theorem gc_keeps_objects_two_news : ∃ w, run step (start emptyMemory) twoNews = some w ∧
    ∃ w', gcDeinit w = some w' ∧ w'.memory.freed = [4160, 4096] := by
  have hrun : ((run step (start emptyMemory) twoNews).map fun w => (w.objects, w.memory.freed)) =
      some ([4160, 4096], []) := by decide +kernel
  obtain ⟨w, hw, hobjects⟩ := Option.map_eq_some_iff.mp hrun
  obtain ⟨-, -, -, -, -, -, w', hw', -, -, hfreed, -⟩ := gc_keeps_objects emptyMemory twoNews w
    List.Pairwise.nil hw fun _ _ => ⟨trivial, fun _ _ => ⟨trivial, fun _ _ => ⟨trivial, fun _ _ =>
      ⟨trivial, trivial⟩⟩⟩⟩
  obtain ⟨hobjects, hnone⟩ := Prod.mk.inj hobjects
  refine ⟨w, hw, w', hw', ?_⟩
  rw [hfreed, hobjects, hnone]
  rfl

end Value
end CCore
