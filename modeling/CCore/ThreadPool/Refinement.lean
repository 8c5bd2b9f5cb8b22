import CCore.LinkedList.Books
import CCore.ThreadPool.InMemory
import CCore.ThreadPool.Moves

/-!
# The pool in memory refines the pool

`Implements` relates a pool in memory to one of `Model`: the list at the beginning of the `tpool_t`
holds tasks that look like the queued ones, the threads stand where the workers stand and have
tasks that look alike, and the scalar fields agree.  An address stands for a task as long as its
block is live, and which task that is can only be told by what is in it.

The other half of the relation is about the blocks.  Each task that is queued, that a worker holds,
or that a call of `ccpool_submit` is about to queue is in a block of its own, the pool is in
another, and the books of the memory have these blocks and no others (`Books`).

Every move of the pool in memory is then a move of the pool, except that `ccpool_submit` allocates
its task before the move it is (`Implements.step`).  In particular it comes to its end: it reads and
writes what is in use, and its assertions hold.
-/

namespace CCore
namespace ThreadPool
namespace InMemory

open LinkedList CondVar

/-! ## What the pools have in common -/

section Threads

variable {τ υ : Type}

/-- The same place in `pool_worker`, with another task. -/
def Thread.map (f : τ → υ) : Thread τ → Thread υ
  | .ready => .ready
  | .asleep => .asleep
  | .woken => .woken
  | .holding task => .holding (f task)
  | .calling task => .calling (f task)
  | .returned => .returned
  | .exited => .exited

/-- The task that a thread has and has not freed. -/
def Thread.task : Thread τ → Option τ
  | .holding task => some task
  | .calling task => some task
  | _ => none

theorem Thread.map_eq_asleep {f : τ → υ} (p : Thread τ) : p.map f = .asleep ↔ p = .asleep := by
  cases p <;> simp [Thread.map]

theorem Thread.map_woken (f : τ → υ) : Thread.woken.map f = .woken := rfl

/-- What is looked up in the task matters only where there is one. -/
theorem Thread.map_congr {f g : τ → υ} {p : Thread τ} (h : ∀ a ∈ p.task, f a = g a) :
    p.map f = p.map g := by
  cases p with
  | holding task => exact congrArg _ (h task rfl)
  | calling task => exact congrArg _ (h task rfl)
  | _ => rfl

end Threads

/-- What is in the memory of a task. -/
def seenTask (t : Task) : ℕ × ℕ := (t.fn, t.refcon)

/-- What is in the memory of the task of a worker. -/
def seen : Worker → Thread (ℕ × ℕ)
  | .ready => .ready
  | .asleep => .asleep
  | .woken => .woken
  | .holding task => .holding (seenTask task)
  | .calling task => .calling (seenTask task)
  | .returned => .returned
  | .exited => .exited

theorem seen_eq_asleep (p : Worker) : seen p = .asleep ↔ p = .asleep := by
  cases p <;> simp [seen]

theorem seen_woken : seen .woken = .woken := rfl

/-! ## The relation -/

namespace MemPool

/-- The tasks that are not freed: in the queue, with a worker, or on their way to the queue. -/
def owned (x : MemPool) (queue : List Addr) : List Addr :=
  queue ++ (x.workers.filterMap Thread.task ++ x.pending)

/-- The block of the pool. -/
def poolBlock (x : MemPool) : List Addr := if x.stopper = .freed then [] else [x.pool]

end MemPool

/-- Tasks that are in blocks of their own and have something to call, and books that have them. -/
structure Owns (old : List Addr) (m : Memory TaskFields) (tasks rest : List Addr) : Prop where
  task : ∀ a ∈ tasks, m.HasBlock a taskSize ∧ m.rest.fn a ≠ 0
  books : Books old m (tasks ++ rest)

/-- **The pool in memory is the pool `s`**, and its list has the tasks at `queue`. -/
structure Implements (old : List Addr) (x : MemPool) (queue : List Addr) (s : Pool) : Prop where
  numThreads : x.numThreads = s.numThreads
  threadCount : x.threadCount = s.threadCount
  inWork : x.inWork = s.inWork
  stop : x.stop = s.stop
  waiters : x.waiters = s.waiters
  stopper : x.stopper = s.stopper
  workers : x.workers.map (Thread.map x.payload) = s.workers.map seen
  tasks : queue.map x.payload = s.tasks.map seenTask
  called : x.called = s.called.map seenTask
  holds : Holds x.memory.heap x.pool ⟨listNodeOffset, queue⟩
  owns : Owns old x.memory (x.owned queue) x.poolBlock
  poolLive : x.stopper ≠ .freed →
    x.memory.HasBlock x.pool (tpoolSize + x.numThreads * threadSize)
  poolFreed : x.stopper = .freed → ¬ x.memory.Accessible x.pool tpoolSize

namespace Owns

variable {old tasks rest : List Addr} {m : Memory TaskFields}

theorem perm (h : Owns old m tasks rest) {tasks' : List Addr} (hperm : tasks.Perm tasks') :
    Owns old m tasks' rest :=
  ⟨fun a ha => h.task a (hperm.mem_iff.mpr ha), h.books.perm (hperm.append_right rest)⟩

/-- The links of the list are in the tasks, but the books do not have them. -/
theorem withHeap (h : Owns old m tasks rest) (heap : Heap) :
    Owns old (m.withHeap heap) tasks rest :=
  ⟨h.task, h.books.congr rfl rfl rfl⟩

/-- A rest that owns none of the tasks. -/
theorem notMem_of_rest (h : Owns old m tasks rest) {a : Addr} (ha : a ∈ rest) : a ∉ tasks :=
  fun hmem => (List.nodup_append.mp h.books.nodup_live).2.2 a hmem a ha rfl

/-- **Tasks are freed.** -/
theorem freeAll {before : List Addr} (h : Owns old m (before ++ tasks) rest) :
    Owns old (freedAll m before) tasks rest := by
  have hnodup := h.books.nodup_live
  rw [List.append_assoc] at hnodup
  have hapart := (List.nodup_append.mp hnodup).2.2
  refine ⟨fun a ha => ?_, ?_⟩
  · obtain ⟨hblock, hfn⟩ := h.task a (List.mem_append_right _ ha)
    refine ⟨freedAll_hasBlock hblock fun hmem => ?_, hfn⟩
    exact hapart a hmem a (List.mem_append_left _ ha) rfl
  · have hbooks := h.books
    rw [List.append_assoc] at hbooks
    exact hbooks.freeAll

end Owns

/-! ## What is in use -/

namespace Implements

variable {old : List Addr} {x : MemPool} {queue : List Addr} {s : Pool}

theorem global_eq (h : Implements old x queue s) (hs : s.stopper ≠ .freed) : x.global = x.pool :=
  if_neg (h.stopper ▸ hs)

theorem poolBlock_eq (h : Implements old x queue s) (hs : s.stopper ≠ .freed) :
    x.poolBlock = [x.pool] :=
  if_neg (h.stopper ▸ hs)

theorem block (h : Implements old x queue s) (hs : s.stopper ≠ .freed) :
    x.memory.HasBlock x.pool (tpoolSize + x.numThreads * threadSize) :=
  h.poolLive (h.stopper ▸ hs)

theorem pool_ne_null (h : Implements old x queue s) : x.pool ≠ null := h.holds.list_ne_null

/-- The `tpool_t`. -/
theorem accessible (h : Implements old x queue s) (hs : s.stopper ≠ .freed) :
    x.memory.Accessible x.pool tpoolSize :=
  (h.block hs).accessible_start (Nat.le_add_right _ _)

/-- Its array of workers. -/
theorem accessible_worker (h : Implements old x queue s) (hs : s.stopper ≠ .freed) {i : ℕ}
    (hi : i < s.numThreads) : x.memory.Accessible (x.workerAddr i) threadSize := by
  refine (h.block hs).accessible (by decide) ?_
  have hmod : (UInt64.ofNat (tpoolSize + i * threadSize)).toNat ≤ tpoolSize + i * threadSize := by
    rw [UInt64.toNat_ofNat']
    exact Nat.mod_le _ _
  rw [h.numThreads]
  simp only [threadSize] at hmod ⊢
  omega

theorem pool_notMem (h : Implements old x queue s) (hs : s.stopper ≠ .freed) :
    x.pool ∉ x.owned queue :=
  h.owns.notMem_of_rest (h.poolBlock_eq hs ▸ List.mem_singleton_self _)

/-- A queued task is owned. -/
theorem mem_owned_of_queue {a : Addr} (ha : a ∈ queue) : a ∈ x.owned queue :=
  List.mem_append_left _ ha

/-- The list and the nodes of the tasks in it. -/
theorem live (h : Implements old x queue s) (hs : s.stopper ≠ .freed) :
    Live x.memory x.pool ⟨listNodeOffset, queue⟩ := by
  refine ⟨(h.block hs).accessible_start (by simp only [tpoolSize]; omega), fun node hnode => ?_⟩
  obtain ⟨a, ha, rfl⟩ := List.mem_map.mp hnode
  exact (h.owns.task a (mem_owned_of_queue ha)).1.accessible (by decide) le_rfl

/-! ## What the threads see -/

theorem size_eq_zero (h : Implements old x queue s) :
    x.memory.heap.size x.pool = 0 ↔ s.tasks = [] := by
  have hsize : (x.memory.heap.size x.pool).toNat = queue.length := h.holds.size_toNat
  have hlength : queue.length = s.tasks.length := by
    rw [← List.length_map (f := x.payload), h.tasks, List.length_map]
  rw [← UInt64.toNat_inj, hsize, hlength, UInt64.toNat_zero]
  exact List.length_eq_zero_iff

theorem idle_iff (h : Implements old x queue s) : x.Idle ↔ s.Idle :=
  and_congr (by rw [h.inWork]) h.size_eq_zero

/-- The worker that a thread is. -/
theorem worker (h : Implements old x queue s) {w : ℕ} {p : Thread Addr}
    (hp : x.workers[w]? = some p) : ∃ q, s.workers[w]? = some q ∧ seen q = p.map x.payload := by
  have hget := congrArg (fun l => l[w]?) h.workers
  rw [List.getElem?_map, List.getElem?_map, hp, Option.map_some] at hget
  exact Option.map_eq_some_iff.mp hget.symm

theorem mayCheck (h : Implements old x queue s) {w : ℕ}
    (hw : x.workers[w]? = some .ready ∨ x.workers[w]? = some .woken) :
    ∃ q, s.workers[w]? = some q ∧ q.MayCheck := by
  rcases hw with hw | hw
  · obtain ⟨q, hq, hseen⟩ := h.worker hw
    refine ⟨q, hq, Or.inl ?_⟩
    cases q <;> simp_all [seen, Thread.map]
  · obtain ⟨q, hq, hseen⟩ := h.worker hw
    refine ⟨q, hq, Or.inr ?_⟩
    cases q <;> simp_all [seen, Thread.map]

/-- A thread moves in both pools. -/
theorem workers_set (h : Implements old x queue s) (w : ℕ) {p : Thread Addr} {q : Worker}
    (hpq : p.map x.payload = seen q) :
    (x.workers.set w p).map (Thread.map x.payload) = (s.workers.set w q).map seen := by
  rw [List.map_set, List.map_set, h.workers, hpq]

/-- A signal wakes a thread in both pools. -/
theorem signal_workers (h : Implements old x queue s) {wake : ℕ} {ws : List (Thread Addr)}
    (hws : signal .asleep .woken x.workers wake = some ws) :
    ∃ vs, signal .asleep .woken s.workers wake = some vs ∧
      ws.map (Thread.map x.payload) = vs.map seen := by
  have hx : signal .asleep .woken (x.workers.map (Thread.map x.payload)) wake =
      (signal .asleep .woken x.workers wake).map (List.map (Thread.map x.payload)) :=
    signal_map Thread.map_eq_asleep (Thread.map_woken x.payload) x.workers wake
  have hs : signal .asleep .woken (s.workers.map seen) wake =
      (signal .asleep .woken s.workers wake).map (List.map seen) :=
    signal_map seen_eq_asleep seen_woken s.workers wake
  rw [hws, h.workers, hs, Option.map_some] at hx
  obtain ⟨vs, hvs, hmap⟩ := Option.map_eq_some_iff.mp hx
  exact ⟨vs, hvs, hmap.symm⟩

/-- A thread that has the same task afterwards. -/
theorem owned_set {w : ℕ} {p p' : Thread Addr} (hp : x.workers[w]? = some p)
    (htask : p.task = p'.task) :
    (x.owned queue).Perm (queue ++ ((x.workers.set w p').filterMap Thread.task ++ x.pending)) :=
  ((filterMap_set_perm_of_eq Thread.task hp htask).symm.append_right _).append_left _

end Implements

/-! ## The moves -/

/-- The outcome `r` of a step in memory is the move `a` of the pool. -/
def Simulates (old : List Addr) (s : Pool) (a : ThreadPool.Action) (r : Option MemPool) : Prop :=
  ∃ x queue t, r = some x ∧ Move s a t ∧ Implements old x queue t

namespace Implements

variable {old : List Addr} {x : MemPool} {queue : List Addr} {s : Pool}

/-- A thread moves, and has the same task afterwards. -/
theorem move_worker (h : Implements old x queue s) {w : ℕ} {p p' : Thread Addr} {q : Worker}
    (hp : x.workers[w]? = some p) (htask : p.task = p'.task) (hseen : p'.map x.payload = seen q) :
    Implements old { x with workers := x.workers.set w p' } queue
      { s with workers := s.workers.set w q } :=
  { h with workers := h.workers_set w hseen, owns := h.owns.perm (owned_set hp htask) }

theorem createThread (h : Implements old x queue s) (hs : s.stopper ≠ .freed)
    (hlt : x.workers.length < x.numThreads) :
    Simulates old s .create (createThread x) := by
  have hlength : x.workers.length = s.workers.length := by
    rw [← List.length_map (f := Thread.map x.payload), h.workers, List.length_map]
  rw [hlength, h.numThreads] at hlt
  rw [InMemory.createThread, hlength, Memory.access_pos (h.accessible_worker hs hlt)]
  refine ⟨_, queue, _, rfl, Move.create hlt, { h with workers := ?_, owns := h.owns.perm ?_ }⟩
  · show (x.workers ++ [Thread.ready]).map (Thread.map x.payload) = _
    rw [List.map_append, List.map_append, h.workers]
    rfl
  · show (x.owned queue).Perm
      (queue ++ ((x.workers ++ [Thread.ready]).filterMap Thread.task ++ x.pending))
    rw [List.filterMap_append]
    exact (List.append_nil (x.workers.filterMap Thread.task)).symm ▸ List.Perm.refl _

/-- The worker takes a task. -/
theorem take (h : Implements old x queue s) (hs : s.stopper ≠ .freed) {w : ℕ} {p : Thread Addr}
    {q : Worker} (hp : x.workers[w]? = some p) (htask : p.task = none)
    (hq : s.workers[w]? = some q) (hmay : q.MayCheck) (hstop : s.stop = false)
    (htasks : s.tasks ≠ []) :
    Simulates old s (.check w) ((x.memory.cclistFirst x.pool).bind fun task =>
      (x.memory.cclistRemoveFirst x.pool).map fun m =>
        { x with
          memory := m
          inWork := x.inWork + 1
          workers := x.workers.set w (.holding task) }) := by
  obtain ⟨t, ts, ht⟩ := List.exists_cons_of_ne_nil htasks
  have hmap := h.tasks
  rw [ht, List.map_cons] at hmap
  obtain ⟨a, as, rfl, ha, has⟩ := List.map_eq_cons_iff.mp hmap
  obtain ⟨heap, hheap, hupdates⟩ := cclistRemoveFirst_updates h.holds
  have hfirst : x.memory.cclistFirst x.pool = some a := by
    rw [Memory.cclistFirst, ccassert_pos h.pool_ne_null, Memory.access_pos (h.live hs).1,
      h.holds.cclistFirst_eq]
    rfl
  have hremove : x.memory.cclistRemoveFirst x.pool = some (x.memory.withHeap heap) :=
    ((h.live hs).removeFirst h.holds).mpr (hheap ▸ rfl)
  have hset := filterMap_set_perm Thread.task hp (.holding a)
  rw [htask] at hset
  rw [hfirst, hremove]
  refine ⟨_, as, _, rfl, Move.take hq hmay hstop ht, { h with
    inWork := congrArg (· + 1) h.inWork
    workers := h.workers_set w (congrArg Thread.holding ha)
    tasks := has
    holds := hupdates.holds
    owns := (h.owns.withHeap heap).perm ?_ }⟩
  show (a :: (as ++ (x.workers.filterMap Thread.task ++ x.pending))).Perm
    (as ++ ((x.workers.set w (.holding a)).filterMap Thread.task ++ x.pending))
  refine List.perm_middle.symm.trans (List.Perm.append_left as ?_)
  exact (hset.append_right x.pending).symm

/-- **The first critical section of a worker.** -/
theorem poolWorkerCheck (h : Implements old x queue s) (hs : s.stopper ≠ .freed) {w : ℕ}
    (hw : x.workers[w]? = some .ready ∨ x.workers[w]? = some .woken) :
    Simulates old s (.check w) (poolWorkerCheck x w) := by
  obtain ⟨q, hq, hmay⟩ := h.mayCheck hw
  obtain ⟨p, hp, htask⟩ : ∃ p, x.workers[w]? = some p ∧ p.task = none := by
    rcases hw with hw | hw
    · exact ⟨_, hw, rfl⟩
    · exact ⟨_, hw, rfl⟩
  rw [InMemory.poolWorkerCheck, Memory.access_pos (h.accessible hs)]
  split
  · rename_i hsleep
    exact ⟨_, queue, _, rfl,
      Move.sleep hq hmay (h.size_eq_zero.mp hsleep.1) (h.stop ▸ hsleep.2),
      h.move_worker hp htask rfl⟩
  · rename_i hsleep
    split
    · rename_i hstop
      exact ⟨_, queue, _, rfl, Move.exit hq hmay (h.stop ▸ hstop), h.move_worker hp htask rfl⟩
    · rename_i hstop
      have hstop' := Bool.eq_false_iff.mpr hstop
      refine h.take hs hp htask hq hmay (h.stop ▸ hstop') fun htasks => hsleep ⟨?_, hstop'⟩
      exact h.size_eq_zero.mpr htasks

theorem workerSpurious (h : Implements old x queue s) (hs : s.stopper ≠ .freed) {w : ℕ}
    (hw : x.workers[w]? = some .asleep) :
    Simulates old s (.spurious w) (workerSpurious x w) := by
  obtain ⟨q, hq, hseen⟩ := h.worker hw
  obtain rfl := (seen_eq_asleep q).mp hseen
  rw [InMemory.workerSpurious, Memory.access_pos (h.accessible hs)]
  exact ⟨_, queue, _, rfl, Move.spurious hq, h.move_worker hw rfl rfl⟩

/-- The task that a worker has. -/
theorem worker_holding (h : Implements old x queue s) {w : ℕ} {a : Addr}
    (hw : x.workers[w]? = some (.holding a)) :
    ∃ t, s.workers[w]? = some (.holding t) ∧ seenTask t = x.payload a := by
  obtain ⟨q, hq, hseen⟩ := h.worker hw
  cases q with
  | holding t => exact ⟨t, hq, Thread.holding.inj hseen⟩
  | _ => exact absurd hseen (by simp [seen, Thread.map])

theorem worker_calling (h : Implements old x queue s) {w : ℕ} {a : Addr}
    (hw : x.workers[w]? = some (.calling a)) :
    ∃ t, s.workers[w]? = some (.calling t) := by
  obtain ⟨q, hq, hseen⟩ := h.worker hw
  cases q with
  | calling t => exact ⟨t, hq⟩
  | _ => exact absurd hseen (by simp [seen, Thread.map])

/-- The task of a worker is owned. -/
theorem mem_owned_of_worker {w : ℕ} {p : Thread Addr} {a : Addr} (hp : x.workers[w]? = some p)
    (htask : p.task = some a) : a ∈ x.owned queue :=
  List.mem_append_right _ (List.mem_append_left _
    (List.mem_filterMap.mpr ⟨p, List.mem_of_getElem? hp, htask⟩))

/-- The assertions of a worker hold, and it calls what the submission has asked for. -/
theorem callTask (h : Implements old x queue s) {w : ℕ} {a : Addr}
    (hw : x.workers[w]? = some (.holding a)) :
    Simulates old s (.call w) (callTask x w a) := by
  obtain ⟨t, ht, hseen⟩ := h.worker_holding hw
  obtain ⟨hblock, hfn⟩ := h.owns.task a (mem_owned_of_worker hw rfl)
  have hmove : Implements old { x with workers := x.workers.set w (.calling a) } queue
      { s with workers := s.workers.set w (.calling t) } :=
    h.move_worker hw rfl (congrArg Thread.calling hseen.symm)
  rw [InMemory.callTask, ccassert_pos hblock.ne_null,
    Memory.access_pos (hblock.accessible_start le_rfl), ccassert_pos hfn]
  refine ⟨_, queue, _, rfl, Move.call ht, { hmove with called := ?_ }⟩
  show x.called ++ [x.payload a] = (s.called ++ [t]).map seenTask
  rw [h.called, ← hseen, List.map_append]
  rfl

/-- **A worker frees its task.** -/
theorem returnTask (h : Implements old x queue s) (hs : s.stopper ≠ .freed) {w : ℕ} {a : Addr}
    (hw : x.workers[w]? = some (.calling a)) :
    Simulates old s (.ret w) (returnTask x w a) := by
  obtain ⟨t, ht⟩ := h.worker_calling hw
  have ha : a ∈ x.owned queue := mem_owned_of_worker hw rfl
  have hpool : x.pool ∉ [a] := fun hmem =>
    h.pool_notMem hs (List.mem_singleton.mp hmem ▸ ha)
  have hset : (a :: (x.workers.set w .returned).filterMap Thread.task).Perm
      (x.workers.filterMap Thread.task) := filterMap_set_perm Thread.task hw .returned
  have howns : Owns old x.memory ([a] ++ (queue ++
      ((x.workers.set w .returned).filterMap Thread.task ++ x.pending))) x.poolBlock := by
    refine h.owns.perm ?_
    calc (x.owned queue).Perm (queue ++
          (a :: (x.workers.set w .returned).filterMap Thread.task ++ x.pending)) :=
        (hset.symm.append_right _).append_left _
      List.Perm _ _ := List.perm_middle
  rw [InMemory.returnTask, ccFree_eq_freedAll (h.owns.task a ha).1]
  exact ⟨_, queue, _, rfl, Move.ret ht, { h with
    workers := h.workers_set w rfl
    owns := howns.freeAll
    poolLive := fun hx => freedAll_hasBlock (h.poolLive hx) hpool
    poolFreed := fun hx => absurd (h.stopper ▸ hx) hs }⟩

theorem poolWorkerComplete (h : Implements old x queue s) (hs : s.stopper ≠ .freed)
    {w wake : ℕ} {vs : List Waiter} (hw : x.workers[w]? = some .returned)
    (hvs : signal .asleep .woken x.waiters wake = some vs) :
    Simulates old s (.complete w wake) (poolWorkerComplete x w vs) := by
  obtain ⟨q, hq, hseen⟩ := h.worker hw
  have hreturned : q = .returned := by
    cases q <;> simp_all [seen, Thread.map]
  have hmove : Implements old { x with workers := x.workers.set w .ready } queue
      { s with workers := s.workers.set w .ready } := h.move_worker hw rfl rfl
  rw [InMemory.poolWorkerComplete, Memory.access_pos (h.accessible hs)]
  exact ⟨_, queue, _, rfl, Move.complete (hreturned ▸ hq) (h.waiters ▸ hvs), { hmove with
    inWork := congrArg (· - 1) h.inWork
    waiters := rfl }⟩

/-! ## Calls of `ccpool_wait` -/

theorem ccpoolWait (h : Implements old x queue s) (hs : s.stopper ≠ .freed) :
    Simulates old s .wait (ccpoolWait x) := by
  rw [InMemory.ccpoolWait, h.global_eq hs, ccassert_pos h.pool_ne_null,
    Memory.access_pos (h.accessible hs)]
  refine ⟨_, queue, _, rfl, Move.wait, { h with waiters := ?_ }⟩
  show x.waiters ++ [if x.Idle then _ else _] = _
  rw [h.waiters, if_congr h.idle_iff rfl rfl]

theorem waiterSpurious (h : Implements old x queue s) (hs : s.stopper ≠ .freed) {i : ℕ}
    (hi : x.waiters[i]? = some .asleep) :
    Simulates old s (.waitSpurious i) (waiterSpurious x i) := by
  rw [InMemory.waiterSpurious, Memory.access_pos (h.accessible hs)]
  exact ⟨_, queue, _, rfl, Move.waitSpurious (h.waiters ▸ hi),
    { h with waiters := congrArg (·.set i Waiter.woken) h.waiters }⟩

theorem waitCheck (h : Implements old x queue s) (hs : s.stopper ≠ .freed) {i : ℕ}
    (hi : x.waiters[i]? = some .woken) :
    Simulates old s (.waitCheck i) (waitCheck x i) := by
  rw [InMemory.waitCheck, h.global_eq hs, Memory.access_pos (h.accessible hs),
    Memory.access_pos (h.accessible hs)]
  refine ⟨_, queue, _, rfl, Move.waitCheck (h.waiters ▸ hi), { h with waiters := ?_ }⟩
  show x.waiters.set i (if x.Idle then _ else _) = _
  rw [h.waiters, if_congr h.idle_iff rfl rfl]

end Implements

/-! ## Submission -/

namespace Implements

variable {old : List Addr} {x : MemPool} {queue : List Addr} {s : Pool}

/-- **A submission allocates its task.**  The pool does not see it yet. -/
theorem ccpoolSubmitAlloc (h : Implements old x queue s) (hs : s.stopper ≠ .freed)
    {m : Memory TaskFields} {fn refcon : ℕ} {ptr : Addr} (hfn : fn ≠ 0)
    (hm : ccAlloc x.memory taskSize ptr = some m) :
    ∃ x', ccpoolSubmitAlloc x m fn refcon ptr = some x' ∧ Implements old x' queue s := by
  have hsize : taskSize ≠ 0 := by decide
  have halloc := allocated_of_ccAlloc hsize hm
  have hptr : ∀ a ∈ x.owned queue, a ≠ ptr := by
    rintro a ha rfl
    obtain ⟨b, hb, hstart, -⟩ := (h.owns.task a ha).1
    exact halloc.start_fresh (List.mem_map.mpr ⟨b, hb, hstart⟩)
  have hfields : ∀ (f : Addr → ℕ) (v : ℕ), ∀ a ∈ x.owned queue, Function.update f ptr v a = f a :=
    fun f v a ha => Function.update_of_ne (hptr a ha) ..
  have hpayload : ∀ a ∈ x.owned queue,
      (Function.update m.rest.fn ptr fn a, Function.update m.rest.refcon ptr refcon a) =
        x.payload a := fun a ha => by
    rw [hfields _ _ a ha, hfields _ _ a ha, halloc.rest]
    rfl
  rw [InMemory.ccpoolSubmitAlloc, ccassert_pos hfn, h.global_eq hs, ccassert_pos h.pool_ne_null,
    Memory.access_pos (halloc.hasBlock.accessible_start le_rfl)]
  refine ⟨_, rfl, { h with
    workers := ?_
    tasks := (List.map_congr_left fun a ha => hpayload a (mem_owned_of_queue ha)).trans h.tasks
    holds := (halloc.heap ▸ h.holds : Holds m.heap x.pool ⟨listNodeOffset, queue⟩)
    owns := ?_
    poolLive := fun hx => halloc.keeps _ _ (h.poolLive hx)
    poolFreed := fun hx => absurd (h.stopper ▸ hx) hs }⟩
  · refine Eq.trans (List.map_congr_left fun p hp => Thread.map_congr fun a ha => ?_) h.workers
    obtain ⟨w, hw⟩ := List.getElem?_of_mem hp
    exact hpayload a (mem_owned_of_worker hw ha)
  · have howned : (ptr :: x.owned queue).Perm
        (queue ++ (x.workers.filterMap Thread.task ++ (x.pending ++ [ptr]))) := by
      have hassoc : queue ++ (x.workers.filterMap Thread.task ++ (x.pending ++ [ptr])) =
          x.owned queue ++ [ptr] := by
        rw [MemPool.owned, List.append_assoc, List.append_assoc]
      rw [hassoc]
      exact (List.perm_append_singleton ptr _).symm
    have hbooks : Books old m ((ptr :: x.owned queue) ++ x.poolBlock) :=
      h.owns.books.alloc hsize hm
    have howns : Owns old { m with
        rest := ⟨Function.update m.rest.fn ptr fn, Function.update m.rest.refcon ptr refcon⟩ }
        (ptr :: x.owned queue) x.poolBlock := by
      refine ⟨fun a ha => ?_, hbooks.congr rfl rfl rfl⟩
      rcases List.mem_cons.mp ha with rfl | ha
      · refine ⟨halloc.hasBlock, ?_⟩
        show Function.update m.rest.fn a fn a ≠ 0
        rw [Function.update_self]
        exact hfn
      · obtain ⟨hblock, hnamed⟩ := h.owns.task a ha
        refine ⟨halloc.keeps a _ hblock, ?_⟩
        show Function.update m.rest.fn ptr fn a ≠ 0
        rw [hfields _ _ a ha, halloc.rest]
        exact hnamed
    exact howns.perm howned

/-- The node of a task that is not queued is no place of the queue. -/
theorem node_notMem (h : Implements old x queue s) (hs : s.stopper ≠ .freed) {a : Addr}
    (ha : a ∈ x.owned queue) (hqueue : a ∉ queue) :
    a + listNodeOffset ∉ places x.pool ⟨listNodeOffset, queue⟩ := by
  rw [places_mk, List.mem_cons, not_or]
  constructor
  · have hne : a ≠ x.pool := fun e => h.pool_notMem hs (e ▸ ha)
    exact h.owns.books.add_ne (h.owns.task a ha).1 (h.block hs) hne (by decide)
      (Nat.lt_add_right _ (by decide))
  · intro hmem
    obtain ⟨b, hb, heq⟩ := List.mem_map.mp hmem
    exact hqueue (add_right_cancel heq ▸ hb)

/-- **The task of a submission joins the queue.** -/
theorem ccpoolSubmit (h : Implements old x queue s) (hs : s.stopper ≠ .freed) {i wake : ℕ}
    {a : Addr} {ws : List (Thread Addr)} (hi : x.pending[i]? = some a)
    (hws : signal .asleep .woken x.workers wake = some ws) :
    Simulates old s (.submit (x.payload a).1 (x.payload a).2 wake) (ccpoolSubmit x i a ws) := by
  obtain ⟨vs, hvs, hseen⟩ := h.signal_workers hws
  have hpending : a ∈ x.pending := List.mem_of_getElem? hi
  have ha : a ∈ x.owned queue :=
    List.mem_append_right _ (List.mem_append_right _ hpending)
  have hqueue : a ∉ queue := fun hmem =>
    (List.nodup_append.mp (List.nodup_append.mp h.owns.books.nodup_live).1).2.2 a hmem a
      (List.mem_append_right _ hpending) rfl
  have hblock := (h.owns.task a ha).1
  have hnode : x.memory.Accessible (a + listNodeOffset) 16 :=
    hblock.accessible (by decide) le_rfl
  obtain ⟨heap, hheap, hupdates⟩ :=
    cclistInsertLast_updates h.holds hblock.ne_null (h.node_notMem hs ha hqueue)
  have hinsert : x.memory.cclistInsertLast x.pool a = some (x.memory.withHeap heap) := by
    rw [cclistInsertLast, ccassert_pos h.pool_ne_null, Option.some_inj] at hheap
    rw [Memory.cclistInsertLast, ccassert_pos h.pool_ne_null]
    exact ((h.live hs).doInsertBefore h.holds List.mem_cons_self).mpr ⟨hnode, hheap ▸ rfl⟩
  have howned : (x.owned queue).Perm
      ((queue ++ [a]) ++ (ws.filterMap Thread.task ++ x.pending.eraseIdx i)) := by
    obtain ⟨hlt, hget⟩ := List.getElem?_eq_some_iff.mp hi
    have hworkers := filterMap_signal hws Thread.task rfl rfl
    have herase : (a :: x.pending.eraseIdx i).Perm x.pending :=
      hget ▸ List.getElem_cons_eraseIdx_perm hlt
    rw [List.append_assoc, List.singleton_append]
    refine List.Perm.append_left queue ?_
    calc (x.workers.filterMap Thread.task ++ x.pending).Perm
          (ws.filterMap Thread.task ++ a :: x.pending.eraseIdx i) :=
        hworkers.symm.append herase.symm
      List.Perm _ _ := List.perm_middle
  rw [InMemory.ccpoolSubmit, h.global_eq hs, Memory.access_pos (h.accessible hs), hinsert]
  refine ⟨_, queue ++ [a], _, rfl, Move.submit hvs, { h with
    workers := hseen
    tasks := ?_
    holds := hupdates.holds
    owns := (h.owns.withHeap heap).perm howned }⟩
  show (queue ++ [a]).map x.payload = (s.tasks ++ [_]).map seenTask
  rw [List.map_append, List.map_append, h.tasks]
  rfl

/-! ## The end of the pool -/

/-- **`ccpool_stop` frees what is queued.** -/
theorem ccpoolStop (h : Implements old x queue s) (hn : x.stopper = .notCalled)
    (hl : x.workers.length = x.numThreads) :
    Simulates old s .stop (ccpoolStop x) := by
  have hs : s.stopper ≠ .freed := by
    rw [← h.stopper, hn]
    simp
  have hpool := h.pool_notMem hs
  have hzero : x.pool + 0 = x.pool := UInt64.add_zero x.pool
  obtain ⟨heap, hclear, hempty⟩ : ∃ heap,
      cclistClear x.memory (x.pool + 0) (some taskDestructor) () =
        some ((freedAll x.memory queue).withHeap heap) ∧
      Holds heap (x.pool + 0) ⟨listNodeOffset, []⟩ := by
    refine cclistClear_taskDestructor (hzero.symm ▸ h.holds) (h.block hs) ?_
      (fun hmem => hpool (mem_owned_of_queue hmem)) (fun a ha => ?_) ()
    · simp only [tpoolSize, UInt64.toNat_zero]
      omega
    · exact (h.owns.task a (mem_owned_of_queue ha)).1
  rw [hzero] at hclear hempty
  have hlength : s.workers.length = s.numThreads := by
    rw [← h.numThreads, ← hl, ← List.length_map (f := Thread.map x.payload), h.workers,
      List.length_map]
  have hbroad : (broadcast .asleep .woken x.workers).map (Thread.map x.payload) =
      (broadcast .asleep .woken s.workers).map seen := by
    rw [← broadcast_map Thread.map_eq_asleep (Thread.map_woken x.payload), h.workers,
      broadcast_map seen_eq_asleep seen_woken]
  have howns : Owns old x.memory (queue ++ (([] : List Addr) ++
      ((broadcast .asleep .woken x.workers).filterMap Thread.task ++ x.pending))) x.poolBlock := by
    have htasks : (broadcast .asleep .woken x.workers).filterMap Thread.task =
        x.workers.filterMap Thread.task := filterMap_broadcast x.workers Thread.task rfl
    rw [htasks]
    exact h.owns
  have hblock : x.poolBlock = [x.pool] := h.poolBlock_eq hs
  rw [InMemory.ccpoolStop, h.global_eq hs, Memory.access_pos (h.accessible hs), hclear]
  refine ⟨_, [], _, rfl, Move.stop (h.stopper ▸ hn) hlength, { h with
    stop := rfl
    stopper := rfl
    workers := hbroad
    tasks := rfl
    holds := hempty
    owns := ?_
    poolLive := fun _ => freedAll_hasBlock (h.block hs) fun hmem => hpool (mem_owned_of_queue hmem)
    poolFreed := fun hx => absurd hx (by simp) }⟩
  rw [hblock] at howns
  exact howns.freeAll.withHeap heap

theorem joinThread (h : Implements old x queue s) {i : UInt8} (hi : x.stopper = .joining i)
    (hlt : i < x.threadCount) (hw : x.workers[i.toNat]? = some .exited)
    (hlength : s.workers.length ≤ s.numThreads) :
    Simulates old s .join (joinThread x i) := by
  have hs : s.stopper ≠ .freed := by
    rw [← h.stopper, hi]
    simp
  obtain ⟨q, hq, hseen⟩ := h.worker hw
  have hexited : q = .exited := by
    cases q <;> simp_all [seen, Thread.map]
  obtain ⟨hwlt, -⟩ := List.getElem?_eq_some_iff.mp hq
  have hblock : x.poolBlock = [x.pool] := h.poolBlock_eq hs
  have howns := h.owns
  rw [hblock] at howns
  rw [InMemory.joinThread, h.global_eq hs, Memory.access_pos (h.accessible hs),
    Memory.access_pos (h.accessible_worker hs (hwlt.trans_le hlength))]
  exact ⟨_, queue, _, rfl,
    Move.join (h.stopper ▸ hi) (h.threadCount ▸ hlt) (hexited ▸ hq), { h with
      stopper := rfl
      owns := howns
      poolLive := fun _ => h.block hs
      poolFreed := fun hx => absurd hx (by simp) }⟩

/-- **`ccpool_stop` frees the pool.** -/
theorem freePool (h : Implements old x queue s) {i : UInt8} (hi : x.stopper = .joining i)
    (hge : ¬ i < x.threadCount) :
    Simulates old s .free (freePool x) := by
  have hs : s.stopper ≠ .freed := by
    rw [← h.stopper, hi]
    simp
  have hblock : x.poolBlock = [x.pool] := h.poolBlock_eq hs
  have hbooks := h.owns.books
  rw [hblock] at hbooks
  rw [InMemory.freePool, h.global_eq hs, Memory.access_pos (h.accessible hs),
    ccFree_eq_freedAll (h.block hs)]
  refine ⟨_, queue, _, rfl, Move.free (h.stopper ▸ hi) (h.threadCount ▸ hge), { h with
    stopper := rfl
    owns := ⟨fun a ha => ?_, ?_⟩
    poolLive := fun hx => absurd rfl hx
    poolFreed := fun _ => h.owns.books.not_accessible_freedAll (h.block hs) (by decide) }⟩
  · obtain ⟨htask, hfn⟩ := h.owns.task a ha
    refine ⟨freedAll_hasBlock htask fun hmem => ?_, hfn⟩
    exact h.pool_notMem hs (List.mem_singleton.mp hmem ▸ ha)
  · rw [MemPool.poolBlock, if_pos rfl]
    have hfreed := (hbooks.perm List.perm_append_comm).freeAll
    exact hfreed.perm (List.Perm.of_eq (List.append_nil _).symm)

end Implements

/-! ## One step -/

/-- The moves of the pool that a move in memory is. -/
def Action.visible (x : MemPool) : Action → List ThreadPool.Action
  | .create => [.create]
  | .allocate _ _ _ => []
  | .enqueue i wake =>
    ((x.pending[i]?).map fun a => .submit (x.payload a).1 (x.payload a).2 wake).toList
  | .check w => [.check w]
  | .spurious w => [.spurious w]
  | .call w => [.call w]
  | .ret w => [.ret w]
  | .complete w wake => [.complete w wake]
  | .wait => [.wait]
  | .waitSpurious i => [.waitSpurious i]
  | .waitCheck i => [.waitCheck i]
  | .stop => [.stop]
  | .join => [.join]
  | .free => [.free]

/-- A submission of no function, which `ccpool_submit` asserts that it is not. -/
def Action.Unnamed : Action → Prop
  | .allocate fn _ _ => fn = 0
  | _ => False

section Step

variable {old : List Addr} {x : MemPool} {queue : List Addr} {s : Pool}

/-- A move in memory that is a move of the pool comes to its end. -/
theorem Simulates.run {a : ThreadPool.Action} {r : Option MemPool} (h : Simulates old s a r)
    (hs : s.stopper ≠ .freed) :
    ∃ x' queue' t, r = some x' ∧ Runs.run ThreadPool.step s [a] = some t ∧
      Implements old x' queue' t := by
  obtain ⟨x', queue', t, hr, hmove, h'⟩ := h
  exact ⟨x', queue', t, hr, (Runs.run_cons_eq_some _).mpr ⟨t, step_of_move hs hmove, rfl⟩, h'⟩

/-- **One step.**  As long as the pool is there, a thread that makes a move in memory reads and
writes what is in use, and makes the same move in the pool. -/
theorem Implements.step (h : Implements old x queue s) (hs : s.stopper ≠ .freed)
    (hlength : s.workers.length ≤ s.numThreads) {a : Action} (ha : ¬ a.Unnamed)
    {r : Option MemPool} (hstep : step x a = some r) :
    ∃ x' queue' t, r = some x' ∧ Runs.run ThreadPool.step s (a.visible x) = some t ∧
      Implements old x' queue' t := by
  cases a with
  | create =>
    obtain ⟨hlt, hr⟩ := Option.ite_none_right_eq_some.mp hstep
    obtain rfl := Option.some.inj hr
    exact (h.createThread hs hlt).run hs
  | allocate fn refcon ptr =>
    obtain ⟨m, hm, rfl⟩ := Option.map_eq_some_iff.mp hstep
    obtain ⟨x', hx', h'⟩ := h.ccpoolSubmitAlloc hs ha hm
    exact ⟨x', queue, s, hx', rfl, h'⟩
  | enqueue i wake =>
    obtain ⟨task, hi, hsignal⟩ := Option.bind_eq_some_iff.mp hstep
    obtain ⟨ws, hws, rfl⟩ := Option.map_eq_some_iff.mp hsignal
    rw [Action.visible, hi]
    exact (h.ccpoolSubmit hs hi hws).run hs
  | check w =>
    obtain ⟨hw, hr⟩ := Option.ite_none_right_eq_some.mp hstep
    obtain rfl := Option.some.inj hr
    exact (h.poolWorkerCheck hs hw).run hs
  | spurious w =>
    obtain ⟨hw, hr⟩ := Option.ite_none_right_eq_some.mp hstep
    obtain rfl := Option.some.inj hr
    exact (h.workerSpurious hs hw).run hs
  | call w =>
    rw [InMemory.step] at hstep
    split at hstep
    · obtain rfl := Option.some.inj hstep
      exact (h.callTask ‹_›).run hs
    · exact absurd hstep (by simp)
  | ret w =>
    rw [InMemory.step] at hstep
    split at hstep
    · obtain rfl := Option.some.inj hstep
      exact (h.returnTask hs ‹_›).run hs
    · exact absurd hstep (by simp)
  | complete w wake =>
    obtain ⟨hw, hsignal⟩ := Option.ite_none_right_eq_some.mp hstep
    obtain ⟨vs, hvs, rfl⟩ := Option.map_eq_some_iff.mp hsignal
    exact (h.poolWorkerComplete hs hw hvs).run hs
  | wait =>
    obtain rfl := Option.some.inj hstep
    exact (h.ccpoolWait hs).run hs
  | waitSpurious i =>
    obtain ⟨hi, hr⟩ := Option.ite_none_right_eq_some.mp hstep
    obtain rfl := Option.some.inj hr
    exact (h.waiterSpurious hs hi).run hs
  | waitCheck i =>
    obtain ⟨hi, hr⟩ := Option.ite_none_right_eq_some.mp hstep
    obtain rfl := Option.some.inj hr
    exact (h.waitCheck hs hi).run hs
  | stop =>
    obtain ⟨⟨hn, hl⟩, hr⟩ := Option.ite_none_right_eq_some.mp hstep
    obtain rfl := Option.some.inj hr
    exact (h.ccpoolStop hn hl).run hs
  | join =>
    rw [InMemory.step] at hstep
    split at hstep
    · obtain ⟨⟨hi, hw⟩, hr⟩ := Option.ite_none_right_eq_some.mp hstep
      obtain rfl := Option.some.inj hr
      exact (h.joinThread ‹_› hi hw hlength).run hs
    · exact absurd hstep (by simp)
  | free =>
    rw [InMemory.step] at hstep
    split at hstep
    · obtain ⟨hge, hr⟩ := Option.ite_none_left_eq_some.mp hstep
      obtain rfl := Option.some.inj hr
      exact (h.freePool ‹_› hge).run hs
    · exact absurd hstep (by simp)

end Step

end InMemory
end ThreadPool
end CCore
