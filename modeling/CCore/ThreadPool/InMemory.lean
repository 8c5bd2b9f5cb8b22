import CCore.LinkedList.Dereferences
import CCore.ThreadPool.Model

/-!
# The thread pool in memory

In `Model` a pool has a list of tasks, and a task is whatever a submission has put there.  In
`tpool.c` the queue is a `cclist_t` at the beginning of a `tpool_t` that `ccpool_start` has
allocated, a task is a block that `ccpool_submit` has allocated and that one worker is going to
free, and all threads go by pointers.  `MemPool` is the pool in this form, and `step` makes the
same moves as before with every dereference in it.

## What a step can come to

A thread that is not at the place which a move begins at does not make the move: `step` is `none`.
A thread that makes the move may read or write memory that is not in use, free what is not
allocated, or fail a `CCASSERT`; then the outcome is `some none`.

## Two kinds of pointer

A worker keeps the pointer that `pthread_create` has given it.  `ccpool_submit`, `ccpool_wait` and
`ccpool_stop` go by the static variable `pool`, which is `NULL` once `ccpool_stop` has freed the
pool.  So a worker that is still there then reads freed memory, while a call that begins then fails
its assertion.

`ccpool_submit` allocates its task before it takes the mutex.  These are two moves, between which
the others go on, and `pending` has the tasks of the calls that stand between them.
-/

namespace CCore
namespace ThreadPool
namespace InMemory

open LinkedList CondVar

/-- The fields of a `task_t` beside its node. -/
structure TaskFields where
  fn : Addr → ℕ
  refcon : Addr → ℕ

/-- `sizeof(task_t)` -/
def taskSize : ℕ := 32

/-- `offsetof(task_t, list_node)` -/
def listNodeOffset : UInt64 := 16

/-- `sizeof(tpool_t)`, which begins with the `cclist_t` of the tasks and ends where its array of
workers begins. -/
def tpoolSize : ℕ := 184

/-- `sizeof(pthread_t)` -/
def threadSize : ℕ := 8

/-- Where a thread stands in `pool_worker`, with what it has for a task. -/
inductive Thread (τ : Type) where
  | ready
  | asleep
  | woken
  | holding (task : τ)
  | calling (task : τ)
  | returned
  | exited
  deriving DecidableEq, Repr

/-- `tpool_t`, where it is, and the threads that use it.  `called` is history: the functions that
the workers have called, each with its argument. -/
structure MemPool where
  memory : Memory TaskFields
  pool : Addr
  numThreads : ℕ
  threadCount : UInt8
  inWork : UInt8
  stop : Bool
  workers : List (Thread Addr)
  pending : List Addr
  waiters : List Waiter
  stopper : Stopper
  called : List (ℕ × ℕ)

namespace MemPool

/-- The static variable `pool`. -/
def global (x : MemPool) : Addr := if x.stopper = .freed then null else x.pool

/-- `&pool->workers[i]` -/
def workerAddr (x : MemPool) (i : ℕ) : Addr :=
  x.pool + UInt64.ofNat (tpoolSize + i * threadSize)

/-- `pool->in_work || pool->tasks.size`, negated. -/
def Idle (x : MemPool) : Prop := x.inWork = 0 ∧ x.memory.heap.size x.pool = 0

instance (x : MemPool) : Decidable x.Idle := by unfold Idle; infer_instance

/-- What a worker finds in the task at `a`. -/
def payload (x : MemPool) (a : Addr) : ℕ × ℕ := (x.memory.rest.fn a, x.memory.rest.refcon a)

end MemPool

/-- `ccpool_start`, up to its creation loop.  `ptr` is what `cc_alloc` returns. -/
def ccpoolStart (m : Memory TaskFields) (numThreads : ℕ) (ptr : Addr) : Option MemPool :=
  (ccAlloc m (tpoolSize + numThreads * threadSize) ptr).bind fun m =>
  m.access ptr tpoolSize <|
  (m.cclistInit ptr listNodeOffset).map fun m =>
    { memory := m
      pool := ptr
      numThreads := numThreads
      threadCount := UInt8.ofNat numThreads
      inWork := 0
      stop := false
      workers := []
      pending := []
      waiters := []
      stopper := .notCalled
      called := [] }

/-! ## The moves -/

/-- `pthread_create(&pool->workers[i], NULL, pool_worker, pool)` -/
def createThread (x : MemPool) : Option MemPool :=
  x.memory.access (x.workerAddr x.workers.length) threadSize <|
  some { x with workers := x.workers ++ [.ready] }

/-- `ccpool_submit` up to its lock, where `cc_alloc` has returned `task` and left `m`. -/
def ccpoolSubmitAlloc (x : MemPool) (m : Memory TaskFields) (fn refcon : ℕ) (task : Addr) :
    Option MemPool :=
  ccassert (fn ≠ 0) <|
  ccassert (x.global ≠ null) <|
  m.access task taskSize <|
  some { x with
    memory := { m with
      rest := ⟨Function.update m.rest.fn task fn, Function.update m.rest.refcon task refcon⟩ }
    pending := x.pending ++ [task] }

/-- The critical section of `ccpool_submit`.  `workers` is what the signal makes of them. -/
def ccpoolSubmit (x : MemPool) (i : ℕ) (task : Addr) (workers : List (Thread Addr)) :
    Option MemPool :=
  x.memory.access x.global tpoolSize <|
  (x.memory.cclistInsertLast x.global task).map fun m =>
    { x with memory := m, workers := workers, pending := x.pending.eraseIdx i }

/-- The first critical section of `pool_worker`. -/
def poolWorkerCheck (x : MemPool) (w : ℕ) : Option MemPool :=
  x.memory.access x.pool tpoolSize <|
  if x.memory.heap.size x.pool = 0 ∧ x.stop = false then
    some { x with workers := x.workers.set w .asleep }
  else if x.stop = true then
    some { x with workers := x.workers.set w .exited }
  else
    (x.memory.cclistFirst x.pool).bind fun task =>
    (x.memory.cclistRemoveFirst x.pool).map fun m =>
      { x with
        memory := m
        inWork := x.inWork + 1
        workers := x.workers.set w (.holding task) }

/-- A worker leaves `pthread_cond_wait(&pool->cv, &pool->mt)` with no signal. -/
def workerSpurious (x : MemPool) (w : ℕ) : Option MemPool :=
  x.memory.access x.pool tpoolSize <|
  some { x with workers := x.workers.set w .woken }

/-- The assertions on the task, and `task->fn(task->refcon)` begins. -/
def callTask (x : MemPool) (w : ℕ) (task : Addr) : Option MemPool :=
  ccassert (task ≠ null) <|
  x.memory.access task taskSize <|
  ccassert (x.memory.rest.fn task ≠ 0) <|
  some { x with
    workers := x.workers.set w (.calling task)
    called := x.called ++ [x.payload task] }

/-- `task->fn(task->refcon)` returns, and `cc_free(task)`. -/
def returnTask (x : MemPool) (w : ℕ) (task : Addr) : Option MemPool :=
  (ccFree x.memory task).map fun m =>
    { x with memory := m, workers := x.workers.set w .returned }

/-- The second critical section of `pool_worker`.  `waiters` is what the signal makes of them. -/
def poolWorkerComplete (x : MemPool) (w : ℕ) (waiters : List Waiter) : Option MemPool :=
  x.memory.access x.pool tpoolSize <|
  some { x with
    inWork := x.inWork - 1
    workers := x.workers.set w .ready
    waiters := waiters }

/-- `ccpool_wait` up to its end or its first wait. -/
def ccpoolWait (x : MemPool) : Option MemPool :=
  ccassert (x.global ≠ null) <|
  x.memory.access x.global tpoolSize <|
  some { x with waiters := x.waiters ++ [if x.Idle then .left else .asleep] }

/-- A call of `ccpool_wait` leaves `pthread_cond_wait(&pool->idle_cv, &pool->mt)` with no
signal. -/
def waiterSpurious (x : MemPool) (i : ℕ) : Option MemPool :=
  x.memory.access x.pool tpoolSize <|
  some { x with waiters := x.waiters.set i .woken }

/-- `ccpool_wait` takes the mutex again, and tests its loop condition. -/
def waitCheck (x : MemPool) (i : ℕ) : Option MemPool :=
  x.memory.access x.pool tpoolSize <|
  x.memory.access x.global tpoolSize <|
  some { x with waiters := x.waiters.set i (if x.Idle then .left else .asleep) }

/-- The critical section of `ccpool_stop`. -/
def ccpoolStop (x : MemPool) : Option MemPool :=
  x.memory.access x.global tpoolSize <|
  (cclistClear x.memory x.global (some taskDestructor) ()).map fun m =>
    { x with
      memory := m
      stop := true
      workers := broadcast .asleep .woken x.workers
      stopper := .joining 0 }

/-- `pthread_join(pool->workers[i], NULL)` returns. -/
def joinThread (x : MemPool) (i : UInt8) : Option MemPool :=
  x.memory.access x.global tpoolSize <|
  x.memory.access (x.workerAddr i.toNat) threadSize <|
  some { x with stopper := .joining (i + 1) }

/-- The join loop is over; `cc_free(pool)` and `pool = NULL`. -/
def freePool (x : MemPool) : Option MemPool :=
  x.memory.access x.global tpoolSize <|
  (ccFree x.memory x.global).map fun m => { x with memory := m, stopper := .freed }

/-! ## The steps -/

/-- One move of one thread.  The numbers name the thread that moves, and `wake` the sleeper that a
signal wakes; `ptr` is what `cc_alloc` returns. -/
inductive Action where
  | create
  /-- `ccpool_submit` allocates its task -/
  | allocate (fn refcon : ℕ) (ptr : Addr)
  /-- the critical section of `ccpool_submit` -/
  | enqueue (i wake : ℕ)
  | check (w : ℕ)
  | spurious (w : ℕ)
  | call (w : ℕ)
  | ret (w : ℕ)
  | complete (w wake : ℕ)
  | wait
  | waitSpurious (i : ℕ)
  | waitCheck (i : ℕ)
  | stop
  | join
  | free
  deriving DecidableEq, Repr

/-- **One step of the pool in memory.** -/
def step (x : MemPool) : Action → Option (Option MemPool)
  | .create =>
    if x.workers.length < x.numThreads then some (createThread x) else none
  | .allocate fn refcon ptr =>
    (ccAlloc x.memory taskSize ptr).map fun m => ccpoolSubmitAlloc x m fn refcon ptr
  | .enqueue i wake =>
    x.pending[i]?.bind fun task =>
    (signal .asleep .woken x.workers wake).map fun ws => ccpoolSubmit x i task ws
  | .check w =>
    if x.workers[w]? = some .ready ∨ x.workers[w]? = some .woken then
      some (poolWorkerCheck x w)
    else none
  | .spurious w =>
    if x.workers[w]? = some .asleep then some (workerSpurious x w) else none
  | .call w =>
    match x.workers[w]? with
    | some (.holding task) => some (callTask x w task)
    | _ => none
  | .ret w =>
    match x.workers[w]? with
    | some (.calling task) => some (returnTask x w task)
    | _ => none
  | .complete w wake =>
    if x.workers[w]? = some .returned then
      (signal .asleep .woken x.waiters wake).map fun vs => poolWorkerComplete x w vs
    else none
  | .wait => some (ccpoolWait x)
  | .waitSpurious i =>
    if x.waiters[i]? = some .asleep then some (waiterSpurious x i) else none
  | .waitCheck i =>
    if x.waiters[i]? = some .woken then some (waitCheck x i) else none
  | .stop =>
    if x.stopper = .notCalled ∧ x.workers.length = x.numThreads then some (ccpoolStop x)
    else none
  | .join =>
    match x.stopper with
    | .joining i =>
      if i < x.threadCount ∧ x.workers[i.toNat]? = some .exited then some (joinThread x i)
      else none
    | _ => none
  | .free =>
    match x.stopper with
    | .joining i => if i < x.threadCount then none else some (freePool x)
    | _ => none

/-- A step that comes to its end. -/
def stepOk (x : MemPool) (a : Action) : Option MemPool := (step x a).join

/-- The states that some interleaving reaches, for a pool that is started with `numThreads` in the
memory `m`. -/
def Reachable (m : Memory TaskFields) (numThreads : ℕ) (x : MemPool) : Prop :=
  ∃ ptr start as, ccpoolStart m numThreads ptr = some start ∧ Runs.run stepOk start as = some x

end InMemory
end ThreadPool
end CCore
