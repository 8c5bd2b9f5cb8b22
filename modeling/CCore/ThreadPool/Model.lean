import CCore.Library.CondVar
import CCore.Library.Runs
import Mathlib.Data.UInt

/-!
# The thread pool, one critical section at a time

`tpool.c` shares one `tpool_t` between worker threads that run `pool_worker`,
threads that call `ccpool_submit` or `ccpool_wait`, and one thread at a time in
`ccpool_stop`.  Everything they share is read and written under `pool->mt`, so
one region between `pthread_mutex_lock` and the matching unlock (or the wait
that gives the mutex up) is one step, and a run is any interleaving of these
steps.

## Where a thread stands

A worker's loop body has two critical sections with the task running unlocked
between them.  `Worker` names the places where a worker can be seen by the
others: at the top of the loop, asleep in `pthread_cond_wait(&cv)`, woken but
not yet holding the mutex, holding a task it has just dequeued, inside
`task->fn`, back from it with the task freed, and gone.  `Waiter` does the same
for a call of `ccpool_wait`.

## What is real and what is history

`tasks`, `stop`, `inWork` and `threadCount` are the fields of `tpool_t`, the
last two in eight bits as in the header.  `numThreads` is the `int` argument of
`ccpool_start`, which the creation loop counts to.  The last fields are history
that no step reads: which tasks were submitted, taken, run, finished and
discarded, and which workers were joined.  A task is identified by its
submission, since the address that `cc_alloc` returns for it may be used again
later.
-/

namespace CCore
namespace ThreadPool

open CondVar

/-- `task_t`.  `id` is the number of the submission that allocated it. -/
structure Task where
  id : ℕ
  fn : ℕ
  refcon : ℕ
  deriving DecidableEq, Repr

/-- Where a thread stands in `pool_worker`. -/
inductive Worker where
  /-- at the top of the loop, about to lock `mt` -/
  | ready
  /-- in `pthread_cond_wait(&pool->cv)`, not woken -/
  | asleep
  /-- in `pthread_cond_wait(&pool->cv)`, woken, about to take `mt` again -/
  | woken
  /-- out of the first critical section, `task->fn` not called yet -/
  | holding (task : Task)
  /-- inside `task->fn(task->refcon)` -/
  | calling (task : Task)
  /-- back from `task->fn`, the task freed, about to lock `mt` -/
  | returned
  /-- out of the loop -/
  | exited
  deriving DecidableEq, Repr

/-- Where a call of `ccpool_wait` stands. -/
inductive Waiter where
  /-- in `pthread_cond_wait(&pool->idle_cv)`, not woken -/
  | asleep
  /-- in `pthread_cond_wait(&pool->idle_cv)`, woken, about to take `mt` again -/
  | woken
  /-- out of its loop -/
  | left
  deriving DecidableEq, Repr

/-- How far `ccpool_stop` has come. -/
inductive Stopper where
  | notCalled
  /-- in the join loop, at its index `i`, a `uint8_t` -/
  | joining (i : UInt8)
  /-- past `cc_free(pool)` -/
  | freed
  deriving DecidableEq, Repr

/-- `tpool_t`, the threads that use it, and the history of the run. -/
structure Pool where
  numThreads : ℕ
  threadCount : UInt8
  inWork : UInt8
  stop : Bool
  tasks : List Task
  workers : List Worker
  waiters : List Waiter
  stopper : Stopper
  submitted : List Task
  taken : List Task
  called : List Task
  finished : List Task
  discarded : List Task
  joined : List ℕ
  deriving DecidableEq, Repr

/-- `ccpool_start`, up to its creation loop: the assignment to `thread_count`
keeps the low eight bits of `num_threads`. -/
def ccpoolStart (numThreads : ℕ) : Pool where
  numThreads := numThreads
  threadCount := UInt8.ofNat numThreads
  inWork := 0
  stop := false
  tasks := []
  workers := []
  waiters := []
  stopper := .notCalled
  submitted := []
  taken := []
  called := []
  finished := []
  discarded := []
  joined := []

/-- One move of one thread.  The numbers name the worker or the call of
`ccpool_wait` that moves, and `wake` the sleeper that a signal wakes. -/
inductive Action where
  /-- one turn of the creation loop of `ccpool_start` -/
  | create
  /-- the critical section of `ccpool_submit` -/
  | submit (fn refcon wake : ℕ)
  /-- the first critical section of `pool_worker`, or its part after a wait -/
  | check (w : ℕ)
  /-- a worker wakes up with no signal -/
  | spurious (w : ℕ)
  /-- a worker calls `task->fn` -/
  | call (w : ℕ)
  /-- `task->fn` returns, and the worker frees the task -/
  | ret (w : ℕ)
  /-- the second critical section of `pool_worker` -/
  | complete (w wake : ℕ)
  /-- the critical section of `ccpool_wait`, up to its end or its first wait -/
  | wait
  /-- a call of `ccpool_wait` wakes up with no signal -/
  | waitSpurious (i : ℕ)
  /-- the critical section of `ccpool_wait` after a wait -/
  | waitCheck (i : ℕ)
  /-- the critical section of `ccpool_stop` -/
  | stop
  /-- one turn of the join loop of `ccpool_stop` -/
  | join
  /-- the end of the join loop, and `cc_free(pool)` -/
  | free
  deriving DecidableEq, Repr

namespace Pool

/-- The negation of the loop condition of `ccpool_wait`:
`pool->in_work || pool->tasks.size`. -/
def Idle (s : Pool) : Prop := s.inWork = 0 ∧ s.tasks = []

instance (s : Pool) : Decidable s.Idle := by unfold Idle; infer_instance

end Pool

/-! ## The steps -/

/-- One turn of the loop `for(int i = 0; i < num_threads; ++i)` in
`ccpool_start`. -/
def createStep (s : Pool) : Option Pool :=
  if s.workers.length < s.numThreads then
    some { s with workers := s.workers ++ [.ready] }
  else none

/-- The critical section of `ccpool_submit`: `cclist_insert_last`, then
`pthread_cond_signal(&pool->cv)`. -/
def ccpoolSubmit (s : Pool) (fn refcon wake : ℕ) : Option Pool :=
  let task : Task := ⟨s.submitted.length, fn, refcon⟩
  (signal .asleep .woken s.workers wake).map fun ws =>
    { s with
      tasks := s.tasks ++ [task]
      workers := ws
      submitted := s.submitted ++ [task] }

/-- The first critical section of `pool_worker`, from taking `mt` (at the top of
the loop or on the way out of `pthread_cond_wait`) to giving it up. -/
def poolWorkerCheck (s : Pool) (w : ℕ) : Option Pool :=
  if s.workers[w]? = some .ready ∨ s.workers[w]? = some .woken then
    if s.tasks = [] ∧ s.stop = false then
      some { s with workers := s.workers.set w .asleep }
    else if s.stop = true then
      some { s with workers := s.workers.set w .exited }
    else
      match s.tasks with
      | [] => none
      | task :: rest =>
        some { s with
          tasks := rest
          inWork := s.inWork + 1
          workers := s.workers.set w (.holding task)
          taken := s.taken ++ [task] }
  else none

/-- A worker leaves `pthread_cond_wait(&pool->cv)` with no signal. -/
def workerSpurious (s : Pool) (w : ℕ) : Option Pool :=
  if s.workers[w]? = some .asleep then
    some { s with workers := s.workers.set w .woken }
  else none

/-- `task->fn(task->refcon)` begins. -/
def callStep (s : Pool) (w : ℕ) : Option Pool :=
  match s.workers[w]? with
  | some (.holding task) =>
    some { s with
      workers := s.workers.set w (.calling task)
      called := s.called ++ [task] }
  | _ => none

/-- `task->fn(task->refcon)` returns, and `cc_free(task)`. -/
def returnStep (s : Pool) (w : ℕ) : Option Pool :=
  match s.workers[w]? with
  | some (.calling task) =>
    some { s with
      workers := s.workers.set w .returned
      finished := s.finished ++ [task] }
  | _ => none

/-- The second critical section of `pool_worker`. -/
def poolWorkerComplete (s : Pool) (w wake : ℕ) : Option Pool :=
  if s.workers[w]? = some .returned then
    (signal .asleep .woken s.waiters wake).map fun vs =>
      { s with
        inWork := s.inWork - 1
        workers := s.workers.set w .ready
        waiters := vs }
  else none

/-- `ccpool_wait` from its lock on: it leaves its loop, or it falls asleep. -/
def ccpoolWait (s : Pool) : Option Pool :=
  some { s with waiters := s.waiters ++ [if s.Idle then .left else .asleep] }

/-- A call of `ccpool_wait` leaves `pthread_cond_wait(&pool->idle_cv)` with no
signal. -/
def waiterSpurious (s : Pool) (i : ℕ) : Option Pool :=
  if s.waiters[i]? = some .asleep then
    some { s with waiters := s.waiters.set i .woken }
  else none

/-- `ccpool_wait` tests its loop condition again after a wait. -/
def waitCheck (s : Pool) (i : ℕ) : Option Pool :=
  if s.waiters[i]? = some .woken then
    some { s with waiters := s.waiters.set i (if s.Idle then .left else .asleep) }
  else none

/-- The critical section of `ccpool_stop`.  It needs `single_mt`, which
`ccpool_start` holds until its creation loop is done.  `cclist_clear` hands every
queued task to `task_destructor`, which frees it. -/
def ccpoolStop (s : Pool) : Option Pool :=
  if s.stopper = .notCalled ∧ s.workers.length = s.numThreads then
    some { s with
      stop := true
      tasks := []
      discarded := s.discarded ++ s.tasks
      workers := broadcast .asleep .woken s.workers
      stopper := .joining 0 }
  else none

/-- One turn of `for(uint8_t i = 0; i < pool->thread_count; ++i)`: the join
returns once worker `i` has left its loop. -/
def joinStep (s : Pool) : Option Pool :=
  match s.stopper with
  | .joining i =>
    if i < s.threadCount ∧ s.workers[i.toNat]? = some .exited then
      some { s with
        stopper := .joining (i + 1)
        joined := s.joined ++ [i.toNat] }
    else none
  | _ => none

/-- The join loop is over, and the pool is freed. -/
def freeStep (s : Pool) : Option Pool :=
  match s.stopper with
  | .joining i => if i < s.threadCount then none else some { s with stopper := .freed }
  | _ => none

/-- **One step of the pool.**  Nothing can be done with a pool that has been
freed. -/
def step (s : Pool) (a : Action) : Option Pool :=
  if s.stopper = .freed then none
  else
    match a with
    | .create => createStep s
    | .submit fn refcon wake => ccpoolSubmit s fn refcon wake
    | .check w => poolWorkerCheck s w
    | .spurious w => workerSpurious s w
    | .call w => callStep s w
    | .ret w => returnStep s w
    | .complete w wake => poolWorkerComplete s w wake
    | .wait => ccpoolWait s
    | .waitSpurious i => waiterSpurious s i
    | .waitCheck i => waitCheck s i
    | .stop => ccpoolStop s
    | .join => joinStep s
    | .free => freeStep s

/-- The states that some interleaving reaches, for a pool started with
`numThreads`. -/
def Reachable (numThreads : ℕ) (s : Pool) : Prop :=
  ∃ as, Runs.run step (ccpoolStart numThreads) as = some s

end ThreadPool
end CCore
