import CCore.ThreadPool.Counters
import CCore.ThreadPool.Refinement

/-!
# What the pool does to the memory

As long as the pool is there, its moves read and write what is in use (`Implements.step`).  Here is
what happens when `ccpool_stop` has freed it, and what this means for whole runs.

With at most 255 threads all of them are gone by then, and those who still move are callers of the
functions of the pool.  They have no pool to call them on, and one who sleeps in `ccpool_wait` reads
the freed pool when it wakes up, with any number of threads: nothing in `tpool.c` keeps
`ccpool_stop` from freeing a pool that is waited for, so this is left to the program.  With more
threads there are some that `ccpool_stop` has not joined, and they read the pool after it has been
freed.  So, but for those callers, the pool is safe exactly up to 255 threads
(`ccpool_memory_safe_iff`).

`ccpool_refines` says that up to that number a run in memory is a run of the pool, and
`ccpool_frees_once` what becomes of the blocks: each task is freed once, by the worker that has run
it or by `ccpool_stop`, and what is left when the pool is gone are the tasks that have been
submitted since `ccpool_stop` cleared the queue.
-/

namespace CCore
namespace ThreadPool
namespace InMemory

open LinkedList CondVar

/-! ## After the pool has been freed -/

/-- The moves of threads that call the functions of the pool. -/
def Action.OfClient : Action → Prop
  | .allocate _ _ _ | .enqueue _ _ | .wait | .waitSpurious _ | .waitCheck _ => True
  | _ => False

section Freed

variable {old : List Addr} {x : MemPool} {queue : List Addr} {s : Pool}

theorem access_eq_none {m : Memory TaskFields} {β : Type} {a : Addr} {size : ℕ} {rest : Option β}
    (h : ¬ m.Accessible a size) : m.access a size rest = none := if_neg h

/-- A thread that is gone makes no move. -/
theorem Implements.exited (h : Implements old x queue s) (hexited : ∀ q ∈ s.workers, q = .exited)
    {w : ℕ} {p : Thread Addr} (hp : x.workers[w]? = some p) : p = .exited := by
  obtain ⟨q, hq, hseen⟩ := h.worker hp
  obtain rfl := hexited q (List.mem_of_getElem? hq)
  cases p <;> simp_all [seen, Thread.map]

/-- **With the pool freed and its threads gone**, all that moves are calls of its functions, and
they fail. -/
theorem Implements.step_freed (h : Implements old x queue s) (hfreed : s.stopper = .freed)
    (hexited : ∀ q ∈ s.workers, q = .exited) (hlength : s.workers.length = s.numThreads)
    {a : Action} {r : Option MemPool} (hstep : InMemory.step x a = some r) :
    r = none ∧ a.OfClient := by
  have hx : x.stopper = .freed := h.stopper.trans hfreed
  have hglobal : x.global = null := if_pos hx
  have hpool := h.poolFreed hx
  have hnull : ¬ x.global ≠ null := fun hne => hne hglobal
  have hgone : ∀ {w : ℕ} {p : Thread Addr}, p ≠ .exited → x.workers[w]? ≠ some p :=
    fun hne hw => hne (h.exited hexited hw)
  cases a with
  | create =>
    obtain ⟨hlt, -⟩ := Option.ite_none_right_eq_some.mp hstep
    rw [← List.length_map (f := Thread.map x.payload), h.workers, List.length_map, hlength,
      h.numThreads] at hlt
    exact absurd hlt (lt_irrefl _)
  | allocate fn refcon ptr =>
    obtain ⟨m, -, rfl⟩ := Option.map_eq_some_iff.mp hstep
    refine ⟨?_, trivial⟩
    rw [InMemory.ccpoolSubmitAlloc, ccassert, ccassert, if_neg hnull, ite_self]
  | enqueue i wake =>
    obtain ⟨task, -, hsignal⟩ := Option.bind_eq_some_iff.mp hstep
    obtain ⟨ws, -, rfl⟩ := Option.map_eq_some_iff.mp hsignal
    refine ⟨?_, trivial⟩
    rw [InMemory.ccpoolSubmit, hglobal]
    exact access_eq_none not_accessible_null
  | check w =>
    obtain ⟨hw | hw, -⟩ := Option.ite_none_right_eq_some.mp hstep
    · exact absurd hw (hgone (by simp))
    · exact absurd hw (hgone (by simp))
  | spurious w =>
    obtain ⟨hw, -⟩ := Option.ite_none_right_eq_some.mp hstep
    exact absurd hw (hgone (by simp))
  | call w =>
    rw [InMemory.step] at hstep
    split at hstep
    · exact absurd ‹_› (hgone (by simp))
    · exact absurd hstep (by simp)
  | ret w =>
    rw [InMemory.step] at hstep
    split at hstep
    · exact absurd ‹_› (hgone (by simp))
    · exact absurd hstep (by simp)
  | complete w wake =>
    obtain ⟨hw, -⟩ := Option.ite_none_right_eq_some.mp hstep
    exact absurd hw (hgone (by simp))
  | wait =>
    obtain rfl := Option.some.inj hstep
    exact ⟨if_neg hnull, trivial⟩
  | waitSpurious i =>
    obtain ⟨-, hr⟩ := Option.ite_none_right_eq_some.mp hstep
    obtain rfl := Option.some.inj hr
    exact ⟨access_eq_none hpool, trivial⟩
  | waitCheck i =>
    obtain ⟨-, hr⟩ := Option.ite_none_right_eq_some.mp hstep
    obtain rfl := Option.some.inj hr
    exact ⟨access_eq_none hpool, trivial⟩
  | stop =>
    obtain ⟨⟨hn, -⟩, -⟩ := Option.ite_none_right_eq_some.mp hstep
    exact absurd (hx.symm.trans hn) (by simp)
  | join =>
    rw [InMemory.step, hx] at hstep
    exact absurd hstep (by simp)
  | free =>
    rw [InMemory.step, hx] at hstep
    exact absurd hstep (by simp)

end Freed

/-! ## Whole runs -/

/-- A memory whose blocks have no byte in common, at the beginning of its history. -/
structure Initial (m : Memory TaskFields) : Prop where
  apart : m.blocks.Pairwise Block.Apart
  allocated : m.allocated = []
  freed : m.freed = []

section Runs

variable {m : Memory TaskFields} {n : ℕ}

/-- `ccpool_start` makes a pool of its block. -/
theorem implements_ccpoolStart (hm : Initial m) {ptr : Addr} {x : MemPool}
    (hstart : InMemory.ccpoolStart m n ptr = some x) :
    Implements m.starts x [] (ThreadPool.ccpoolStart n) := by
  have hsize : tpoolSize + n * threadSize ≠ 0 := by
    simp only [tpoolSize]
    omega
  obtain ⟨m₁, hm₁, hinit⟩ := Option.bind_eq_some_iff.mp hstart
  have halloc := allocated_of_ccAlloc hsize hm₁
  obtain ⟨-, hinit⟩ := Memory.access_eq_some.mp hinit
  obtain ⟨m₂, hm₂, rfl⟩ := Option.map_eq_some_iff.mp hinit
  obtain ⟨-, hheap⟩ := Memory.access_eq_some.mp hm₂
  obtain ⟨heap, hupdates, rfl⟩ : ∃ heap,
      Updates m₁.heap heap ptr ⟨listNodeOffset, []⟩ (places ptr ⟨listNodeOffset, []⟩) ∧
        m₁.withHeap heap = m₂ := by
    obtain ⟨heap, hinit, hupdates⟩ := cclistInit_updates (m := m₁.heap) halloc.hasBlock.ne_null
    rw [hinit, Option.map_some, Option.some_inj] at hheap
    exact ⟨heap, hupdates, hheap⟩
  have hbooks : Books m.starts m₁ [ptr] :=
    (Books.start hm.apart hm.allocated hm.freed).alloc hsize hm₁
  exact {
    numThreads := rfl
    threadCount := rfl
    inWork := rfl
    stop := rfl
    waiters := rfl
    stopper := rfl
    workers := rfl
    tasks := rfl
    called := rfl
    holds := hupdates.holds
    owns := ⟨fun _ ha => absurd ha List.not_mem_nil, hbooks.congr rfl rfl rfl⟩
    poolLive := fun _ => halloc.hasBlock
    poolFreed := fun hx => absurd hx (by simp) }

theorem stepOk_eq_some {x x' : MemPool} {a : Action} :
    stepOk x a = some x' ↔ step x a = some (some x') := by
  rw [stepOk, Option.join_eq_some_iff]

/-- A submission of no function ends the program. -/
theorem Action.Unnamed.fails {x : MemPool} {a : Action} (ha : a.Unnamed)
    {r : Option MemPool} (hstep : step x a = some r) : r = none := by
  cases a with
  | allocate fn refcon ptr =>
    obtain ⟨m', -, rfl⟩ := Option.map_eq_some_iff.mp hstep
    exact if_neg fun hfn => hfn ha
  | _ => exact absurd ha (by simp [Action.Unnamed])

/-- Every run in memory is a run of the pool. -/
theorem implements_of_reachable (hm : Initial m) (hn : n ≤ 255) {x : MemPool}
    (hx : Reachable m n x) :
    ∃ queue s, ThreadPool.Reachable n s ∧ Implements m.starts x queue s := by
  obtain ⟨ptr, start, as, hstart, has⟩ := hx
  have hsim : ∀ (x : MemPool) (s : Pool) (a : Action) (x' : MemPool),
      (∃ queue, ThreadPool.Reachable n s ∧ Implements m.starts x queue s) →
      stepOk x a = some x' → ∃ t, Runs.run ThreadPool.step s (a.visible x) = some t ∧
        ∃ queue, ThreadPool.Reachable n t ∧ Implements m.starts x' queue t := by
    rintro x s a x' ⟨queue, hs, h⟩ hstep
    rw [stepOk_eq_some] at hstep
    have hsized := sized_of_reachable hs
    by_cases hfreed : s.stopper = .freed
    · obtain ⟨-, hexited⟩ := (countersExact_of_le hn s hs).2 hfreed
      have hlength := (joinLoop_of_reachable hs).created (hfreed ▸ by simp)
      exact absurd (h.step_freed hfreed hexited hlength hstep).1 (by simp)
    · by_cases ha : a.Unnamed
      · exact absurd (ha.fails hstep) (by simp)
      · obtain ⟨x₁, queue', t, hx₁, hrun, h'⟩ :=
          h.step hfreed (hsized.numThreads ▸ hsized.length_le) ha hstep
        obtain rfl := Option.some.inj hx₁
        obtain ⟨bs, hbs⟩ := hs
        exact ⟨t, hrun, queue',
          ⟨bs ++ a.visible x, (Runs.run_append_eq_some _).mpr ⟨s, hbs, hrun⟩⟩, h'⟩
  obtain ⟨s, -, queue, hs, h⟩ :=
    Runs.run_simulation hsim ⟨[], ⟨[], rfl⟩, implements_ccpoolStart hm hstart⟩ has
  exact ⟨queue, s, hs, h⟩

end Runs

/-! ## From the pool to the memory -/

section Follow

variable {old : List Addr} {x : MemPool} {queue : List Addr} {s t : Pool}

/-- The thread that a worker is. -/
theorem Implements.thread (h : Implements old x queue s) {w : ℕ} {q : Worker}
    (hq : s.workers[w]? = some q) : ∃ p, x.workers[w]? = some p ∧ p.map x.payload = seen q := by
  have hget := congrArg (fun l => l[w]?) h.workers
  rw [List.getElem?_map, List.getElem?_map, hq, Option.map_some] at hget
  exact Option.map_eq_some_iff.mp hget

/-- A worker that may enter its first critical section is such a thread. -/
theorem Implements.thread_mayCheck (h : Implements old x queue s) {w : ℕ} {q : Worker}
    (hq : s.workers[w]? = some q) (hmay : q.MayCheck) :
    x.workers[w]? = some .ready ∨ x.workers[w]? = some .woken := by
  obtain ⟨p, hp, hseen⟩ := h.thread hq
  rcases hmay with rfl | rfl
  · refine Or.inl ?_
    cases p <;> simp_all [seen, Thread.map]
  · refine Or.inr ?_
    cases p <;> simp_all [seen, Thread.map]

/-- What the pool can do, the threads in memory can, except that a submission needs a task. -/
theorem Implements.enabled (h : Implements old x queue s) {a : ThreadPool.Action}
    (hmove : Move s a t) (hsubmit : ∀ fn refcon wake, a ≠ .submit fn refcon wake) :
    ∃ a' r, InMemory.step x a' = some r ∧ ¬ a'.Unnamed ∧ a'.visible x = [a] := by
  have hlength : x.workers.length = s.workers.length := by
    rw [← List.length_map (f := Thread.map x.payload), h.workers, List.length_map]
  cases hmove with
  | create hlt => exact ⟨.create, _, if_pos (hlength ▸ h.numThreads ▸ hlt), id, rfl⟩
  | submit => exact absurd rfl (hsubmit _ _ _)
  | sleep hw hp => exact ⟨.check _, _, if_pos (h.thread_mayCheck hw hp), id, rfl⟩
  | exit hw hp => exact ⟨.check _, _, if_pos (h.thread_mayCheck hw hp), id, rfl⟩
  | take hw hp => exact ⟨.check _, _, if_pos (h.thread_mayCheck hw hp), id, rfl⟩
  | spurious hw =>
    obtain ⟨p, hp, hseen⟩ := h.thread hw
    obtain rfl := (Thread.map_eq_asleep p).mp hseen
    exact ⟨.spurious _, _, if_pos hp, id, rfl⟩
  | @call w task hw =>
    obtain ⟨p, hp, hseen⟩ := h.thread hw
    cases p with
    | holding a =>
      refine ⟨.call w, InMemory.callTask x w a, ?_, id, rfl⟩
      rw [InMemory.step, hp]
    | _ => exact absurd hseen (by simp [seen, Thread.map])
  | @ret w task hw =>
    obtain ⟨p, hp, hseen⟩ := h.thread hw
    cases p with
    | calling a =>
      refine ⟨.ret w, InMemory.returnTask x w a, ?_, id, rfl⟩
      rw [InMemory.step, hp]
    | _ => exact absurd hseen (by simp [seen, Thread.map])
  | @complete w wake vs hw hvs =>
    obtain ⟨p, hp, hseen⟩ := h.thread hw
    have hreturned : p = .returned := by
      cases p <;> simp_all [seen, Thread.map]
    refine ⟨.complete w wake, InMemory.poolWorkerComplete x w vs, ?_, id, rfl⟩
    rw [InMemory.step, if_pos (hreturned ▸ hp), h.waiters, hvs, Option.map_some]
  | wait => exact ⟨.wait, _, rfl, id, rfl⟩
  | waitSpurious hi => exact ⟨.waitSpurious _, _, if_pos (h.waiters ▸ hi), id, rfl⟩
  | waitCheck hi => exact ⟨.waitCheck _, _, if_pos (h.waiters ▸ hi), id, rfl⟩
  | stop hn hl =>
    refine ⟨.stop, _, if_pos ⟨h.stopper.trans hn, ?_⟩, id, rfl⟩
    rw [hlength, h.numThreads]
    exact hl
  | @join i hi hlt hw =>
    obtain ⟨p, hp, hseen⟩ := h.thread hw
    have hexited : p = .exited := by
      cases p <;> simp_all [seen, Thread.map]
    refine ⟨.join, InMemory.joinThread x i, ?_, id, rfl⟩
    rw [InMemory.step, h.stopper, hi]
    exact if_pos ⟨h.threadCount ▸ hlt, hexited ▸ hp⟩
  | free hi hge =>
    refine ⟨.free, InMemory.freePool x, ?_, id, rfl⟩
    rw [InMemory.step, h.stopper, hi]
    exact if_neg (h.threadCount ▸ hge)

/-- **A step of the pool can be made in memory.** -/
theorem Implements.follow (h : Implements old x queue s)
    (hlength : s.workers.length ≤ s.numThreads) {a : ThreadPool.Action}
    (hsubmit : ∀ fn refcon wake, a ≠ .submit fn refcon wake)
    (hstep : ThreadPool.step s a = some t) :
    ∃ a' x' queue', stepOk x a' = some x' ∧ Implements old x' queue' t := by
  obtain ⟨a', r, hr, hnamed, hvisible⟩ := h.enabled (move_of_step hstep) hsubmit
  obtain ⟨x', queue', t', rfl, hrun, h'⟩ := h.step (not_freed_of_step hstep) hlength hnamed hr
  rw [hvisible, Runs.run_cons, hstep, Option.bind_some, Runs.run_nil, Option.some_inj] at hrun
  exact ⟨a', x', queue', stepOk_eq_some.mpr hr, hrun ▸ h'⟩

/-- A pool that nothing has been submitted to had nothing submitted to it before. -/
theorem not_submit_of_submitted {a : ThreadPool.Action} (hmove : Move s a t)
    (ht : t.submitted = []) :
    s.submitted = [] ∧ ∀ fn refcon wake, a ≠ .submit fn refcon wake := by
  cases hmove with
  | submit => exact absurd ht (List.append_ne_nil_of_right_ne_nil _ (List.cons_ne_nil _ _))
  | _ => exact ⟨ht, by simp⟩

end Follow

/-! ## The results -/

section Results

variable {m : Memory TaskFields} {n : ℕ}

/-- **Up to 255 threads a run of the pool in memory is a run of the pool.**  In every state that is
reached, the list in memory shows tasks that look like those of the queue, in its order; the threads
stand where the workers stand, with tasks that look alike; the counters and the flags agree; and
what has been called is what the pool has called. -/
theorem ccpool_refines (hm : Initial m) (hn : n ≤ 255) {x : MemPool} (hx : Reachable m n x) :
    ∃ queue s, ThreadPool.Reachable n s ∧ Shows x.memory.heap x.pool queue ∧
      queue.map x.payload = s.tasks.map seenTask ∧
      x.workers.map (Thread.map x.payload) = s.workers.map seen ∧
      (x.inWork = s.inWork ∧ x.stop = s.stop ∧ x.waiters = s.waiters ∧ x.stopper = s.stopper) ∧
      x.called = s.called.map seenTask := by
  obtain ⟨queue, s, hs, h⟩ := implements_of_reachable hm hn hx
  exact ⟨queue, s, hs, h.holds.shows, h.tasks, h.workers,
    ⟨h.inWork, h.stop, h.waiters, h.stopper⟩, h.called⟩

/-- A memory with nothing in it. -/
def emptyMemory : Memory TaskFields where
  heap := ⟨fun _ => 0, fun _ => 0, fun _ => 0, fun _ => 0⟩
  blocks := []
  allocated := []
  freed := []
  rest := ⟨fun _ => 0, fun _ => 0⟩

theorem initial_emptyMemory : Initial emptyMemory := ⟨List.Pairwise.nil, rfl, rfl⟩

/-- A pool of one thread that calls its first task and has its second one queued. -/
theorem exists_reachable_emptyMemory :
    ∃ x, Reachable emptyMemory 1 x ∧ x.called = [(5, 6)] ∧ x.pending = [] := by
  have hrun : ((InMemory.ccpoolStart emptyMemory 1 1000).bind fun start =>
      Runs.run stepOk start [.create, .allocate 5 6 2000, .enqueue 0 0, .allocate 7 8 3000,
        .enqueue 0 0, .check 0, .call 0]).map (fun x => (x.called, x.pending)) =
          some ([(5, 6)], []) := by decide
  obtain ⟨x, hx, hcalled⟩ := Option.map_eq_some_iff.mp hrun
  obtain ⟨start, hstart, hx⟩ := Option.bind_eq_some_iff.mp hx
  exact ⟨x, ⟨1000, start, _, hstart, hx⟩, congrArg Prod.fst hcalled, congrArg Prod.snd hcalled⟩

theorem ccpool_refines_one_thread :
    ∃ s, ThreadPool.Reachable 1 s ∧ s.called.map seenTask = [(5, 6)] := by
  obtain ⟨x, hx, hcalled, -⟩ := exists_reachable_emptyMemory
  obtain ⟨-, s, hs, -, -, -, -, h⟩ := ccpool_refines initial_emptyMemory (by decide) hx
  exact ⟨s, hs, h.symm.trans hcalled⟩

/-- No step of the pool's own threads, or of `ccpool_stop`, reads or writes what is not in use, or
fails an assertion; and no step of a call of `ccpool_submit` or `ccpool_wait` does before
`ccpool_stop` has freed the pool, except that `ccpool_submit` is given no function.  Not asked for
are the calls of these two that are made, or have not returned, when the pool has been freed. -/
def MemorySafe (m : Memory TaskFields) (n : ℕ) : Prop :=
  ∀ x a, Reachable m n x → step x a = some none →
    a.Unnamed ∨ (x.stopper = .freed ∧ a.OfClient)

theorem memorySafe_of_le (hm : Initial m) (hn : n ≤ 255) : MemorySafe m n := by
  intro x a hx hstep
  obtain ⟨queue, s, hs, h⟩ := implements_of_reachable hm hn hx
  have hsized := sized_of_reachable hs
  by_cases hfreed : s.stopper = .freed
  · obtain ⟨-, hexited⟩ := (countersExact_of_le hn s hs).2 hfreed
    have hlength := (joinLoop_of_reachable hs).created (hfreed ▸ by simp)
    exact Or.inr ⟨h.stopper.trans hfreed, (h.step_freed hfreed hexited hlength hstep).2⟩
  · refine Or.inl ?_
    by_contra ha
    obtain ⟨x', -, -, hx', -⟩ := h.step hfreed (hsized.numThreads ▸ hsized.length_le) ha hstep
    exact absurd hx' (by simp)

/-- Every state of the pool that needs no submission is reached in memory. -/
theorem exists_reachable (hm : Initial m) {ptr : Addr} {start : MemPool}
    (hstart : InMemory.ccpoolStart m n ptr = some start) {s : Pool}
    (hs : ThreadPool.Reachable n s) (hsubmitted : s.submitted = []) :
    ∃ x queue, Reachable m n x ∧ Implements m.starts x queue s := by
  obtain ⟨as, has⟩ := hs
  refine (Runs.run_induction
    (P := fun s => Sized n s ∧ (s.submitted = [] → ∃ x queue, Reachable m n x ∧
      Implements m.starts x queue s)) ?_ ⟨sized_start n, fun _ => ?_⟩ has).2 hsubmitted
  · rintro s a t ⟨hsized, ih⟩ hstep
    have hmove := move_of_step hstep
    refine ⟨sized_move hsized hmove, fun ht => ?_⟩
    obtain ⟨hs, hsubmit⟩ := not_submit_of_submitted hmove ht
    obtain ⟨x, queue, ⟨ptr, start, bs, hstart, hbs⟩, h⟩ := ih hs
    obtain ⟨a', x', queue', hx', h'⟩ :=
      h.follow (hsized.numThreads ▸ hsized.length_le) hsubmit hstep
    exact ⟨x', queue', ⟨ptr, start, bs ++ [a'], hstart, Runs.run_snoc _ hbs hx'⟩, h'⟩
  · exact ⟨start, [], ⟨ptr, start, [], hstart, rfl⟩, implements_ccpoolStart hm hstart⟩

/-- **The pool is memory safe exactly up to 255 threads**, but for what its clients do when it has
been freed.  In every interleaving of a pool that fits its counters the workers, and `ccpool_stop`,
touch what is in use, and so do the calls of `ccpool_submit` and `ccpool_wait` while the pool is
there.  A pool with more threads has a run after which a worker reads the pool when it has been
freed. -/
theorem ccpool_memory_safe_iff (hm : Initial m)
    (hstart : ∃ ptr start, InMemory.ccpoolStart m n ptr = some start) :
    MemorySafe m n ↔ n ≤ 255 := by
  refine ⟨fun hsafe => ?_, memorySafe_of_le hm⟩
  by_contra hn
  obtain ⟨ptr, start, hstart⟩ := hstart
  obtain ⟨x, queue, hx, h⟩ := exists_reachable hm hstart (reachable_freed n) rfl
  -- the last worker has not moved
  have hlast : ({ joinedUpTo n (n % 256) with stopper := .freed } : Pool).workers[n - 1]? =
      some .ready := by
    have hmod : n % 256 < 256 := Nat.mod_lt n (by decide)
    show (List.replicate (n % 256) Worker.exited ++
      List.replicate (n - n % 256) Worker.ready)[n - 1]? = some .ready
    rw [List.getElem?_append_right (by rw [List.length_replicate]; omega), List.getElem?_replicate,
      List.length_replicate, if_pos (by omega)]
  have hready := h.thread_mayCheck hlast (Or.inl rfl)
  have hfault : InMemory.poolWorkerCheck x (n - 1) = none :=
    access_eq_none (h.poolFreed h.stopper)
  have hstep : step x (.check (n - 1)) = some none := by
    rw [step, if_pos hready, hfault]
  exact (hsafe x _ hx hstep).elim id fun hclient => hclient.2

theorem ccpool_memory_safe_iff_255 : MemorySafe emptyMemory 255 := by
  have hstart : (InMemory.ccpoolStart emptyMemory 255 1000).isSome := by decide
  obtain ⟨start, hstart⟩ := Option.isSome_iff_exists.mp hstart
  exact (ccpool_memory_safe_iff initial_emptyMemory ⟨1000, start, hstart⟩).mpr (by decide)

end Results

end InMemory
end ThreadPool
end CCore
