import CCore.ThreadPool.Conservation

/-!
# The eight-bit counters

`num_threads` is an `int`, the creation loop counts to it, but `thread_count`,
`in_work` and the index of the join loop are `uint8_t`.  Two invariants hold
whatever the number of threads is, because they speak of the counters modulo
`2^8`: `inWork` is the number of busy workers (`InWorkCounted`), and the join
loop joins the workers below `threadCount` (`JoinLoop`).

Up to 255 threads nothing is lost in the eight bits, and both become the exact
statements one wants.  From 256 on `threadCount` is smaller than the number of
workers that were created, and `ccpool_stop` frees the pool under the workers
that it has not joined.  `countersExact_iff` is this dichotomy.

The barrier of `ccpool_wait` rests on the first counter alone
(`ccpool_wait_barrier`).
-/

namespace CCore
namespace ThreadPool

open CondVar

/-- The worker has taken a task and is not through its second critical section. -/
def Worker.busy : Worker → Bool
  | .holding _ => true
  | .calling _ => true
  | .returned => true
  | _ => false

@[simp] theorem Worker.busy_ready : Worker.ready.busy = false := rfl
@[simp] theorem Worker.busy_asleep : Worker.asleep.busy = false := rfl
@[simp] theorem Worker.busy_woken : Worker.woken.busy = false := rfl
@[simp] theorem Worker.busy_returned : Worker.returned.busy = true := rfl
@[simp] theorem Worker.busy_exited : Worker.exited.busy = false := rfl
@[simp] theorem Worker.busy_holding (t : Task) : (Worker.holding t).busy = true := rfl
@[simp] theorem Worker.busy_calling (t : Task) : (Worker.calling t).busy = true := rfl

theorem Worker.MayCheck.busy {p : Worker} (h : p.MayCheck) : p.busy = false := by
  rcases h with rfl | rfl <;> rfl

theorem Worker.busy_of_task {p : Worker} {t : Task} (h : p.task = some t) : p.busy = true := by
  rcases Worker.task_eq_some_iff.mp h with rfl | rfl <;> rfl

/-- The number of busy workers. -/
def Pool.busy (s : Pool) : ℕ := s.workers.countP Worker.busy

/-- With no worker busy no task is held. -/
theorem Pool.held_eq_nil {s : Pool} (h : s.busy = 0) : s.held = [] := by
  refine List.eq_nil_iff_forall_not_mem.mpr fun t ht => ?_
  obtain ⟨p, hp, hpt⟩ := List.mem_filterMap.mp ht
  exact List.countP_eq_zero.mp h p hp (Worker.busy_of_task hpt)

/-! ## What never changes -/

/-- The arguments of the pool, and the room in its array of workers. -/
structure Sized (n : ℕ) (s : Pool) : Prop where
  numThreads : s.numThreads = n
  threadCount : s.threadCount = UInt8.ofNat n
  length_le : s.workers.length ≤ n

theorem sized_start (n : ℕ) : Sized n (ccpoolStart n) := ⟨rfl, rfl, Nat.zero_le n⟩

theorem sized_move {n : ℕ} {s t : Pool} {a : Action} (h : Sized n s) (hm : Move s a t) :
    Sized n t := by
  obtain ⟨hn, hc, hl⟩ := h
  refine ⟨?_, ?_, ?_⟩
  · cases hm <;> exact hn
  · cases hm <;> exact hc
  · cases hm with
    | create hlt =>
      show (s.workers ++ [Worker.ready]).length ≤ n
      rw [List.length_append, List.length_singleton]
      omega
    | submit hws => exact (length_signal hws).le.trans hl
    | stop => exact (length_broadcast s.workers).le.trans hl
    | sleep | exit | take | spurious | call | ret | complete =>
      exact (List.length_set).le.trans hl
    | _ => exact hl

theorem sized_of_reachable {n : ℕ} {s : Pool} (h : Reachable n s) : Sized n s :=
  reachable_induction (sized_start n) (fun _ _ _ => sized_move) h

/-! ## `in_work` -/

/-- `in_work` counts the busy workers, modulo `2^8`. -/
def InWorkCounted (s : Pool) : Prop := s.inWork = UInt8.ofNat s.busy

theorem InWorkCounted.of_busy {s t : Pool} (h : InWorkCounted s) (hi : t.inWork = s.inWork)
    (hb : t.busy = s.busy) : InWorkCounted t := by
  rw [InWorkCounted, hi, hb]
  exact h

theorem busy_set_of_eq {s : Pool} {w : ℕ} {p : Worker} (hw : s.workers[w]? = some p)
    (p' : Worker) (hp : p.busy = p'.busy) : (s.workers.set w p').countP Worker.busy = s.busy := by
  have hset := countP_set_add Worker.busy hw p'
  rw [hp] at hset
  exact Nat.add_right_cancel hset

theorem inWorkCounted_move {s t : Pool} {a : Action} (h : InWorkCounted s) (hm : Move s a t) :
    InWorkCounted t := by
  cases hm with
  | create =>
    show s.inWork = UInt8.ofNat ((s.workers ++ [Worker.ready]).countP Worker.busy)
    rw [List.countP_append]
    exact h
  | submit hws => exact h.of_busy rfl (countP_signal hws Worker.busy rfl)
  | sleep hw hp => exact h.of_busy rfl (busy_set_of_eq hw .asleep hp.busy)
  | exit hw hp => exact h.of_busy rfl (busy_set_of_eq hw .exited hp.busy)
  | @take w p task rest hw hp =>
    have hset := countP_set_add Worker.busy hw (.holding task)
    rw [hp.busy, Worker.busy_holding, if_neg Bool.false_ne_true, if_pos rfl] at hset
    show s.inWork + 1 = UInt8.ofNat ((s.workers.set w (.holding task)).countP Worker.busy)
    rw [Nat.add_zero] at hset
    rw [hset, h, UInt8.ofNat_add]
    rfl
  | spurious hw => exact h.of_busy rfl (busy_set_of_eq hw .woken rfl)
  | @call w task hw => exact h.of_busy rfl (busy_set_of_eq hw (.calling task) rfl)
  | ret hw => exact h.of_busy rfl (busy_set_of_eq hw .returned rfl)
  | @complete w wake vs hw =>
    have hset := countP_set_add Worker.busy hw .ready
    rw [Worker.busy_returned, Worker.busy_ready, if_neg Bool.false_ne_true, if_pos rfl,
      Nat.add_zero] at hset
    have hbusy : s.busy = (s.workers.set w .ready).countP Worker.busy + 1 := hset.symm
    show s.inWork - 1 = UInt8.ofNat ((s.workers.set w .ready).countP Worker.busy)
    rw [h, hbusy, UInt8.ofNat_add]
    exact add_sub_cancel_right _ _
  | stop => exact h.of_busy rfl (countP_broadcast s.workers Worker.busy rfl)
  | wait | waitSpurious | waitCheck | join | free => exact h

theorem inWorkCounted_of_reachable {n : ℕ} {s : Pool} (h : Reachable n s) : InWorkCounted s :=
  reachable_induction (P := InWorkCounted) rfl (fun _ _ _ => inWorkCounted_move) h

/-- Up to 255 workers `in_work` is the number of busy workers. -/
theorem inWork_toNat {n : ℕ} (hn : n ≤ 255) {s : Pool} (h : Reachable n s) :
    s.inWork.toNat = s.busy := by
  have hle : s.busy ≤ n := List.countP_le_length.trans (sized_of_reachable h).length_le
  rw [inWorkCounted_of_reachable h, UInt8.toNat_ofNat']
  exact Nat.mod_eq_of_lt (by omega)

/-! ## The barrier -/

/-- With both counters at zero, everything submitted is over. -/
theorem over_of_idle {n : ℕ} (hn : n ≤ 255) {s : Pool} (h : Reachable n s) (hidle : s.Idle) :
    s.held = [] ∧ ∀ t ∈ s.submitted, t ∈ s.finished ∨ t ∈ s.discarded := by
  have hbusy : s.busy = 0 := by
    rw [← inWork_toNat hn h, hidle.1]
    rfl
  have hheld := Pool.held_eq_nil hbusy
  refine ⟨hheld, fun t ht => ?_⟩
  have hmem := (conserved_of_reachable h).partition.mem_iff.mp ht
  rw [hidle.2, hheld, List.nil_append, List.nil_append, List.mem_append] at hmem
  exact hmem

/-- A call of `ccpool_wait` leaves its loop in this step. -/
def WaitLeaves (s t : Pool) : Prop :=
  ∃ i : ℕ, t.waiters[i]? = some .left ∧ s.waiters[i]? ≠ some .left

/-- A waiter leaves only an idle pool, and the step changes no task. -/
theorem idle_of_waitLeaves {s t : Pool} {a : Action} (hm : Move s a t) (hl : WaitLeaves s t) :
    s.Idle ∧ t.finished = s.finished ∧ t.discarded = s.discarded ∧ t.called = s.called := by
  obtain ⟨i, ht, hs⟩ := hl
  cases hm with
  | wait =>
    refine ⟨?_, rfl, rfl, rfl⟩
    by_contra hidle
    simp only [if_neg hidle] at ht
    rcases lt_or_ge i s.waiters.length with hi | hi
    · rw [List.getElem?_append_left hi] at ht
      exact hs ht
    · rw [List.getElem?_append_right hi] at ht
      have hmem := List.mem_of_getElem? ht
      exact absurd (List.mem_singleton.mp hmem) (by simp)
  | @waitCheck j hj =>
    refine ⟨?_, rfl, rfl, rfl⟩
    by_contra hidle
    simp only [if_neg hidle] at ht
    by_cases hij : j = i
    · subst hij
      obtain ⟨hlt, -⟩ := List.getElem?_eq_some_iff.mp hj
      rw [List.getElem?_set_self hlt] at ht
      exact absurd ht (by simp)
    · rw [List.getElem?_set_ne hij] at ht
      exact hs ht
  | @complete w wake vs hw hvs =>
    exfalso
    rcases signal_cases hvs with ⟨-, rfl⟩ | ⟨hk, rfl⟩
    · exact hs ht
    · by_cases hij : wake = i
      · subst hij
        obtain ⟨hlt, -⟩ := List.getElem?_eq_some_iff.mp hk
        rw [List.getElem?_set_self hlt] at ht
        exact absurd ht (by simp)
      · rw [List.getElem?_set_ne hij] at ht
        exact hs ht
  | @waitSpurious j hj =>
    exfalso
    by_cases hij : j = i
    · subst hij
      obtain ⟨hlt, -⟩ := List.getElem?_eq_some_iff.mp hj
      simp only [List.getElem?_set_self hlt] at ht
      exact absurd ht (by simp)
    · simp only [List.getElem?_set_ne hij] at ht
      exact hs ht
  | _ => exact absurd ht hs

theorem reachable_step {n : ℕ} {s t : Pool} {a : Action} (h : Reachable n s)
    (hstep : step s a = some t) : Reachable n t := by
  obtain ⟨as, has⟩ := h
  exact ⟨as ++ [a], Runs.run_snoc step has hstep⟩

/-- **`ccpool_wait` is a barrier**, for every pool whose workers fit the
counters.  When a call of it leaves its loop, every task submitted until then has
run to its end, once, or has been discarded by `ccpool_stop`; and both counters
are never zero while a task is out of the queue and not back from its `fn`. -/
theorem ccpool_wait_barrier (n : ℕ) (hn : n ≤ 255) :
    (∀ as s t a, Runs.run step (ccpoolStart n) as = some s → step s a = some t →
      WaitLeaves s t → ∀ task ∈ submissions as,
        (task ∈ t.finished ∧ t.called.count task = 1) ∨ task ∈ t.discarded) ∧
    (∀ s, Reachable n s → s.inWork = 0 → s.tasks = [] → s.held = []) := by
  refine ⟨fun as s t a hrun hstep hl task htask => ?_,
    fun s hs hw hq => (over_of_idle hn hs ⟨hw, hq⟩).1⟩
  have hs : Reachable n s := ⟨as, hrun⟩
  obtain ⟨hidle, hfin, hdis, -⟩ := idle_of_waitLeaves (move_of_step hstep) hl
  rcases (over_of_idle hn hs hidle).2 task (submitted_of_run hrun ▸ htask) with hf | hd
  · rw [← hfin] at hf
    exact Or.inl ⟨hf, (conserved_of_reachable (reachable_step hs hstep)).called_once hf⟩
  · exact Or.inr (hdis ▸ hd)

/-- A pool of one worker after its only task. -/
def finishedPool : Pool :=
  { ccpoolStart 1 with
    workers := [.ready]
    submitted := [⟨0, 5, 6⟩]
    taken := [⟨0, 5, 6⟩]
    called := [⟨0, 5, 6⟩]
    finished := [⟨0, 5, 6⟩] }

/-- Its run. -/
def finishedRun : List Action :=
  [.create, .submit 5 6 0, .check 0, .call 0, .ret 0, .complete 0 0]

theorem run_finishedRun : Runs.run step (ccpoolStart 1) finishedRun = some finishedPool := by decide

theorem reachable_finishedPool : Reachable 1 finishedPool := ⟨finishedRun, run_finishedRun⟩

theorem ccpool_wait_barrier_finishedPool :
    (((⟨0, 5, 6⟩ : Task) ∈ finishedPool.finished ∧
        finishedPool.called.count (⟨0, 5, 6⟩ : Task) = 1) ∨
      (⟨0, 5, 6⟩ : Task) ∈ finishedPool.discarded) ∧
    finishedPool.held = [] := by
  obtain ⟨hleave, hidle⟩ := ccpool_wait_barrier 1 (by decide)
  have hstep : step finishedPool .wait = some { finishedPool with waiters := [.left] } := by decide
  exact ⟨hleave finishedRun finishedPool _ .wait run_finishedRun hstep ⟨0, by decide, by decide⟩
    ⟨0, 5, 6⟩ (by decide), hidle finishedPool reachable_finishedPool rfl rfl⟩

/-! ## The join loop -/

/-- A worker that has left its loop stays where it is. -/
theorem exited_move {s t : Pool} {a : Action} (hm : Move s a t) {w : ℕ}
    (hw : s.workers[w]? = some .exited) : t.workers[w]? = some .exited := by
  -- a worker that moves is none that has left
  have hset : ∀ {v : ℕ} {p p' : Worker}, s.workers[v]? = some p → p ≠ .exited →
      (s.workers.set v p')[w]? = some .exited := by
    intro v p p' hv hp
    have hvw : v ≠ w := by
      rintro rfl
      rw [hw, Option.some.injEq] at hv
      exact hp hv.symm
    rw [List.getElem?_set_ne hvw]
    exact hw
  have hcheck : ∀ {p : Worker}, p.MayCheck → p ≠ Worker.exited := by
    rintro p (rfl | rfl) <;> simp
  cases hm with
  | create =>
    obtain ⟨hlt, -⟩ := List.getElem?_eq_some_iff.mp hw
    show (s.workers ++ [Worker.ready])[w]? = some .exited
    rw [List.getElem?_append_left hlt]
    exact hw
  | submit hws => exact getElem?_signal hws hw (by simp)
  | sleep hv hp => exact hset hv (hcheck hp)
  | exit hv hp => exact hset hv (hcheck hp)
  | take hv hp => exact hset hv (hcheck hp)
  | spurious hv => exact hset hv (by simp)
  | call hv => exact hset hv (by simp)
  | ret hv => exact hset hv (by simp)
  | complete hv => exact hset hv (by simp)
  | stop =>
    show (List.map _ s.workers)[w]? = some Worker.exited
    rw [List.getElem?_map, hw]
    rfl
  | wait | waitSpurious | waitCheck | join | free => exact hw

/-- The join loop joins the workers in order, up to `threadCount`, and each of
them has left its loop. -/
structure JoinLoop (s : Pool) : Prop where
  notCalled : s.stopper = .notCalled → s.joined = []
  joining : ∀ i, s.stopper = .joining i → s.joined = List.range i.toNat ∧ i ≤ s.threadCount
  freed : s.stopper = .freed → s.joined = List.range s.threadCount.toNat
  created : s.stopper ≠ .notCalled → s.workers.length = s.numThreads
  exited : ∀ w ∈ s.joined, s.workers[w]? = some .exited

theorem joinLoop_start (n : ℕ) : JoinLoop (ccpoolStart n) where
  notCalled _ := rfl
  joining i h := by simp [ccpoolStart] at h
  freed h := by simp [ccpoolStart] at h
  created h := absurd rfl h
  exited w h := by simp [ccpoolStart] at h

/-- A move outside `ccpool_stop` keeps what the join loop has done. -/
theorem JoinLoop.of_frame {s t : Pool} {a : Action} (h : JoinLoop s) (hm : Move s a t)
    (hst : t.stopper = s.stopper) (hj : t.joined = s.joined) (hc : t.threadCount = s.threadCount)
    (hlen : s.stopper ≠ .notCalled → t.workers.length = t.numThreads) : JoinLoop t := by
  constructor
  · rw [hst, hj]; exact h.notCalled
  · rw [hst, hj, hc]; exact h.joining
  · rw [hst, hj, hc]; exact h.freed
  · rw [hst]; exact hlen
  · rw [hj]; exact fun w hw => exited_move hm (h.exited w hw)

/-- The join loop begins with nothing joined. -/
theorem JoinLoop.stop {s t : Pool} (h : JoinLoop s) (hm : Move s .stop t) :
    JoinLoop t := by
  cases hm with
  | stop hn hl =>
    have hnil := h.notCalled hn
    constructor
    · intro hst
      exact absurd hst (by simp)
    · intro i hi
      rw [Stopper.joining.injEq] at hi
      rw [← hi]
      exact ⟨hnil, UInt8.le_iff_toNat_le.mpr (Nat.zero_le _)⟩
    · intro hst
      exact absurd hst (by simp)
    · intro _
      exact (length_broadcast s.workers).trans hl
    · intro w hw
      exact exited_move (Move.stop hn hl) (h.exited w hw)

/-- **One more worker is joined**, and it has left its loop. -/
theorem JoinLoop.join {s t : Pool} (h : JoinLoop s) (hm : Move s .join t) :
    JoinLoop t := by
  cases hm with
  | @join i hi hlt hw =>
    obtain ⟨hj, hle⟩ := h.joining i hi
    -- the index stays below `threadCount`, so it does not wrap
    have hsucc : (i + 1).toNat = i.toNat + 1 := by
      have hlt' := UInt8.lt_iff_toNat_lt.mp hlt
      have hbound := s.threadCount.toNat_lt
      rw [UInt8.toNat_add]
      exact Nat.mod_eq_of_lt (by simp only [UInt8.toNat_one]; omega)
    constructor
    · intro hst
      exact absurd hst (by simp)
    · intro j hj'
      rw [Stopper.joining.injEq] at hj'
      rw [← hj', hsucc, List.range_succ]
      refine ⟨congrArg (· ++ [i.toNat]) hj, UInt8.le_iff_toNat_le.mpr ?_⟩
      rw [hsucc]
      exact UInt8.lt_iff_toNat_lt.mp hlt
    · intro hst
      exact absurd hst (by simp)
    · intro _
      exact h.created (by rw [hi]; simp)
    · intro w hmem
      rcases List.mem_append.mp hmem with hold | hnew
      · exact h.exited w hold
      · rw [List.mem_singleton.mp hnew]
        exact hw

/-- The join loop ends with all of them joined. -/
theorem JoinLoop.free {s t : Pool} (h : JoinLoop s) (hm : Move s .free t) :
    JoinLoop t := by
  cases hm with
  | @free i hi hge =>
    obtain ⟨hj, hle⟩ := h.joining i hi
    have heq : i = s.threadCount := by
      refine UInt8.toNat_inj.mp ?_
      have h1 := UInt8.le_iff_toNat_le.mp hle
      have h2 := mt UInt8.lt_iff_toNat_lt.mpr hge
      omega
    constructor
    · intro hst
      exact absurd hst (by simp)
    · intro j hj'
      exact absurd hj' (by simp)
    · intro _
      rw [← heq]
      exact hj
    · intro _
      exact h.created (by rw [hi]; simp)
    · exact h.exited

theorem joinLoop_move {s t : Pool} {a : Action} (h : JoinLoop s) (hm : Move s a t) :
    JoinLoop t := by
  cases hm with
  | create hlt =>
    refine h.of_frame (Move.create hlt) rfl rfl rfl fun hst => ?_
    have hcreated := h.created hst
    omega
  | submit hws =>
    exact h.of_frame (Move.submit hws) rfl rfl rfl
      fun hst => (length_signal hws).trans (h.created hst)
  | sleep hw hp hq hs =>
    exact h.of_frame (Move.sleep hw hp hq hs) rfl rfl rfl
      fun hst => List.length_set.trans (h.created hst)
  | exit hw hp hs =>
    exact h.of_frame (Move.exit hw hp hs) rfl rfl rfl
      fun hst => List.length_set.trans (h.created hst)
  | take hw hp hs hq =>
    exact h.of_frame (Move.take hw hp hs hq) rfl rfl rfl
      fun hst => List.length_set.trans (h.created hst)
  | spurious hw =>
    exact h.of_frame (Move.spurious hw) rfl rfl rfl
      fun hst => List.length_set.trans (h.created hst)
  | call hw =>
    exact h.of_frame (Move.call hw) rfl rfl rfl
      fun hst => List.length_set.trans (h.created hst)
  | ret hw =>
    exact h.of_frame (Move.ret hw) rfl rfl rfl
      fun hst => List.length_set.trans (h.created hst)
  | complete hw hvs =>
    exact h.of_frame (Move.complete hw hvs) rfl rfl rfl
      fun hst => List.length_set.trans (h.created hst)
  | wait => exact h.of_frame Move.wait rfl rfl rfl h.created
  | waitSpurious hi => exact h.of_frame (Move.waitSpurious hi) rfl rfl rfl h.created
  | waitCheck hi => exact h.of_frame (Move.waitCheck hi) rfl rfl rfl h.created
  | stop hn hl => exact h.stop (Move.stop hn hl)
  | join hi hlt hw => exact h.join (Move.join hi hlt hw)
  | free hi hge => exact h.free (Move.free hi hge)

theorem joinLoop_of_reachable {n : ℕ} {s : Pool} (h : Reachable n s) : JoinLoop s :=
  reachable_induction (joinLoop_start n) (fun _ _ _ => joinLoop_move) h

/-- The law of the counters: `in_work` is the number of workers between their two
critical sections, and a pool that is freed has had all its workers joined, so
that none of them can still read it. -/
def CountersExact (n : ℕ) : Prop :=
  ∀ s, Reachable n s →
    s.inWork.toNat = s.busy ∧
    (s.stopper = .freed → (∀ w < n, w ∈ s.joined) ∧ ∀ p ∈ s.workers, p = .exited)

theorem countersExact_of_le {n : ℕ} (hn : n ≤ 255) : CountersExact n := by
  intro s hs
  refine ⟨inWork_toNat hn hs, fun hfreed => ?_⟩
  have hsized := sized_of_reachable hs
  have hloop := joinLoop_of_reachable hs
  have hcount : s.threadCount.toNat = n := by
    rw [hsized.threadCount, UInt8.toNat_ofNat']
    exact Nat.mod_eq_of_lt (by omega)
  have hjoined : ∀ w < n, w ∈ s.joined := by
    intro w hw
    rw [hloop.freed hfreed, hcount]
    exact List.mem_range.mpr hw
  refine ⟨hjoined, fun p hp => ?_⟩
  obtain ⟨w, hw⟩ := List.getElem?_of_mem hp
  obtain ⟨hlt, -⟩ := List.getElem?_eq_some_iff.mp hw
  have hlen : s.workers.length = n :=
    (hloop.created (by rw [hfreed]; simp)).trans hsized.numThreads
  have hex := hloop.exited w (hjoined w (hlen ▸ hlt))
  rw [hw, Option.some.injEq] at hex
  exact hex

/-! ## What happens from 256 workers on

All workers are created, the pool is stopped before any of them has moved, and
the stopper joins the workers it knows of. -/

/-- `ccpool_start` is done, and no worker has moved. -/
theorem reachable_create {n : ℕ} : ∀ {m : ℕ}, m ≤ n →
    Reachable n { ccpoolStart n with workers := List.replicate m .ready }
  | 0, _ => ⟨[], rfl⟩
  | m + 1, hm => by
    have ih := reachable_create (Nat.le_of_succ_le hm)
    have hlt : (List.replicate m Worker.ready).length < n := by
      rw [List.length_replicate]
      exact hm
    rw [List.replicate_succ']
    exact reachable_step ih (step_of_move (by simp [ccpoolStart]) (Move.create hlt))

/-- The state in the join loop after `i` workers have left and have been
joined. -/
def joinedUpTo (n i : ℕ) : Pool :=
  { ccpoolStart n with
    stop := true
    workers := List.replicate i .exited ++ List.replicate (n - i) .ready
    stopper := .joining (UInt8.ofNat i)
    joined := List.range i }

theorem reachable_stop (n : ℕ) : Reachable n (joinedUpTo n 0) := by
  have hmove := Move.stop (s := { ccpoolStart n with workers := List.replicate n .ready }) rfl
    (List.length_replicate)
  have hbroad : broadcast Worker.asleep Worker.woken (List.replicate n Worker.ready) =
      List.replicate n Worker.ready := by
    rw [broadcast, List.map_replicate]
    rfl
  have hstop := reachable_step (reachable_create le_rfl)
    (step_of_move (by simp [ccpoolStart]) hmove)
  rw [hbroad] at hstop
  exact hstop

/-- One more worker leaves, and is joined. -/
theorem reachable_exit_join {n i : ℕ} (hi : i < n % 256) (h : Reachable n (joinedUpTo n i)) :
    Reachable n (joinedUpTo n (i + 1)) := by
  have hlt : i < n := lt_of_lt_of_le hi (Nat.mod_le n 256)
  have hmod : n % 256 < 256 := Nat.mod_lt n (by decide)
  have hsplit : List.replicate (n - i) Worker.ready =
      Worker.ready :: List.replicate (n - (i + 1)) Worker.ready := by
    rw [← List.replicate_succ]
    congr 1
    omega
  have hget : (joinedUpTo n i).workers[i]? = some .ready := by
    simp [joinedUpTo, hsplit]
  have hset : (joinedUpTo n i).workers.set i .exited =
      List.replicate (i + 1) .exited ++ List.replicate (n - (i + 1)) .ready := by
    simp [joinedUpTo, hsplit, List.replicate_succ']
  have hleft := reachable_step h
    (step_of_move (by simp [joinedUpTo]) (Move.exit hget (Or.inl rfl) rfl))
  rw [hset] at hleft
  have hto : (UInt8.ofNat i).toNat = i := by
    rw [UInt8.toNat_ofNat']
    exact Nat.mod_eq_of_lt (by omega)
  have hless : UInt8.ofNat i < UInt8.ofNat n := by
    rw [UInt8.lt_iff_toNat_lt, hto, UInt8.toNat_ofNat']
    exact hi
  have hexited : (List.replicate (i + 1) Worker.exited ++
      List.replicate (n - (i + 1)) Worker.ready)[(UInt8.ofNat i).toNat]? = some .exited := by
    rw [hto, List.getElem?_append_left (by simp), List.getElem?_replicate, if_pos (by omega)]
  have hjoin := reachable_step hleft
    (step_of_move (by simp [joinedUpTo]) (Move.join rfl hless hexited))
  rw [hto] at hjoin
  have hnext : joinedUpTo n (i + 1) =
      { joinedUpTo n i with
        workers := List.replicate (i + 1) .exited ++ List.replicate (n - (i + 1)) .ready
        stopper := .joining (UInt8.ofNat i + 1)
        joined := List.range i ++ [i] } := by
    simp only [joinedUpTo, List.range_succ, UInt8.ofNat_add]
    rfl
  rw [hnext]
  exact hjoin

/-- The join loop gets as far as `thread_count`. -/
theorem reachable_joinedUpTo {n : ℕ} : ∀ {i : ℕ}, i ≤ n % 256 → Reachable n (joinedUpTo n i)
  | 0, _ => reachable_stop n
  | _ + 1, hi => reachable_exit_join hi (reachable_joinedUpTo (Nat.le_of_succ_le hi))

/-- The pool is freed when `thread_count` workers have been joined. -/
theorem reachable_freed (n : ℕ) :
    Reachable n { joinedUpTo n (n % 256) with stopper := .freed } := by
  have hge : ¬ UInt8.ofNat (n % 256) < UInt8.ofNat n := by
    rw [UInt8.lt_iff_toNat_lt, UInt8.toNat_ofNat', UInt8.toNat_ofNat']
    omega
  exact reachable_step (reachable_joinedUpTo le_rfl)
    (step_of_move (by simp [joinedUpTo]) (Move.free rfl hge))

/-- **The counters are exact exactly up to 255 workers.**  From 256 on
`thread_count` is `num_threads` modulo 256, and `ccpool_stop` frees the pool
without joining the last workers that `ccpool_start` has created. -/
theorem countersExact_iff (n : ℕ) : CountersExact n ↔ n ≤ 255 := by
  refine ⟨fun h => ?_, countersExact_of_le⟩
  by_contra hn
  obtain ⟨hjoined, -⟩ := (h _ (reachable_freed n)).2 rfl
  have hmem : n - 1 ∈ List.range (n % 256) := hjoined (n - 1) (by omega)
  have hlt := List.mem_range.mp hmem
  have hmod : n % 256 < 256 := Nat.mod_lt n (by decide)
  omega

/-- A pool of 256 threads is freed with none of them joined. -/
theorem not_countersExact_256 : ¬ CountersExact 256 := by
  intro h
  obtain ⟨hjoined, -⟩ := (h _ (reachable_freed 256)).2 rfl
  have hmem : (0 : ℕ) ∈ ([] : List ℕ) := hjoined 0 (by decide)
  simp at hmem

end ThreadPool
end CCore
