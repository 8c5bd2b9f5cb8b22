import Mathlib.Algebra.BigOperators.Group.List.Basic
import CCore.ThreadPool.Wakeups

/-!
# The pool gets its work done

So far nothing says that anything ever happens.  Two things could go wrong: the
threads of the pool could go on for ever without doing anything, or they could all
stop while there is work left.

Against the first there is a potential.  A queued task is worth the five moves that
a worker makes for it, from taking it to the end of its second critical section; a
worker and a waiter are worth the moves they can make before they fall asleep; and a
submission or a wake-up without a signal adds to the potential what it may cause.
`ccpool_work_bounded` reads this on whole runs: the number of moves that the pool's own
threads have made is bounded by the number of threads and the number of calls.

Against the second there is `WorkersAwake`.  Where none of the pool's threads can
move, no worker is awake, so the queue is empty or nobody sleeps, and after a stop
every worker has left.  So when the tasks return and nobody calls the pool any more,
every submitted task is finished, and `ccpool_stop` returns
(`ccpool_drains`).
-/

namespace CCore
namespace ThreadPool

open CondVar

/-! ## The moves of the pool -/

/-- A move of a thread that is underway in the pool: not a new call, and not a
wake-up without a signal. -/
def Action.own : Action → Bool
  | .submit _ _ _ => false
  | .spurious _ => false
  | .wait => false
  | .waitSpurious _ => false
  | .stop => false
  | _ => true

/-- A call of `ccpool_submit`. -/
def Action.submits : Action → Bool
  | .submit _ _ _ => true
  | _ => false

/-- A wake-up without a signal. -/
def Action.wakes : Action → Bool
  | .spurious _ => true
  | .waitSpurious _ => true
  | _ => false

/-- One for each move of the pool's own threads. -/
def Action.cost : Action → ℕ
  | .submit _ _ _ => 0
  | .spurious _ => 0
  | .wait => 0
  | .waitSpurious _ => 0
  | .stop => 0
  | _ => 1

/-- What the other moves may cause: five moves for a task and one for the worker
that is woken for it, and one move for a wake-up without a signal. -/
def Action.gain : Action → ℕ
  | .submit _ _ _ => 6
  | .spurious _ => 1
  | .waitSpurious _ => 1
  | _ => 0

theorem Action.cost_eq (a : Action) : a.cost = if a.own then 1 else 0 := by
  cases a <;> rfl

theorem Action.gain_eq (a : Action) :
    a.gain = (if a.submits then 6 else 0) + if a.wakes then 1 else 0 := by
  cases a <;> rfl

/-- The pool's own threads do nothing that adds to the potential. -/
theorem Action.of_own {a : Action} (h : a.own = true) : a.submits = false ∧ a.wakes = false := by
  cases a with
  | submit | spurious | wait | waitSpurious | stop => exact absurd h (by simp [Action.own])
  | _ => exact ⟨rfl, rfl⟩

theorem sum_cost (as : List Action) : (as.map Action.cost).sum = as.countP Action.own := by
  rw [funext Action.cost_eq, Runs.sum_map_ite, one_mul]

theorem sum_gain (as : List Action) :
    (as.map Action.gain).sum = 6 * as.countP Action.submits + as.countP Action.wakes := by
  rw [funext Action.gain_eq, List.sum_map_add, Runs.sum_map_ite, Runs.sum_map_ite, one_mul]

/-! ## The potential -/

/-- The moves that a worker has ahead of it, with the one of the waiter it signals. -/
def Worker.weight : Worker → ℕ
  | .ready => 1
  | .asleep => 0
  | .woken => 1
  | .holding _ => 5
  | .calling _ => 4
  | .returned => 3
  | .exited => 0

theorem Worker.MayCheck.weight {p : Worker} (h : p.MayCheck) : p.weight = 1 := by
  rcases h with rfl | rfl <;> rfl

/-- The moves that a call of `ccpool_wait` has ahead of it. -/
def Waiter.weight : Waiter → ℕ
  | .woken => 1
  | _ => 0

/-- The moves that `ccpool_stop` has ahead of it, and, before its call, those of the
workers that it wakes. -/
def Pool.stopWeight (s : Pool) : ℕ :=
  match s.stopper with
  | .notCalled => s.numThreads + s.threadCount.toNat + 2
  | .joining i => s.threadCount.toNat - i.toNat + 1
  | .freed => 0

/-- **The moves that the pool has ahead of it**, at most. -/
def Pool.potential (s : Pool) : ℕ :=
  5 * s.tasks.length + (s.workers.map Worker.weight).sum + (s.waiters.map Waiter.weight).sum +
    2 * (s.numThreads - s.workers.length) + s.stopWeight

theorem potential_start (n : ℕ) : (ccpoolStart n).potential = 3 * n + n % 256 + 2 := by
  show 0 + 0 + 0 + 2 * (n - 0) + (n + (UInt8.ofNat n).toNat + 2) = _
  rw [UInt8.toNat_ofNat']
  omega

/-- A worker that moves, the rest of the potential being what it was. -/
theorem potential_set_worker {s : Pool} {w : ℕ} {p : Worker} (hw : s.workers[w]? = some p)
    (p' : Worker) :
    ({ s with workers := s.workers.set w p' } : Pool).potential + p.weight =
      s.potential + p'.weight := by
  have hset := sum_set_add Worker.weight hw p'
  have hstop : ({ s with workers := s.workers.set w p' } : Pool).stopWeight = s.stopWeight := rfl
  rw [Pool.potential, Pool.potential, hstop]
  show 5 * s.tasks.length + ((s.workers.set w p').map Worker.weight).sum +
    (s.waiters.map Waiter.weight).sum + 2 * (s.numThreads - (s.workers.set w p').length) +
    s.stopWeight + p.weight = _
  rw [List.length_set]
  omega

/-- The index of the join loop does not wrap below `thread_count`. -/
theorem toNat_succ_of_lt {i c : UInt8} (h : i < c) : (i + 1).toNat = i.toNat + 1 := by
  have hlt := UInt8.lt_iff_toNat_lt.mp h
  have hbound := c.toNat_lt
  rw [UInt8.toNat_add]
  exact Nat.mod_eq_of_lt (by simp only [UInt8.toNat_one]; omega)

/-- **Every move is paid for.** -/
theorem potential_move {s t : Pool} {a : Action} (hm : Move s a t) :
    t.potential + a.cost ≤ s.potential + a.gain := by
  cases hm with
  | create hlt =>
    simp only [Pool.potential, Pool.stopWeight, List.map_append, List.map_singleton,
      List.sum_append, List.sum_singleton, List.length_append, List.length_singleton,
      Worker.weight, Action.cost, Action.gain]
    omega
  | submit hws =>
    have hsum := sum_signal_le hws Worker.weight
    simp only [Pool.potential, Pool.stopWeight, length_signal hws, List.length_append,
      List.length_singleton, Worker.weight, Action.cost, Action.gain] at hsum ⊢
    omega
  | sleep hw hp =>
    have hset := potential_set_worker hw .asleep
    rw [hp.weight] at hset
    exact hset.le
  | exit hw hp =>
    have hset := potential_set_worker hw .exited
    rw [hp.weight] at hset
    exact hset.le
  | @take w p task rest hw hp hstop hq =>
    -- the worker takes over what the task is worth
    have hset := sum_set_add Worker.weight hw (.holding task)
    rw [hp.weight] at hset
    simp only [Pool.potential, Pool.stopWeight, List.length_set, hq, List.length_cons,
      Worker.weight, Action.cost, Action.gain] at hset ⊢
    omega
  | spurious hw => exact (potential_set_worker hw .woken).le
  | @call w task hw =>
    have hset := potential_set_worker hw (.calling task)
    exact Nat.le_of_add_le_add_right (b := 4) hset.le
  | ret hw =>
    have hset := potential_set_worker hw .returned
    exact Nat.le_of_add_le_add_right (b := 3) hset.le
  | complete hw hvs =>
    have hset := sum_set_add Worker.weight hw .ready
    have hsum := sum_signal_le hvs Waiter.weight
    simp only [Pool.potential, Pool.stopWeight, List.length_set, Worker.weight, Waiter.weight,
      Action.cost, Action.gain] at hset hsum ⊢
    omega
  | wait =>
    have hnew : (if s.Idle then Waiter.left else Waiter.asleep).weight = 0 := by
      split
      · rfl
      · rfl
    simp only [Pool.potential, Pool.stopWeight, List.map_append, List.map_singleton,
      List.sum_append, List.sum_singleton, hnew, Action.cost, Action.gain]
    omega
  | waitSpurious hi =>
    have hset := sum_set_add Waiter.weight hi .woken
    simp only [Pool.potential, Pool.stopWeight, Waiter.weight, Action.cost, Action.gain] at hset ⊢
    omega
  | waitCheck hi =>
    have hnew : (if s.Idle then Waiter.left else Waiter.asleep).weight = 0 := by
      split
      · rfl
      · rfl
    have hset := sum_set_add Waiter.weight hi (if s.Idle then .left else .asleep)
    rw [hnew] at hset
    simp only [Pool.potential, Pool.stopWeight, Waiter.weight, Action.cost, Action.gain] at hset ⊢
    omega
  | stop hn hl =>
    -- the broadcast wakes no more workers than there are
    have hsum : ((broadcast Worker.asleep Worker.woken s.workers).map Worker.weight).sum ≤
        (s.workers.map Worker.weight).sum + s.workers.length * Worker.woken.weight :=
      sum_broadcast_le s.workers Worker.weight
    simp only [Pool.potential, Pool.stopWeight, hn, length_broadcast, List.length_nil, hl,
      Worker.weight, Action.cost, Action.gain, UInt8.toNat_zero] at hsum ⊢
    omega
  | join hi hlt =>
    have hsucc := toNat_succ_of_lt hlt
    have hlt' := UInt8.lt_iff_toNat_lt.mp hlt
    simp only [Pool.potential, Pool.stopWeight, hi, hsucc, Action.cost, Action.gain]
    omega
  | free hi =>
    simp only [Pool.potential, Pool.stopWeight, hi, Action.cost, Action.gain]
    omega

/-- **The pool does not spin.**  In every run, whatever the interleaving, the moves
that the pool's own threads have made are at most six for each task that was
submitted, one for each wake-up without a signal, and a number for the threads that
depends on nothing else. -/
theorem ccpool_work_bounded (n : ℕ) (as : List Action) (s : Pool)
    (hrun : Runs.run step (ccpoolStart n) as = some s) :
    as.countP Action.own ≤
      3 * n + n % 256 + 2 + (6 * as.countP Action.submits + as.countP Action.wakes) := by
  have hpaid := Runs.run_potential (I := fun _ => True) (fun _ _ _ _ _ => trivial)
    (fun _ _ _ _ h => potential_move (move_of_step h)) trivial hrun
  rw [sum_cost, sum_gain, potential_start] at hpaid
  exact (Nat.le_add_left _ _).trans hpaid

theorem ccpool_work_bounded_one_task :
    [Action.create, .check 0, .submit 5 6 0, .check 0, .call 0, .ret 0, .complete 0 0].countP
      Action.own ≤ 3 * 1 + 1 % 256 + 2 + (6 * 1 + 0) :=
  ccpool_work_bounded 1 [.create, .check 0, .submit 5 6 0, .check 0, .call 0, .ret 0, .complete 0 0]
    finishedPool (by decide)

/-! ## Where no thread of the pool can move -/

/-- No thread of the pool can move. -/
abbrev Settled (s : Pool) : Prop := Runs.Stuck step (fun a => a.own = true) s

/-- `stop` is set by `ccpool_stop`, and a worker leaves its loop only then. -/
structure StopSeen (s : Pool) : Prop where
  called : s.stop = true ↔ s.stopper ≠ .notCalled
  exited : s.stop = false → Worker.exited ∉ s.workers

theorem exited_notMem_set {ws : List Worker} (h : Worker.exited ∉ ws) {w : ℕ} {p' : Worker}
    (hp' : p' ≠ .exited) : Worker.exited ∉ ws.set w p' := by
  intro hmem
  rcases List.mem_or_eq_of_mem_set hmem with hold | hnew
  · exact h hold
  · exact hp' hnew.symm

theorem stopSeen_move {s t : Pool} {a : Action} (h : StopSeen s) (hm : Move s a t) :
    StopSeen t := by
  obtain ⟨hcalled, hexited⟩ := h
  cases hm with
  | create =>
    refine ⟨hcalled, fun hst hmem => ?_⟩
    rcases List.mem_append.mp hmem with hold | hnew
    · exact hexited hst hold
    · exact absurd (List.mem_singleton.mp hnew) (by simp)
  | submit hws =>
    refine ⟨hcalled, fun hst => ?_⟩
    rcases signal_cases hws with ⟨-, rfl⟩ | ⟨-, rfl⟩
    · exact hexited hst
    · exact exited_notMem_set (hexited hst) (by simp)
  | exit hw hp hst => exact ⟨hcalled, fun hst' => absurd (hst'.symm.trans hst) (by simp)⟩
  | sleep | take | spurious | call | ret | complete =>
    exact ⟨hcalled, fun hst => exited_notMem_set (hexited hst) (by simp)⟩
  | stop => exact ⟨by simp, fun hst => absurd hst (by simp)⟩
  | join hi => exact ⟨by rw [hcalled, hi]; simp, hexited⟩
  | free hi => exact ⟨by rw [hcalled, hi]; simp, hexited⟩
  | wait | waitSpurious | waitCheck => exact ⟨hcalled, hexited⟩

theorem stopSeen_of_reachable {n : ℕ} {s : Pool} (h : Reachable n s) : StopSeen s :=
  reachable_induction (P := StopSeen) ⟨by simp [ccpoolStart], by simp [ccpoolStart]⟩
    (fun _ _ _ => stopSeen_move) h

theorem workersAwake_of_reachable {n : ℕ} {s : Pool} (h : Reachable n s) : WorkersAwake s :=
  reachable_induction (P := WorkersAwake)
    ⟨fun _ => Or.inl (by simp [ccpoolStart]), by simp [ccpoolStart]⟩
    (fun _ _ _ => workersAwake_move) h

/-- Some thread that sleeps can be woken, if there is one. -/
theorem exists_signal {W : Type} [DecidableEq W] (asleep woken : W) (ws : List W) :
    ∃ i ws', signal asleep woken ws i = some ws' := by
  by_cases hmem : asleep ∈ ws
  · obtain ⟨i, hi⟩ := List.getElem?_of_mem hmem
    exact ⟨i, _, by rw [signal, if_pos hmem, if_pos hi]⟩
  · exact ⟨0, ws, if_neg hmem⟩

theorem Settled.not_move {s t : Pool} {a : Action} (h : Settled s) (hs : s.stopper ≠ .freed)
    (ha : a.own = true) : ¬Move s a t := fun hm =>
  Option.some_ne_none _ ((step_of_move hs hm).symm.trans (h a ha))

/-- **In a settled pool every worker has fallen asleep or has left.** -/
theorem Settled.worker {s : Pool} (h : Settled s) (hs : s.stopper ≠ .freed) {p : Worker}
    (hp : p ∈ s.workers) : p = .asleep ∨ p = .exited := by
  obtain ⟨w, hw⟩ := List.getElem?_of_mem hp
  have hcheck : p.MayCheck → False := by
    intro hmay
    cases hst : s.stop with
    | true => exact h.not_move hs rfl (Move.exit hw hmay hst)
    | false =>
      cases hq : s.tasks with
      | nil => exact h.not_move hs rfl (Move.sleep hw hmay hq hst)
      | cons task rest => exact h.not_move hs rfl (Move.take hw hmay hst hq)
  cases p with
  | ready => exact (hcheck (Or.inl rfl)).elim
  | woken => exact (hcheck (Or.inr rfl)).elim
  | asleep => exact Or.inl rfl
  | holding task => exact (h.not_move hs rfl (Move.call hw)).elim
  | calling task => exact (h.not_move hs rfl (Move.ret hw)).elim
  | returned =>
    obtain ⟨i, vs, hvs⟩ := exists_signal Waiter.asleep .woken s.waiters
    exact (h.not_move hs rfl (Move.complete hw hvs)).elim
  | exited => exact Or.inr rfl

/-- All workers have been created. -/
theorem Settled.length_workers {n : ℕ} {s : Pool} (h : Settled s) (hs : s.stopper ≠ .freed)
    (hreach : Reachable n s) : s.workers.length = n := by
  have hsized := sized_of_reachable hreach
  by_contra hne
  have hlt : s.workers.length < s.numThreads := by
    rw [hsized.numThreads]
    exact lt_of_le_of_ne hsized.length_le hne
  exact h.not_move hs rfl (Move.create hlt)

/-- Nothing is held by workers that sleep or have left. -/
theorem Settled.held {s : Pool} (h : Settled s) (hs : s.stopper ≠ .freed) : s.held = [] := by
  refine List.filterMap_eq_nil_iff.mpr fun p hp => ?_
  rcases h.worker hs hp with rfl | rfl
  · rfl
  · rfl

/-- **A settled pool that runs has nothing left to do.** -/
theorem Settled.drained {n : ℕ} {s : Pool} (h : Settled s) (hreach : Reachable n s) (hn : 1 ≤ n)
    (hrunning : s.stopper = .notCalled) :
    s.tasks = [] ∧ s.held = [] ∧ ∀ task ∈ s.submitted, task ∈ s.finished := by
  have hs : s.stopper ≠ .freed := by rw [hrunning]; simp
  obtain ⟨hcalled, hexited⟩ := stopSeen_of_reachable hreach
  have hstop : s.stop = false := by
    rw [← Bool.not_eq_true, hcalled, not_not]
    exact hrunning
  have hall : ∀ p ∈ s.workers, p = .asleep := by
    intro p hp
    rcases h.worker hs hp with hasleep | hgone
    · exact hasleep
    · exact absurd (hgone ▸ hp) (hexited hstop)
  have hlength := h.length_workers hs hreach
  obtain ⟨p, hp⟩ := List.exists_mem_of_length_pos (by omega : 0 < s.workers.length)
  have hqueue : s.tasks = [] := by
    rcases (workersAwake_of_reachable hreach).1 hstop with hnone | hle
    · exact absurd (hall p hp ▸ hp) hnone
    · have hactive : s.active = 0 := by
        refine List.countP_eq_zero.mpr fun q hq => ?_
        rw [hall q hq]
        simp [Worker.active]
      rw [hactive] at hle
      exact List.length_eq_zero_iff.mp (Nat.le_zero.mp hle)
  have hheld := h.held hs
  have hconserved := conserved_of_reachable hreach
  refine ⟨hqueue, hheld, fun task htask => ?_⟩
  have hmem := hconserved.partition.mem_iff.mp htask
  rwa [hqueue, hheld, hconserved.early hstop, List.nil_append, List.nil_append,
    List.append_nil] at hmem

/-- **A settled pool that is being stopped has been freed.** -/
theorem Settled.freed {n : ℕ} {s : Pool} (h : Settled s) (hreach : Reachable n s)
    (hcalled : s.stopper ≠ .notCalled) : s.stopper = .freed := by
  by_contra hs
  have hstop : s.stop = true := (stopSeen_of_reachable hreach).called.mpr hcalled
  have hall : ∀ p ∈ s.workers, p = .exited := by
    intro p hp
    rcases h.worker hs hp with hasleep | hgone
    · exact absurd (hasleep ▸ hp) ((workersAwake_of_reachable hreach).2 hstop)
    · exact hgone
  cases hst : s.stopper with
  | notCalled => exact hcalled hst
  | freed => exact hs hst
  | joining i =>
    by_cases hlt : i < s.threadCount
    · -- worker `i` exists, and has left
      have hi : i.toNat < s.workers.length := by
        have hlt' := UInt8.lt_iff_toNat_lt.mp hlt
        rw [(sized_of_reachable hreach).threadCount, UInt8.toNat_ofNat'] at hlt'
        rw [h.length_workers hs hreach]
        exact hlt'.trans_le (Nat.mod_le n _)
      have hexited : s.workers[i.toNat]? = some .exited := by
        rw [List.getElem?_eq_getElem hi, hall _ (List.getElem_mem hi)]
      exact h.not_move hs rfl (Move.join hst hlt hexited)
    · exact h.not_move hs rfl (Move.free hst hlt)

/-! ## Draining -/

/-- The pool's own threads neither submit nor call `ccpool_stop`. -/
theorem own_move {s t : Pool} {a : Action} (ha : a.own = true) (hm : Move s a t) :
    t.submitted = s.submitted ∧ (t.stopper = .notCalled ↔ s.stopper = .notCalled) := by
  cases hm with
  | submit | spurious | wait | waitSpurious | stop => exact absurd ha (by simp [Action.own])
  | join hi => exact ⟨rfl, by rw [hi]; simp⟩
  | free hi => exact ⟨rfl, by rw [hi]; simp⟩
  | _ => exact ⟨rfl, Iff.rfl⟩

theorem own_run {s t : Pool} {as : List Action} (has : ∀ a ∈ as, a.own = true)
    (hrun : Runs.run step s as = some t) :
    t.submitted = s.submitted ∧ (t.stopper = .notCalled ↔ s.stopper = .notCalled) := by
  induction as generalizing s with
  | nil =>
    cases hrun
    exact ⟨rfl, Iff.rfl⟩
  | cons a as ih =>
    obtain ⟨ha, has⟩ := List.forall_mem_cons.mp has
    obtain ⟨u, hu, hrest⟩ := (Runs.run_cons_eq_some step).mp hrun
    obtain ⟨hsubmitted, hstopper⟩ := own_move ha (move_of_step hu)
    obtain ⟨hsubmitted', hstopper'⟩ := ih has hrest
    exact ⟨hsubmitted'.trans hsubmitted, hstopper'.trans hstopper⟩

theorem reachable_run {n : ℕ} {s t : Pool} {as : List Action} (h : Reachable n s)
    (hrun : Runs.run step s as = some t) : Reachable n t := by
  obtain ⟨bs, hbs⟩ := h
  exact ⟨bs ++ as, (Runs.run_append_eq_some step).mpr ⟨s, hbs, hrun⟩⟩

/-- An own move costs one. -/
theorem own_step_lt {s t : Pool} {a : Action} (ha : a.own = true) (h : step s a = some t) :
    t.potential < s.potential := by
  have hpaid := potential_move (move_of_step h)
  obtain ⟨hsubmits, hwakes⟩ := Action.of_own ha
  rw [a.cost_eq, if_pos ha, a.gain_eq, hsubmits, hwakes] at hpaid
  exact Nat.lt_of_succ_le hpaid

/-- **The pool gets its work done.**  From any reachable state, let the threads of the
pool move, in any order, and nobody call it any more.  They can make no more moves than
the potential of the state, and some run of them leads to where none is left.  Then,
unless `ccpool_stop` had been called, the queue is empty, nothing is being executed and
every task that was submitted is finished, if there is a worker at all; and if
`ccpool_stop` had been called, it has returned. -/
theorem ccpool_drains (n : ℕ) (s : Pool) (h : Reachable n s) :
    (∀ as t, (∀ a ∈ as, a.own = true) → Runs.run step s as = some t →
      as.length ≤ s.potential ∧
      (Settled t → s.stopper = .notCalled → 1 ≤ n →
        t.tasks = [] ∧ t.held = [] ∧ ∀ task ∈ s.submitted, task ∈ t.finished) ∧
      (Settled t → s.stopper ≠ .notCalled → t.stopper = .freed)) ∧
    ∃ as t, (∀ a ∈ as, a.own = true) ∧ Runs.run step s as = some t ∧ Settled t := by
  constructor
  · intro as t has hrun
    obtain ⟨hsubmitted, hstopper⟩ := own_run has hrun
    have ht := reachable_run h hrun
    refine ⟨?_, fun hsettled hrunning hn => ?_, fun hsettled hcalled => ?_⟩
    · have hpaid := Runs.run_potential (V := Pool.potential) (I := fun _ => True)
        (fun _ _ _ _ _ => trivial) (fun _ _ _ _ h => potential_move (move_of_step h)) trivial hrun
      have hsubmits : as.countP Action.submits = 0 := List.countP_eq_zero.mpr fun a ha =>
        Bool.eq_false_iff.mp (Action.of_own (has a ha)).1
      have hwakes : as.countP Action.wakes = 0 := List.countP_eq_zero.mpr fun a ha =>
        Bool.eq_false_iff.mp (Action.of_own (has a ha)).2
      rw [sum_cost, sum_gain, hsubmits, hwakes, List.countP_eq_length.mpr has] at hpaid
      exact (Nat.le_add_left _ _).trans hpaid
    · rw [← hsubmitted]
      exact hsettled.drained ht hn (hstopper.mpr hrunning)
    · exact hsettled.freed ht fun hnot => hcalled (hstopper.mp hnot)
  · obtain ⟨as, t, has, hrun, -, hsettled⟩ := Runs.exists_run_stuck (V := Pool.potential)
      (I := fun _ => True) (A := fun a : Action => a.own = true) (fun _ _ _ _ _ _ => trivial)
      (fun _ _ _ _ ha h => own_step_lt ha h) trivial
    exact ⟨as, t, has, hrun, hsettled⟩

/-- Two workers, one of them inside a task and one task queued. -/
theorem ccpool_drains_busy : ∃ as t, (∀ a ∈ as, a.own = true) ∧
    Runs.run step { ccpoolStart 2 with
      inWork := 1
      tasks := [⟨1, 7, 8⟩]
      workers := [.calling ⟨0, 5, 6⟩, .woken]
      submitted := [⟨0, 5, 6⟩, ⟨1, 7, 8⟩]
      taken := [⟨0, 5, 6⟩]
      called := [⟨0, 5, 6⟩] } as = some t ∧
    as.length ≤ 10 + 5 + 261 ∧ t.tasks = [] ∧ (⟨1, 7, 8⟩ : Task) ∈ t.finished := by
  have hreach : Reachable 2 { ccpoolStart 2 with
      inWork := 1
      tasks := [⟨1, 7, 8⟩]
      workers := [.calling ⟨0, 5, 6⟩, .woken]
      submitted := [⟨0, 5, 6⟩, ⟨1, 7, 8⟩]
      taken := [⟨0, 5, 6⟩]
      called := [⟨0, 5, 6⟩] } :=
    ⟨[.create, .create, .check 1, .submit 5 6 1, .check 0, .call 0, .check 1, .submit 7 8 1],
      by decide⟩
  obtain ⟨hall, as, t, has, hrun, hsettled⟩ := ccpool_drains 2 _ hreach
  obtain ⟨hlength, hdrained, -⟩ := hall as t has hrun
  obtain ⟨htasks, -, hfinished⟩ := hdrained hsettled rfl (by decide)
  exact ⟨as, t, has, hrun, hlength.trans (by decide), htasks, hfinished _ (by decide)⟩

end ThreadPool
end CCore
