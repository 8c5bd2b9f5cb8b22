import CCore.ThreadPool.Counters

/-!
# Who sleeps, and who wakes them

Two condition variables, two different answers.

**Workers on `cv`.**  `ccpool_submit` signals after every insertion, and
`ccpool_stop` broadcasts.  A signal that finds nobody asleep is lost, and a woken
worker may find that another one took its task, so no single wake-up can be
traced to its task; what survives is a count.  While the pool runs, either nobody
is asleep or there are at least as many active workers as queued tasks
(`WorkersAwake`), and every active worker looks at the queue again before it can
sleep.

**Waiters on `idle_cv`.**  Here the signal is the only wake-up, it wakes one
thread, and it is sent from a worker's completion step only.  A step that makes
the pool idle must therefore find at most as many sleepers as it wakes.
`Relieves` spells this out for the three steps that can make the pool idle, and
`noneLeftBehind_iff` says that this condition is exact along every run.
-/

namespace CCore
namespace ThreadPool

open CondVar

/-! ## Workers on `cv` -/

/-- The worker is awake or runs a task: it will look at the queue again. -/
def Worker.active : Worker → Bool
  | .asleep => false
  | .exited => false
  | _ => true

theorem Worker.MayCheck.active {p : Worker} (h : p.MayCheck) : p.active = true := by
  rcases h with rfl | rfl <;> rfl

/-- The number of workers that are awake or running a task. -/
def Pool.active (s : Pool) : ℕ := s.workers.countP Worker.active

/-- While the pool runs, sleepers are never needed for the queued tasks; once it
is stopped, nobody sleeps. -/
def WorkersAwake (s : Pool) : Prop :=
  (s.stop = false → Worker.asleep ∉ s.workers ∨ s.tasks.length ≤ s.active) ∧
  (s.stop = true → Worker.asleep ∉ s.workers)

/-- A worker that moves to a place other than sleep adds no sleeper. -/
theorem asleep_notMem_set {ws : List Worker} (h : Worker.asleep ∉ ws) {w : ℕ} {p' : Worker}
    (hp' : p' ≠ .asleep) : Worker.asleep ∉ ws.set w p' := by
  intro hmem
  rcases List.mem_or_eq_of_mem_set hmem with hold | hnew
  · exact h hold
  · exact hp' hnew.symm

/-- A move of one worker that leaves the queue alone, puts no worker to sleep and
makes no worker inactive. -/
theorem WorkersAwake.set_worker {s t : Pool} (h : WorkersAwake s) {w : ℕ} {p p' : Worker}
    (hw : s.workers[w]? = some p) (hp' : p' ≠ .asleep)
    (hactive : s.stop = false → p.active = true → p'.active = true)
    (ht : t.workers = s.workers.set w p') (hstop : t.stop = s.stop) (hq : t.tasks = s.tasks) :
    WorkersAwake t := by
  obtain ⟨hrun, hstopped⟩ := h
  refine ⟨fun hst => ?_, fun hst => ?_⟩
  · rw [hstop] at hst
    rw [ht, hq]
    rcases hrun hst with hnone | hle
    · exact Or.inl (asleep_notMem_set hnone hp')
    · refine Or.inr (hle.trans ?_)
      have hset := countP_set_add Worker.active hw p'
      have hact := hactive hst
      have htactive : t.active = (s.workers.set w p').countP Worker.active := by
        rw [Pool.active, ht]
      rw [htactive, Pool.active]
      by_cases hp : p.active = true
      · rw [if_pos hp, if_pos (hact hp)] at hset
        omega
      · rw [if_neg hp] at hset
        omega
  · rw [hstop] at hst
    rw [ht]
    exact asleep_notMem_set (hstopped hst) hp'

/-- A submission adds one task and, if a worker sleeps, one active worker. -/
theorem WorkersAwake.submit {s t : Pool} (h : WorkersAwake s) {wake : ℕ} {task : Task}
    (hws : signal Worker.asleep Worker.woken s.workers wake = some t.workers)
    (hstop : t.stop = s.stop) (hq : t.tasks = s.tasks ++ [task]) : WorkersAwake t := by
  obtain ⟨hrun, hstopped⟩ := h
  rcases signal_cases hws with ⟨hnone, heq⟩ | ⟨hi, heq⟩
  · refine ⟨fun _ => Or.inl ?_, fun _ => ?_⟩
    · rw [heq]; exact hnone
    · rw [heq]; exact hnone
  · refine ⟨fun hst => Or.inr ?_, fun hst => ?_⟩
    · rw [hstop] at hst
      rcases hrun hst with hnone | hle
      · exact absurd (List.mem_of_getElem? hi) hnone
      · have hset := countP_set_add Worker.active hi .woken
        rw [if_neg (by decide), if_pos (by decide)] at hset
        rw [hq, List.length_append, List.length_singleton, Pool.active, heq]
        rw [Pool.active] at hle
        omega
    · rw [hstop] at hst
      exact absurd (List.mem_of_getElem? hi) (hstopped hst)

theorem workersAwake_move {s t : Pool} {a : Action} (h : WorkersAwake s) (hm : Move s a t) :
    WorkersAwake t := by
  cases hm with
  | create =>
    have hmem : Worker.asleep ∈ s.workers ++ [Worker.ready] → Worker.asleep ∈ s.workers := by
      intro hmem
      rcases List.mem_append.mp hmem with hold | hnew
      · exact hold
      · exact absurd (List.mem_singleton.mp hnew) (by simp)
    refine ⟨fun hst => (h.1 hst).imp (fun hn hm => hn (hmem hm)) fun hle => hle.trans ?_,
      fun hst hm => h.2 hst (hmem hm)⟩
    show s.workers.countP Worker.active ≤ (s.workers ++ [Worker.ready]).countP Worker.active
    rw [List.countP_append]
    exact Nat.le_add_right _ _
  | submit hws => exact h.submit hws rfl rfl
  | sleep hw hp hq hst =>
    -- the queue is empty, so it needs nobody
    refine ⟨fun _ => Or.inr ?_, fun hst' => absurd (hst.symm.trans hst') (by simp)⟩
    show s.tasks.length ≤ _
    rw [hq]
    exact Nat.zero_le _
  | exit hw hp hst =>
    exact h.set_worker hw (by simp) (fun hst' => absurd (hst'.symm.trans hst) (by simp)) rfl rfl rfl
  | @take w p task rest hw hp hst hq =>
    have hkeep := h.set_worker (t := { s with workers := s.workers.set w (.holding task) }) hw
      (by simp) (fun _ _ => rfl) rfl rfl rfl
    refine ⟨fun hst' => (hkeep.1 hst').imp id fun hle => le_trans ?_ hle, hkeep.2⟩
    show rest.length ≤ s.tasks.length
    rw [hq]
    exact Nat.le_succ _
  | spurious hw => exact h.set_worker hw (by simp) (fun _ _ => rfl) rfl rfl rfl
  | call hw => exact h.set_worker hw (by simp) (fun _ _ => rfl) rfl rfl rfl
  | ret hw => exact h.set_worker hw (by simp) (fun _ _ => rfl) rfl rfl rfl
  | complete hw => exact h.set_worker hw (by simp) (fun _ _ => rfl) rfl rfl rfl
  | stop =>
    have hnone : Worker.asleep ∉ broadcast Worker.asleep Worker.woken s.workers :=
      asleep_notMem_broadcast (by simp) s.workers
    exact ⟨fun _ => Or.inl hnone, fun _ => hnone⟩
  | wait | waitSpurious | waitCheck | join | free => exact h

/-- **No task is stranded and no worker sleeps through the stop.**  In every
reachable state that is not stopped, nobody is asleep on `cv` or there are no
more queued tasks than active workers; in every stopped one, nobody is asleep on
`cv`. -/
theorem ccpool_workers_awake (n : ℕ) (s : Pool) (h : Reachable n s) :
    (s.stop = false → Worker.asleep ∉ s.workers ∨ s.tasks.length ≤ s.active) ∧
    (s.stop = true → Worker.asleep ∉ s.workers) :=
  reachable_induction (P := WorkersAwake)
    ⟨fun _ => Or.inl (by simp [ccpoolStart]), by simp [ccpoolStart]⟩
    (fun _ _ _ => workersAwake_move) h

theorem ccpool_workers_awake_samples :
    (Worker.asleep ∉ finishedPool.workers ∨ finishedPool.tasks.length ≤ finishedPool.active) ∧
    Worker.asleep ∉ stoppedPool.workers :=
  ⟨(ccpool_workers_awake 1 finishedPool reachable_finishedPool).1 rfl,
    (ccpool_workers_awake 2 stoppedPool reachable_stoppedPool).2 rfl⟩

/-! ## Waiters on `idle_cv` -/

/-- The number of calls of `ccpool_wait` asleep on `idle_cv`. -/
def Pool.sleepers (s : Pool) : ℕ := s.waiters.count .asleep

/-- Not both: the pool is idle, and a thread is asleep on `idle_cv`. -/
def NoneLeftBehind (s : Pool) : Prop := ¬ (s.Idle ∧ Waiter.asleep ∈ s.waiters)

/-- The step wakes everybody whom it would leave behind.  A completion that makes
the pool idle sends one signal, so it needs at most one sleeper; the critical
section of `ccpool_stop` sends none on `idle_cv`, so it needs a worker at work or
no sleeper; and so does the taking of the last task at `in_work = 255`, which the
counter turns into zero. -/
def Relieves (s : Pool) : Action → Prop
  | .complete _ _ => s.inWork = 1 → s.tasks = [] → s.sleepers ≤ 1
  | .stop => s.inWork = 0 → s.sleepers = 0
  | .check _ => s.stop = false → s.inWork = 255 → s.tasks.length = 1 → s.sleepers = 0
  | _ => True

theorem noneLeftBehind_iff_sleepers {s : Pool} :
    NoneLeftBehind s ↔ (s.Idle → s.sleepers = 0) := by
  rw [NoneLeftBehind, not_and, Pool.sleepers, List.count_eq_zero]

/-- A move that makes the pool no more idle, and puts nobody to sleep on
`idle_cv`. -/
theorem noneLeftBehind_of_le {s t : Pool} (h : NoneLeftBehind s) (hidle : t.Idle → s.Idle)
    (hle : t.sleepers ≤ s.sleepers) : NoneLeftBehind t := by
  rw [noneLeftBehind_iff_sleepers] at h ⊢
  intro ht
  have hzero := h (hidle ht)
  omega

/-- The counter of eight bits is zero behind its last value. -/
theorem inWork_succ_eq_zero_iff (inWork : UInt8) : inWork + 1 = 0 ↔ inWork = 255 := by
  rw [← UInt8.toNat_inj, ← UInt8.toNat_inj, UInt8.toNat_add]
  have hbound := inWork.toNat_lt
  show (inWork.toNat + 1) % 256 = 0 ↔ inWork.toNat = 255
  omega

/-- A waiter that does not go to sleep adds no sleeper. -/
theorem count_set_le {waiters : List Waiter} {i : ℕ} {old new : Waiter}
    (hi : waiters[i]? = some old) (hnew : new ≠ .asleep) :
    (waiters.set i new).count Waiter.asleep ≤ waiters.count Waiter.asleep := by
  have hawake : ¬(new == Waiter.asleep) = true := mt beq_iff_eq.mp hnew
  have hset := countP_set_add (fun v => v == Waiter.asleep) hi new
  rw [if_neg hawake] at hset
  show (waiters.set i new).countP (fun v => v == Waiter.asleep) ≤
    waiters.countP (fun v => v == Waiter.asleep)
  omega

/-- From a state with nobody left behind, a move leaves somebody behind exactly
when it does not relieve. -/
theorem noneLeftBehind_move_iff {s t : Pool} {a : Action} (h : NoneLeftBehind s)
    (hm : Move s a t) : NoneLeftBehind t ↔ Relieves s a := by
  -- moves that cannot make the pool idle
  have hquiet : (t.Idle → s.Idle) → t.sleepers ≤ s.sleepers → Relieves s a →
      (NoneLeftBehind t ↔ Relieves s a) :=
    fun hidle hle hr => iff_of_true (noneLeftBehind_of_le h hidle hle) hr
  have hsleepers := noneLeftBehind_iff_sleepers.mp h
  cases hm with
  | create => exact hquiet id le_rfl trivial
  | submit hws =>
    refine iff_of_true (fun hbad => ?_) trivial
    exact absurd hbad.1.2 (by simp)
  | sleep hw hp hq hst =>
    refine hquiet id le_rfl fun _ _ hlen => ?_
    rw [hq] at hlen
    exact absurd hlen (by simp)
  | exit hw hp hst => exact hquiet id le_rfl fun hst' => absurd (hst'.symm.trans hst) (by simp)
  | @take w p task rest hw hp hst hq =>
    rw [noneLeftBehind_iff_sleepers]
    show (s.inWork + 1 = 0 ∧ rest = [] → s.sleepers = 0) ↔
      (s.stop = false → s.inWork = 255 → s.tasks.length = 1 → s.sleepers = 0)
    rw [inWork_succ_eq_zero_iff, hq, List.length_cons]
    constructor
    · intro hzero _ h255 hlen
      exact hzero ⟨h255, List.length_eq_zero_iff.mp (Nat.succ.inj hlen)⟩
    · rintro hzero ⟨h255, rfl⟩
      exact hzero hst h255 rfl
  | spurious => exact hquiet id le_rfl trivial
  | call => exact hquiet id le_rfl trivial
  | ret => exact hquiet id le_rfl trivial
  | @complete w wake vs hw hvs =>
    rw [noneLeftBehind_iff_sleepers]
    have hone : s.inWork - 1 = 0 ↔ s.inWork = 1 := sub_eq_zero
    have hcount : vs.count Waiter.asleep = s.sleepers - 1 := count_signal (by simp) hvs
    show (s.inWork - 1 = 0 ∧ s.tasks = [] → vs.count Waiter.asleep = 0) ↔
      (s.inWork = 1 → s.tasks = [] → s.sleepers ≤ 1)
    rw [hone, hcount, and_imp, Nat.sub_eq_zero_iff_le]
  | wait =>
    by_cases hidle : s.Idle
    · refine hquiet (fun _ => hidle) ?_ trivial
      show (s.waiters ++ [_]).count Waiter.asleep ≤ _
      rw [if_pos hidle, List.count_append]
      exact le_rfl
    · exact iff_of_true (fun hbad => hidle hbad.1) trivial
  | @waitSpurious i hi =>
    exact hquiet id (count_set_le hi (by decide)) trivial
  | @waitCheck i hi =>
    by_cases hidle : s.Idle
    · refine hquiet (fun _ => hidle) ?_ trivial
      show (s.waiters.set i (if s.Idle then .left else .asleep)).count Waiter.asleep ≤ _
      rw [if_pos hidle]
      exact count_set_le hi (by decide)
    · exact iff_of_true (fun hbad => hidle hbad.1) trivial
  | stop =>
    rw [noneLeftBehind_iff_sleepers]
    show (s.inWork = 0 ∧ [] = [] → s.sleepers = 0) ↔ (s.inWork = 0 → s.sleepers = 0)
    rw [and_iff_left rfl]
  | join => exact hquiet id le_rfl trivial
  | free => exact hquiet id le_rfl trivial

/-- **Exactly which runs leave a waiter behind.**  For any number of workers and
along any run, every state has nobody asleep on `idle_cv` while the pool is idle
exactly when every step that makes the pool idle relieves its sleepers. -/
theorem noneLeftBehind_iff (n : ℕ) (as : List Action) :
    Runs.EveryState step NoneLeftBehind (ccpoolStart n) as ↔
      Runs.EveryStep step Relieves (ccpoolStart n) as :=
  Runs.everyState_iff_everyStep (I := fun _ => True) (fun _ _ _ _ _ => trivial)
    (fun _ _ _ _ hP h => noneLeftBehind_move_iff hP (move_of_step h)) trivial
    (by simp [NoneLeftBehind, ccpoolStart])

/-- One worker, one task, two threads in `ccpool_wait`: the completion signals
one of them, and the other is still asleep when the pool is idle. -/
theorem not_noneLeftBehind_two_waiters :
    ¬ ∀ n s, Reachable n s → NoneLeftBehind s := by
  intro h
  have hrun : Runs.run step (ccpoolStart 1)
      [.create, .submit 0 0 0, .check 0, .wait, .wait, .call 0, .ret 0, .complete 0 0] =
      some { ccpoolStart 1 with
        workers := [.ready]
        waiters := [.woken, .asleep]
        submitted := [⟨0, 0, 0⟩]
        taken := [⟨0, 0, 0⟩]
        called := [⟨0, 0, 0⟩]
        finished := [⟨0, 0, 0⟩] } := by decide
  exact h 1 _ ⟨_, hrun⟩ (by decide)

end ThreadPool
end CCore
