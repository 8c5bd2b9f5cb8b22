import CCore.ThreadPool.Model

/-!
# What one step of the pool can do

`step` is a function, so that a run can be evaluated.  To reason about it one
wants the opposite view: the list of everything that a successful step can have
been, each with the guard that let it happen and the state it leads to.  `Move`
is that list: `move_of_step` says that it is complete, and `step_of_move` that
nothing on it is made up.  Every invariant of the pool is proved by one case
analysis over it, and no later proof unfolds `step`.

A worker's first critical section is the only action with several outcomes: the
worker falls asleep, leaves its loop, or takes a task.
-/

namespace CCore
namespace ThreadPool

open CondVar

/-- A worker that may enter its first critical section. -/
def Worker.MayCheck (p : Worker) : Prop := p = .ready ∨ p = .woken

/-- The outcomes of a step from `s`. -/
inductive Move (s : Pool) : Action → Pool → Prop where
  | create : s.workers.length < s.numThreads →
      Move s .create { s with workers := s.workers ++ [.ready] }
  | submit {fn refcon wake : ℕ} {ws : List Worker} :
      signal .asleep .woken s.workers wake = some ws →
      Move s (.submit fn refcon wake)
        { s with
          tasks := s.tasks ++ [⟨s.submitted.length, fn, refcon⟩]
          workers := ws
          submitted := s.submitted ++ [⟨s.submitted.length, fn, refcon⟩] }
  | sleep {w : ℕ} {p : Worker} : s.workers[w]? = some p → p.MayCheck → s.tasks = [] →
      s.stop = false → Move s (.check w) { s with workers := s.workers.set w .asleep }
  | exit {w : ℕ} {p : Worker} : s.workers[w]? = some p → p.MayCheck → s.stop = true →
      Move s (.check w) { s with workers := s.workers.set w .exited }
  | take {w : ℕ} {p : Worker} {task : Task} {rest : List Task} : s.workers[w]? = some p →
      p.MayCheck → s.stop = false → s.tasks = task :: rest →
      Move s (.check w)
        { s with
          tasks := rest
          inWork := s.inWork + 1
          workers := s.workers.set w (.holding task)
          taken := s.taken ++ [task] }
  | spurious {w : ℕ} : s.workers[w]? = some .asleep →
      Move s (.spurious w) { s with workers := s.workers.set w .woken }
  | call {w : ℕ} {task : Task} : s.workers[w]? = some (.holding task) →
      Move s (.call w)
        { s with
          workers := s.workers.set w (.calling task)
          called := s.called ++ [task] }
  | ret {w : ℕ} {task : Task} : s.workers[w]? = some (.calling task) →
      Move s (.ret w)
        { s with
          workers := s.workers.set w .returned
          finished := s.finished ++ [task] }
  | complete {w wake : ℕ} {vs : List Waiter} : s.workers[w]? = some .returned →
      signal .asleep .woken s.waiters wake = some vs →
      Move s (.complete w wake)
        { s with
          inWork := s.inWork - 1
          workers := s.workers.set w .ready
          waiters := vs }
  | wait : Move s .wait
      { s with waiters := s.waiters ++ [if s.Idle then .left else .asleep] }
  | waitSpurious {i : ℕ} : s.waiters[i]? = some .asleep →
      Move s (.waitSpurious i) { s with waiters := s.waiters.set i .woken }
  | waitCheck {i : ℕ} : s.waiters[i]? = some .woken →
      Move s (.waitCheck i)
        { s with waiters := s.waiters.set i (if s.Idle then .left else .asleep) }
  | stop : s.stopper = .notCalled → s.workers.length = s.numThreads →
      Move s .stop
        { s with
          stop := true
          tasks := []
          discarded := s.discarded ++ s.tasks
          workers := broadcast .asleep .woken s.workers
          stopper := .joining 0 }
  | join {i : UInt8} : s.stopper = .joining i → i < s.threadCount →
      s.workers[i.toNat]? = some .exited →
      Move s .join { s with stopper := .joining (i + 1), joined := s.joined ++ [i.toNat] }
  | free {i : UInt8} : s.stopper = .joining i → ¬ i < s.threadCount →
      Move s .free { s with stopper := .freed }

/-- A step that guards its only outcome. -/
theorem of_guard {c : Prop} [Decidable c] {u t : Pool}
    (h : (if c then some u else none) = some t) : c ∧ t = u := by
  split at h
  · exact ⟨‹c›, (Option.some.inj h).symm⟩
  · exact absurd h (by simp)

theorem move_of_check {s t : Pool} {w : ℕ} (h : poolWorkerCheck s w = some t) :
    Move s (.check w) t := by
  unfold poolWorkerCheck at h
  split at h
  case isFalse => exact absurd h (by simp)
  rename_i hmay
  obtain ⟨p, hw, hp⟩ : ∃ p, s.workers[w]? = some p ∧ p.MayCheck := by
    rcases hmay with hw | hw
    · exact ⟨_, hw, Or.inl rfl⟩
    · exact ⟨_, hw, Or.inr rfl⟩
  split at h
  · rename_i hsleep
    rw [← Option.some.inj h]
    exact Move.sleep hw hp hsleep.1 hsleep.2
  · split at h
    · rw [← Option.some.inj h]
      exact Move.exit hw hp ‹_›
    · rename_i hstop
      split at h
      · exact absurd h (by simp)
      · rw [← Option.some.inj h]
        exact Move.take hw hp (Bool.eq_false_iff.mpr hstop) ‹_›

/-- A pool that has been freed does not move. -/
theorem not_freed_of_step {s t : Pool} {a : Action} (h : step s a = some t) :
    s.stopper ≠ .freed := by
  intro hs
  unfold step at h
  rw [if_pos hs] at h
  exact absurd h (by simp)

/-- **Every step is one of the moves.** -/
theorem move_of_step {s t : Pool} {a : Action} (h : step s a = some t) : Move s a t := by
  have hfreed := not_freed_of_step h
  unfold step at h
  rw [if_neg hfreed] at h
  cases a with
  | create =>
    obtain ⟨hlt, rfl⟩ := of_guard h
    exact Move.create hlt
  | submit fn refcon wake =>
    obtain ⟨ws, hws, rfl⟩ := Option.map_eq_some_iff.mp h
    exact Move.submit hws
  | check w => exact move_of_check h
  | spurious w =>
    obtain ⟨hw, rfl⟩ := of_guard h
    exact Move.spurious hw
  | call w =>
    simp only [callStep] at h
    split at h
    · rw [← Option.some.inj h]
      exact Move.call ‹_›
    · exact absurd h (by simp)
  | ret w =>
    simp only [returnStep] at h
    split at h
    · rw [← Option.some.inj h]
      exact Move.ret ‹_›
    · exact absurd h (by simp)
  | complete w wake =>
    simp only [poolWorkerComplete] at h
    split at h
    · obtain ⟨vs, hvs, rfl⟩ := Option.map_eq_some_iff.mp h
      exact Move.complete ‹_› hvs
    · exact absurd h (by simp)
  | wait =>
    rw [← Option.some.inj h]
    exact Move.wait
  | waitSpurious i =>
    obtain ⟨hi, rfl⟩ := of_guard h
    exact Move.waitSpurious hi
  | waitCheck i =>
    obtain ⟨hi, rfl⟩ := of_guard h
    exact Move.waitCheck hi
  | stop =>
    obtain ⟨⟨hn, hl⟩, rfl⟩ := of_guard h
    exact Move.stop hn hl
  | join =>
    simp only [joinStep] at h
    split at h
    · obtain ⟨⟨hi, hw⟩, rfl⟩ := of_guard h
      exact Move.join ‹_› hi hw
    · exact absurd h (by simp)
  | free =>
    simp only [freeStep] at h
    split at h
    · split at h
      · exact absurd h (by simp)
      · rw [← Option.some.inj h]
        exact Move.free ‹_› ‹_›
    · exact absurd h (by simp)

/-- **Every move is a step**, as long as the pool has not been freed. -/
theorem step_of_move {s t : Pool} {a : Action} (hs : s.stopper ≠ .freed) (hm : Move s a t) :
    step s a = some t := by
  unfold step
  rw [if_neg hs]
  cases hm with
  | create hlt => exact if_pos hlt
  | submit hws =>
    show (signal Worker.asleep Worker.woken s.workers _).map _ = _
    rw [hws]
    rfl
  | sleep hw hp hq hst =>
    have hmay := hp.imp (fun h => h ▸ hw) (fun h => h ▸ hw)
    show (if _ then _ else _) = _
    rw [if_pos hmay, if_pos ⟨hq, hst⟩]
  | exit hw hp hst =>
    have hmay := hp.imp (fun h => h ▸ hw) (fun h => h ▸ hw)
    show (if _ then _ else _) = _
    rw [if_pos hmay, if_neg (fun h => by rw [hst] at h; exact absurd h.2 (by simp)), if_pos hst]
  | take hw hp hst hq =>
    have hmay := hp.imp (fun h => h ▸ hw) (fun h => h ▸ hw)
    show (if _ then _ else _) = _
    rw [if_pos hmay, if_neg (fun h => by rw [hq] at h; exact absurd h.1 (by simp)),
      if_neg (by rw [hst]; simp), hq]
  | spurious hw => exact if_pos hw
  | call hw => simp only [callStep, hw]
  | ret hw => simp only [returnStep, hw]
  | complete hw hvs => simp only [poolWorkerComplete, if_pos hw, hvs, Option.map_some]
  | wait => rfl
  | waitSpurious hi => exact if_pos hi
  | waitCheck hi => exact if_pos hi
  | stop hn hl => exact if_pos ⟨hn, hl⟩
  | join hi hlt hw => simp only [joinStep, hi, if_pos (And.intro hlt hw)]
  | free hi hge => simp only [freeStep, hi, if_neg hge]

/-- An invariant of the pool: it holds at the start and every move keeps it. -/
theorem reachable_induction {P : Pool → Prop} {n : ℕ} (hstart : P (ccpoolStart n))
    (hmove : ∀ s a t, P s → Move s a t → P t) {s : Pool} (hs : Reachable n s) : P s := by
  obtain ⟨as, has⟩ := hs
  exact Runs.run_induction (fun s a t hP h => hmove s a t hP (move_of_step h)) hstart has

end ThreadPool
end CCore
