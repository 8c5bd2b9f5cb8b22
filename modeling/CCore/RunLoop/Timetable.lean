import CCore.RunLoop.FiringLaw

/-!
# The timetable of a program

`FiringLaw` asks what one pass should do.  Here is what all passes together do.  A program is next
due at `Loop.due`, the time of the last pass and its countdown together, taken modulo 2^64 as the
code takes it.  A pass that reads exactly this time calls the program and moves the due time by one
period; any other pass leaves the due time where it is (`due_of_pass`), whether it comes before it
or behind it.

So the calls keep to a grid that is fixed by the registration (`calls_on_timetable`): they do not
drift, none comes twice, and none is skipped for a later one.  The other side of this is that a
program whose due time has gone by is not called any more, while the clock goes forward
(`missed_call_ends_program`).  And this is the fate of a program that is registered while the loop
is idle: its countdown is counted from the last pass, and the next pass comes a full second after
that (`registered_idle_stays_silent`).
-/

namespace CCore
namespace RunLoop

open Runs

/-- When the program is due: the time of the last pass and the countdown. -/
def Loop.due (s : Loop) (prog : Addr) : UInt64 := s.t + (s.entry prog).acc

/-- The time of a call of `prog`. -/
def Event.callTime (prog : Addr) : Event → Option UInt64
  | .visit _ => none
  | .call p _ newT _ => if p = prog then some newT else none

/-- **The times at which `prog` has been called**, in order. -/
def Loop.callTimes (s : Loop) (prog : Addr) : List UInt64 :=
  s.events.filterMap (Event.callTime prog)

variable {s s' : Loop} {prog : Addr} {newT : UInt64} {a : Action} {as : List Action}

/-! ## One step -/

theorem callTime_visitEvents (x : Addr) (delta : UInt64) (e : RlEntry) :
    (visitEvents newT delta x e).filterMap (Event.callTime prog) =
      if x = prog ∧ Fires delta e then [newT] else [] := by
  rw [visitEvents]
  by_cases hfires : Fires delta e
  · rw [if_pos hfires, List.filterMap_cons_none rfl, List.filterMap_cons]
    by_cases hx : x = prog
    · rw [Event.callTime, if_pos hx, if_pos ⟨hx, hfires⟩, List.filterMap_nil]
    · rw [Event.callTime, if_neg hx, if_neg fun h => hx h.1, List.filterMap_nil]
  · rw [if_neg hfires, if_neg fun h => hfires h.2, List.filterMap_cons_none rfl,
      List.filterMap_nil]

/-- One part of what is put together, when the others are empty. -/
theorem flatMap_eq_of_mem {β : Type} {es : List Addr} (hnodup : es.Nodup) (hprog : prog ∈ es)
    {f : Addr → List β} (hother : ∀ x, x ≠ prog → f x = []) : es.flatMap f = f prog := by
  obtain ⟨xs, ys, rfl⟩ := List.append_of_mem hprog
  obtain ⟨-, hys, hdisj⟩ := List.nodup_append.mp hnodup
  have hxs : xs.flatMap f = [] := List.flatMap_eq_nil_iff.mpr fun x hx =>
    hother x fun he => hdisj x hx prog List.mem_cons_self he
  have hys : ys.flatMap f = [] := List.flatMap_eq_nil_iff.mpr fun x hx =>
    hother x fun he => (List.nodup_cons.mp hys).1 (he ▸ hx)
  rw [List.flatMap_append, List.flatMap_cons, hxs, hys, List.nil_append, List.append_nil]

/-- **A pass calls a program that is due at its very time**, and moves its due time by a period.
Any other pass leaves it alone. -/
theorem due_of_pass (h : WellFormed s) (hprog : prog ∈ s.registered)
    (hpass : pass s newT = some s') :
    (s'.entry prog).interval = (s.entry prog).interval ∧
    s'.callTimes prog = s.callTimes prog ++ (if newT = s.due prog then [newT] else []) ∧
    s'.due prog =
      s.due prog + if newT = s.due prog then (s.entry prog).interval.toUInt64 else 0 := by
  obtain ⟨hlinks, hentry, hevents⟩ := passed_of_pass h hpass
  have hnodup := (List.nodup_cons.mp h.ring.nodup).2
  have ht : s'.t = newT := hlinks.t
  have hentry : s'.entry prog = ticked (newT - s.t) (s.entry prog) := by
    rw [hentry, if_pos hprog]
  have hdue : Fires (newT - s.t) (s.entry prog) ↔ newT = s.due prog := by
    rw [fires_iff, Loop.due, eq_comm, sub_eq_iff_eq_add, add_comm]
  refine ⟨by rw [hentry, ticked_interval], ?_, ?_⟩
  · rw [Loop.callTimes, hevents, List.filterMap_append, List.filterMap_flatMap,
      flatMap_eq_of_mem hnodup hprog, callTime_visitEvents]
    · exact congrArg _ (if_congr ((and_iff_right rfl).trans hdue) rfl rfl)
    · exact fun x hx => (callTime_visitEvents ..).trans (if_neg fun h => hx h.1)
  · rw [Loop.due, hentry, ht, ticked]
    by_cases hfires : Fires (newT - s.t) (s.entry prog)
    · rw [if_pos hfires, if_pos (hdue.mp hfires), fires_iff.mp hfires, sub_self, zero_add,
        ← hdue.mp hfires]
    · rw [if_neg hfires, if_neg (mt hdue.mpr hfires), add_zero, Loop.due]
      show newT + ((s.entry prog).acc - (newT - s.t)) = s.t + (s.entry prog).acc
      abel

/-- A registration is about the entries and their links. -/
theorem eq_of_register {entry ticker data : Addr} {freq : ℚ} {rand : ℕ}
    (h : ccRunLoopRegister s entry ticker freq data rand = some s') :
    s' = { s with
      entry := s'.entry, next := s'.next, prev := s'.prev, registered := s'.registered } := by
  obtain ⟨-, h⟩ := ccassert_eq_some.mp h
  obtain ⟨-, h⟩ := ccassert_eq_some.mp h
  obtain ⟨-, h⟩ := Option.ite_none_left_eq_some.mp h
  obtain ⟨interval, -, h⟩ := Option.bind_eq_some_iff.mp h
  obtain ⟨-, h⟩ := Option.ite_none_left_eq_some.mp h
  obtain rfl := Option.some.inj h
  rfl

/-- A removal is about the links. -/
theorem eq_of_unregister {handle : Addr} (h : ccRunLoopUnregister s handle = some s') :
    s' = { s with next := s'.next, prev := s'.prev, registered := s'.registered } := by
  obtain ⟨-, h⟩ := ccassert_eq_some.mp h
  obtain ⟨-, h⟩ := ccassert_eq_some.mp h
  obtain ⟨-, h⟩ := Option.ite_none_left_eq_some.mp h
  obtain rfl := Option.some.inj h
  rfl

/-- A registration or a removal of something else does not concern the program. -/
theorem due_of_call (h : WellFormed s) (hprog : prog ∈ s.registered)
    (hpass : ∀ newT, a ≠ .pass newT) (hs : step s a = some s') :
    s'.entry prog = s.entry prog ∧ s'.t = s.t ∧ s'.events = s.events ∧
      s'.interval = s.interval := by
  cases a with
  | pass newT => exact absurd rfl (hpass newT)
  | register entry ticker freq data rand =>
    have hr := registered_of_register h hs
    refine ⟨hr.other prog fun he => hr.fresh (he ▸ hprog), hr.t, hr.events, ?_⟩
    rw [eq_of_register hs]
  | unregister handle =>
    have hu := unregistered_of_unregister h hs
    refine ⟨congrFun hu.entry prog, hu.t, hu.events, ?_⟩
    rw [eq_of_unregister hs]

/-! ## Every run -/

/-- The points of the timetable of a program. -/
def Loop.dueAt (s : Loop) (prog : Addr) (k : ℕ) : UInt64 :=
  s.due prog + UInt64.ofNat k * (s.entry prog).interval.toUInt64

theorem dueAt_succ (s : Loop) (prog : Addr) (k : ℕ) :
    s.dueAt prog (k + 1) = s.dueAt prog k + (s.entry prog).interval.toUInt64 := by
  rw [Loop.dueAt, Loop.dueAt, UInt64.ofNat_add, add_mul, add_assoc]
  show _ = s.due prog + (_ + _)
  rw [show UInt64.ofNat 1 = 1 from rfl, one_mul]

/-- `prog` has been called at the first `n` points of the timetable that it had in `s`. -/
structure OnTimetable (prog : Addr) (s : Loop) (n : ℕ) (s' : Loop) : Prop where
  wellFormed : WellFormed s'
  mem : prog ∈ s'.registered
  interval : (s'.entry prog).interval = (s.entry prog).interval
  calls : s'.callTimes prog = s.callTimes prog ++ (List.range n).map (s.dueAt prog)
  due : s'.due prog = s.dueAt prog n

variable {s₁ : Loop} {n : ℕ}

theorem OnTimetable.refl (h : WellFormed s) (hprog : prog ∈ s.registered) :
    OnTimetable prog s 0 s := by
  refine ⟨h, hprog, rfl, (List.append_nil _).symm, ?_⟩
  show s.due prog = s.due prog + 0 * (s.entry prog).interval.toUInt64
  rw [zero_mul, add_zero]

/-- **One step.**  A call is at the next point. -/
theorem OnTimetable.of_step (h : OnTimetable prog s n s₁) (ha : a ≠ .unregister prog)
    (hs : step s₁ a = some s') : ∃ n', OnTimetable prog s n' s' := by
  have hwell := wellFormed_step h.wellFormed hs
  have hmem := mem_registered_step h.wellFormed h.mem ha hs
  by_cases hpass : ∃ newT, a = .pass newT
  · obtain ⟨newT, rfl⟩ := hpass
    obtain ⟨hinterval, hcalls, hdue⟩ := due_of_pass h.wellFormed h.mem hs
    rw [h.interval] at hinterval
    rw [h.calls, h.due] at hcalls
    rw [h.due, h.interval] at hdue
    by_cases hnow : newT = s.dueAt prog n
    · rw [if_pos hnow] at hcalls hdue
      refine ⟨n + 1, hwell, hmem, hinterval, ?_, hdue.trans (dueAt_succ s prog n).symm⟩
      rw [hcalls, List.range_succ, List.map_append, List.append_assoc, hnow]
      rfl
    · rw [if_neg hnow] at hcalls hdue
      exact ⟨n, hwell, hmem, hinterval, hcalls.trans (List.append_nil _),
        hdue.trans (add_zero _)⟩
  · obtain ⟨hentry, ht, hevents, -⟩ := due_of_call h.wellFormed h.mem (not_exists.mp hpass) hs
    refine ⟨n, hwell, hmem, ?_, ?_, ?_⟩
    · rw [hentry, h.interval]
    · rw [Loop.callTimes, hevents]
      exact h.calls
    · rw [Loop.due, hentry, ht]
      exact h.due

theorem OnTimetable.of_run (h : OnTimetable prog s n s₁) (hkeep : .unregister prog ∉ as)
    (hrun : run step s₁ as = some s') : ∃ n', OnTimetable prog s n' s' := by
  induction as generalizing s₁ n with
  | nil => exact ⟨n, Option.some.inj hrun ▸ h⟩
  | cons a as ih =>
    obtain ⟨s₂, hs₂, hrest⟩ := (run_cons_eq_some _).mp hrun
    rw [List.mem_cons, not_or] at hkeep
    obtain ⟨n₂, h₂⟩ := h.of_step (fun he => hkeep.1 he.symm) hs₂
    exact ih h₂ hkeep.2 hrest

/-- **The calls keep to the timetable.**  Take a registered program and any run of the loop in which
it is not removed, whatever the clock shows and whoever else comes and goes.  It is called at the
first points of the grid that begins at its due time and has its period as its step, at one after
the other; and it is due next at the point behind them. -/
theorem calls_on_timetable (hs : Reachable s) (hprog : prog ∈ s.registered)
    (hkeep : .unregister prog ∉ as) (hrun : run step s as = some s') :
    ∃ n, s'.callTimes prog = s.callTimes prog ++ (List.range n).map (fun k =>
        s.due prog + UInt64.ofNat k * (s.entry prog).interval.toUInt64) ∧
      s'.due prog = s.due prog + UInt64.ofNat n * (s.entry prog).interval.toUInt64 := by
  obtain ⟨n, h⟩ := (OnTimetable.refl (wellFormed_of_reachable hs) hprog).of_run hkeep hrun
  exact ⟨n, h.calls, h.due⟩

theorem exists_pass (h : WellFormed s) (newT : UInt64) : ∃ s', step s (.pass newT) = some s' :=
  ⟨_, pass_eq h⟩

theorem exists_passes (h : WellFormed s) (times : List UInt64) :
    ∃ s', run step s (times.map .pass) = some s' := by
  induction times generalizing s with
  | nil => exact ⟨s, rfl⟩
  | cons newT times ih =>
    obtain ⟨s₁, hs₁⟩ := exists_pass h newT
    obtain ⟨s', hs'⟩ := ih (wellFormed_step h hs₁)
    exact ⟨s', (run_cons_eq_some _).mpr ⟨s₁, hs₁, hs'⟩⟩

/-- A period of ten microseconds, five of which are left, and passes at 5, 9 and 15. -/
theorem calls_on_timetable_passes : ∃ s s' n, Reachable s ∧
    run step s [.pass 5, .pass 9, .pass 15] = some s' ∧
    s'.callTimes 2000 = (List.range n).map (fun k => 5 + UInt64.ofNat k * 10) ∧
    s'.due 2000 = 5 + UInt64.ofNat n * 10 := by
  obtain ⟨s, hs, hregistered, hentry, ht, hevents⟩ := exists_tickingLoop
  obtain ⟨s', hs'⟩ := exists_passes (wellFormed_of_reachable hs) [5, 9, 15]
  obtain ⟨n, hcalls, hdue⟩ :=
    calls_on_timetable hs (hregistered ▸ List.mem_cons_self) (by decide) hs'
  have hfirst : s.due 2000 = 5 := by
    rw [Loop.due, hentry, ht]
    rfl
  have hnone : s.callTimes 2000 = [] := by
    rw [Loop.callTimes, hevents]
    rfl
  have hperiod : (s.entry 2000).interval.toUInt64 = 10 := by
    rw [hentry]
    rfl
  rw [hfirst, hnone, hperiod] at hcalls
  rw [hfirst, hperiod] at hdue
  exact ⟨s, s', n, hs, hs', hcalls, hdue⟩

/-! ## What is missed -/

/-- The clock does not go backwards. -/
def Forward (s : Loop) (a : Action) : Prop := ∀ newT, a = .pass newT → s.t ≤ newT

/-- **A missed call is the last.**  When the time at which a program is due has gone by, it is not
called any more, as long as the clock does not go backwards. -/
theorem missed_call_ends_program (hs : Reachable s) (hprog : prog ∈ s.registered)
    (hmissed : s.due prog < s.t) (hkeep : .unregister prog ∉ as)
    (hclock : EveryStep step Forward s as) (hrun : run step s as = some s') :
    s'.callTimes prog = s.callTimes prog ∧ s'.due prog < s'.t := by
  have h := wellFormed_of_reachable hs
  clear hs
  induction as generalizing s with
  | nil => exact Option.some.inj hrun ▸ ⟨rfl, hmissed⟩
  | cons a as ih =>
    obtain ⟨s₁, hs₁, hrest⟩ := (run_cons_eq_some _).mp hrun
    obtain ⟨hforward, hclock⟩ := hclock s₁ hs₁
    rw [List.mem_cons, not_or] at hkeep
    have hmem := mem_registered_step h hprog (fun he => hkeep.1 he.symm) hs₁
    have hsame : s₁.callTimes prog = s.callTimes prog ∧ s₁.due prog < s₁.t := by
      by_cases hpass : ∃ newT, a = .pass newT
      · obtain ⟨newT, rfl⟩ := hpass
        obtain ⟨-, hcalls, hdue⟩ := due_of_pass h hprog hs₁
        have ht : s₁.t = newT := (passed_of_pass h hs₁).links.t
        have hlt : s.due prog < newT := UInt64.lt_of_lt_of_le hmissed (hforward newT rfl)
        have hne : newT ≠ s.due prog := (UInt64.ne_of_lt hlt).symm
        rw [if_neg hne, List.append_nil] at hcalls
        rw [if_neg hne, add_zero] at hdue
        rw [ht, hdue]
        exact ⟨hcalls, hlt⟩
      · obtain ⟨hentry, ht, hevents, -⟩ := due_of_call h hprog (not_exists.mp hpass) hs₁
        rw [Loop.callTimes, hevents, Loop.due, hentry, ht]
        exact ⟨rfl, hmissed⟩
    obtain ⟨hcalls, hlate⟩ := ih hmem hsame.2 hkeep.2 hclock hrest (wellFormed_step h hs₁)
    exact ⟨hcalls.trans hsame.1, hlate⟩

/-- The pass comes at 6, one microsecond late, and the next one at 15. -/
theorem missed_call_ends_program_late : ∃ s s', Reachable s ∧ s.due 2000 < s.t ∧
    run step s [.pass 15] = some s' ∧ s'.callTimes 2000 = s.callTimes 2000 := by
  obtain ⟨s₀, hs₀, hregistered, hentry, ht, -⟩ := exists_tickingLoop
  have h₀ := wellFormed_of_reachable hs₀
  have hmem : 2000 ∈ s₀.registered := hregistered ▸ List.mem_cons_self
  obtain ⟨s, hs⟩ := exists_pass h₀ 6
  have hreach : Reachable s := by
    obtain ⟨programs, entry, next, prev, t, as, hprograms, hrun⟩ := hs₀
    exact ⟨programs, entry, next, prev, t, _, hprograms, run_snoc step hrun hs⟩
  obtain ⟨-, -, hdue⟩ := due_of_pass h₀ hmem hs
  have hnow : s.t = 6 := (passed_of_pass h₀ hs).links.t
  have hmissed : s.due 2000 < s.t := by
    have hfirst : s₀.due 2000 = 5 := by
      rw [Loop.due, hentry, ht]
      rfl
    have hpast : (6 : UInt64) ≠ 5 := by decide
    rw [hdue, hfirst, hnow, if_neg hpast]
    decide
  have hmem' := mem_registered_step h₀ hmem (by simp) hs
  obtain ⟨s', hs'⟩ := exists_passes (wellFormed_of_reachable hreach) [15]
  refine ⟨s, s', hreach, hmissed, hs', ?_⟩
  refine (missed_call_ends_program hreach hmem' hmissed (by decide) ?_ hs').1
  refine fun t _ => ⟨fun newT he => ?_, trivial⟩
  rw [hnow, ← Action.pass.inj he]
  decide

/-! ## An idle loop -/

/-- A pass that has nothing to visit asks for the longest wait. -/
theorem interval_of_idle (h : WellFormed s) (hidle : s.registered = [])
    (hpass : pass s newT = some s') : s'.interval = maxRloopWait := by
  rw [pass_eq h, hidle, List.foldl_nil, Option.some_inj] at hpass
  subst hpass
  rfl

/-- The pass comes when the loop thread has asked for it, or later. -/
def Punctual (s : Loop) (a : Action) : Prop :=
  ∀ newT, a = .pass newT → s.t.toNat + s.interval.toNat ≤ newT.toNat

/-- **Due before the next pass** is due too early. -/
theorem silent_of_due_early (h : WellFormed s) (hprog : prog ∈ s.registered)
    (hearly : (s.due prog).toNat < s.t.toNat + s.interval.toNat ∨ s.due prog < s.t)
    (hkeep : .unregister prog ∉ as) (hclock : EveryStep step Punctual s as)
    (hrun : run step s as = some s') : s'.callTimes prog = s.callTimes prog := by
  induction as generalizing s with
  | nil => rw [Option.some.inj hrun]
  | cons a as ih =>
    obtain ⟨s₁, hs₁, hrest⟩ := (run_cons_eq_some _).mp hrun
    obtain ⟨hpunctual, hclock⟩ := hclock s₁ hs₁
    rw [List.mem_cons, not_or] at hkeep
    have hmem := mem_registered_step h hprog (fun he => hkeep.1 he.symm) hs₁
    have hsame : s₁.callTimes prog = s.callTimes prog ∧
        ((s₁.due prog).toNat < s₁.t.toNat + s₁.interval.toNat ∨ s₁.due prog < s₁.t) := by
      by_cases hpass : ∃ newT, a = .pass newT
      · obtain ⟨newT, rfl⟩ := hpass
        obtain ⟨-, hcalls, hdue⟩ := due_of_pass h hprog hs₁
        have ht : s₁.t = newT := (passed_of_pass h hs₁).links.t
        have hle := hpunctual newT rfl
        have hlt : s.due prog < newT := by
          rw [UInt64.lt_iff_toNat_lt] at hearly ⊢
          omega
        have hne : newT ≠ s.due prog := (UInt64.ne_of_lt hlt).symm
        rw [if_neg hne, List.append_nil] at hcalls
        rw [if_neg hne, add_zero] at hdue
        rw [hdue, ht]
        exact ⟨hcalls, Or.inr hlt⟩
      · obtain ⟨hentry, ht, hevents, hinterval⟩ := due_of_call h hprog (not_exists.mp hpass) hs₁
        rw [Loop.callTimes, hevents, Loop.due, hentry, ht, hinterval]
        exact ⟨rfl, hearly⟩
    exact (ih (wellFormed_step h hs₁) hmem hsame.2 hkeep.2 hclock hrest).trans hsame.1

/-- The period of a new entry. -/
theorem interval_of_register {entry ticker data : Addr} {freq : ℚ} {rand : ℕ} {interval : Int64}
    (h : ccRunLoopRegister s entry ticker freq data rand = some s')
    (hperiod : period freq = some interval) : (s'.entry entry).interval = interval := by
  obtain ⟨-, h⟩ := ccassert_eq_some.mp h
  obtain ⟨-, h⟩ := ccassert_eq_some.mp h
  obtain ⟨-, h⟩ := Option.ite_none_left_eq_some.mp h
  rw [hperiod, Option.bind_some] at h
  obtain ⟨-, h⟩ := Option.ite_none_left_eq_some.mp h
  obtain rfl := Option.some.inj h
  show (Function.update s.entry entry _ entry).interval = interval
  rw [Function.update_self]

/-- **A program that is registered while the loop is idle is not called.**  The last pass had
nothing to visit, and the loop thread waits for `MAX_RLOOP_WAIT`; then a program comes in that wants
to be called once in a second or more often.  If the loop thread is not woken before its time, the
program is not called, in this pass or in any later one. -/
theorem registered_idle_stays_silent {s₀ s₁ : Loop} {ticker data : Addr} {freq : ℚ} {rand : ℕ}
    {interval : Int64} (hs₀ : Reachable s₀) (hidle : s₀.registered = [])
    (hpass : step s₀ (.pass newT) = some s) (ht : newT.toNat + 1000000 < 2 ^ 64)
    (hperiod : period freq = some interval) (hshort : interval.toInt ≤ 1000000)
    (hregister : step s (.register prog ticker freq data rand) = some s₁)
    (hkeep : .unregister prog ∉ as) (hclock : EveryStep step Punctual s₁ as)
    (hrun : run step s₁ as = some s') : s'.callTimes prog = s.callTimes prog := by
  have h₀ := wellFormed_of_reachable hs₀
  have h := wellFormed_step h₀ hpass
  have hr := registered_of_register h hregister
  have hmem : prog ∈ s₁.registered := by
    rw [hr.registered]
    exact List.mem_append_right _ (List.mem_singleton.mpr rfl)
  have hpass : pass s₀ newT = some s := hpass
  have hnewT : s₁.t = newT := hr.t.trans (passed_of_pass h₀ hpass).links.t
  have hlongest := interval_of_idle h₀ hidle hpass
  have hwait : s₁.interval = maxRloopWait :=
    (congrArg Loop.interval (eq_of_register hregister)).trans hlongest
  have hacc : (s₁.entry prog).acc.toNat < 1000000 := by
    have hlt := hr.acc_lt
    rw [interval_of_register hregister hperiod] at hlt
    omega
  have hearly : (s₁.due prog).toNat < s₁.t.toNat + s₁.interval.toNat := by
    have hmax : maxRloopWait.toNat = 1000000 := rfl
    rw [Loop.due, hnewT, hwait, UInt64.toNat_add, hmax]
    omega
  have hsame : s₁.callTimes prog = s.callTimes prog := by
    rw [Loop.callTimes, hr.events, Loop.callTimes]
  exact (silent_of_due_early hr.wellFormed hmem (Or.inl hearly) hkeep hclock hrun).trans hsame

/-- The pass at 5 finds nothing; then a program comes in with a period of ten microseconds.  The
next pass comes when a second is over. -/
theorem registered_idle_stays_silent_second : ∃ s₀ s s₁ s',
    Reachable s₀ ∧ step s₀ (.pass 5) = some s ∧
    step s (.register 2000 3000 100000 4000 5) = some s₁ ∧
    run step s₁ [.pass 1000005] = some s' ∧ s'.callTimes 2000 = s.callTimes 2000 := by
  obtain ⟨s₀, hs₀, hidle, hprograms⟩ : ∃ s₀, Reachable s₀ ∧ s₀.registered = [] ∧
      s₀.programs = 1000 :=
    ⟨_, ⟨1000, fun _ => ⟨0, 0, 0, 0⟩, fun _ => 0, fun _ => 0, 0, [], by decide, rfl⟩, rfl, rfl⟩
  have h₀ := wellFormed_of_reachable hs₀
  obtain ⟨s, hs⟩ := exists_pass h₀ 5
  have hpass : pass s₀ 5 = some s := hs
  have hlinks := (passed_of_pass h₀ hpass).links
  have hlinked : s.programs = 1000 ∧ s.registered = [] :=
    ⟨hlinks.programs.trans hprograms, hlinks.registered.trans hidle⟩
  have hfresh : 2000 ∉ null :: s.programs :: s.registered := by
    rw [hlinked.1, hlinked.2]
    decide
  obtain ⟨s₁, hs₁⟩ : ∃ s₁, step s (.register 2000 3000 100000 4000 5) = some s₁ := by
    have hticker : (3000 : Addr) ≠ null := by decide
    obtain ⟨s₁, hs₁, -⟩ := register_of_period hticker (by norm_num) hfresh period_100000
      (by decide) 4000 5
    exact ⟨s₁, hs₁⟩
  obtain ⟨s', hs'⟩ := exists_passes (wellFormed_step (wellFormed_step h₀ hs) hs₁) [1000005]
  refine ⟨_, s, s₁, s', hs₀, hs, hs₁, hs', ?_⟩
  refine registered_idle_stays_silent hs₀ hidle hs (by decide) period_100000 (by decide) hs₁
    (by decide) ?_ hs'
  refine fun t _ => ⟨fun newT he => ?_, trivial⟩
  have hlongest := interval_of_idle h₀ hidle hpass
  have hwait : s₁.interval = maxRloopWait :=
    (congrArg Loop.interval (eq_of_register hs₁)).trans hlongest
  have hnow : s.t = 5 := hlinks.t
  rw [(registered_of_register (wellFormed_step h₀ hs) hs₁).t, hnow, hwait,
    ← Action.pass.inj he]
  decide

end RunLoop
end CCore
