import CCore.RunLoop.Registration

/-!
# When a ticker fires

A registered program is meant to run once in every `interval` microseconds.  Its
countdown `acc` is reduced by the time that has passed, and when there is nothing
left of it the program runs and the countdown is wound up again.  `FiringLaw` says
so for one locked region of the run loop, with the countdown read as an integer:
the program is called once if the time that has passed has consumed the countdown
--- exactly or by more --- and not otherwise, and the countdown loses that time and
gains a period if there was a call.

## What the code does

The countdown is unsigned, so a subtraction that should go below zero wraps, and
`acc <= 0` holds at zero only.  `fires_iff` is what is left of the test: the time
that has passed is exactly the countdown.  A pass that comes too late therefore
does not call the program; it leaves a countdown of almost 2^64 microseconds.

`firingLaw_iff_onTime` is the exact condition: along any run of the loop, with any
other programs coming and going, the law holds in every step if and only if every
pass comes no later than the countdown of the program asks for.
-/

namespace CCore
namespace RunLoop

open Runs

/-! ## The law -/

/-- A call of the `main` of `prog`. -/
def Event.isCallOf (prog : Addr) : Event → Bool
  | .visit _ => false
  | .call p _ _ _ => p = prog

/-- How often the `main` of `prog` has been called. -/
def Loop.callsOf (s : Loop) (prog : Addr) : ℕ := s.events.countP (Event.isCallOf prog)

/-- The remaining countdown of `prog`, read as an integer. -/
def Loop.countdown (s : Loop) (prog : Addr) : ℤ := (s.entry prog).acc.toNat

/-- The time that has passed for a pass that reads `newT`, as an integer. -/
def Loop.elapsed (s : Loop) (newT : UInt64) : ℤ := (newT - s.t).toNat

/-- **The firing law**, for `prog` in one locked region.  It asks nothing of a
registration or of a removal. -/
def FiringLaw (prog : Addr) (s : Loop) (a : Action) : Prop :=
  ∀ newT s', a = .pass newT → step s a = some s' →
    s'.callsOf prog = s.callsOf prog +
      (if s.countdown prog ≤ s.elapsed newT then 1 else 0) ∧
    s'.countdown prog = s.countdown prog - s.elapsed newT +
      (if s.callsOf prog < s'.callsOf prog then (s.entry prog).interval.toInt else 0)

/-- The pass comes no later than the countdown of `prog` asks for. -/
def OnTime (prog : Addr) (s : Loop) (a : Action) : Prop :=
  ∀ newT, a = .pass newT → s.elapsed newT ≤ s.countdown prog

/-! ## What the code does instead -/

/-- **The test of the code.**  Of an unsigned difference, being at most zero means
being zero. -/
theorem fires_iff {delta : UInt64} {e : RlEntry} : Fires delta e ↔ e.acc = delta := by
  rw [Fires, UInt64.le_iff_toNat_le, UInt64.toNat_zero, Nat.le_zero, ← UInt64.toNat_zero,
    UInt64.toNat_inj, sub_eq_zero]

variable {s s' : Loop} {prog : Addr} {newT : UInt64}

theorem countP_visitEvents (x : Addr) (delta : UInt64) (e : RlEntry) :
    (visitEvents newT delta x e).countP (Event.isCallOf prog) =
      if x = prog ∧ Fires delta e then 1 else 0 := by
  by_cases hfires : Fires delta e
  · by_cases hx : x = prog
    · simp [visitEvents, Event.isCallOf, hfires, hx]
    · simp [visitEvents, Event.isCallOf, hfires, hx]
  · simp [visitEvents, Event.isCallOf, hfires]

/-- The calls of one program in the events of all visits. -/
theorem countP_flatMap_visitEvents {es : List Addr} (hnodup : es.Nodup) (hprog : prog ∈ es)
    (delta : UInt64) (entry : Addr → RlEntry) :
    (es.flatMap fun x => visitEvents newT delta x (entry x)).countP (Event.isCallOf prog) =
      if Fires delta (entry prog) then 1 else 0 := by
  have hother : ∀ xs : List Addr, prog ∉ xs →
      (xs.flatMap fun x => visitEvents newT delta x (entry x)).countP
        (Event.isCallOf prog) = 0 := by
    intro xs hxs
    rw [List.countP_eq_zero]
    intro ev hev
    obtain ⟨x, hx, hev⟩ := List.mem_flatMap.mp hev
    have hne : ¬(x = prog ∧ Fires delta (entry x)) := fun h => hxs (h.1 ▸ hx)
    exact List.countP_eq_zero.mp ((countP_visitEvents x delta (entry x)).trans (if_neg hne)) ev hev
  obtain ⟨as, bs, rfl⟩ := List.append_of_mem hprog
  obtain ⟨-, hbs, hdisj⟩ := List.nodup_append.mp hnodup
  have has : prog ∉ as := fun hm => hdisj _ hm _ List.mem_cons_self rfl
  rw [List.flatMap_append, List.flatMap_cons, List.countP_append, List.countP_append,
    hother as has, hother bs (List.nodup_cons.mp hbs).1, countP_visitEvents, Nat.zero_add,
    Nat.add_zero]
  exact if_congr (and_iff_right rfl) rfl rfl

/-- How a pass treats a registered program. -/
structure Treated (prog : Addr) (newT : UInt64) (s s' : Loop) : Prop where
  calls : s'.callsOf prog = s.callsOf prog + if (s.entry prog).acc = newT - s.t then 1 else 0
  entry : s'.entry prog = ticked (newT - s.t) (s.entry prog)

theorem treated_of_pass (h : WellFormed s) (hprog : prog ∈ s.registered)
    (hpass : pass s newT = some s') : Treated prog newT s s' := by
  obtain ⟨-, hentry, hevents⟩ := passed_of_pass h hpass
  have hnodup := (List.nodup_cons.mp h.ring.nodup).2
  refine ⟨?_, ?_⟩
  · rw [Loop.callsOf, hevents, List.countP_append,
      countP_flatMap_visitEvents hnodup hprog, if_congr fires_iff rfl rfl, Loop.callsOf]
  · rw [hentry, if_pos hprog]

/-- The countdown after a call: a full period. -/
theorem toNat_period {interval : Int64} (h : 0 < interval.toInt) :
    (interval.toUInt64.toNat : ℤ) = interval.toInt := by
  have hle : 0 ≤ interval := Int64.le_iff_toInt_le.mpr h.le
  rw [Int64.toNat_toUInt64_of_le hle]
  exact Int.toNat_of_nonneg h.le

/-- **One pass.**  The law holds in it if and only if it is on time. -/
theorem firingLaw_pass_iff (h : WellFormed s) (hprog : prog ∈ s.registered)
    (hpass : pass s newT = some s') :
    FiringLaw prog s (.pass newT) ↔ s.elapsed newT ≤ s.countdown prog := by
  obtain ⟨hcalls, hentry⟩ := treated_of_pass h hprog hpass
  have hpos := h.interval_pos prog hprog
  have hexact : (s.entry prog).acc = newT - s.t ↔ s.countdown prog = s.elapsed newT := by
    rw [← UInt64.toNat_inj, Loop.countdown, Loop.elapsed, Nat.cast_inj]
  constructor
  · intro hlaw
    obtain ⟨hcalled, -⟩ := hlaw newT s' rfl hpass
    by_contra hlate
    have hne : ¬(s.entry prog).acc = newT - s.t := fun he => hlate (hexact.mp he).ge
    rw [hcalls, if_neg hne, if_pos (not_le.mp hlate).le] at hcalled
    omega
  · intro honTime newT' s'' he hpass'
    cases he
    have hs : s'' = s' := Option.some.inj (hpass'.symm.trans hpass)
    subst hs
    have hnew : s''.countdown prog = ((ticked (newT - s.t) (s.entry prog)).acc.toNat : ℤ) := by
      rw [Loop.countdown, hentry]
    rw [hnew, ticked]
    by_cases he : (s.entry prog).acc = newT - s.t
    · rw [if_pos (fires_iff.mpr he), hcalls, if_pos he, if_pos (hexact.mp he).le,
        if_pos (Nat.lt_succ_self _), hexact.mp he, he, sub_self, zero_add, sub_self, zero_add]
      exact ⟨rfl, toNat_period hpos⟩
    · have hlt : s.elapsed newT < s.countdown prog :=
        lt_of_le_of_ne honTime fun h' => he (hexact.mpr h'.symm)
      have hle : newT - s.t ≤ (s.entry prog).acc :=
        UInt64.le_iff_toNat_le.mpr (Int.ofNat_le.mp hlt.le)
      rw [if_neg (mt fires_iff.mp he), hcalls, if_neg he, if_neg (not_le.mpr hlt), Nat.add_zero,
        if_neg (lt_irrefl _), add_zero, UInt64.toNat_sub_of_le _ _ hle]
      exact ⟨rfl, Nat.cast_sub (UInt64.le_iff_toNat_le.mp hle)⟩

/-- **One step.**  Only passes are asked for anything. -/
theorem firingLaw_step_iff {a : Action} (h : WellFormed s) (hprog : prog ∈ s.registered)
    (hs : step s a = some s') : FiringLaw prog s a ↔ OnTime prog s a := by
  cases a with
  | pass newT =>
    rw [firingLaw_pass_iff h hprog hs]
    exact ⟨fun hle _ he => Action.pass.inj he ▸ hle, fun honTime => honTime newT rfl⟩
  | register entry ticker freq data rand => exact ⟨fun _ => nofun, fun _ => nofun⟩
  | unregister handle => exact ⟨fun _ => nofun, fun _ => nofun⟩

/-- A program stays registered until it is removed itself. -/
theorem mem_registered_step {a : Action} (h : WellFormed s) (hprog : prog ∈ s.registered)
    (ha : a ≠ .unregister prog) (hs : step s a = some s') : prog ∈ s'.registered := by
  cases a with
  | pass newT =>
    rw [(passed_of_pass h hs).links.registered]
    exact hprog
  | register entry ticker freq data rand =>
    rw [(registered_of_register h hs).registered]
    exact List.mem_append_left _ hprog
  | unregister handle =>
    rw [(unregistered_of_unregister h hs).registered]
    have hne : prog ≠ handle := fun he => ha (congrArg Action.unregister he.symm)
    exact (List.mem_erase_of_ne hne).mpr hprog

/-- **When the firing law holds.**  Take a registered program and any run of the loop
in which it is not removed.  The law holds in every step of the run if and only if
every pass of the run comes no later than the countdown of the program asks for. -/
theorem firingLaw_iff_onTime {as : List Action} (hs : Reachable s) (hprog : prog ∈ s.registered)
    (hkeep : .unregister prog ∉ as) :
    EveryStep step (FiringLaw prog) s as ↔ EveryStep step (OnTime prog) s as := by
  refine everyStep_congr (I := fun s => WellFormed s ∧ prog ∈ s.registered)
    (A := fun a => a ≠ .unregister prog) ?_ ?_ ⟨wellFormed_of_reachable hs, hprog⟩
    fun a ha he => hkeep (he ▸ ha)
  · rintro s a t ha ⟨h, hmem⟩ ht
    exact ⟨wellFormed_step h ht, mem_registered_step h hmem ha ht⟩
  · rintro s a t ⟨h, hmem⟩ ht
    exact firingLaw_step_iff h hmem ht

/-- A run loop with one program, at 2000, which was registered at time zero with a
period of ten microseconds and a first countdown of five. -/
theorem exists_tickingLoop : ∃ s, Reachable s ∧ s.registered = [2000] ∧
    s.entry 2000 = ⟨3000, 4000, 5, 10⟩ ∧ s.t = 0 ∧ s.events = [] := by
  have hregister : ∃ s, ccRunLoopRegister
      (ccRunLoopNew 1000 (fun _ => ⟨0, 0, 0, 0⟩) (fun _ => 0) (fun _ => 0) 0)
      2000 3000 100000 4000 5 = some s ∧ s.registered = [2000] ∧
      s.entry 2000 = ⟨3000, 4000, 5, 10⟩ ∧ s.t = 0 ∧ s.events = [] := by
    rw [ccRunLoopRegister, ccassert_pos (by decide), ccassert_pos (by norm_num),
      if_neg (by decide), period_100000]
    exact ⟨_, rfl, by rfl, by decide, by rfl, by rfl⟩
  obtain ⟨s, hs, hsame⟩ := hregister
  refine ⟨s, ⟨1000, fun _ => ⟨0, 0, 0, 0⟩, fun _ => 0, fun _ => 0, 0,
    [.register 2000 3000 100000 4000 5], by decide, ?_⟩, hsame⟩
  exact (run_cons_eq_some step).mpr ⟨s, hs, rfl⟩

theorem firingLaw_iff_onTime_exact : ∃ s, Reachable s ∧ s.countdown 2000 = 5 ∧
    EveryStep step (FiringLaw 2000) s [.pass 5] := by
  obtain ⟨s, hs, hregistered, hentry, ht, -⟩ := exists_tickingLoop
  have hcountdown : s.countdown 2000 = 5 := by
    rw [Loop.countdown, hentry]
    rfl
  have honTime : OnTime 2000 s (.pass 5) := by
    intro newT he
    rw [← Action.pass.inj he, hcountdown, Loop.elapsed, ht]
    decide
  refine ⟨s, hs, hcountdown, ?_⟩
  exact (firingLaw_iff_onTime hs (hregistered ▸ List.mem_cons_self) (by decide)).mpr
    fun _ _ => ⟨honTime, trivial⟩

/-- **A wake-up that is one microsecond late.**  Five are left and six have passed: the
program is not called, and it will not be for half a million years. -/
theorem not_firingLaw_late_wakeup : ∃ s s', Reachable s ∧ 2000 ∈ s.registered ∧
    s.countdown 2000 = 5 ∧ s.elapsed 6 = 6 ∧ step s (.pass 6) = some s' ∧
    s'.callsOf 2000 = 0 ∧ s'.countdown 2000 = 2 ^ 64 - 1 ∧ ¬FiringLaw 2000 s (.pass 6) := by
  obtain ⟨s, hs, hregistered, hentry, ht, hevents⟩ := exists_tickingLoop
  have h := wellFormed_of_reachable hs
  have hmem : 2000 ∈ s.registered := hregistered ▸ List.mem_cons_self
  obtain ⟨s', hpass⟩ : ∃ s', pass s 6 = some s' := ⟨_, pass_eq h⟩
  obtain ⟨hcalls, hentry'⟩ := treated_of_pass h hmem hpass
  have hcountdown : s.countdown 2000 = 5 := by
    rw [Loop.countdown, hentry]
    rfl
  have helapsed : s.elapsed 6 = 6 := by
    rw [Loop.elapsed, ht]
    rfl
  rw [hentry, ht, Loop.callsOf, Loop.callsOf, hevents] at hcalls
  rw [hentry, ht] at hentry'
  refine ⟨s, s', hs, hmem, hcountdown, helapsed, hpass, hcalls, ?_, fun hlaw => ?_⟩
  · rw [Loop.countdown, hentry']
    decide
  · have hlate := (firingLaw_pass_iff h hmem hpass).mp hlaw
    rw [hcountdown, helapsed] at hlate
    exact absurd hlate (by decide)

end RunLoop
end CCore
