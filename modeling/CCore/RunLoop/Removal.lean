import CCore.RunLoop.Timetable
import CCore.RunLoop.Interleaving

/-!
# After a removal

`cc_run_loop_unregister` frees its entry as soon as it has given up `loops_mt`.  A caller will free
what `data` points to next.  So it must not happen that the loop thread comes back to the entry,
whatever it was doing when the removal came.

A removal cannot come in the middle of a pass, since the thread holds `loops_mt` then; and from one
pass to the next the thread keeps no entry, only the time and the interval.  The entry of a visit or
of a call is a registered one (`mem_registered_of_visiting`), and a removed entry is not registered
until the same address is registered again.
-/

namespace CCore
namespace RunLoop
namespace Threads

open Runs

variable {x y z : CcRunLoop} {s s' : Loop} {prog handle : Addr} {a : Action} {as : List Action}

/-- The handle that a registration returns. -/
def Action.registers : Action → Option Addr
  | .register entry _ _ _ _ => some entry
  | _ => none

theorem registers_of_visible {a : Action} (ha : a.registers ≠ some handle) :
    ∀ b ∈ a.visible x, b.registers ≠ some handle := by
  intro b hb
  cases a with
  | visit =>
    simp only [Action.visible] at hb
    split at hb
    · split at hb
      · rw [List.mem_singleton.mp hb]
        simp [RunLoop.Action.registers]
      · exact absurd hb List.not_mem_nil
    · exact absurd hb List.not_mem_nil
  | register entry ticker freq data rand =>
    rw [List.mem_singleton.mp hb]
    exact ha
  | unregister handle =>
    rw [List.mem_singleton.mp hb]
    simp [RunLoop.Action.registers]
  | _ => exact absurd hb List.not_mem_nil

/-- An entry that is not registered, nor the sentinel, does not become registered by itself. -/
theorem notMem_of_step (hx : Reachable x) (hstep : step x a = some y)
    (ha : a.registers ≠ some handle) (hhandle : handle ∉ x.loop.programs :: x.loop.registered) :
    handle ∉ y.loop.programs :: y.loop.registered := by
  obtain ⟨s, hs, h⟩ := refines_of_reachable hx
  obtain ⟨t, ht, h'⟩ := h.step hs hstep
  obtain ⟨-, hprograms, hregistered⟩ := registered_of_run hs ht
  rw [h.registered.1, h.registered.2, List.mem_cons, not_or] at hhandle
  rw [h'.registered.1, h'.registered.2, hprograms, hregistered, List.mem_cons, not_or]
  exact ⟨hhandle.1, notMem_foldl_onRegistered hhandle.2 (registers_of_visible ha)⟩

theorem callsOf_of_register {entry ticker data : Addr} {freq : ℚ} {rand : ℕ}
    (h : ccRunLoopRegister s entry ticker freq data rand = some s') :
    s'.callsOf handle = s.callsOf handle := by
  rw [eq_of_register h]
  rfl

theorem callsOf_of_unregister {h' : Addr} (h : ccRunLoopUnregister s h' = some s') :
    s'.callsOf handle = s.callsOf handle := by
  rw [eq_of_unregister h]
  rfl

/-- A visit adds its own events. -/
theorem events_visitProg (delta : UInt64) (hprog : prog ≠ x.loop.programs) :
    ∃ called : List Event, (visitProg x delta prog).loop.events =
      x.loop.events ++ .visit prog :: called ∧ ∀ ev ∈ called, ∃ main newT data,
        ev = .call prog main newT data := by
  rw [visitProg, if_neg hprog]
  dsimp only
  split
  · refine ⟨[.call prog (x.loop.entry prog).main x.loop.t (x.loop.entry prog).data], ?_, ?_⟩
    · exact List.append_assoc _ _ _
    · exact List.forall_mem_singleton.mpr ⟨_, _, _, rfl⟩
  · exact ⟨[], rfl, List.forall_mem_nil _⟩

/-- **What is not registered is not called.** -/
theorem callsOf_of_step (hx : Reachable x) (hstep : step x a = some y)
    (hhandle : handle ∉ x.loop.registered) : y.loop.callsOf handle = x.loop.callsOf handle := by
  cases move_of_step hstep with
  | created => rfl
  | begin | again =>
    rw [whileNotStop]
    split <;> rfl
  | wake =>
    rw [wakeUp]
    split <;> rfl
  | lock => rfl
  | @visit delta prog hplace =>
    by_cases hend : prog = x.loop.programs
    · rw [visitProg, if_pos hend]
      rfl
    · have hprog : prog ≠ handle := by
        rintro rfl
        exact hhandle ((mem_registered_of_visiting hx hplace).resolve_left hend)
      obtain ⟨called, hevents, hcalled⟩ := events_visitProg (x := x) delta hend
      have hnone : (Event.visit prog :: called).countP (Event.isCallOf handle) = 0 := by
        refine List.countP_eq_zero.mpr fun ev hev => ?_
        rcases List.mem_cons.mp hev with rfl | hev
        · simp [Event.isCallOf]
        · obtain ⟨main, newT, data, rfl⟩ := hcalled ev hev
          simpa [Event.isCallOf] using hprog
      rw [Loop.callsOf, hevents, List.countP_append, hnone]
      rfl
  | ret => rfl
  | register _ _ _ hloop => exact callsOf_of_register hloop
  | unregister _ _ _ hloop => exact callsOf_of_unregister hloop
  | delete => rfl
  | join => rfl

/-- **A removed entry stays silent.**  When `cc_run_loop_unregister` has returned, then in every
continuation, until the address is registered again, the loop thread neither looks at the entry,
which has been freed, nor calls its `main`. -/
theorem unregistered_stays_silent (hx : Reachable x) (hstep : step x (.unregister handle) = some y)
    (has : ∀ a ∈ as, a.registers ≠ some handle) (hrun : run step y as = some z) :
    handle ∉ z.loop.registered ∧ z.loop.callsOf handle = x.loop.callsOf handle ∧
      ∀ delta, z.place ≠ .visiting delta handle ∧ z.place ≠ .calling delta handle := by
  have hy := reachable_step hx hstep
  have hcalls : y.loop.callsOf handle = x.loop.callsOf handle := by
    cases move_of_step hstep with
    | unregister _ _ _ hloop => exact callsOf_of_unregister hloop
  have hgone : handle ∉ y.loop.programs :: y.loop.registered := by
    obtain ⟨s, hs, h⟩ := refines_of_reachable hx
    obtain ⟨t, ht, h'⟩ := h.step hs hstep
    obtain ⟨u, hu, hut⟩ := (run_cons_eq_some _).mp ht
    obtain rfl := Option.some.inj hut
    have hremoved := unregistered_of_unregister hs hu
    have hnodup := List.nodup_cons.mp hs.ring.nodup
    rw [h'.registered.1, h'.registered.2, hremoved.programs, hremoved.registered, List.mem_cons,
      not_or]
    exact ⟨fun he => hnodup.1 (he ▸ hremoved.mem), hnodup.2.not_mem_erase⟩
  have hrest : ∀ {as : List Action} {y z : CcRunLoop}, Reachable y →
      (∀ a ∈ as, a.registers ≠ some handle) →
      handle ∉ y.loop.programs :: y.loop.registered → run step y as = some z →
      handle ∉ z.loop.programs :: z.loop.registered ∧
        z.loop.callsOf handle = y.loop.callsOf handle := by
    intro as
    induction as with
    | nil =>
      rintro y z - - hgone hrun
      rw [run_nil, Option.some_inj] at hrun
      subst hrun
      exact ⟨hgone, rfl⟩
    | cons a as ih =>
      intro y z hy has hgone hrun
      obtain ⟨ha, has⟩ := List.forall_mem_cons.mp has
      obtain ⟨u, hu, hrest⟩ := (run_cons_eq_some step).mp hrun
      have hcall := callsOf_of_step hy hu (fun hmem => hgone (List.mem_cons_of_mem _ hmem))
      obtain ⟨hgone', hcalls⟩ := ih (reachable_step hy hu) has
        (notMem_of_step hy hu ha hgone) hrest
      exact ⟨hgone', hcalls.trans hcall⟩
  obtain ⟨hz, hcalls'⟩ := hrest hy has hgone hrun
  have hreach := reachable_run hy hrun
  obtain ⟨hsentinel, hregistered⟩ := not_or.mp (mt List.mem_cons.mpr hz)
  refine ⟨hregistered, hcalls'.trans hcalls, fun delta => ⟨fun hplace => ?_, fun hplace => ?_⟩⟩
  · exact (mem_registered_of_visiting hreach hplace).elim hsentinel hregistered
  · exact hregistered (mem_registered_of_calling hreach hplace)

/-- A run loop at 1000 whose thread sleeps, with one entry at 2000. -/
theorem exists_sleeping : ∃ x, Reachable x ∧ x.place = .waiting ∧ x.stop = false ∧
    x.creating = false ∧ x.deleter = .notCalled ∧ x.loop.registered = [2000] := by
  obtain ⟨loop, hloop⟩ : ∃ loop, ccRunLoopRegister
      (ccRunLoopNew 1000 (fun _ => ⟨0, 0, 0, 0⟩) (fun _ => 0) (fun _ => 0) 0)
      2000 3000 100000 4000 5 = some loop :=
    register_of_fresh (by decide) (by norm_num) (by decide) period_100000 (by decide) 4000 5
  have hregistered := (registered_of_register (wellFormed_new (by decide)) hloop).registered
  refine ⟨{ start 1000 (fun _ => ⟨0, 0, 0, 0⟩) (fun _ => 0) (fun _ => 0) 0 with
      loop := loop, place := .waiting, creating := false, stop := false, isRunning := true },
    ⟨1000, fun _ => ⟨0, 0, 0, 0⟩, fun _ => 0, fun _ => 0, 0,
      [.created, .begin, .register 2000 3000 100000 4000 5], by decide, ?_⟩,
    rfl, rfl, rfl, rfl, hregistered⟩
  refine (show run step _ ([.created, .begin] ++ [_]) = _ from
    (run_append_eq_some step).mpr ⟨_, rfl, ?_⟩)
  exact (run_cons_eq_some step).mpr ⟨_, congrArg (Option.map _) hloop, rfl⟩

/-- The entry is removed while the thread sleeps, and the thread wakes up. -/
theorem unregistered_stays_silent_wake : ∃ x y z, Reachable x ∧
    step x (.unregister 2000) = some y ∧ run step y [.wake 9] = some z ∧
    z.loop.callsOf 2000 = x.loop.callsOf 2000 := by
  obtain ⟨x, hx, hplace, hstop, hcreating, hdeleter, hregistered⟩ := exists_sleeping
  obtain ⟨s, hs, h⟩ := refines_of_reachable hx
  have hloop : x.loop = s := h.loop_eq (.inr (.inl hplace))
  have hmem : 2000 ∈ x.loop.registered := hregistered ▸ List.mem_cons_self
  obtain ⟨loop, hremoved⟩ := unregister_of_mem (hloop.symm ▸ hs) hmem
  have hstep : step x (.unregister 2000) = some { x with loop := loop } := by
    simp [step, hplace, Place.holdsLoops, hcreating, CcRunLoop.isFreed, hdeleter, hremoved]
  have hwake : run step { x with loop := loop } [.wake 9] =
      some (wakeUp { x with loop := loop } 9) :=
    (run_cons_eq_some step).mpr ⟨_, if_pos hplace, rfl⟩
  exact ⟨x, _, _, hx, hstep, hwake, (unregistered_stays_silent hx hstep (by simp
    [Action.registers]) hwake).2.1⟩

end Threads
end RunLoop
end CCore
