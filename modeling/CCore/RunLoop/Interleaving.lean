import CCore.RunLoop.Threads

/-!
# A pass is one step after all

The moves of the loop thread between two waits change the entries one after the other, and others
move in between.  `Refines` says which state of `Model` a state of the threads stands for: the one
before the pass, as long as the pass is not over.  What has happened of it by then is the visits of
the entries before `prog`, and since nobody else can take `loops_mt`, the entries from `prog` on are
those that the pass is still going to visit.

So a pass is made at the moment when its inner loop meets the sentinel, registrations and removals
are made where they are, and all other moves are none (`Refines.step`).  Every state that the
threads reach refines a reachable one (`refines_of_reachable`), and what is known of the run loop in
whole passes is known of its threads.

In particular the loop thread has its hands on registered entries only, whoever registers and
removes entries meanwhile.
-/

namespace CCore
namespace RunLoop
namespace Threads

open CircularLinks Runs

/-! ## The relation -/

/-- The loop with `main` of `prog` about to be called. -/
def callMain (newT delta : UInt64) (s : Loop) (prog : Addr) : Loop :=
  let e := s.entry prog
  { s with
    entry := Function.update s.entry prog { e with acc := e.acc - delta }
    events := s.events ++ [.visit prog, .call prog e.main newT e.data] }

/-- The pass of `s` that began at `newT`, with the entries `done` visited. -/
def midPass (newT : UInt64) (s : Loop) (done : List Addr) : Loop :=
  done.foldl (visit newT (newT - s.t)) (beforePass s newT)

/-- **The state of the run loop that the threads stand for.** -/
def Refines (x : CcRunLoop) (s : Loop) : Prop :=
  match x.place with
  | .reading delta => x.loop = { s with t := x.loop.t } ∧ delta = x.loop.t - s.t
  | .visiting delta prog => delta = x.loop.t - s.t ∧ ∃ done rest, s.registered = done ++ rest ∧
      prog = rest.headD s.programs ∧ x.loop = midPass x.loop.t s done
  | .calling delta prog => delta = x.loop.t - s.t ∧ ∃ done rest,
      s.registered = done ++ prog :: rest ∧
      Fires delta ((midPass x.loop.t s done).entry prog) ∧
      x.loop = callMain x.loop.t delta (midPass x.loop.t s done) prog
  | _ => x.loop = s

/-- The steps that a move is. -/
def Action.visible (x : CcRunLoop) : Action → List RunLoop.Action
  | .visit =>
    match x.place with
    | .visiting _ prog => if prog = x.loop.programs then [.pass x.loop.t] else []
    | _ => []
  | .register entry ticker freq data rand => [.register entry ticker freq data rand]
  | .unregister handle => [.unregister handle]
  | _ => []

theorem visible_visit {x : CcRunLoop} {delta : UInt64} {prog : Addr}
    (hplace : x.place = .visiting delta prog) :
    Action.visit.visible x = if prog = x.loop.programs then [.pass x.loop.t] else [] := by
  simp only [Action.visible, hplace]

/-! ## The parts of a pass -/

section Parts

variable {s : Loop} {newT : UInt64} {done rest : List Addr} {prog : Addr}

/-- A pass does not change the links on its way. -/
theorem midPass_sameLinks (newT : UInt64) (s : Loop) (done : List Addr) :
    SameLinks (beforePass s newT) (midPass newT s done) :=
  foldl_visit_sameLinks newT (newT - s.t) done (beforePass s newT)

theorem midPass_snoc : midPass newT s (done ++ [prog]) =
    visit newT (newT - s.t) (midPass newT s done) prog := by
  rw [midPass, List.foldl_append]
  rfl

/-- The entry that comes next. -/
theorem midPass_next (h : WellFormed s) (hs : s.registered = done ++ prog :: rest) :
    (midPass newT s done).next prog = rest.headD s.programs := by
  rw [(midPass_sameLinks newT s done).next]
  exact h.next_mem hs

/-- The pass is over when it meets the sentinel. -/
theorem eq_nil_of_headD (h : WellFormed s) (hs : s.registered = done ++ rest)
    (hhead : rest.headD s.programs = s.programs) : rest = [] := by
  cases rest with
  | nil => rfl
  | cons r rest =>
    have hr : r = s.programs := hhead
    exact absurd (hs ▸ List.mem_append_right _ (hr ▸ List.mem_cons_self)) h.ring.head_notMem

/-- A visit without a call. -/
theorem visit_of_not_fires {delta : UInt64} (hfires : ¬ Fires delta (s.entry prog)) :
    visit newT delta s prog = { s with
      entry := Function.update s.entry prog
        { s.entry prog with acc := (s.entry prog).acc - delta }
      interval := if (s.entry prog).acc - delta < s.interval then (s.entry prog).acc - delta
        else s.interval
      events := s.events ++ [.visit prog] } := by
  have hacc : ¬ (s.entry prog).acc - delta ≤ 0 := hfires
  simp only [visit, if_neg hacc]

/-- A visit with a call is what leads to the call, and what comes after it. -/
theorem visit_of_fires {delta : UInt64} (hfires : Fires delta (s.entry prog)) :
    visit newT delta s prog =
      { callMain newT delta s prog with
        entry := Function.update s.entry prog
          { s.entry prog with
            acc := (s.entry prog).acc - delta + (s.entry prog).interval.toUInt64 }
        interval :=
          if (s.entry prog).acc - delta + (s.entry prog).interval.toUInt64 < s.interval then
            (s.entry prog).acc - delta + (s.entry prog).interval.toUInt64
          else s.interval } := by
  have hacc : (s.entry prog).acc - delta ≤ 0 := hfires
  simp only [visit, callMain, if_pos hacc]

/-- What comes after it. -/
theorem loop_returnMain {x : CcRunLoop} {delta : UInt64}
    (hloop : x.loop = callMain newT delta s prog) (hfires : Fires delta (s.entry prog)) :
    (returnMain x delta prog).loop = visit newT delta s prog := by
  rw [visit_of_fires hfires, returnMain, advance, hloop]
  simp only [callMain, Function.update_self, Function.update_idem]

/-- A registration does not look at the time, nor does it change it. -/
theorem ccRunLoopRegister_t (s : Loop) (v : UInt64) (entry ticker : Addr) (freq : ℚ)
    (data : Addr) (rand : ℕ) :
    ccRunLoopRegister { s with t := v } entry ticker freq data rand =
      (ccRunLoopRegister s entry ticker freq data rand).map fun s => { s with t := v } := by
  simp only [ccRunLoopRegister, ccassert, apply_ite (Option.map _), Option.map_none,
    Option.map_bind, Function.comp_def, Option.map_some]

theorem ccRunLoopUnregister_t (s : Loop) (v : UInt64) (handle : Addr) :
    ccRunLoopUnregister { s with t := v } handle =
      (ccRunLoopUnregister s handle).map fun s => { s with t := v } := by
  simp only [ccRunLoopUnregister, ccassert, apply_ite (Option.map _), Option.map_none,
    Option.map_some]

end Parts

/-! ## The simulation -/

namespace Refines

variable {x y : CcRunLoop} {s : Loop} {delta : UInt64} {prog : Addr}

/-- The relation is about the loop and the place. -/
theorem congr (h : Refines x s) (hloop : y.loop = x.loop) (hplace : y.place = x.place) :
    Refines y s := by
  rw [Refines, hloop, hplace]
  exact h

/-- Between two passes. -/
theorem of_loop (hloop : y.loop = s) (hplace : y.place = .starting ∨ y.place = .waiting ∨
    y.place = .passed ∨ y.place = .exited) : Refines y s := by
  rcases hplace with hplace | hplace | hplace | hplace <;> rw [Refines, hplace] <;> exact hloop

theorem loop_eq (h : Refines x s) (hplace : x.place = .starting ∨ x.place = .waiting ∨
    x.place = .passed ∨ x.place = .exited) : x.loop = s := by
  rw [Refines] at h
  rcases hplace with hplace | hplace | hplace | hplace <;> rw [hplace] at h <;> exact h

theorem whileNotStop (h : x.loop = s) : Refines (whileNotStop x) s := by
  rw [Threads.whileNotStop]
  split
  · exact of_loop h (by simp)
  · exact of_loop h (by simp)

/-- The time is read. -/
theorem wakeUp (h : Refines x s) (hplace : x.place = .waiting) (newT : UInt64) :
    Refines (wakeUp x newT) s := by
  have hloop := h.loop_eq (.inr (.inl hplace))
  rw [Threads.wakeUp]
  split
  · exact of_loop hloop (by simp)
  · rw [Refines]
    subst hloop
    exact ⟨rfl, rfl⟩

/-- The inner loop begins with nothing visited. -/
theorem lockLoops (hs : WellFormed s) (h : Refines x s) (hplace : x.place = .reading delta) :
    Refines (lockLoops x delta) s := by
  rw [Refines, hplace] at h
  obtain ⟨hloop, hdelta⟩ := h
  have hfirst : x.loop.next x.loop.programs = s.registered.headD s.programs := by
    rw [hloop]
    exact hs.ring.next_head
  rw [Refines]
  refine ⟨hdelta, [], s.registered, rfl, hfirst, ?_⟩
  show { x.loop with interval := 18446744073709551615 } = beforePass s x.loop.t
  rw [hloop]
  rfl

/-- **One entry is visited.**  If it is called, the visit is not over. -/
theorem visitProg (hs : WellFormed s) (h : Refines x s) (hplace : x.place = .visiting delta prog) :
    ∃ t, run RunLoop.step s (Action.visit.visible x) = some t ∧
      Refines (visitProg x delta prog) t := by
  rw [Refines, hplace] at h
  obtain ⟨hdelta, done, rest, hregistered, hprog, hloop⟩ := h
  have hsame := midPass_sameLinks x.loop.t s done
  have hprograms : x.loop.programs = s.programs := by
    rw [hloop]
    exact hsame.programs
  rw [visible_visit hplace, Threads.visitProg, hprograms]
  by_cases hend : prog = s.programs
  · -- the pass is over, and this is where it is made
    obtain rfl := eq_nil_of_headD hs hregistered (hprog.symm.trans hend)
    rw [List.append_nil] at hregistered
    rw [if_pos hend, if_pos hend]
    refine ⟨afterPass (midPass x.loop.t s done), (run_cons_eq_some _).mpr ⟨_, ?_, rfl⟩, ?_⟩
    · rw [← hregistered]
      exact pass_eq hs
    · refine of_loop ?_ (by simp)
      show afterPass x.loop = _
      rw [← hloop]
  · obtain ⟨rest, rfl⟩ : ∃ rest', rest = prog :: rest' := by
      cases rest with
      | nil => exact absurd hprog hend
      | cons r rest =>
        have hr : prog = r := hprog
        exact ⟨rest, hr ▸ rfl⟩
    rw [if_neg hend, if_neg hend]
    refine ⟨s, rfl, ?_⟩
    by_cases hfires : Fires delta (x.loop.entry prog)
    · have hacc : (x.loop.entry prog).acc - delta ≤ 0 := hfires
      dsimp only
      rw [if_pos hacc, Refines]
      refine ⟨hdelta, done, rest, hregistered, hloop ▸ hfires, ?_⟩
      rw [← hloop, callMain, List.append_assoc]
      rfl
    · have hacc : ¬ (x.loop.entry prog).acc - delta ≤ 0 := hfires
      have hnext : x.loop.next prog = rest.headD s.programs := by
        rw [hloop]
        exact midPass_next hs hregistered
      have hvisit : visit x.loop.t delta x.loop prog =
          midPass x.loop.t s (done ++ [prog]) := by
        rw [midPass_snoc, ← hloop, hdelta]
      rw [visit_of_not_fires hfires] at hvisit
      dsimp only
      rw [if_neg hacc, advance, Refines]
      refine ⟨hdelta, done ++ [prog], rest, ?_, hnext, ?_⟩
      · rw [hregistered, List.append_cons]
      · simp only [Function.update_self]
        exact hvisit

/-- **The call returns**, and the visit is over. -/
theorem returnMain (hs : WellFormed s) (h : Refines x s) (hplace : x.place = .calling delta prog) :
    Refines (returnMain x delta prog) s := by
  rw [Refines, hplace] at h
  obtain ⟨hdelta, done, rest, hregistered, hfires, hloop⟩ := h
  have hnext : x.loop.next prog = rest.headD s.programs := by
    rw [hloop]
    exact midPass_next hs hregistered
  have hvisit : (Threads.returnMain x delta prog).loop = midPass x.loop.t s (done ++ [prog]) := by
    rw [loop_returnMain hloop hfires, midPass_snoc, hdelta]
  have ht : (Threads.returnMain x delta prog).loop.t = x.loop.t := rfl
  have hplace' : (Threads.returnMain x delta prog).place = .visiting delta (x.loop.next prog) := rfl
  rw [Refines, hplace', ht]
  exact ⟨hdelta, done ++ [prog], rest, by rw [hregistered, List.append_cons], hnext, hvisit⟩

/-- A registration or a removal, while the loop thread does not hold `loops_mt`. -/
theorem call {a : RunLoop.Action} {loop : Loop}
    (ht : ∀ v, RunLoop.step { s with t := v } a =
      (RunLoop.step s a).map fun s => { s with t := v })
    (hkeep : ∀ s', RunLoop.step s a = some s' → s'.t = s.t) (h : Refines x s)
    (hplace : x.place.holdsLoops = false) (hloop : RunLoop.step x.loop a = some loop) :
    ∃ t, RunLoop.step s a = some t ∧ Refines { x with loop := loop } t := by
  by_cases hreading : ∃ delta, x.place = .reading delta
  · obtain ⟨delta, hreading⟩ := hreading
    rw [Refines, hreading] at h
    obtain ⟨heq, hdelta⟩ := h
    rw [heq, ht, Option.map_eq_some_iff] at hloop
    obtain ⟨t, hs, rfl⟩ := hloop
    refine ⟨t, hs, ?_⟩
    have hplace' : ({ x with loop := { t with t := x.loop.t } } : CcRunLoop).place =
        .reading delta := hreading
    rw [Refines, hplace']
    exact ⟨rfl, hdelta.trans (congrArg (x.loop.t - ·) (hkeep t hs).symm)⟩
  · have hother : x.place = .starting ∨ x.place = .waiting ∨ x.place = .passed ∨
        x.place = .exited := by
      cases hp : x.place with
      | reading delta => exact absurd ⟨delta, hp⟩ hreading
      | visiting delta prog => exact absurd hplace (by simp [hp, Place.holdsLoops])
      | calling delta prog => exact absurd hplace (by simp [hp, Place.holdsLoops])
      | _ => simp
    rw [h.loop_eq hother] at hloop
    exact ⟨loop, hloop, of_loop rfl hother⟩

/-- **One step.** -/
theorem step (hs : WellFormed s) (h : Refines x s) {a : Action} (hstep : step x a = some y) :
    ∃ t, run RunLoop.step s (a.visible x) = some t ∧ Refines y t := by
  cases move_of_step hstep with
  | created => exact ⟨s, rfl, h.congr rfl rfl⟩
  | begin hplace => exact ⟨s, rfl, whileNotStop (h.loop_eq (.inl hplace))⟩
  | @wake newT hplace => exact ⟨s, rfl, h.wakeUp hplace newT⟩
  | lock hplace => exact ⟨s, rfl, h.lockLoops hs hplace⟩
  | visit hplace => exact h.visitProg hs hplace
  | ret hplace => exact ⟨s, rfl, h.returnMain hs hplace⟩
  | again hplace => exact ⟨s, rfl, whileNotStop (h.loop_eq (.inr (.inr (.inl hplace))))⟩
  | @register entry ticker data freq rand loop hplace _ _ hloop =>
    obtain ⟨t, ht, h'⟩ := call (a := .register entry ticker freq data rand)
      (fun v => ccRunLoopRegister_t s v entry ticker freq data rand)
      (fun s' hs' => (registered_of_register hs hs').t) h hplace hloop
    exact ⟨t, (run_cons_eq_some _).mpr ⟨t, ht, rfl⟩, h'⟩
  | @unregister handle loop hplace _ _ hloop =>
    obtain ⟨t, ht, h'⟩ := call (a := .unregister handle) (fun v => ccRunLoopUnregister_t s v handle)
      (fun s' hs' => (unregistered_of_unregister hs hs').t) h hplace hloop
    exact ⟨t, (run_cons_eq_some _).mpr ⟨t, ht, rfl⟩, h'⟩
  | delete => exact ⟨s, rfl, h.congr rfl rfl⟩
  | join => exact ⟨s, rfl, h.congr rfl rfl⟩

end Refines

/-! ## Whole runs -/

section Results

variable {x y : CcRunLoop} {s : Loop} {programs : Addr} {entry : Addr → RlEntry}
  {next prev : Addr → Addr} {t : UInt64} {as : List Action}

/-- What is registered, and where the sentinel is, does not depend on how far the pass is. -/
theorem Refines.registered (h : Refines x s) :
    x.loop.registered = s.registered ∧ x.loop.programs = s.programs := by
  rw [Refines] at h
  split at h
  · obtain ⟨hloop, -⟩ := h
    rw [hloop]
    exact ⟨rfl, rfl⟩
  · obtain ⟨-, done, rest, -, -, hloop⟩ := h
    have hsame := midPass_sameLinks x.loop.t s done
    rw [hloop]
    exact ⟨hsame.registered, hsame.programs⟩
  · obtain ⟨-, done, rest, -, -, hloop⟩ := h
    have hsame := midPass_sameLinks x.loop.t s done
    rw [hloop]
    exact ⟨hsame.registered, hsame.programs⟩
  · rw [h]
    exact ⟨rfl, rfl⟩

/-- What has happened by the end of the last pass. -/
theorem Refines.events (hs : WellFormed s) (h : Refines x s) : s.events <+: x.loop.events := by
  have hmid : ∀ done rest, s.registered = done ++ rest →
      s.events <+: (midPass x.loop.t s done).events := by
    intro done rest hregistered
    have hnodup := (List.nodup_cons.mp hs.ring.nodup).2
    rw [hregistered] at hnodup
    rw [midPass, foldl_visit_events (List.nodup_append.mp hnodup).1]
    exact List.prefix_append _ _
  rw [Refines] at h
  split at h
  · obtain ⟨hloop, -⟩ := h
    rw [hloop]
  · obtain ⟨-, done, rest, hregistered, -, hloop⟩ := h
    rw [hloop]
    exact hmid done rest hregistered
  · obtain ⟨-, done, rest, hregistered, -, hloop⟩ := h
    rw [hloop]
    exact (hmid done _ hregistered).trans (List.prefix_append _ _)
  · rw [h]

/-- A run of the threads is made up for by a run in whole passes. -/
theorem exists_refines_of_run (hprograms : programs ≠ null)
    (hrun : run step (start programs entry next prev t) as = some x) :
    ∃ s, run RunLoop.step (ccRunLoopNew programs entry next prev t)
        (trace step Action.visible (start programs entry next prev t) as) = some s ∧
      WellFormed s ∧ Refines x s := by
  have hsim : ∀ (x : CcRunLoop) (s : Loop) (a : Action) (y : CcRunLoop),
      WellFormed s ∧ Refines x s → step x a = some y →
      ∃ t, run RunLoop.step s (a.visible x) = some t ∧ WellFormed t ∧ Refines y t := by
    rintro x s a y ⟨hs, h⟩ hstep
    obtain ⟨t, ht, h'⟩ := h.step hs hstep
    exact ⟨t, ht, run_induction (fun _ _ _ => wellFormed_step) hs ht, h'⟩
  have hstart : WellFormed (ccRunLoopNew programs entry next prev t) ∧
      Refines (start programs entry next prev t) (ccRunLoopNew programs entry next prev t) :=
    ⟨wellFormed_new hprograms, Refines.of_loop rfl (.inl rfl)⟩
  exact run_simulation hsim hstart hrun

/-- **The threads of a run loop make passes.**  Take any interleaving of the loop thread with
registrations, removals and a deletion.  The registrations and the removals, in their order, with a
pass wherever the inner loop meets the sentinel, are a run of the run loop in whole passes.  It
leads to the same registered entries, and to the state that the threads are in between two passes;
and the calls that the loop thread has made are those of the passes, and of the pass it is in. -/
theorem loop_thread_refines (hprograms : programs ≠ null)
    (hrun : run step (start programs entry next prev t) as = some x) :
    ∃ s, run RunLoop.step (ccRunLoopNew programs entry next prev t)
        (trace step Action.visible (start programs entry next prev t) as) = some s ∧
      WellFormed s ∧ Refines x s ∧ x.loop.registered = s.registered ∧
      s.events <+: x.loop.events := by
  obtain ⟨s, hs, hwell, h⟩ := exists_refines_of_run hprograms hrun
  exact ⟨s, hs, hwell, h, h.registered.1, h.events hwell⟩

/-- A loop with nothing to do makes a pass and is deleted. -/
theorem loop_thread_refines_idle : ∃ x s,
    run step (start 1000 (fun _ => ⟨0, 0, 0, 0⟩) (fun _ => 0) (fun _ => 0) 0)
      [.created, .begin, .wake 5, .lock, .visit, .again, .delete, .wake 9, .join] = some x ∧
    run RunLoop.step (ccRunLoopNew 1000 (fun _ => ⟨0, 0, 0, 0⟩) (fun _ => 0) (fun _ => 0) 0)
      [.pass 5] = some s ∧ s.events <+: x.loop.events := by
  obtain ⟨x, hx⟩ : ∃ x, run step (start 1000 (fun _ => ⟨0, 0, 0, 0⟩) (fun _ => 0) (fun _ => 0) 0)
      [.created, .begin, .wake 5, .lock, .visit, .again, .delete, .wake 9, .join] = some x :=
    Option.isSome_iff_exists.mp (by decide)
  obtain ⟨s, hs, -, -, -, hevents⟩ := loop_thread_refines (by decide) hx
  exact ⟨x, s, hx, hs, hevents⟩

/-- Every state of the threads refines a state of the run loop. -/
theorem refines_of_reachable (hx : Reachable x) : ∃ s, WellFormed s ∧ Refines x s := by
  obtain ⟨programs, entry, next, prev, t, as, hprograms, hrun⟩ := hx
  obtain ⟨s, -, hs, h⟩ := exists_refines_of_run hprograms hrun
  exact ⟨s, hs, h⟩

/-- The loop thread is at a registered entry, or at the sentinel. -/
theorem mem_registered_of_visiting {delta : UInt64} {prog : Addr} (hx : Reachable x)
    (hplace : x.place = .visiting delta prog) :
    prog = x.loop.programs ∨ prog ∈ x.loop.registered := by
  obtain ⟨s, -, h⟩ := refines_of_reachable hx
  obtain ⟨hregistered, hprograms⟩ := h.registered
  rw [Refines, hplace] at h
  obtain ⟨-, done, rest, hsplit, hprog, -⟩ := h
  rw [hregistered, hprograms, hsplit]
  cases rest with
  | nil => exact Or.inl hprog
  | cons r rest =>
    have hr : prog = r := hprog
    exact Or.inr (List.mem_append_right _ (hr ▸ List.mem_cons_self))

theorem mem_registered_of_calling {delta : UInt64} {prog : Addr} (hx : Reachable x)
    (hplace : x.place = .calling delta prog) : prog ∈ x.loop.registered := by
  obtain ⟨s, -, h⟩ := refines_of_reachable hx
  obtain ⟨hregistered, -⟩ := h.registered
  rw [Refines, hplace] at h
  obtain ⟨-, done, rest, hsplit, -⟩ := h
  rw [hregistered, hsplit]
  exact List.mem_append_right _ List.mem_cons_self

theorem reachable_step {a : Action} (hx : Reachable x) (hstep : step x a = some y) :
    Reachable y := by
  obtain ⟨programs, entry, next, prev, t, bs, hprograms, hbs⟩ := hx
  exact ⟨programs, entry, next, prev, t, bs ++ [a], hprograms, run_snoc step hbs hstep⟩

theorem reachable_run (hx : Reachable x) (hrun : run step x as = some y) : Reachable y := by
  obtain ⟨programs, entry, next, prev, t, bs, hprograms, hbs⟩ := hx
  exact ⟨programs, entry, next, prev, t, bs ++ as, hprograms,
    (run_append_eq_some step).mpr ⟨x, hbs, hrun⟩⟩

end Results

end Threads
end RunLoop
end CCore
