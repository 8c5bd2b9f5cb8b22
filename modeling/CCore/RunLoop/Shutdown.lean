import CCore.RunLoop.Removal

/-!
# The loop thread comes to an end

`cc_run_loop_delete` sets `stop` and joins the thread, without waking it.  Three things could go
wrong with that: the thread could miss the flag and start another pass; it could go round a pass for
ever, since others may register entries behind its back; and it could leave its loop although nobody
has set the flag, so that the loop is never served again.

None of them happens.  `Protocol` says what `stop`, `is_running` and the thread have to do with each
other.  The thread looks at `stop` between any two passes, so once it is set at most the pass that
is underway is finished, and this costs at most two moves for each entry: `CcRunLoop.ahead` counts
the moves that are left.  A registration can make the pass longer only before its inner loop begins.
Where the thread cannot move any more it has left its loop, and `cc_run_loop_delete` comes through.
-/

namespace CCore
namespace RunLoop
namespace Threads

open CircularLinks Runs

variable {x y z : CcRunLoop} {a : Action} {as : List Action} {delta : UInt64}
  {prog handle : Addr}

/-! ## The invariant -/

/-- Neither the thread nor its flags matter to the links. -/
theorem wellFormed_congr {s s' : Loop} (h : WellFormed s) (hprograms : s'.programs = s.programs)
    (hnext : s'.next = s.next) (hprev : s'.prev = s.prev)
    (hregistered : s'.registered = s.registered)
    (hinterval : ∀ e, (s'.entry e).interval = (s.entry e).interval) : WellFormed s' := by
  refine ⟨?_, ?_, fun e he => ?_⟩
  · rw [hprograms, hnext, hprev, hregistered]
    exact h.ring
  · rw [hprograms, hregistered]
    exact h.null_notMem
  · rw [hinterval]
    exact h.interval_pos e (hregistered ▸ he)

/-- An entry whose countdown is written keeps its interval. -/
theorem interval_update {entry : Addr → RlEntry} {e : RlEntry}
    (he : e.interval = (entry prog).interval) (p : Addr) :
    (Function.update entry prog e p).interval = (entry p).interval := by
  rcases eq_or_ne p prog with rfl | hp
  · rw [Function.update_self, he]
  · rw [Function.update_of_ne hp]

theorem wellFormed_move (h : WellFormed x.loop) (hm : Move x a y) : WellFormed y.loop := by
  cases hm with
  | created => exact h
  | begin | again =>
    rw [whileNotStop]
    split <;> exact h
  | wake =>
    rw [wakeUp]
    split
    · exact h
    · exact wellFormed_congr h rfl rfl rfl rfl fun _ => rfl
  | lock => exact wellFormed_congr h rfl rfl rfl rfl fun _ => rfl
  | visit =>
    rw [visitProg]
    split
    · exact wellFormed_congr h rfl rfl rfl rfl fun _ => rfl
    · dsimp only
      split <;> exact wellFormed_congr h rfl rfl rfl rfl (interval_update rfl)
  | ret => exact wellFormed_congr h rfl rfl rfl rfl (interval_update rfl)
  | register _ _ _ hloop => exact (registered_of_register h hloop).wellFormed
  | unregister _ _ _ hloop => exact (unregistered_of_unregister h hloop).wellFormed
  | delete => exact h
  | join => exact h

/-- **How the thread and `cc_run_loop_delete` stand to each other.** -/
structure Protocol (x : CcRunLoop) : Prop where
  wellFormed : WellFormed x.loop
  creating : x.creating = true → x.place = .starting ∧ x.deleter = .notCalled
  stop : x.stop = true ↔ x.creating = true ∨ x.deleter ≠ .notCalled
  isRunning : x.isRunning = true ↔ x.place ≠ .starting ∧ x.place ≠ .exited
  exited : x.place = .exited → x.deleter ≠ .notCalled
  freed : ∀ addrs, x.deleter = .freed addrs → x.place = .exited ∧
    addrs = x.loop.registered ++ [x.loop.programs - 24]
  interval : x.place.holdsLoops = false → x.loop.interval ≤ maxRloopWait

theorem isFreed_eq_false (h : x.isFreed = false) {addrs : List Addr} :
    x.deleter ≠ .freed addrs := by
  intro hd
  rw [CcRunLoop.isFreed, hd] at h
  exact absurd h (by simp)

/-- The thread moves from one place in its loop to another. -/
theorem Protocol.moves (h : Protocol x) (hwell : WellFormed y.loop)
    (hcreating : y.creating = x.creating) (hstop : y.stop = x.stop)
    (hrunning : y.isRunning = x.isRunning) (hdeleter : y.deleter = x.deleter)
    (hx : x.place ≠ .starting ∧ x.place ≠ .exited) (hy : y.place ≠ .starting ∧ y.place ≠ .exited)
    (hinterval : y.place.holdsLoops = false → y.loop.interval ≤ maxRloopWait) : Protocol y := by
  refine ⟨hwell, fun hc => ?_, ?_, ?_, fun hp => absurd hp hy.2, fun addrs hd => ?_, hinterval⟩
  · exact absurd (h.creating (hcreating ▸ hc)).1 hx.1
  · rw [hstop, hcreating, hdeleter]
    exact h.stop
  · rw [hrunning]
    exact ⟨fun _ => hy, fun _ => h.isRunning.mpr hx⟩
  · exact absurd (h.freed addrs (hdeleter ▸ hd)).1 hx.2

/-- The thread leaves its loop, `stop` being set. -/
theorem Protocol.leaves (h : Protocol x) (hcreating : x.creating = false) (hstop : x.stop = true)
    (hplace : x.place.holdsLoops = false) (hx : x.place ≠ .exited) :
    Protocol { x with place := .exited, isRunning := false } := by
  have hdeleter : x.deleter ≠ .notCalled :=
    (h.stop.mp hstop).resolve_left (by rw [hcreating]; simp)
  refine ⟨h.wellFormed, fun hc => ?_, h.stop, by simp, fun _ => hdeleter, fun addrs hd => ?_,
    fun _ => h.interval hplace⟩
  · exact absurd hc (by simp [hcreating])
  · exact absurd (h.freed addrs hd).1 hx

/-- The thread takes `mt` and looks at `stop`. -/
theorem Protocol.whileNotStop (h : Protocol x) (hcreating : x.creating = false)
    (hplace : x.place.holdsLoops = false) (hx : x.place ≠ .exited) :
    Protocol (whileNotStop { x with isRunning := true }) := by
  rw [Threads.whileNotStop]
  split
  · exact h.leaves hcreating ‹_› hplace hx
  · exact ⟨h.wellFormed, fun hc => absurd hc (by simp [hcreating]), h.stop, by simp, by simp,
      fun addrs hd => absurd (h.freed addrs hd).1 hx, fun _ => h.interval hplace⟩

/-- Only before its first move can the thread find `mt` held for its creation. -/
theorem Protocol.creating_eq_false (h : Protocol x) (hx : x.place ≠ .starting) :
    x.creating = false := by
  by_contra hc
  exact hx (h.creating (Bool.not_eq_false _ ▸ hc)).1

/-- A registration or a removal. -/
theorem Protocol.call (h : Protocol x) {loop : Loop} (hwell : WellFormed loop)
    (hinterval : loop.interval = x.loop.interval) (hfreed : x.isFreed = false) :
    Protocol { x with loop := loop } :=
  ⟨hwell, h.creating, h.stop, h.isRunning, h.exited,
    fun _ hd => absurd hd (isFreed_eq_false hfreed), fun hp => hinterval ▸ h.interval hp⟩

theorem protocol_move (h : Protocol x) (hm : Move x a y) : Protocol y := by
  have hwell := wellFormed_move h.wellFormed hm
  cases hm with
  | created hc =>
    obtain ⟨-, hdeleter⟩ := h.creating hc
    exact ⟨hwell, by simp, by simp [hdeleter], h.isRunning, h.exited, h.freed, h.interval⟩
  | begin hplace hc => exact h.whileNotStop hc (by rw [hplace]; rfl) (by simp [hplace])
  | wake hplace =>
    have hc := h.creating_eq_false (by simp [hplace])
    have hholds : x.place.holdsLoops = false := by rw [hplace]; rfl
    rw [wakeUp] at hwell ⊢
    split
    · exact h.leaves hc ‹_› hholds (by simp [hplace])
    · rw [if_neg ‹_›] at hwell
      exact h.moves hwell rfl rfl rfl rfl (by simp [hplace]) (by simp)
        fun _ => h.interval hholds
  | lock hplace =>
    exact h.moves hwell rfl rfl rfl rfl (by simp [hplace]) (by simp [lockLoops])
      (by simp [lockLoops, Place.holdsLoops])
  | @visit delta prog hplace =>
    have hx : x.place ≠ .starting ∧ x.place ≠ .exited := by simp [hplace]
    by_cases hend : prog = x.loop.programs
    · -- here the interval is cut to `MAX_RLOOP_WAIT`
      rw [visitProg, if_pos hend] at hwell ⊢
      refine h.moves hwell rfl rfl rfl rfl hx (by simp) fun _ => ?_
      dsimp only
      split
      · exact UInt64.le_of_lt ‹_›
      · exact UInt64.le_refl _
    · rw [visitProg, if_neg hend] at hwell ⊢
      dsimp only at hwell ⊢
      split
      · rw [if_pos ‹_›] at hwell
        exact h.moves hwell rfl rfl rfl rfl hx (by simp) (by simp [Place.holdsLoops])
      · rw [if_neg ‹_›] at hwell
        exact h.moves hwell rfl rfl rfl rfl hx (by simp [advance])
          (by simp [advance, Place.holdsLoops])
  | ret hplace =>
    exact h.moves hwell rfl rfl rfl rfl (by simp [hplace]) (by simp [returnMain, advance])
      (by simp [returnMain, advance, Place.holdsLoops])
  | again hplace =>
    have hx : x.place ≠ .starting ∧ x.place ≠ .exited := by simp [hplace]
    have hsame : { x with isRunning := true } = x := by
      rw [← h.isRunning.mpr hx]
    exact hsame ▸ h.whileNotStop (h.creating_eq_false hx.1) (by rw [hplace]; rfl) hx.2
  | register _ _ hfreed hloop =>
    exact h.call hwell (by rw [eq_of_register hloop]) hfreed
  | unregister _ _ hfreed hloop =>
    exact h.call hwell (by rw [eq_of_unregister hloop]) hfreed
  | delete hc hdeleter =>
    exact ⟨hwell, fun h' => absurd h' (by simp [hc]), by simp, h.isRunning, by simp,
      by simp, h.interval⟩
  | join hdeleter hplace haddrs =>
    refine ⟨hwell, fun hc => ?_, ?_, h.isRunning, by simp, fun addrs hd => ?_, h.interval⟩
    · exact absurd (h.creating hc).2 (by simp [hdeleter])
    · rw [h.stop, hdeleter]
      simp
    · obtain rfl := Deleter.freed.inj hd
      rw [ccRunLoopDelete_eq h.wellFormed] at haddrs
      exact ⟨hplace, (Option.some.inj haddrs).symm⟩

theorem protocol_of_reachable (h : Reachable x) : Protocol x := by
  obtain ⟨programs, entry, next, prev, t, as, hprograms, hrun⟩ := h
  refine run_induction (P := Protocol) (fun _ _ _ h hs => protocol_move h (move_of_step hs)) ?_ hrun
  exact ⟨wellFormed_new hprograms, fun _ => ⟨rfl, rfl⟩, by simp [start], by simp [start],
    by simp [start], by simp [start], fun _ => (by decide : (0 : UInt64) ≤ maxRloopWait)⟩

/-! ## The moves that are left -/

/-- The place in the list of the entry that comes after `done`, or of the sentinel. -/
theorem idxOf_headD {s : Loop} (h : WellFormed s) {done rest : List Addr}
    (hs : s.registered = done ++ rest) :
    s.registered.idxOf (rest.headD s.programs) = done.length := by
  cases rest with
  | nil =>
    have hnot : s.programs ∉ s.registered := (List.nodup_cons.mp h.ring.nodup).1
    rw [List.headD_nil, List.idxOf_eq_length_iff.mpr hnot, hs, List.append_nil]
  | cons r rest =>
    have hnodup := (List.nodup_cons.mp h.ring.nodup).2
    rw [hs] at hnodup
    have hnew : r ∉ done := fun hm =>
      (List.nodup_append.mp hnodup).2.2 _ hm _ List.mem_cons_self rfl
    rw [hs, List.headD_cons, List.idxOf_append_of_notMem hnew, List.idxOf_cons_self, add_zero]

theorem idxOf_first {s : Loop} (h : WellFormed s) :
    s.registered.idxOf (s.next s.programs) = 0 := by
  rw [h.ring.next_head]
  exact idxOf_headD h (List.nil_append s.registered).symm

/-- One entry further. -/
theorem idxOf_next {s : Loop} (h : WellFormed s) (hprog : prog ∈ s.registered) :
    s.registered.idxOf (s.next prog) = s.registered.idxOf prog + 1 := by
  obtain ⟨done, rest, hs⟩ := List.append_of_mem hprog
  have hat : s.registered.idxOf prog = done.length := idxOf_headD h hs
  have hnext := idxOf_headD h (hs.trans (List.append_cons ..))
  rw [h.next_mem hs, hat, hnext, List.length_append, List.length_singleton]

/-- The entries of a pass from `prog` on. -/
def CcRunLoop.left (x : CcRunLoop) (prog : Addr) : ℕ :=
  x.loop.registered.length - x.loop.registered.idxOf prog

/-- **The moves that the thread has ahead of it**, at most, when `stop` is set. -/
def CcRunLoop.ahead (x : CcRunLoop) : ℕ :=
  match x.place with
  | .reading _ => 2 * x.loop.registered.length + 3
  | .visiting _ prog => 2 * x.left prog + 2
  | .calling _ prog => 2 * x.left prog + 1
  | .exited => 0
  | .starting => 1
  | .waiting => 1
  | .passed => 1

/-- A call of `cc_run_loop_register`. -/
def Action.isRegister : Action → Bool
  | .register _ _ _ _ _ => true
  | _ => false

theorem ahead_le (x : CcRunLoop) : x.ahead ≤ 2 * x.loop.registered.length + 3 := by
  rw [CcRunLoop.ahead]
  split
  · exact Nat.le_refl _
  · rw [CcRunLoop.left]
    omega
  · rw [CcRunLoop.left]
    omega
  · exact Nat.zero_le _
  all_goals exact Nat.le_add_left 1 (2 * _ + 2)

theorem ahead_whileNotStop (hstop : x.stop = true) : (whileNotStop x).ahead = 0 := by
  rw [whileNotStop, if_pos hstop]
  rfl

/-- The entries of the pass are one fewer after a visit. -/
theorem ahead_visiting_next (h : WellFormed x.loop) (hprog : prog ∈ x.loop.registered)
    (hregistered : y.loop.registered = x.loop.registered)
    (hplace : y.place = .visiting delta (x.loop.next prog)) : y.ahead = 2 * x.left prog := by
  have hlt := List.idxOf_lt_length_of_mem hprog
  rw [CcRunLoop.ahead, hplace]
  simp only [CcRunLoop.left, hregistered, idxOf_next h hprog]
  omega

theorem ahead_wakeUp (hstop : x.stop = true) (newT : UInt64) : (wakeUp x newT).ahead = 0 := by
  rw [wakeUp, if_pos hstop]
  rfl

theorem ahead_lockLoops (h : WellFormed x.loop) (delta : UInt64) :
    (lockLoops x delta).ahead = 2 * x.loop.registered.length + 2 := by
  show 2 * (x.loop.registered.length -
    x.loop.registered.idxOf (x.loop.next x.loop.programs)) + 2 = _
  rw [idxOf_first h, Nat.sub_zero]

theorem ahead_visitProg (h : WellFormed x.loop)
    (hprog : prog = x.loop.programs ∨ prog ∈ x.loop.registered) :
    (visitProg x delta prog).ahead ≤ 2 * x.left prog + 1 := by
  rw [visitProg]
  split
  · exact Nat.le_add_left _ _
  · have hmem := hprog.resolve_left ‹_›
    dsimp only
    split
    · exact Nat.le_refl _
    · have hnext := ahead_visiting_next (y := advance _ delta prog) h hmem rfl rfl
      exact hnext.le.trans (Nat.le_succ _)

/-- Outside the inner loop the entries are counted when the pass is still to come. -/
theorem ahead_call {loop : Loop} (hplace : x.place.holdsLoops = false) {k : ℕ}
    (hlength : loop.registered.length ≤ x.loop.registered.length + k) :
    ({ x with loop := loop } : CcRunLoop).ahead ≤ x.ahead + 2 * k := by
  simp only [CcRunLoop.ahead]
  cases hp : x.place with
  | visiting | calling => exact absurd hplace (by simp [hp, Place.holdsLoops])
  | reading =>
    dsimp only
    omega
  | _ => exact Nat.le_add_right _ _

/-- **Every move of the thread is paid for**, and only a registration can add to what is left. -/
theorem ahead_move (hx : Reachable x) (hstop : x.stop = true) (hdeleter : x.deleter ≠ .notCalled)
    (hm : Move x a y) :
    y.ahead + (if a.ofThread then 1 else 0) ≤ x.ahead + if a.isRegister then 2 else 0 := by
  have hp := protocol_of_reachable hx
  cases hm with
  | created hc => exact absurd (hp.creating hc).2 hdeleter
  | begin hplace =>
    have hahead : x.ahead = 1 := by rw [CcRunLoop.ahead, hplace]
    have hy := ahead_whileNotStop (x := { x with isRunning := true }) hstop
    exact (Nat.add_le_add_right hy.le 1).trans hahead.ge
  | @wake newT hplace =>
    have hahead : x.ahead = 1 := by rw [CcRunLoop.ahead, hplace]
    exact (Nat.add_le_add_right (ahead_wakeUp hstop newT).le 1).trans hahead.ge
  | lock hplace =>
    have hahead : x.ahead = 2 * x.loop.registered.length + 3 := by rw [CcRunLoop.ahead, hplace]
    exact (Nat.add_le_add_right (ahead_lockLoops hp.wellFormed _).le 1).trans hahead.ge
  | @visit delta prog hplace =>
    have hahead : x.ahead = 2 * x.left prog + 2 := by rw [CcRunLoop.ahead, hplace]
    have hy : (visitProg x delta prog).ahead ≤ 2 * x.left prog + 1 :=
      ahead_visitProg hp.wellFormed (mem_registered_of_visiting hx hplace)
    exact (Nat.add_le_add_right hy 1).trans hahead.ge
  | @ret delta prog hplace =>
    have hahead : x.ahead = 2 * x.left prog + 1 := by rw [CcRunLoop.ahead, hplace]
    have hy := ahead_visiting_next (y := returnMain x delta prog) hp.wellFormed
      (mem_registered_of_calling hx hplace) rfl rfl
    exact (Nat.add_le_add_right hy.le 1).trans hahead.ge
  | again hplace =>
    have hahead : x.ahead = 1 := by rw [CcRunLoop.ahead, hplace]
    exact (Nat.add_le_add_right (ahead_whileNotStop hstop).le 1).trans hahead.ge
  | register hplace _ _ hloop =>
    refine ahead_call (k := 1) hplace ?_
    rw [(registered_of_register hp.wellFormed hloop).registered, List.length_append]
    rfl
  | unregister hplace _ _ hloop =>
    refine ahead_call (k := 0) hplace ?_
    rw [(unregistered_of_unregister hp.wellFormed hloop).registered]
    exact List.length_erase_le
  | delete _ hd => exact absurd hd hdeleter
  | join => exact Nat.le_refl _

/-! ## The calls that are left -/

/-- The calls of `main` of `handle` that the thread may still make, when `stop` is set: one, if
the pass has not come to the entry. -/
def CcRunLoop.callsLeft (x : CcRunLoop) (handle : Addr) : ℕ :=
  match x.place with
  | .reading _ => 1
  | .visiting _ prog =>
    if x.loop.registered.idxOf prog ≤ x.loop.registered.idxOf handle then 1 else 0
  | .calling _ prog =>
    if x.loop.registered.idxOf prog < x.loop.registered.idxOf handle then 1 else 0
  | _ => 0

theorem callsLeft_le_one (x : CcRunLoop) (handle : Addr) : x.callsLeft handle ≤ 1 := by
  rw [CcRunLoop.callsLeft]
  split
  · exact Nat.le_refl _
  · split <;> simp
  · split <;> simp
  · exact Nat.zero_le _

theorem callsLeft_whileNotStop (hstop : x.stop = true) : (whileNotStop x).callsLeft handle = 0 := by
  rw [whileNotStop, if_pos hstop]
  rfl

/-- The entry after `prog` is the next one that may be called. -/
theorem callsLeft_visiting_next (h : WellFormed x.loop) (hprog : prog ∈ x.loop.registered)
    (hregistered : y.loop.registered = x.loop.registered)
    (hplace : y.place = .visiting delta (x.loop.next prog)) : y.callsLeft handle =
      if x.loop.registered.idxOf prog < x.loop.registered.idxOf handle then 1 else 0 := by
  rw [CcRunLoop.callsLeft, hplace]
  simp only [hregistered, idxOf_next h hprog, Nat.succ_le_iff]

/-- An entry that comes later has not been passed. -/
theorem one_of_lt_le_one_of_le (i j : ℕ) :
    (if i < j then 1 else 0) ≤ if i ≤ j then 1 else 0 := by
  split
  · rw [if_pos (Nat.le_of_lt ‹_›)]
  · exact Nat.zero_le _

/-- A visit makes one of the calls that are left, or none. -/
theorem calls_visitProg (h : WellFormed x.loop)
    (hprog : prog = x.loop.programs ∨ prog ∈ x.loop.registered)
    (hplace : x.place = .visiting delta prog) :
    (visitProg x delta prog).loop.callsOf handle + (visitProg x delta prog).callsLeft handle ≤
      x.loop.callsOf handle + x.callsLeft handle := by
  have hleft : x.callsLeft handle =
      if x.loop.registered.idxOf prog ≤ x.loop.registered.idxOf handle then 1 else 0 := by
    rw [CcRunLoop.callsLeft, hplace]
  rw [hleft, visitProg]
  split
  · exact Nat.le_add_right _ _
  · have hmem := hprog.resolve_left ‹_›
    dsimp only
    split
    · -- the call that is made is that of `prog`, and it is not made again
      rw [Loop.callsOf, Loop.callsOf, List.countP_append, List.countP_append, List.countP_singleton,
        List.countP_singleton]
      simp only [Event.isCallOf, Bool.false_eq_true, if_false, CcRunLoop.callsLeft,
        decide_eq_true_eq]
      rcases eq_or_ne prog handle with rfl | hne
      · simp
      · rw [if_neg hne, add_zero, add_zero]
        exact Nat.add_le_add_left (one_of_lt_le_one_of_le _ _) _
    · have hnext : (advance _ delta prog).callsLeft handle = _ :=
        callsLeft_visiting_next h hmem rfl rfl
      have hcalls : (x.loop.events ++ [Event.visit prog]).countP (Event.isCallOf handle) =
          x.loop.callsOf handle := List.countP_append
      exact Nat.add_le_add hcalls.le (hnext.le.trans (one_of_lt_le_one_of_le _ _))

/-- Outside the inner loop it does not matter what is registered. -/
theorem callsLeft_call {loop : Loop} (hplace : x.place.holdsLoops = false) :
    ({ x with loop := loop } : CcRunLoop).callsLeft handle = x.callsLeft handle := by
  simp only [CcRunLoop.callsLeft]
  cases hp : x.place with
  | visiting | calling => exact absurd hplace (by simp [hp, Place.holdsLoops])
  | _ => rfl

/-- **Every call is one that was left.** -/
theorem calls_move (hx : Reachable x) (hstop : x.stop = true) (hdeleter : x.deleter ≠ .notCalled)
    (hm : Move x a y) :
    y.loop.callsOf handle + y.callsLeft handle ≤ x.loop.callsOf handle + x.callsLeft handle := by
  have hp := protocol_of_reachable hx
  cases hm with
  | created hc => exact absurd (hp.creating hc).2 hdeleter
  | begin hplace =>
    have hy : (whileNotStop { x with isRunning := true }).callsLeft handle = 0 :=
      callsLeft_whileNotStop hstop
    rw [hy, whileNotStop, if_pos hstop]
    exact Nat.le_add_right _ _
  | wake hplace =>
    rw [wakeUp, if_pos hstop]
    exact Nat.le_add_right _ _
  | lock hplace =>
    have hleft : x.callsLeft handle = 1 := by rw [CcRunLoop.callsLeft, hplace]
    rw [hleft]
    exact Nat.add_le_add_left (callsLeft_le_one _ _) _
  | visit hplace =>
    exact calls_visitProg hp.wellFormed (mem_registered_of_visiting hx hplace) hplace
  | @ret delta prog hplace =>
    have hleft : x.callsLeft handle =
        if x.loop.registered.idxOf prog < x.loop.registered.idxOf handle then 1 else 0 := by
      rw [CcRunLoop.callsLeft, hplace]
    have hright : (returnMain x delta prog).callsLeft handle = _ :=
      callsLeft_visiting_next hp.wellFormed (mem_registered_of_calling hx hplace) rfl rfl
    rw [hleft, hright]
    exact Nat.le_refl _
  | again hplace =>
    rw [callsLeft_whileNotStop hstop, whileNotStop, if_pos hstop]
    exact Nat.le_add_right _ _
  | register hplace _ _ hloop =>
    rw [callsOf_of_register hloop]
    exact Nat.add_le_add_left (callsLeft_call hplace).le _
  | unregister hplace _ _ hloop =>
    rw [callsOf_of_unregister hloop]
    exact Nat.add_le_add_left (callsLeft_call hplace).le _
  | delete _ hd => exact absurd hd hdeleter
  | join => exact Nat.le_refl _

/-! ## Deletion -/

/-- A run loop that is being deleted. -/
def Deleting (x : CcRunLoop) : Prop := Reachable x ∧ x.deleter ≠ .notCalled

theorem Deleting.stop (h : Deleting x) : x.stop = true :=
  (protocol_of_reachable h.1).stop.mpr (.inr h.2)

/-- A deletion is not taken back. -/
theorem deleting_step (h : Deleting x) (hstep : step x a = some y) : Deleting y := by
  refine ⟨reachable_step h.1 hstep, ?_⟩
  cases move_of_step hstep with
  | begin | again =>
    rw [whileNotStop]
    split <;> exact h.2
  | wake =>
    rw [wakeUp]
    split <;> exact h.2
  | visit =>
    rw [visitProg]
    split
    · exact h.2
    · dsimp only
      split <;> exact h.2
  | delete => exact Deleter.noConfusion
  | join => exact Deleter.noConfusion
  | created | lock | ret | register | unregister => exact h.2

/-- What the thread and `cc_run_loop_delete` do by themselves. -/
def Action.finishes (a : Action) : Prop := a.ofThread = true ∨ a = .join

/-- **Where neither can move, the loop has been freed.** -/
theorem Deleting.freed (h : Deleting x) (hstuck : Stuck step Action.finishes x) :
    x.deleter = .freed (x.loop.registered ++ [x.loop.programs - 24]) := by
  have hp := protocol_of_reachable h.1
  have hnot : ∀ {a y}, a.finishes → ¬ Move x a y := fun ha hm =>
    Option.some_ne_none _ ((step_of_move hm).symm.trans (hstuck _ ha))
  have hcreating : x.creating = false := by
    by_contra hc
    exact h.2 (hp.creating (Bool.not_eq_false _ ▸ hc)).2
  have hplace : x.place = .exited := by
    cases hx : x.place with
    | starting => exact (hnot (.inl rfl) (Move.begin hx hcreating)).elim
    | waiting => exact (hnot (.inl rfl) (@Move.wake x 0 hx)).elim
    | reading => exact (hnot (.inl rfl) (Move.lock hx)).elim
    | visiting => exact (hnot (.inl rfl) (Move.visit hx)).elim
    | calling => exact (hnot (.inl rfl) (Move.ret hx)).elim
    | passed => exact (hnot (.inl rfl) (Move.again hx)).elim
    | exited => rfl
  cases hd : x.deleter with
  | notCalled => exact absurd hd h.2
  | joining => exact (hnot (.inr rfl) (Move.join hd hplace (ccRunLoopDelete_eq hp.wellFormed))).elim
  | freed addrs => rw [(hp.freed addrs hd).2]

/-- **`cc_run_loop_delete` returns.**  When it has set `stop`, then in every continuation, whatever
others register and remove meanwhile: the moves that the thread still makes are bounded by the
number of entries; no `main` is called more than once; the thread does not sleep for more than
`MAX_RLOOP_WAIT`; and where neither the thread nor the deletion can move any more, the entries that
were registered last, and nothing else, have been freed, and then the loop. -/
theorem cc_run_loop_delete_returns (hx : Reachable x) (hdelete : step x .delete = some y)
    (hrun : run step y as = some z) :
    as.countP Action.ofThread ≤
      2 * x.loop.registered.length + 3 + 2 * as.countP Action.isRegister ∧
    (∀ handle, z.loop.callsOf handle ≤ x.loop.callsOf handle + 1) ∧
    (z.place = .waiting → z.loop.interval ≤ maxRloopWait) ∧
    (Stuck step Action.finishes z → z.loop.registered.Nodup ∧
      z.deleter = .freed (z.loop.registered ++ [z.loop.programs - 24])) := by
  have hy : Deleting y ∧ y.loop = x.loop := by
    refine ⟨⟨reachable_step hx hdelete, ?_⟩, ?_⟩
    all_goals cases move_of_step hdelete with
    | delete => simp
  obtain ⟨hy, hloop⟩ := hy
  have hkeep : ∀ s a t, Deleting s → step s a = some t → Deleting t :=
    fun _ _ _ => deleting_step
  have hz : Deleting z := run_induction hkeep hy hrun
  have hmoves := run_potential_countP (V := CcRunLoop.ahead) (p := Action.ofThread)
    (q := Action.isRegister) hkeep
    (fun _ _ _ hs ht => ahead_move hs.1 hs.stop hs.2 (move_of_step ht)) hy hrun
  have hahead : y.ahead ≤ 2 * x.loop.registered.length + 3 := hloop ▸ ahead_le y
  have hp := protocol_of_reachable hz.1
  refine ⟨by omega, fun handle => ?_, fun hplace => hp.interval (by rw [hplace]; rfl),
    fun hstuck => ⟨(List.nodup_cons.mp hp.wellFormed.ring.nodup).2, hz.freed hstuck⟩⟩
  have hcalls := run_induction (P := fun w => Deleting w ∧
      w.loop.callsOf handle + w.callsLeft handle ≤ x.loop.callsOf handle + 1)
    (fun s a t hs ht => ⟨deleting_step hs.1 ht,
      (calls_move hs.1.1 hs.1.stop hs.1.2 (move_of_step ht)).trans hs.2⟩)
    ⟨hy, hloop ▸ Nat.add_le_add_left (callsLeft_le_one y handle) _⟩ hrun
  exact (Nat.le_add_right _ _).trans hcalls.2

/-- The loop is deleted when the thread has read the time for a pass, and the pass begins. -/
theorem cc_run_loop_delete_returns_reading : ∃ x y z, Reachable x ∧ step x .delete = some y ∧
    run step y [.lock] = some z ∧ z.loop.callsOf 2000 ≤ x.loop.callsOf 2000 + 1 := by
  obtain ⟨w, hw, hplace, hstop, hcreating, hdeleter, -⟩ := exists_sleeping
  have hwake : step w (.wake 9) = some { w with
      loop := { w.loop with t := 9 }, place := .reading (9 - w.loop.t) } := by
    rw [step, if_pos hplace, wakeUp, hstop, if_neg (by simp)]
  have hx := reachable_step hw hwake
  have hdelete := step_of_move (Move.delete (x := { w with
    loop := { w.loop with t := 9 }, place := .reading (9 - w.loop.t) }) hcreating hdeleter hstop)
  have hlock := step_of_move (Move.lock (x := { w with
    loop := { w.loop with t := 9 }, place := .reading (9 - w.loop.t), stop := true,
    deleter := .joining }) rfl)
  have hrun := (run_cons_eq_some step).mpr ⟨_, hlock, run_nil step _⟩
  exact ⟨_, _, _, hx, hdelete, hrun, (cc_run_loop_delete_returns hx hdelete hrun).2.1 2000⟩

end Threads
end RunLoop
end CCore
