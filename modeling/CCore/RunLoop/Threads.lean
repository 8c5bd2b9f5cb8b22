import CCore.RunLoop.Passes

/-!
# The threads of a run loop

In `Model` a pass is one step.  In `loop_thread` it is many: the time is read under `mt`, the inner
loop runs under `loops_mt`, and in the middle of it `prog->main` runs for as long as it likes.  Here
each of these is a move, and the callers of `cc_run_loop_register`, `cc_run_loop_unregister` and
`cc_run_loop_delete` move in between wherever the mutexes let them.

## The mutexes

The regions under `mt` are short, so each of them is one move.  `loops_mt` is held by the loop
thread from the first entry of a pass to the last one, also while a `main` runs, and a registration
or a removal waits as long as it is (`Place.holdsLoops`).

## What goes on around a pass

`cc_run_loop_new` holds `mt` while it creates the thread, and lets it go with `stop` set to false.
`cc_run_loop_delete` sets `stop`, joins the thread and frees the entries and the loop.  It does not
wake the thread, which sleeps until its deadline, or until something else wakes it.  When the loop
has been freed nobody may use it any more.
-/

namespace CCore
namespace RunLoop
namespace Threads

open Runs

/-- Where the loop thread stands. -/
inductive Place where
  /-- about to take `mt` for the first time -/
  | starting
  /-- in `cond_wait_until`, with `stop` found false before -/
  | waiting
  /-- past the test of `stop` and the reading of the time, `mt` given up, about to take
  `loops_mt` -/
  | reading (delta : UInt64)
  /-- at the head of the inner loop -/
  | visiting (delta : UInt64) (prog : Addr)
  /-- inside `prog->main(new_t, prog->data)` -/
  | calling (delta : UInt64) (prog : Addr)
  /-- past the inner loop, `loops_mt` given up, about to take `mt` -/
  | passed
  /-- out of its loop -/
  | exited
  deriving DecidableEq

/-- The loop thread holds `loops_mt`. -/
def Place.holdsLoops : Place → Bool
  | .visiting _ _ => true
  | .calling _ _ => true
  | _ => false

/-- How far `cc_run_loop_delete` has come. -/
inductive Deleter where
  | notCalled
  /-- `stop` is set, and the thread has not been joined -/
  | joining
  /-- everything is freed, at these addresses in this order -/
  | freed (addrs : List Addr)
  deriving DecidableEq

/-- `cc_run_loop_t`, its thread, and the calls of `cc_run_loop_new` and `cc_run_loop_delete`. -/
structure CcRunLoop where
  loop : Loop
  place : Place
  /-- `cc_run_loop_new` has created the thread and holds `mt` -/
  creating : Bool
  stop : Bool
  isRunning : Bool
  deleter : Deleter

/-- `cc_run_loop_new`, up to the creation of the thread. -/
def start (programs : Addr) (entry : Addr → RlEntry) (next prev : Addr → Addr) (t : UInt64) :
    CcRunLoop where
  loop := ccRunLoopNew programs entry next prev t
  place := .starting
  creating := true
  stop := true
  isRunning := false
  deleter := .notCalled

/-! ## The loop thread -/

/-- The head of the outer loop: `while(!rl->stop)`, with `mt` held. -/
def whileNotStop (x : CcRunLoop) : CcRunLoop :=
  if x.stop then { x with place := .exited, isRunning := false }
  else { x with place := .waiting }

/-- The thread comes out of `cond_wait_until`: `if(rl->stop) break;`, and the time is read. -/
def wakeUp (x : CcRunLoop) (newT : UInt64) : CcRunLoop :=
  if x.stop then { x with place := .exited, isRunning := false }
  else { x with loop := { x.loop with t := newT }, place := .reading (newT - x.loop.t) }

/-- `loops_mt` is taken, and the inner loop begins. -/
def lockLoops (x : CcRunLoop) (delta : UInt64) : CcRunLoop :=
  { x with
    loop := { x.loop with interval := 18446744073709551615 }
    place := .visiting delta (x.loop.next x.loop.programs) }

/-- `if(prog->acc < interval) interval = prog->acc;` and `prog = prog->next`. -/
def advance (x : CcRunLoop) (delta : UInt64) (prog : Addr) : CcRunLoop :=
  let acc := (x.loop.entry prog).acc
  { x with
    loop := { x.loop with interval := if acc < x.loop.interval then acc else x.loop.interval }
    place := .visiting delta (x.loop.next prog) }

/-- The inner loop at `prog`, up to the call if there is one.  At the sentinel `loops_mt` is given
up. -/
def visitProg (x : CcRunLoop) (delta : UInt64) (prog : Addr) : CcRunLoop :=
  if prog = x.loop.programs then
    { x with
      loop := { x.loop with
        interval := if x.loop.interval < maxRloopWait then x.loop.interval else maxRloopWait }
      place := .passed }
  else
    let e := x.loop.entry prog
    let e := { e with acc := e.acc - delta }
    let x := { x with loop := { x.loop with
      entry := Function.update x.loop.entry prog e
      events := x.loop.events ++ [.visit prog] } }
    if e.acc ≤ 0 then
      { x with
        loop := { x.loop with events := x.loop.events ++ [.call prog e.main x.loop.t e.data] }
        place := .calling delta prog }
    else advance x delta prog

/-- `prog->main` returns, and `prog->acc += prog->interval`. -/
def returnMain (x : CcRunLoop) (delta : UInt64) (prog : Addr) : CcRunLoop :=
  let e := x.loop.entry prog
  let e := { e with acc := e.acc + e.interval.toUInt64 }
  advance { x with loop := { x.loop with entry := Function.update x.loop.entry prog e } } delta prog

/-! ## The steps -/

/-- One move. -/
inductive Action where
  /-- `cc_run_loop_new` sets `stop` to false and gives up `mt` -/
  | created
  /-- the loop thread takes `mt` for the first time -/
  | begin
  /-- the loop thread wakes up, at its deadline or at any other time, and reads `new_t` -/
  | wake (newT : UInt64)
  /-- the loop thread takes `loops_mt` -/
  | lock
  /-- the loop thread goes on in the inner loop -/
  | visit
  /-- the `main` that the loop thread has called returns -/
  | ret
  /-- the loop thread takes `mt` again, and broadcasts `cv` -/
  | again
  | register (entry ticker : Addr) (freq : ℚ) (data : Addr) (rand : ℕ)
  | unregister (handle : Addr)
  /-- `cc_run_loop_delete`, up to the join -/
  | delete
  /-- `pthread_join` returns, and `cc_run_loop_delete` frees what there is -/
  | join
  deriving DecidableEq

/-- The moves of the loop thread. -/
def Action.ofThread : Action → Bool
  | .begin | .wake _ | .lock | .visit | .ret | .again => true
  | _ => false

/-- The loop has been freed. -/
def CcRunLoop.isFreed (x : CcRunLoop) : Bool :=
  match x.deleter with
  | .freed _ => true
  | _ => false

/-- **One step.** -/
def step (x : CcRunLoop) : Action → Option CcRunLoop
  | .created => if x.creating then some { x with creating := false, stop := false } else none
  | .begin =>
    if x.place = .starting ∧ x.creating = false then
      some (whileNotStop { x with isRunning := true })
    else none
  | .wake newT => if x.place = .waiting then some (wakeUp x newT) else none
  | .lock =>
    match x.place with
    | .reading delta => some (lockLoops x delta)
    | _ => none
  | .visit =>
    match x.place with
    | .visiting delta prog => some (visitProg x delta prog)
    | _ => none
  | .ret =>
    match x.place with
    | .calling delta prog => some (returnMain x delta prog)
    | _ => none
  | .again => if x.place = .passed then some (whileNotStop x) else none
  | .register entry ticker freq data rand =>
    if x.place.holdsLoops ∨ x.creating ∨ x.isFreed then none
    else
      (ccRunLoopRegister x.loop entry ticker freq data rand).map fun loop =>
        { x with loop := loop }
  | .unregister handle =>
    if x.place.holdsLoops ∨ x.creating ∨ x.isFreed then none
    else (ccRunLoopUnregister x.loop handle).map fun loop => { x with loop := loop }
  | .delete =>
    if x.creating ∨ x.deleter ≠ .notCalled then none
    else ccassert (x.stop = false) <| some { x with stop := true, deleter := .joining }
  | .join =>
    if x.deleter = .joining ∧ x.place = .exited then
      (ccRunLoopDelete x.loop).map fun addrs => { x with deleter := .freed addrs }
    else none

/-- What a step can be. -/
inductive Move (x : CcRunLoop) : Action → CcRunLoop → Prop
  | created (hcreating : x.creating = true) :
    Move x .created { x with creating := false, stop := false }
  | begin (hplace : x.place = .starting) (hcreating : x.creating = false) :
    Move x .begin (whileNotStop { x with isRunning := true })
  | wake {newT : UInt64} (hplace : x.place = .waiting) : Move x (.wake newT) (wakeUp x newT)
  | lock {delta : UInt64} (hplace : x.place = .reading delta) : Move x .lock (lockLoops x delta)
  | visit {delta : UInt64} {prog : Addr} (hplace : x.place = .visiting delta prog) :
    Move x .visit (visitProg x delta prog)
  | ret {delta : UInt64} {prog : Addr} (hplace : x.place = .calling delta prog) :
    Move x .ret (returnMain x delta prog)
  | again (hplace : x.place = .passed) : Move x .again (whileNotStop x)
  | register {entry ticker data : Addr} {freq : ℚ} {rand : ℕ} {loop : Loop}
    (hplace : x.place.holdsLoops = false) (hcreating : x.creating = false)
    (hfreed : x.isFreed = false)
    (hloop : ccRunLoopRegister x.loop entry ticker freq data rand = some loop) :
    Move x (.register entry ticker freq data rand) { x with loop := loop }
  | unregister {handle : Addr} {loop : Loop} (hplace : x.place.holdsLoops = false)
    (hcreating : x.creating = false) (hfreed : x.isFreed = false)
    (hloop : ccRunLoopUnregister x.loop handle = some loop) :
    Move x (.unregister handle) { x with loop := loop }
  | delete (hcreating : x.creating = false) (hdeleter : x.deleter = .notCalled)
    (hstop : x.stop = false) : Move x .delete { x with stop := true, deleter := .joining }
  | join {addrs : List Addr} (hdeleter : x.deleter = .joining) (hplace : x.place = .exited)
    (haddrs : ccRunLoopDelete x.loop = some addrs) :
    Move x .join { x with deleter := .freed addrs }

theorem move_of_step {x y : CcRunLoop} {a : Action} (h : step x a = some y) : Move x a y := by
  cases a with
  | created =>
    obtain ⟨hcreating, h⟩ := Option.ite_none_right_eq_some.mp h
    obtain rfl := Option.some.inj h
    exact .created hcreating
  | begin =>
    obtain ⟨⟨hplace, hcreating⟩, h⟩ := Option.ite_none_right_eq_some.mp h
    obtain rfl := Option.some.inj h
    exact .begin hplace hcreating
  | wake newT =>
    obtain ⟨hplace, h⟩ := Option.ite_none_right_eq_some.mp h
    obtain rfl := Option.some.inj h
    exact .wake hplace
  | lock =>
    rw [step] at h
    split at h
    · obtain rfl := Option.some.inj h
      exact .lock ‹_›
    · exact absurd h (by simp)
  | visit =>
    rw [step] at h
    split at h
    · obtain rfl := Option.some.inj h
      exact .visit ‹_›
    · exact absurd h (by simp)
  | ret =>
    rw [step] at h
    split at h
    · obtain rfl := Option.some.inj h
      exact .ret ‹_›
    · exact absurd h (by simp)
  | again =>
    obtain ⟨hplace, h⟩ := Option.ite_none_right_eq_some.mp h
    obtain rfl := Option.some.inj h
    exact .again hplace
  | register entry ticker freq data rand =>
    obtain ⟨hfree, h⟩ := Option.ite_none_left_eq_some.mp h
    obtain ⟨loop, hloop, rfl⟩ := Option.map_eq_some_iff.mp h
    simp only [not_or, Bool.not_eq_true] at hfree
    exact .register hfree.1 hfree.2.1 hfree.2.2 hloop
  | unregister handle =>
    obtain ⟨hfree, h⟩ := Option.ite_none_left_eq_some.mp h
    obtain ⟨loop, hloop, rfl⟩ := Option.map_eq_some_iff.mp h
    simp only [not_or, Bool.not_eq_true] at hfree
    exact .unregister hfree.1 hfree.2.1 hfree.2.2 hloop
  | delete =>
    obtain ⟨hfree, h⟩ := Option.ite_none_left_eq_some.mp h
    obtain ⟨hstop, h⟩ := ccassert_eq_some.mp h
    obtain rfl := Option.some.inj h
    simp only [not_or, Bool.not_eq_true, not_not] at hfree
    exact .delete hfree.1 hfree.2 hstop
  | join =>
    obtain ⟨⟨hdeleter, hplace⟩, h⟩ := Option.ite_none_right_eq_some.mp h
    obtain ⟨addrs, haddrs, rfl⟩ := Option.map_eq_some_iff.mp h
    exact .join hdeleter hplace haddrs

theorem step_of_move {x y : CcRunLoop} {a : Action} (h : Move x a y) : step x a = some y := by
  cases h with
  | created hcreating => rw [step, if_pos hcreating]
  | begin hplace hcreating => rw [step, if_pos ⟨hplace, hcreating⟩]
  | wake hplace => rw [step, if_pos hplace]
  | lock hplace => rw [step, hplace]
  | visit hplace => rw [step, hplace]
  | ret hplace => rw [step, hplace]
  | again hplace => rw [step, if_pos hplace]
  | register hplace hcreating hfreed hloop =>
    rw [step, hplace, hcreating, hfreed, if_neg (by simp), hloop, Option.map_some]
  | unregister hplace hcreating hfreed hloop =>
    rw [step, hplace, hcreating, hfreed, if_neg (by simp), hloop, Option.map_some]
  | delete hcreating hdeleter hstop =>
    rw [step, hcreating, hdeleter, if_neg (by simp), ccassert_pos hstop]
  | join hdeleter hplace haddrs =>
    rw [step, if_pos ⟨hdeleter, hplace⟩, haddrs, Option.map_some]

/-- The states that some interleaving reaches. -/
def Reachable (x : CcRunLoop) : Prop :=
  ∃ programs entry next prev t as, programs ≠ null ∧
    run step (start programs entry next prev t) as = some x

end Threads
end RunLoop
end CCore
