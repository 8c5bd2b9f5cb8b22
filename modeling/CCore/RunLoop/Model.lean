import CCore.Base
import CCore.Library.CircularLinks
import CCore.Library.Runs
import Mathlib.Data.Rat.Floor

/-!
# The run loop, one locked region at a time

`run_loop.c` keeps the registered programs in a circular list around a sentinel,
`programs`, that is itself an entry of the loop.  One thread runs `loop_thread`;
any thread may register or unregister.  All of them touch the list under
`loops_mt`, so a registration, a removal and one pass of the inner loop are the
steps, and a run is any order of them.

## Time

The loop thread sleeps until a deadline, but it may wake up at any time: earlier,
because the condition variable was signalled or for no reason, or later.  So the
time `new_t` that it reads then is a choice of the environment, and `delta` is
whatever the subtraction gives.

## The countdown

`acc` is a `uint64_t` and `interval` an `int64_t`.  The subtraction wraps, the test
`acc <= 0` is the one between unsigned numbers, and the addition converts
`interval` to the unsigned type.  All three are written below as in the source.

## What is history

`events` and `registered` are read by no function of the source: which entries a
pass visited and whose `main` it called, and which handles are registered, in the
order of their registration.  The second is also what the fuel of the inner loop
is taken from; `pass_eq` shows that it is enough.
-/

namespace CCore
namespace RunLoop

open CircularLinks

/-- `rl_entry_t`, without its links.  A function pointer and a data pointer are
known by their addresses. -/
structure RlEntry where
  main : Addr
  data : Addr
  acc : UInt64
  interval : Int64
  deriving DecidableEq

/-- What a pass does that can be seen from outside. -/
inductive Event where
  /-- the inner loop comes to an entry -/
  | visit (prog : Addr)
  /-- `prog->main(new_t, prog->data)` -/
  | call (prog main : Addr) (newT : UInt64) (data : Addr)
  deriving DecidableEq

/-- `cc_run_loop_t` as far as its locked regions use it, the entries by their
addresses, and the two local variables that `loop_thread` carries from one pass to
the next, `t` and `interval`. -/
structure Loop where
  programs : Addr
  entry : Addr → RlEntry
  next : Addr → Addr
  prev : Addr → Addr
  t : UInt64
  interval : UInt64
  events : List Event
  registered : List Addr

/-- `MAX_RLOOP_WAIT`, in microseconds. -/
def maxRloopWait : UInt64 := 1000000

/-- `cc_run_loop_new`, with the loop thread at its first wait.  `entry`, `next` and
`prev` are what the memory holds; the sentinel lies at `programs`, and only its links
are written. -/
def ccRunLoopNew (programs : Addr) (entry : Addr → RlEntry) (next prev : Addr → Addr)
    (t : UInt64) : Loop where
  programs := programs
  entry := entry
  next := Function.update next programs programs
  prev := Function.update prev programs programs
  t := t
  interval := 0
  events := []
  registered := []

/-! ## One pass -/

/-- The body of the inner loop of `loop_thread`. -/
def visit (newT delta : UInt64) (s : Loop) (prog : Addr) : Loop :=
  let e := s.entry prog
  let e := { e with acc := e.acc - delta }
  let called := e.acc ≤ 0
  let events := if called then [.call prog e.main newT e.data] else []
  let e := if called then { e with acc := e.acc + e.interval.toUInt64 } else e
  { s with
    entry := Function.update s.entry prog e
    interval := if e.acc < s.interval then e.acc else s.interval
    events := s.events ++ .visit prog :: events }

/-- One turn of the outer loop of `loop_thread`, from the return of
`cond_wait_until` to the next one: the time is read, and the inner loop runs with
`loops_mt` held. -/
def pass (s : Loop) (newT : UInt64) : Option Loop :=
  let delta := newT - s.t
  let s := { s with t := newT, interval := 18446744073709551615 }
  (forTo Loop.next (visit newT delta) s.programs s.registered.length s (s.next s.programs)).map
    fun s => { s with
      interval := if s.interval < maxRloopWait then s.interval else maxRloopWait }

/-! ## Registration -/

/-- `1e6 / freq`, converted to `int64_t`.  The conversion drops the fraction, and is
undefined outside the type. -/
def period (freq : ℚ) : Option Int64 :=
  let truncated : ℤ := ⌊1000000 / freq⌋
  if truncated < 2 ^ 63 then some (Int64.ofInt truncated) else none

/-- `cc_run_loop_register`.  `entry` is the address that `cc_alloc` returns, which is
in no use then, and `rand` is the value of `rand()`.  A division by zero ends the
program. -/
def ccRunLoopRegister (s : Loop) (entry ticker : Addr) (freq : ℚ) (data : Addr) (rand : ℕ) :
    Option Loop :=
  ccassert (ticker ≠ null) <|
  ccassert (0 < freq) <|
  if entry = null ∨ entry = s.programs ∨ entry ∈ s.registered then none
  else
    (period freq).bind fun interval =>
      if interval = 0 then none
      else
        let acc := UInt64.ofInt (rand % interval.toInt)
        let prev := Function.update s.prev entry (s.prev s.programs)
        let next := Function.update s.next entry s.programs
        let prev := Function.update prev (next entry) entry
        let next := Function.update next (prev entry) entry
        some { s with
          entry := Function.update s.entry entry ⟨ticker, data, acc, interval⟩
          prev := prev
          next := next
          registered := s.registered ++ [entry] }

/-- `cc_run_loop_unregister`, of a handle that is registered. -/
def ccRunLoopUnregister (s : Loop) (handle : Addr) : Option Loop :=
  ccassert (handle ≠ null) <|
  ccassert (s.next handle ≠ null ∨ s.prev handle ≠ null) <|
  if handle ∉ s.registered then none
  else
    let next := Function.update s.next (s.prev handle) (s.next handle)
    let prev := Function.update s.prev (next handle) (s.prev handle)
    let next := Function.update next handle null
    let prev := Function.update prev handle null
    some { s with next := next, prev := prev, registered := s.registered.erase handle }

/-! ## Steps and runs -/

/-- The locked regions. -/
inductive Action where
  | pass (newT : UInt64)
  | register (entry ticker : Addr) (freq : ℚ) (data : Addr) (rand : ℕ)
  | unregister (handle : Addr)
  deriving DecidableEq

/-- One locked region of some thread. -/
def step (s : Loop) : Action → Option Loop
  | .pass newT => pass s newT
  | .register entry ticker freq data rand => ccRunLoopRegister s entry ticker freq data rand
  | .unregister handle => ccRunLoopUnregister s handle

/-- The states of a run loop, after any locked regions in any order. -/
def Reachable (s : Loop) : Prop :=
  ∃ programs entry next prev t as, programs ≠ null ∧
    Runs.run step (ccRunLoopNew programs entry next prev t) as = some s

end RunLoop
end CCore
