import CCore.Log.Model
import Mathlib.Logic.Function.Basic

/-!
# Catching signals

`cc_except_init` puts a handler of its own in the place of those that a program has for six signals,
and keeps these in variables; `cc_except_fini` puts them back.  When one of the signals is delivered
in between, `handle_posix_sig` writes what it is and where the program was to the log, calls the
handler that was there before, and ends the program.

## The kernel

The kernel has a `struct sigaction` for every signal.  Of this the model keeps the address of the
handler and `SA_SIGINFO`.  `sa_handler` and `sa_sigaction` lie in one place, so there is one
address; `SIG_DFL` and `SIG_IGN` are the addresses 0 and 1.  For each of the six signals the default
action ends the program.  A `sigaction` for one of them does not fail.

`SA_RESETHAND` and the masks are left out.  No handler is set with `SA_RESETHAND`: the kernel would
reset such a handler as it calls it, and `SIGNAL_FORWARD` would not.  A mask says when a signal may
be delivered, and here each may be delivered at any time, so the masks that are set are the empty
ones.

A handler may return, or leave by `longjmp`, though not into a call of the log.  It may be
interrupted by another signal, and several threads may be in handlers at a time; which of them
returns when is an action.  `cc_except_init` and `cc_except_fini` are one action each, so no signal
is delivered in the middle of them.  A call of `SIG_IGN` is one of an address where there is no
function, and has no result.

## The log

`handle_posix_sig` prints before it does anything else, and `stream_mutex` is not recursive.  So the
model keeps which thread is in a call of the log and has the mutex (`Action.lock` and
`Action.unlock`).  A signal that is caught in this thread makes the handler wait for its own thread:
it never comes back, and nobody prints any more, as `Log.Nesting` says of all calls within a call.
A signal that is caught in another thread waits until the mutex is free, and it is then that the
model has it delivered.

What the handler prints is one action.  No other signal is caught in the middle of it, where it
could find the mutex taken by the handler itself or, in another thread, the static variables of
`cc_print_stack` in use.  The printer returns, and does not log.  `backtrace_symbols` and `malloc`
return; a signal does not interrupt them.

## The two builds

`CCASSERT` is a macro.  Where `NDEBUG` is defined it drops its argument, whatever this does.
-/

namespace CCore
namespace Except

open Log Strings

/-! ## Signals -/

/-- The signals that are caught. -/
inductive Signal where
  | sigsegv | sigabrt | sigfpe | sigint | sigill | sigterm
  deriving DecidableEq

/-- In the order of `signal_handler_init`, and of `signal_handler_fini`. -/
def signals : List Signal := [.sigsegv, .sigabrt, .sigfpe, .sigint, .sigill, .sigterm]

/-- `siginfo_t`, with the text that `%p` makes of `si_addr`. -/
structure Siginfo where
  siCode : ℤ
  siAddr : List UInt8
  deriving DecidableEq

def fpeIntdiv : ℤ := 1
def fpeIntovf : ℤ := 2
def fpeFltdiv : ℤ := 3
def fpeFltovf : ℤ := 4
def fpeFltund : ℤ := 5
def fpeFltres : ℤ := 6
def fpeFltinv : ℤ := 7
def fpeFltsub : ℤ := 8

/-- `sigfpe2str` -/
def sigfpe2str (siCode : ℤ) : List UInt8 :=
  if siCode = fpeIntdiv then bytes "integer divide by zero"
  else if siCode = fpeIntovf then bytes "integer overflow"
  else if siCode = fpeFltdiv then bytes "floating-point divide by zero"
  else if siCode = fpeFltovf then bytes "floating-point overflow"
  else if siCode = fpeFltund then bytes "floating-point underflow"
  else if siCode = fpeFltres then bytes "floating-point inexact result"
  else if siCode = fpeFltinv then bytes "floating-point invalid operation"
  else if siCode = fpeFltsub then bytes "subscript out of range"
  else bytes "general arithmetic exception"

def illIllopc : ℤ := 1
def illIllopn : ℤ := 2
def illIlladr : ℤ := 3
def illIlltrp : ℤ := 4
def illPrvopc : ℤ := 5
def illPrvreg : ℤ := 6
def illCoproc : ℤ := 7
def illBadstk : ℤ := 8

/-- `sigill2str` -/
def sigill2str (siCode : ℤ) : List UInt8 :=
  if siCode = illIllopc then bytes "illegal opcode"
  else if siCode = illIllopn then bytes "illegal operand"
  else if siCode = illIlladr then bytes "illegal addressing mode"
  else if siCode = illIlltrp then bytes "illegal trap"
  else if siCode = illPrvopc then bytes "privileged opcode"
  else if siCode = illPrvreg then bytes "privileged register"
  else if siCode = illCoproc then bytes "coprocessor error"
  else if siCode = illBadstk then bytes "internal stack error"
  else bytes "unknown error"

/-- What `handle_posix_sig` prints. -/
def caughtText (siginfo : Siginfo) : Signal → List UInt8
  | .sigsegv => bytes "Caught SIGSEGV: segmentation fault (" ++ siginfo.siAddr ++ bytes ")"
  | .sigabrt => bytes "Caught SIGABORT: abort (" ++ siginfo.siAddr ++ bytes ")"
  | .sigfpe => bytes "Caught SIGFPE: floating point exception (" ++ sigfpe2str siginfo.siCode ++
      bytes ")"
  | .sigill => bytes "Caught SIGILL: illegal instruction (" ++ sigill2str siginfo.siCode ++
      bytes ")"
  | .sigterm => bytes "Caught SIGTERM: terminated"
  -- the default case, with the number of the signal
  | .sigint => bytes "Caught signal 2"

/-! ## The stack -/

/-- `BACKTRACE_STR` -/
def backtraceStr : List UInt8 := bytes "\nBacktrace is:\n"

/-- What `"%s\n"` makes of a line. -/
def lineText (fname : CString) : List UInt8 := fname.chars ++ bytes "\n"

/-- The frames from `1 + skip_frames` on, which is compared with an unsigned number. -/
def framesFrom (skipFrames : ℤ) (fnames : List CString) : List CString :=
  fnames.drop ((1 + skipFrames) % 2 ^ 64).toNat

/-- The loop that measures the lines. -/
def measureLines (msgLen : ℕ) (fnames : List CString) : ℕ :=
  fnames.foldl (fun msgLen fname => msgLen + (lineText fname).length) msgLen

/-- The loop that writes them, at the index `j`. -/
def writeLines : ℕ → List CString → List UInt8 → Option (List UInt8)
  | _, [], msg => some msg
  | j, fname :: fnames, msg =>
    let text := lineText fname
    (memcpyTo (text.length + 1) j (text ++ [0]) msg).bind (writeLines (j + text.length) fnames)

/-- `cc_print_stack`, up to the call of `cc_print`: the buffer that is printed.  `fnames` is what
`backtrace_symbols` returns, and `msg` what `malloc` does. -/
def ccPrintStack (skipFrames : ℤ) (fnames : List CString) (msg : List UInt8) :
    Option (List UInt8) :=
  let fnames := framesFrom skipFrames fnames
  let msgLen := measureLines backtraceStr.length fnames
  if msg.length = msgLen + 1 then
    (memcpyTo (backtraceStr.length + 1) 0 (backtraceStr ++ [0]) msg).bind
      (writeLines backtraceStr.length fnames)
  else none

theorem nul_notMem_stringIn (buffer : List UInt8) : 0 ∉ stringIn buffer := fun h => by
  have hne := List.mem_takeWhile_imp h
  simp at hne

/-- The string in a buffer. -/
def stringOf (buffer : List UInt8) : CString := ⟨stringIn buffer, nul_notMem_stringIn buffer⟩

/-! ## The program -/

/-- `struct sigaction`, without `SA_RESETHAND` and with an empty mask -/
structure Sigaction where
  handler : Addr
  /-- `SA_SIGINFO` in `sa_flags` -/
  siginfo : Bool
  deriving DecidableEq

/-- `SIG_DFL` -/
def sigDfl : Addr := 0
/-- `SIG_IGN` -/
def sigIgn : Addr := 1

/-- A call of a handler of the program. -/
structure HandlerCall where
  handler : Addr
  sig : Signal
  /-- with the three arguments of an `sa_sigaction` -/
  siginfo : Bool
  deriving DecidableEq

/-- Who has called a handler that has not come back. -/
inductive Caller where
  | kernel
  | handlePosixSig
  deriving DecidableEq

/-- What `except.c` and the kernel know, who prints, the handlers that run, those that have been
called, and what `handle_posix_sig` has passed to the log. -/
structure Process where
  inited : Bool
  old : Signal → Sigaction
  disposition : Signal → Sigaction
  /-- the thread that has `stream_mutex` -/
  streamMutex : Option ℕ
  /-- the threads in which `handle_posix_sig` waits for the mutex that the thread itself has -/
  stuck : List ℕ
  running : List Caller
  calls : List HandlerCall
  logged : List Log.Call
  ended : Bool

/-- A handler is called. -/
def Process.call (s : Process) (act : Sigaction) (sig : Signal) (siginfo : Bool)
    (caller : Caller) : Process :=
  { s with running := s.running ++ [caller], calls := s.calls ++ [⟨act.handler, sig, siginfo⟩] }

/-- `CCASSERT(expr)` with what follows it, in either build. -/
def assertion {β : Type*} (ndebug : Bool) (expr : Prop) [Decidable expr] (rest : Option β) :
    Option β :=
  if ndebug then rest else ccassert expr rest

/-- `CCASSERT(sigaction(sig, &act, &old) == 0)`.  The call is the argument of the macro. -/
def assertSigaction (ndebug : Bool) (s : Process) (sig : Signal) (act : Sigaction)
    (old : Signal → Sigaction) : Process :=
  if ndebug then s
  else { s with old := old, disposition := Function.update s.disposition sig act }

/-- `signal_handler_init`, where `handle_posix_sig` is at the address `addr`. -/
def signalHandlerInit (ndebug : Bool) (addr : Addr) (s : Process) : Process :=
  signals.foldl (fun s sig =>
    assertSigaction ndebug s sig ⟨addr, true⟩ (Function.update s.old sig (s.disposition sig))) s

/-- `signal_handler_fini` -/
def signalHandlerFini (ndebug : Bool) (s : Process) : Process :=
  signals.foldl (fun s sig => assertSigaction ndebug s sig (s.old sig) s.old) s

/-- `cc_except_init` -/
def ccExceptInit (ndebug : Bool) (addr : Addr) (s : Process) : Option Process :=
  assertion ndebug (s.inited = false) <|
  some (signalHandlerInit ndebug addr { s with inited := true })

/-- `cc_except_fini` -/
def ccExceptFini (ndebug : Bool) (s : Process) : Process :=
  if s.inited = false then s
  else signalHandlerFini ndebug { s with inited := false }

/-- `SIGNAL_FORWARD`, with the `exit` that follows when the handler has not been called. -/
def signalForward (s : Process) (act : Sigaction) (sig : Signal) : Option Process :=
  if act.handler ≠ null ∧ act.siginfo = true then
    if act.handler = sigIgn then none else some (s.call act sig true .handlePosixSig)
  else if act.handler ≠ null then
    if act.handler = sigIgn then none else some (s.call act sig false .handlePosixSig)
  else some { s with ended := true }

/-- What `handle_posix_sig` does when it gets the mutex, up to the call of the handler that was
there before. -/
def reportSig (s : Process) (sig : Signal) (siginfo : Siginfo) (fnames : List CString)
    (msg : List UInt8) : Option Process :=
  (ccPrintStack 1 fnames msg).bind fun msg =>
    let s := { s with
      logged := s.logged ++ [.printf (caughtText siginfo sig), .print (stringOf msg)] }
    match sig with
    | .sigsegv => signalForward s (s.old .sigsegv) sig
    | .sigabrt => signalForward s (s.old .sigabrt) sig
    | .sigfpe => signalForward s (s.old .sigfpe) sig
    | .sigill => signalForward s (s.old .sigill) sig
    | .sigterm => signalForward s (s.old .sigterm) sig
    -- no case of the second `switch`
    | .sigint => some { s with ended := true }

/-- `handle_posix_sig`, in a thread.  While another thread has the mutex the signal waits. -/
def handlePosixSig (s : Process) (thread : ℕ) (sig : Signal) (siginfo : Siginfo)
    (fnames : List CString) (msg : List UInt8) : Option Process :=
  if s.streamMutex = some thread then some { s with stuck := s.stuck ++ [thread] }
  else if s.streamMutex ≠ none then none
  else reportSig s sig siginfo fnames msg

/-- What the kernel does with a signal. -/
def deliver (addr : Addr) (s : Process) (thread : ℕ) (sig : Signal) (siginfo : Siginfo)
    (fnames : List CString) (msg : List UInt8) : Option Process :=
  let act := s.disposition sig
  if act.handler = addr then handlePosixSig s thread sig siginfo fnames msg
  else if act.handler = sigDfl then some { s with ended := true }
  else if act.handler = sigIgn then some s
  else some (s.call act sig act.siginfo .kernel)

inductive Action where
  | ccExceptInit
  | ccExceptFini
  /-- the program, or another library, calls `sigaction` -/
  | sigaction (sig : Signal) (act : Sigaction)
  /-- a thread gets `stream_mutex`, in a call of `cc_log`, `cc_printf` or `cc_print` -/
  | lock (thread : ℕ)
  /-- it gives the mutex back -/
  | unlock (thread : ℕ)
  /-- a signal is delivered to a thread, in a place that has these frames -/
  | deliver (thread : ℕ) (sig : Signal) (siginfo : Siginfo) (fnames : List CString)
      (msg : List UInt8)
  /-- the handler at this place of those that run returns -/
  | returns (k : ℕ)
  /-- it leaves in another way, to somewhere in the program -/
  | leaves (k : ℕ)

/-- What an action does.  A handler that has been called by `handle_posix_sig` returns to its
`exit`. -/
def act (ndebug : Bool) (addr : Addr) (s : Process) : Action → Option Process
  | .ccExceptInit => ccExceptInit ndebug addr s
  | .ccExceptFini => some (ccExceptFini ndebug s)
  | .sigaction sig act => some { s with disposition := Function.update s.disposition sig act }
  | .lock thread =>
    if s.streamMutex = none then some { s with streamMutex := some thread } else none
  | .unlock thread =>
    if s.streamMutex = some thread ∧ thread ∉ s.stuck then some { s with streamMutex := none }
    else none
  | .deliver thread sig siginfo fnames msg => deliver addr s thread sig siginfo fnames msg
  | .returns k =>
    match s.running[k]? with
    | some .kernel => some { s with running := s.running.eraseIdx k }
    | some .handlePosixSig => some { s with running := s.running.eraseIdx k, ended := true }
    | none => none
  | .leaves k =>
    if k < s.running.length then some { s with running := s.running.eraseIdx k } else none

/-- Nothing happens when the program has ended. -/
def step (ndebug : Bool) (addr : Addr) (s : Process) (a : Action) : Option Process :=
  if s.ended = true then none else act ndebug addr s a

/-- The variables of `except.c` are zero at first. -/
def start (disposition : Signal → Sigaction) : Process where
  inited := false
  old := fun _ => ⟨null, false⟩
  disposition := disposition
  streamMutex := none
  stuck := []
  running := []
  calls := []
  logged := []
  ended := false

end Except
end CCore
