import CCore.Format.Model
import CCore.Library.Runs

/-!
# Writing to the log

Everything that `ccore` prints goes through `log.c`: a call takes `stream_mutex`, formats into a
buffer on its stack, gives the buffer to the printer, once or several times, and gives the mutex
back.

## Threads and their calls

What a thread is doing is a stack of calls, the latest first.  Most stacks have one call, or none.
But a printer is a function of the program and may log itself, and so may a signal handler: the one
of `except.c` does.  Then the thread makes a call in the middle of another one, and the earlier call
goes on only when the later one has returned.

`stream_mutex` is a mutex of the default kind.  A thread that has it and asks for it again waits for
itself.

## What is left open

A line of the source that formats or prints is one action, so another thread may set the name or the
printer between any two of them.  Both variables are read and written without the mutex, and are
taken to change at once.  `text` is what the format makes of its arguments, as in `format.c`.  What
stands in a buffer before it is written is an argument of the action that takes the mutex.
-/

namespace CCore
namespace Log

open Format Runs Strings

/-! ## Levels and texts -/

/-- `log_level_t` -/
abbrev LogLevel := UInt32

def logDebug : LogLevel := 0
def logInfo : LogLevel := 1
def logWarn : LogLevel := 2
def logError : LogLevel := 3

def bytes (s : String) : List UInt8 := s.toList.map Char.toUInt8

/-- `level_string` -/
def levelString (level : LogLevel) : List UInt8 :=
  if level = logDebug then bytes "debug"
  else if level = logInfo then bytes "info"
  else if level = logWarn then bytes "warning"
  else if level = logError then bytes "error"
  else bytes "<invalid>"

/-- The format `"[%s %s] %s(): "`. -/
def headerText (logName : CString) (level : LogLevel) (function : CString) : List UInt8 :=
  bytes "[" ++ logName.chars ++ bytes " " ++ levelString level ++ bytes "] " ++ function.chars ++
    bytes "(): "

/-! ## Calls -/

/-- A call of `cc_log`, of `cc_printf` or of `cc_print`. -/
inductive Call where
  | log (level : LogLevel) (function : CString) (text : List UInt8)
  | printf (text : List UInt8)
  | print (str : CString)
  deriving DecidableEq

/-- A line of the source between the lock and the unlock. -/
inductive Statement where
  /-- `snprintf(buffer, 512, "[%s %s] %s(): ", log_name, level_string(level), function)` -/
  | snprintfHeader (level : LogLevel) (function : CString)
  /-- `vsnprintf(buffer, sizeof(buffer), fmt, args)` -/
  | vsnprintf (text : List UInt8)
  /-- `log_printer(buffer)` -/
  | printBuffer
  /-- `log_printer(str)` -/
  | printStr (str : List UInt8)
  deriving DecidableEq

/-- The size of the buffer on the stack. -/
def Call.bufferSize : Call → ℕ
  | .log _ _ _ => 512
  | .printf _ => 2048
  | .print _ => 0

/-- What a call does while it has the mutex. -/
def Call.body : Call → List Statement
  | .log level function text =>
    [.snprintfHeader level function, .printBuffer, .vsnprintf text, .printBuffer,
      .printStr (bytes "\n")]
  | .printf text => [.vsnprintf text, .printBuffer]
  | .print str => [.printStr str.chars]

/-- `if(level < LOG_LEVEL) return;` lets the call through. -/
def Call.Passes (minLevel : LogLevel) : Call → Prop
  | .log level _ _ => ¬level < minLevel
  | .printf _ => True
  | .print _ => True

instance (minLevel : LogLevel) : DecidablePred (Call.Passes minLevel)
  | .log level _ _ => inferInstanceAs (Decidable (¬level < minLevel))
  | .printf _ => inferInstanceAs (Decidable True)
  | .print _ => inferInstanceAs (Decidable True)

/-! ## Threads -/

/-- A call that is underway. -/
inductive Frame where
  /-- in `pthread_mutex_lock(&stream_mutex)` -/
  | waiting (call : Call)
  /-- with the mutex, and these statements left -/
  | holding (call : Call) (rest : List Statement) (buffer : List UInt8)
  deriving DecidableEq

def Frame.call : Frame → Call
  | .waiting call => call
  | .holding call _ _ => call

/-- The variables of `log.c`, and the threads that use it.  `output` is what the printers have been
given so far. -/
structure Logger (Printer : Type*) where
  logName : CString
  logPrinter : Printer
  streamMutex : Option ℕ
  threads : List (List Frame)
  output : List (Printer × List UInt8)

inductive Action (Printer : Type*) where
  /-- thread `i` makes a call -/
  | call (i : ℕ) (call : Call)
  /-- thread `i` gets the mutex; its buffer holds whatever it holds -/
  | lock (i : ℕ) (buffer : List UInt8)
  /-- thread `i` runs a statement -/
  | run (i : ℕ)
  /-- thread `i` gives the mutex back, and returns from its call -/
  | unlock (i : ℕ)
  | setLogName (name : CString)
  | setPrinter (printer : Printer)

variable {Printer : Type*}

/-- What a statement makes of the buffer.  `none` is a write outside of it. -/
def Statement.format (logName : CString) (size : ℕ) (buffer : List UInt8) :
    Statement → Option (List UInt8)
  | .snprintfHeader level function => snprintf buffer size (headerText logName level function)
  | .vsnprintf text => snprintf buffer size text
  | .printBuffer => some buffer
  | .printStr _ => some buffer

/-- What a statement gives to the printer. -/
def Statement.printed (buffer : List UInt8) : Statement → List (List UInt8)
  | .snprintfHeader _ _ => []
  | .vsnprintf _ => []
  | .printBuffer => [stringIn buffer]
  | .printStr str => [str]

/-- The later call of a thread moves, the others wait for it. -/
def step (minLevel : LogLevel) (s : Logger Printer) : Action Printer → Option (Logger Printer)
  | .call i call =>
    match s.threads[i]? with
    | some stack =>
      if call.Passes minLevel then
        some { s with threads := s.threads.set i (.waiting call :: stack) }
      else some s
    | none => none
  | .lock i buffer =>
    match s.threads[i]? with
    | some (.waiting call :: stack) =>
      if s.streamMutex = none ∧ buffer.length = call.bufferSize then
        some { s with
          streamMutex := some i
          threads := s.threads.set i (.holding call call.body buffer :: stack) }
      else none
    | _ => none
  | .run i =>
    match s.threads[i]? with
    | some (.holding call (statement :: rest) buffer :: stack) =>
      (statement.format s.logName call.bufferSize buffer).map fun buffer =>
        { s with
          threads := s.threads.set i (.holding call rest buffer :: stack)
          output := s.output ++ (statement.printed buffer).map fun str => (s.logPrinter, str) }
    | _ => none
  | .unlock i =>
    match s.threads[i]? with
    | some (.holding _ [] _ :: stack) =>
      some { s with streamMutex := none, threads := s.threads.set i stack }
    | _ => none
  | .setLogName name => some { s with logName := name }
  | .setPrinter printer => some { s with logPrinter := printer }

/-- `n` threads, none of which logs. -/
def start (logName : CString) (logPrinter : Printer) (n : ℕ) : Logger Printer where
  logName := logName
  logPrinter := logPrinter
  streamMutex := none
  threads := List.replicate n []
  output := []

end Log
end CCore
