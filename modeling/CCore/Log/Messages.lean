import CCore.Library.CondVar
import CCore.Log.Model

/-!
# Whole messages

What the printers have been given is a sequence of whole messages, followed by the front of at most
one more: that of the thread which has `stream_mutex`.  So messages of several threads never mix,
however the threads run, and each call that passes the level has its message printed once, or is
still underway.

`Told` is the invariant.  It says of the calls underway that none of them but the one with the mutex
has begun, and of that one that what it has printed and what it still has to print make up its
message (`Printed`).
-/

namespace CCore
namespace Log

open CondVar Format Runs Strings

variable {Printer : Type*} {minLevel : LogLevel} {s t : Logger Printer} {a : Action Printer}
  {as : List (Action Printer)}

/-! ## Moves -/

/-- All that a step can do. -/
inductive Move (minLevel : LogLevel) (s : Logger Printer) :
    Action Printer → Logger Printer → Prop where
  | call {i : ℕ} {call : Call} {stack : List Frame} : s.threads[i]? = some stack →
      call.Passes minLevel →
      Move minLevel s (.call i call)
        { s with threads := s.threads.set i (.waiting call :: stack) }
  | filtered {i : ℕ} {call : Call} : ¬call.Passes minLevel → Move minLevel s (.call i call) s
  | lock {i : ℕ} {call : Call} {stack : List Frame} {buffer : List UInt8} :
      s.threads[i]? = some (.waiting call :: stack) → s.streamMutex = none →
      buffer.length = call.bufferSize →
      Move minLevel s (.lock i buffer)
        { s with
          streamMutex := some i
          threads := s.threads.set i (.holding call call.body buffer :: stack) }
  | run {i : ℕ} {call : Call} {statement : Statement} {rest : List Statement}
      {buffer buffer' : List UInt8} {stack : List Frame} :
      s.threads[i]? = some (.holding call (statement :: rest) buffer :: stack) →
      statement.format s.logName call.bufferSize buffer = some buffer' →
      Move minLevel s (.run i)
        { s with
          threads := s.threads.set i (.holding call rest buffer' :: stack)
          output := s.output ++ (statement.printed buffer').map fun str => (s.logPrinter, str) }
  | unlock {i : ℕ} {call : Call} {buffer : List UInt8} {stack : List Frame} :
      s.threads[i]? = some (.holding call [] buffer :: stack) →
      Move minLevel s (.unlock i)
        { s with streamMutex := none, threads := s.threads.set i stack }
  | setLogName {name : CString} : Move minLevel s (.setLogName name) { s with logName := name }
  | setPrinter {printer : Printer} :
      Move minLevel s (.setPrinter printer) { s with logPrinter := printer }

theorem move_of_step (h : step minLevel s a = some t) : Move minLevel s a t := by
  cases a with
  | call i call =>
    rw [step] at h
    split at h
    · split at h
      · exact Option.some.inj h ▸ .call ‹_› ‹_›
      · exact Option.some.inj h ▸ .filtered ‹_›
    · exact absurd h nofun
  | lock i buffer =>
    rw [step] at h
    split at h
    · split at h
      · next hfree => exact Option.some.inj h ▸ .lock ‹_› hfree.1 hfree.2
      · exact absurd h nofun
    · exact absurd h nofun
  | run i =>
    rw [step] at h
    split at h
    · obtain ⟨buffer', hformat, rfl⟩ := Option.map_eq_some_iff.mp h
      exact .run ‹_› hformat
    · exact absurd h nofun
  | unlock i =>
    rw [step] at h
    split at h
    · exact Option.some.inj h ▸ .unlock ‹_›
    · exact absurd h nofun
  | setLogName name => exact Option.some.inj h ▸ .setLogName
  | setPrinter printer => exact Option.some.inj h ▸ .setPrinter

/-! ## The buffer -/

/-- What a text becomes in a buffer of the given size: it is cut off, and ends at its first NUL. -/
def fitted (size : ℕ) (text : List UInt8) : List UInt8 := (text.take (size - 1)).takeWhile (· ≠ 0)

/-- **`snprintf` into a buffer of the size that it is told.** -/
theorem snprintf_fits {buffer : List UInt8} {size : ℕ} (hsize : size ≠ 0)
    (hbuffer : buffer.length = size) (text : List UInt8) :
    ∃ buffer', snprintf buffer size text = some buffer' ∧ buffer'.length = size ∧
      stringIn buffer' = fitted size text := by
  have hlength : (text.take (size - 1) ++ [0]).length ≤ buffer.length := by
    rw [List.length_append, List.length_singleton, List.length_take, hbuffer]
    omega
  obtain ⟨old, after, rfl, hold⟩ := Buffers.exists_append_of_le hlength
  have hcopy := memcpyTo_append hold [] [] after
  rw [List.append_nil, List.nil_append, List.nil_append, List.length_nil] at hcopy
  refine ⟨text.take (size - 1) ++ [0] ++ after, ?_, ?_, ?_⟩
  · rw [snprintf, if_neg hsize]
    exact hcopy
  · rw [List.length_append, ← hold, ← List.length_append]
    exact hbuffer
  · rw [stringIn, fitted, List.append_assoc, List.takeWhile_append]
    split
    · rw [List.singleton_append, List.takeWhile_cons_of_neg (by decide), List.append_nil]
      exact (List.IsPrefix.eq_of_length (List.takeWhile_prefix _) ‹_›).symm
    · rfl

/-! ## Messages -/

/-- A call, and what `log_name` was when it was formatted. -/
structure Message where
  name : CString
  call : Call

/-- What a message consists of, one `log_printer` at a time. -/
def Message.strings (m : Message) : List (List UInt8) :=
  match m.call with
  | .log level function text =>
    [fitted 512 (headerText m.name level function), fitted 512 text, bytes "\n"]
  | .printf text => [fitted 2048 text]
  | .print str => [str.chars]

/-- What the statements print, from a buffer with the given string in it. -/
def printedBy (name : CString) (size : ℕ) : List UInt8 → List Statement → List (List UInt8)
  | _, [] => []
  | _, .snprintfHeader level function :: rest =>
    printedBy name size (fitted size (headerText name level function)) rest
  | _, .vsnprintf text :: rest => printedBy name size (fitted size text) rest
  | str, .printBuffer :: rest => str :: printedBy name size str rest
  | str, .printStr text :: rest => text :: printedBy name size str rest

/-- The body of a call prints its message, whatever is in the buffer before. -/
theorem printedBy_body (name : CString) (call : Call) (str : List UInt8) :
    printedBy name call.bufferSize str call.body = Message.strings ⟨name, call⟩ := by
  cases call <;> rfl

def Statement.isHeader : Statement → Bool
  | .snprintfHeader _ _ => true
  | _ => false

/-- The name is read in the first line, if at all. -/
theorem isHeader_of_mem_tail {call : Call} {statement : Statement} {rest : List Statement}
    (h : call.body = statement :: rest) : ∀ st ∈ rest, st.isHeader = false := by
  cases call with
  | log level function text =>
    obtain ⟨-, rfl⟩ := List.cons.inj h
    intro st hst
    simp only [List.mem_cons, List.not_mem_nil, or_false] at hst
    rcases hst with rfl | rfl | rfl | rfl <;> rfl
  | printf text =>
    obtain ⟨-, rfl⟩ := List.cons.inj h
    intro st hst
    rw [List.mem_singleton.mp hst]
    rfl
  | print str =>
    obtain ⟨-, rfl⟩ := List.cons.inj h
    exact fun st hst => absurd hst List.not_mem_nil

def Statement.formats : Statement → Bool
  | .snprintfHeader _ _ => true
  | .vsnprintf _ => true
  | _ => false

/-- A call that formats has a buffer to format into. -/
theorem bufferSize_ne_zero {call : Call} {statement : Statement} (h : statement ∈ call.body)
    (hformats : statement.formats = true) : call.bufferSize ≠ 0 := by
  cases call with
  | log => exact Nat.succ_ne_zero 511
  | printf => exact Nat.succ_ne_zero 2047
  | print =>
    rw [List.mem_singleton.mp h] at hformats
    exact absurd hformats Bool.false_ne_true

/-- **One statement** prints what it should, and leaves the rest to be printed. -/
theorem printedBy_format {name logName : CString} {size : ℕ} {buffer buffer' : List UInt8}
    {statement : Statement} (hname : statement.isHeader = true → name = logName)
    (hsize : statement.formats = true → size ≠ 0) (hbuffer : buffer.length = size)
    (h : statement.format logName size buffer = some buffer') (rest : List Statement) :
    buffer'.length = size ∧
      printedBy name size (stringIn buffer) (statement :: rest) =
        statement.printed buffer' ++ printedBy name size (stringIn buffer') rest := by
  cases statement with
  | snprintfHeader level function =>
    obtain ⟨buffer'', hformat, hlength, hstring⟩ :=
      snprintf_fits (hsize rfl) hbuffer (headerText logName level function)
    obtain rfl : buffer'' = buffer' := Option.some.inj (hformat.symm.trans h)
    refine ⟨hlength, ?_⟩
    rw [hname rfl, printedBy, hstring]
    rfl
  | vsnprintf text =>
    obtain ⟨buffer'', hformat, hlength, hstring⟩ := snprintf_fits (hsize rfl) hbuffer text
    obtain rfl : buffer'' = buffer' := Option.some.inj (hformat.symm.trans h)
    refine ⟨hlength, ?_⟩
    rw [printedBy, hstring]
    rfl
  | printBuffer =>
    obtain rfl : buffer = buffer' := Option.some.inj h
    exact ⟨hbuffer, rfl⟩
  | printStr str =>
    obtain rfl : buffer = buffer' := Option.some.inj h
    exact ⟨hbuffer, rfl⟩

/-! ## The call with the mutex -/

/-- The names that `log_name` has had. -/
def Named (first : CString) (as : List (Action Printer)) (name : CString) : Prop :=
  name = first ∨ .setLogName name ∈ as

theorem Named.append {first name : CString} (h : Named first as name)
    (bs : List (Action Printer)) : Named first (as ++ bs) name :=
  h.imp_right (List.mem_append_left bs)

/-- **How far a call has come**, with some of its message printed: it has not begun, or its
name has been read. -/
structure Underway (Names : CString → Prop) (call : Call) (rest : List Statement)
    (buffer : List UInt8) (printed : List (List UInt8)) : Prop where
  suffix : rest <:+ call.body
  length : buffer.length = call.bufferSize
  printed : (rest = call.body ∧ printed = []) ∨
    ∃ name, Names name ∧ (∀ statement ∈ rest, statement.isHeader = false) ∧
      printed ++ printedBy name call.bufferSize (stringIn buffer) rest =
        Message.strings ⟨name, call⟩

variable {Names : CString → Prop} {call : Call} {rest : List Statement} {buffer : List UInt8}
  {printed : List (List UInt8)} {first : CString}

theorem Underway.mono {Names' : CString → Prop} (hNames : ∀ name, Names name → Names' name)
    (h : Underway Names call rest buffer printed) :
    Underway Names' call rest buffer printed := by
  refine ⟨h.suffix, h.length, h.printed.imp_right ?_⟩
  rintro ⟨name, hname, hrest⟩
  exact ⟨name, hNames name hname, hrest⟩

theorem underway_body (hbuffer : buffer.length = call.bufferSize) :
    Underway Names call call.body buffer [] :=
  ⟨List.suffix_rfl, hbuffer, Or.inl ⟨rfl, rfl⟩⟩

/-- A statement is run. -/
theorem Underway.run {statement : Statement} {logName : CString} {buffer' : List UInt8}
    (h : Underway Names call (statement :: rest) buffer printed) (hlogName : Names logName)
    (hformat : statement.format logName call.bufferSize buffer = some buffer') :
    Underway Names call rest buffer' (printed ++ statement.printed buffer') := by
  have hsize := bufferSize_ne_zero (h.suffix.subset List.mem_cons_self)
  have hsuffix : rest <:+ call.body := (List.suffix_cons statement rest).trans h.suffix
  rcases h.printed with ⟨hbody, rfl⟩ | ⟨name, hname, hheader, hstrings⟩
  · -- the name is the one that the header reads
    obtain ⟨hlength, hprinted⟩ :=
      printedBy_format (fun _ => rfl) hsize h.length hformat rest
    refine ⟨hsuffix, hlength, Or.inr ⟨logName, hlogName, isHeader_of_mem_tail hbody.symm, ?_⟩⟩
    rw [List.nil_append, ← hprinted, hbody]
    exact printedBy_body logName call (stringIn buffer)
  · obtain ⟨hnot, hheader⟩ := List.forall_mem_cons.mp hheader
    obtain ⟨hlength, hprinted⟩ := printedBy_format
      (fun hyes => absurd (hnot.symm.trans hyes) Bool.false_ne_true) hsize h.length hformat rest
    refine ⟨hsuffix, hlength, Or.inr ⟨name, hname, hheader, ?_⟩⟩
    rw [List.append_assoc, ← hprinted]
    exact hstrings

/-- A call at its end has printed its message. -/
theorem Underway.finished (h : Underway Names call [] buffer printed) :
    ∃ name, Names name ∧ printed = Message.strings ⟨name, call⟩ := by
  rcases h.printed with ⟨hbody, -⟩ | ⟨name, hname, -, hstrings⟩
  · cases call <;> exact absurd hbody nofun
  · rw [printedBy, List.append_nil] at hstrings
    exact ⟨name, hname, hstrings⟩

/-- What is printed is the front of a message, at any time. -/
theorem Underway.isPrefix (h : Underway Names call rest buffer printed) (hname : ∃ n, Names n) :
    ∃ name, Names name ∧ printed <+: Message.strings ⟨name, call⟩ := by
  rcases h.printed with ⟨-, rfl⟩ | ⟨name, hname, -, hstrings⟩
  · obtain ⟨name, hname⟩ := hname
    exact ⟨name, hname, List.nil_prefix⟩
  · exact ⟨name, hname, hstrings ▸ List.prefix_append _ _⟩

/-! ## The mutex -/

def Frame.Waits : Frame → Prop
  | .waiting _ => True
  | .holding _ _ _ => False

/-- **Who has the mutex.**  One call has begun at most, and it is one of the thread that has the
mutex.  `printed` is what it has printed. -/
inductive Held (Names : CString → Prop) (s : Logger Printer) : List (List UInt8) → Prop where
  | free : s.streamMutex = none →
      (∀ (i : ℕ) (stack : List Frame), s.threads[i]? = some stack → ∀ f ∈ stack, f.Waits) →
      Held Names s []
  | held {i : ℕ} {call : Call} {rest : List Statement} {buffer : List UInt8}
      {printed : List (List UInt8)} (above : List Frame) {below : List Frame} :
      s.streamMutex = some i → s.threads[i]? = some (above ++ .holding call rest buffer :: below) →
      (∀ f ∈ above, f.Waits) → (∀ f ∈ below, f.Waits) →
      (∀ (j : ℕ) (stack : List Frame), j ≠ i → s.threads[j]? = some stack → ∀ f ∈ stack, f.Waits) →
      Underway Names call rest buffer printed → Held Names s printed

theorem Held.mono {Names' : CString → Prop} (hNames : ∀ name, Names name → Names' name)
    (h : Held Names s printed) : Held Names' s printed := by
  cases h with
  | free hfree hwaits => exact .free hfree hwaits
  | held above hmutex hi habove hbelow hothers hunderway =>
    exact .held above hmutex hi habove hbelow hothers (hunderway.mono hNames)

/-- Held or not, that is a matter of the mutex and of the threads. -/
theorem Held.congr (h : Held Names s printed) (hmutex : t.streamMutex = s.streamMutex)
    (hthreads : t.threads = s.threads) : Held Names t printed := by
  cases h with
  | free hfree hwaits => exact .free (hmutex.trans hfree) (hthreads ▸ hwaits)
  | held above hmutex' hi habove hbelow hothers hunderway =>
    exact .held above (hmutex.trans hmutex') (hthreads ▸ hi) habove hbelow (hthreads ▸ hothers)
      hunderway

/-- The entries of a list with one of them replaced. -/
theorem forall_getElem?_set {α : Type*} {P : ℕ → α → Prop} {xs : List α} {i : ℕ} {y : α}
    (hy : P i y) (h : ∀ j x, j ≠ i → xs[j]? = some x → P j x) :
    ∀ j x, (xs.set i y)[j]? = some x → P j x := by
  intro j x hj
  rcases eq_or_ne j i with rfl | hne
  · have hmem : x = y := by
      rw [List.getElem?_set_self'] at hj
      obtain ⟨-, -, rfl⟩ := Option.map_eq_some_iff.mp hj
      rfl
    exact hmem ▸ hy
  · rw [List.getElem?_set_ne hne.symm] at hj
    exact h j x hne hj

theorem getElem?_set_of_some {α : Type*} {xs : List α} {i : ℕ} {x : α} (h : xs[i]? = some x)
    (y : α) : (xs.set i y)[i]? = some y :=
  List.getElem?_set_self (List.getElem?_eq_some_iff.mp h).1

variable {i : ℕ} {stack : List Frame}

/-- A call that waits changes nothing. -/
theorem Held.push (h : Held Names s printed) (hi : s.threads[i]? = some stack) (call : Call) :
    Held Names { s with threads := s.threads.set i (.waiting call :: stack) } printed := by
  cases h with
  | free hfree hwaits =>
    refine .free hfree (forall_getElem?_set ?_ fun j stack _ hj => hwaits j stack hj)
    exact List.forall_mem_cons.mpr ⟨trivial, hwaits i stack hi⟩
  | @held k _ _ _ _ above below hmutex hk habove hbelow hothers hunderway =>
    rcases eq_or_ne i k with rfl | hne
    · obtain rfl := Option.some.inj (hi.symm.trans hk)
      refine .held (.waiting call :: above) hmutex (getElem?_set_of_some hi _)
        (List.forall_mem_cons.mpr ⟨trivial, habove⟩) hbelow (fun j stack hj hstack => ?_)
        hunderway
      rw [List.getElem?_set_ne hj.symm] at hstack
      exact hothers j stack hj hstack
    · refine .held above hmutex ?_ habove hbelow (fun j stack' hj hstack => ?_) hunderway
      · rw [List.getElem?_set_ne hne]
        exact hk
      · refine forall_getElem?_set (P := fun j stack => j ≠ k → ∀ f ∈ stack, f.Waits)
          (fun _ => List.forall_mem_cons.mpr ⟨trivial, hothers i stack hne hi⟩)
          (fun j stack _ hj hjk => hothers j stack hjk hj) j stack' hstack hj

/-- **A call that goes on has the mutex**, and everyone else waits. -/
theorem Held.of_holding (h : Held Names s printed)
    (hi : s.threads[i]? = some (.holding call rest buffer :: stack)) :
    s.streamMutex = some i ∧ (∀ f ∈ stack, f.Waits) ∧
      (∀ (j : ℕ) (stack : List Frame), j ≠ i → s.threads[j]? = some stack → ∀ f ∈ stack, f.Waits) ∧
      Underway Names call rest buffer printed := by
  cases h with
  | free hfree hwaits => exact (hwaits i _ hi _ List.mem_cons_self).elim
  | @held k _ _ _ _ above below hmutex hk habove hbelow hothers hunderway =>
    obtain rfl : i = k := by
      by_contra hne
      exact hothers i _ hne hi _ List.mem_cons_self
    have hstack := Option.some.inj (hi.symm.trans hk)
    cases above with
    | nil =>
      rw [List.nil_append, List.cons.injEq, Frame.holding.injEq] at hstack
      obtain ⟨⟨rfl, rfl, rfl⟩, rfl⟩ := hstack
      exact ⟨hmutex, hbelow, hothers, hunderway⟩
    | cons f above =>
      rw [List.cons_append, List.cons.injEq] at hstack
      exact (hstack.1 ▸ habove f List.mem_cons_self).elim

/-! ## The messages of a run -/

/-- The call that an action makes, if the level lets it through. -/
def Action.made (minLevel : LogLevel) : Action Printer → Option Call
  | .call _ call => if call.Passes minLevel then some call else none
  | _ => none

/-- The calls that a run makes and the level lets through. -/
def callsMade (minLevel : LogLevel) (as : List (Action Printer)) : List Call :=
  as.filterMap (Action.made minLevel)

/-- How often a call is underway. -/
def Logger.underway (s : Logger Printer) (call : Call) : ℕ :=
  (s.threads.map fun stack => stack.countP (·.call = call)).sum

/-- **The invariant**: whole messages, and the front of one more. -/
structure Told (minLevel : LogLevel) (first : CString) (as : List (Action Printer))
    (s : Logger Printer) (messages : List Message) (printed : List (List UInt8)) : Prop where
  held : Held (Named first as) s printed
  logName : Named first as s.logName
  names : ∀ m ∈ messages, Named first as m.name
  output : s.output.map Prod.snd = messages.flatMap Message.strings ++ printed
  once : ∀ call, messages.countP (·.call = call) + s.underway call =
    (callsMade minLevel as).count call

theorem underway_set {stack' : List Frame} (hi : s.threads[i]? = some stack)
    (hthreads : t.threads = s.threads.set i stack') (call : Call) :
    t.underway call + stack.countP (·.call = call) =
      s.underway call + stack'.countP (·.call = call) := by
  rw [Logger.underway, hthreads]
  exact sum_set_add (fun stack => stack.countP (·.call = call)) hi stack'

theorem underway_push {f : Frame} (hi : s.threads[i]? = some stack)
    (hthreads : t.threads = s.threads.set i (f :: stack)) (call : Call) :
    t.underway call = s.underway call + if f.call = call then 1 else 0 := by
  have hset := underway_set hi hthreads call
  simp only [List.countP_cons, decide_eq_true_eq] at hset
  omega

theorem underway_pop {f : Frame} (hi : s.threads[i]? = some (f :: stack))
    (hthreads : t.threads = s.threads.set i stack) (call : Call) :
    t.underway call + (if f.call = call then 1 else 0) = s.underway call := by
  have hset := underway_set hi hthreads call
  simp only [List.countP_cons, decide_eq_true_eq] at hset
  omega

theorem underway_keep {f : Frame} (f' : Frame) (hi : s.threads[i]? = some (f :: stack))
    (hthreads : t.threads = s.threads.set i (f' :: stack)) (hf : f'.call = f.call) (call : Call) :
    t.underway call = s.underway call := by
  have hset := underway_set hi hthreads call
  simp only [List.countP_cons, hf] at hset
  omega

/-- What an action adds to the calls. -/
theorem count_callsMade_concat (minLevel : LogLevel) (as : List (Action Printer))
    (a : Action Printer) (call : Call) :
    (callsMade minLevel (as ++ [a])).count call =
      (callsMade minLevel as).count call + (a.made minLevel).toList.count call := by
  rw [callsMade, List.filterMap_append, List.count_append, callsMade, List.filterMap_cons]
  cases a.made minLevel <;> rfl

theorem count_made_call (i : ℕ) {call : Call} (h : call.Passes minLevel) (c : Call) :
    ((Action.call i call : Action Printer).made minLevel).toList.count c =
      if call = c then 1 else 0 := by
  rw [Action.made, if_pos h, Option.toList_some, List.count_singleton]
  simp only [beq_iff_eq]

/-- **One step** keeps the invariant. -/
theorem Told.of_move {messages : List Message}
    (h : Told minLevel first as s messages printed) (hm : Move minLevel s a t) :
    ∃ messages' printed', Told minLevel first (as ++ [a]) t messages' printed' := by
  have hmono : ∀ name, Named first as name → Named first (as ++ [a]) name :=
    fun name hname => hname.append [a]
  have hheld := h.held.mono hmono
  have hlogName := hmono _ h.logName
  have hnames := fun m hmem => hmono _ (h.names m hmem)
  have hcount := count_callsMade_concat minLevel as a
  cases hm with
  | @call i call stack hi hpasses =>
    refine ⟨messages, printed, hheld.push hi call, hlogName, hnames, h.output, fun c => ?_⟩
    rw [hcount, count_made_call i hpasses, underway_push hi rfl, ← Nat.add_assoc, h.once]
    rfl
  | filtered hpasses =>
    refine ⟨messages, printed, hheld, hlogName, hnames, h.output, fun c => ?_⟩
    rw [hcount, h.once, Action.made, if_neg hpasses]
    rfl
  | @lock i call stack buffer hi hfree hbuffer =>
    have hprinted : printed = [] ∧
        ∀ (j : ℕ) (stack : List Frame), s.threads[j]? = some stack → ∀ f ∈ stack, f.Waits := by
      cases hheld with
      | free _ hwaits => exact ⟨rfl, hwaits⟩
      | held _ hmutex => exact absurd (hfree.symm.trans hmutex) nofun
    obtain ⟨rfl, hwaits⟩ := hprinted
    obtain ⟨-, hbelow⟩ := List.forall_mem_cons.mp (hwaits i _ hi)
    refine ⟨messages, [], .held [] rfl (getElem?_set_of_some hi _) nofun hbelow
      (fun j stack hj hstack => ?_) (underway_body hbuffer), hlogName, hnames, h.output,
      fun c => ?_⟩
    · rw [List.getElem?_set_ne hj.symm] at hstack
      exact hwaits j stack hstack
    · rw [hcount, underway_keep (.holding call call.body buffer) hi rfl rfl, h.once]
      rfl
  | @run i call statement rest buffer buffer' stack hi hformat =>
    obtain ⟨hmutex, hbelow, hothers, hunderway⟩ := hheld.of_holding hi
    refine ⟨messages, printed ++ statement.printed buffer',
      .held [] hmutex (getElem?_set_of_some hi _) nofun hbelow
        (fun j stack hj hstack => ?_) (hunderway.run hlogName hformat),
      hlogName, hnames, ?_, fun c => ?_⟩
    · rw [List.getElem?_set_ne hj.symm] at hstack
      exact hothers j stack hj hstack
    · rw [List.map_append, h.output, List.map_map, List.append_assoc]
      exact congrArg _ (congrArg _ (List.map_id _))
    · rw [hcount, underway_keep (.holding call rest buffer') hi rfl rfl, h.once]
      rfl
  | @unlock i call buffer stack hi =>
    obtain ⟨hmutex, hbelow, hothers, hunderway⟩ := hheld.of_holding hi
    obtain ⟨name, hname, rfl⟩ := hunderway.finished
    refine ⟨messages ++ [⟨name, call⟩], [],
      .free rfl (forall_getElem?_set hbelow hothers), hlogName, ?_, ?_, fun c => ?_⟩
    · exact List.forall_mem_append.mpr ⟨hnames, List.forall_mem_singleton.mpr hname⟩
    · rw [h.output, List.flatMap_append, List.flatMap_singleton, List.append_nil]
    · have hlast : List.countP (·.call = c) [(⟨name, call⟩ : Message)] =
          if call = c then 1 else 0 := by
        rw [List.countP_singleton]
        simp only [decide_eq_true_eq]
      rw [hcount, List.countP_append, hlast, Nat.add_assoc,
        Nat.add_comm (if call = c then 1 else 0)]
      exact (congrArg _ (underway_pop hi rfl c)).trans (h.once c)
  | @setLogName name =>
    refine ⟨messages, printed, hheld.congr rfl rfl,
      Or.inr (List.mem_append_right _ List.mem_cons_self), hnames, h.output, fun c => ?_⟩
    rw [hcount]
    exact h.once c
  | setPrinter =>
    refine ⟨messages, printed, hheld.congr rfl rfl, hlogName, hnames, h.output, fun c => ?_⟩
    rw [hcount]
    exact h.once c

theorem underway_start (logName : CString) (logPrinter : Printer) (n : ℕ) (call : Call) :
    (start logName logPrinter n).underway call = 0 := by
  rw [Logger.underway, start, List.map_replicate, List.sum_replicate]
  exact Nat.mul_zero n

theorem told_start (minLevel : LogLevel) (logName : CString) (logPrinter : Printer) (n : ℕ) :
    Told minLevel logName [] (start logName logPrinter n) [] [] := by
  refine ⟨.free rfl fun i stack hi f hf => ?_, Or.inl rfl, nofun, rfl, fun call => ?_⟩
  · rw [(List.mem_replicate.mp (List.mem_of_getElem? hi)).2] at hf
    exact absurd hf List.not_mem_nil
  · rw [underway_start]
    rfl

theorem told_of_run {n : ℕ} {logPrinter : Printer}
    (hrun : run (step minLevel) (start first logPrinter n) as = some s) :
    ∃ messages printed, Told minLevel first as s messages printed := by
  refine run_history (P := fun as s => ∃ messages printed,
    Told minLevel first as s messages printed) ?_ ⟨[], [], told_start minLevel first logPrinter n⟩
    hrun
  rintro as s a t ⟨messages, printed, h⟩ hstep
  exact h.of_move (move_of_step hstep)

/-- **Messages stay whole.**  However the threads run, the printers have been given whole messages,
one after the other, and the front of at most one more, which belongs to a call of the thread that
has the mutex.  A message carries a name that the log has had, each call that the level lets through
is printed once or is underway, and nothing else is printed. -/
theorem cc_log_messages_whole (minLevel : LogLevel) (first : CString) (logPrinter : Printer) (n : ℕ)
    (as : List (Action Printer)) (s : Logger Printer)
    (hrun : run (step minLevel) (start first logPrinter n) as = some s) :
    ∃ (messages : List Message) (printed : List (List UInt8)),
      s.output.map Prod.snd = messages.flatMap Message.strings ++ printed ∧
      (∀ m ∈ messages, m.name = first ∨ .setLogName m.name ∈ as) ∧
      (∀ call, messages.countP (·.call = call) + s.underway call =
        (callsMade minLevel as).count call) ∧
      (s.streamMutex = none → printed = []) ∧
      ∀ i, s.streamMutex = some i → ∃ stack name call rest buffer,
        s.threads[i]? = some stack ∧ .holding call rest buffer ∈ stack ∧
        (name = first ∨ .setLogName name ∈ as) ∧ printed <+: Message.strings ⟨name, call⟩ := by
  obtain ⟨messages, printed, h⟩ := told_of_run hrun
  refine ⟨messages, printed, h.output, h.names, h.once, fun hfree => ?_, fun i hi => ?_⟩
  · cases h.held with
    | free => rfl
    | held _ hmutex => exact absurd (hfree.symm.trans hmutex) nofun
  · cases h.held with
    | free hfree => exact absurd (hfree.symm.trans hi) nofun
    | held _ hmutex hstack _ _ _ hunderway =>
      obtain rfl := Option.some.inj (hmutex.symm.trans hi)
      obtain ⟨name, hname, hprefix⟩ := hunderway.isPrefix ⟨first, Or.inl rfl⟩
      exact ⟨_, name, _, _, _, hstack, List.mem_append_right _ List.mem_cons_self, hname, hprefix⟩

/-- One thread has printed the header of its message, and another one waits. -/
def twoThreads : List (Action ℕ) :=
  [.call 0 (.log logInfo ⟨[102], by decide⟩ [120]), .lock 0 (List.replicate 512 7), .run 0,
    .call 1 (.print ⟨[121], by decide⟩), .run 0]

theorem cc_log_messages_whole_two_threads : ∃ s,
    run (step logDebug) (start ⟨[99], by decide⟩ 0 2) twoThreads = some s ∧
      ∃ (messages : List Message) (printed : List (List UInt8)),
        s.output.map Prod.snd = messages.flatMap Message.strings ++ printed ∧
        ∀ call, messages.countP (·.call = call) + s.underway call =
          (callsMade logDebug twoThreads).count call := by
  have hsome : (run (step logDebug) (start ⟨[99], by decide⟩ 0 2) twoThreads).isSome = true := by
    decide +kernel
  obtain ⟨s, hs⟩ := Option.isSome_iff_exists.mp hsome
  obtain ⟨messages, printed, houtput, -, honce, -⟩ :=
    cc_log_messages_whole logDebug ⟨[99], by decide⟩ 0 2 twoThreads s hs
  exact ⟨s, hs, messages, printed, houtput, honce⟩

end Log
end CCore
