import CCore.Log.Messages

/-!
# A call within a call

A thread that has `stream_mutex` and makes another call waits for itself.  The printer can bring
this about, if it logs, and so can a signal that arrives while a message is printed: the handler of
`except.c` prints what it has caught before it does anything else.

The thread is then out of reach (`SelfLocked`): nothing that any thread does lets it go on, nobody
else gets the mutex, and nothing is printed any more.  And nothing else can go wrong: as long as no
thread calls while it has the mutex, the calls that are underway can all be brought to their end,
and a call takes seven moves at most.
-/

namespace CCore
namespace Log

open CondVar Format Runs Strings

variable {Printer : Type*} {minLevel : LogLevel} {s t : Logger Printer} {a : Action Printer}
  {as : List (Action Printer)} {Names : CString → Prop} {printed : List (List UInt8)}
  {first : CString}

/-- The thread that has the mutex waits for it. -/
def SelfLocked (s : Logger Printer) : Prop :=
  ∃ i call stack, s.streamMutex = some i ∧ s.threads[i]? = some (.waiting call :: stack)

/-- The thread that has the mutex makes a call. -/
def Nested (minLevel : LogLevel) (s : Logger Printer) (a : Action Printer) : Prop :=
  ∃ i call, a = .call i call ∧ call.Passes minLevel ∧ s.streamMutex = some i

/-- No call is underway. -/
def Quiet (s : Logger Printer) : Prop := ∀ stack ∈ s.threads, stack = []

/-- The moves that bring a call to its end. -/
def Action.own : Action Printer → Bool
  | .lock _ _ => true
  | .run _ => true
  | .unlock _ => true
  | _ => false

def Action.isCall : Action Printer → Bool
  | .call _ _ => true
  | _ => false

theorem isCall_of_own {a : Action Printer} (h : a.own = true) : a.isCall = false := by
  cases a with
  | call => exact absurd h Bool.false_ne_true
  | _ => rfl

/-! ## What a locked thread does to the others -/

/-- **A thread that waits for itself is stuck**, and so is everyone who prints. -/
theorem SelfLocked.of_move (hheld : Held Names s printed) (h : SelfLocked s)
    (hm : Move minLevel s a t) : SelfLocked t ∧ t.output = s.output := by
  obtain ⟨i, call, stack, hmutex, hi⟩ := h
  -- whoever goes on has the mutex, and that is the thread that waits
  have hnobody : ∀ {j : ℕ} {call' : Call} {rest : List Statement} {buffer : List UInt8}
      {stack' : List Frame}, s.threads[j]? ≠ some (.holding call' rest buffer :: stack') := by
    intro j call' rest buffer stack' hj
    obtain rfl := Option.some.inj (hmutex.symm.trans (hheld.of_holding hj).1)
    exact absurd (hi.symm.trans hj) nofun
  cases hm with
  | @call j call' stack' hj hpasses =>
    refine ⟨?_, rfl⟩
    rcases eq_or_ne j i with rfl | hne
    · exact ⟨j, call', stack', hmutex, getElem?_set_of_some hj _⟩
    · refine ⟨i, call, stack, hmutex, ?_⟩
      rw [List.getElem?_set_ne hne]
      exact hi
  | filtered => exact ⟨⟨i, call, stack, hmutex, hi⟩, rfl⟩
  | lock _ hfree => exact absurd (hfree.symm.trans hmutex) nofun
  | run hj => exact absurd hj hnobody
  | unlock hj => exact absurd hj hnobody
  | setLogName => exact ⟨⟨i, call, stack, hmutex, hi⟩, rfl⟩
  | setPrinter => exact ⟨⟨i, call, stack, hmutex, hi⟩, rfl⟩

/-- **A step locks the thread exactly if it is a nested call.** -/
theorem selfLocked_iff_nested (hheld : Held Names s printed) (h : ¬SelfLocked s)
    (hm : Move minLevel s a t) : SelfLocked t ↔ Nested minLevel s a := by
  cases hm with
  | @call i call stack hi hpasses =>
    constructor
    · rintro ⟨k, call', stack', hmutex, hk⟩
      rcases eq_or_ne i k with rfl | hne
      · exact ⟨i, call, rfl, hpasses, hmutex⟩
      · rw [List.getElem?_set_ne hne] at hk
        exact absurd ⟨k, call', stack', hmutex, hk⟩ h
    · rintro ⟨k, call', heq, -, hmutex⟩
      obtain ⟨rfl, rfl⟩ := Action.call.inj heq
      exact ⟨i, call, stack, hmutex, getElem?_set_of_some hi _⟩
  | filtered hpasses =>
    refine iff_of_false h ?_
    rintro ⟨k, call', heq, hpasses', -⟩
    obtain ⟨rfl, rfl⟩ := Action.call.inj heq
    exact hpasses hpasses'
  | @lock i call stack buffer hi =>
    refine iff_of_false ?_ (by rintro ⟨_, _, heq, -⟩; exact nomatch heq)
    rintro ⟨k, call', stack', hmutex, hk⟩
    obtain rfl := Option.some.inj hmutex
    exact absurd ((getElem?_set_of_some hi _).symm.trans hk) nofun
  | @run i call statement rest buffer buffer' stack hi =>
    refine iff_of_false ?_ (by rintro ⟨_, _, heq, -⟩; exact nomatch heq)
    rintro ⟨k, call', stack', hmutex, hk⟩
    obtain rfl := Option.some.inj ((hheld.of_holding hi).1.symm.trans hmutex)
    exact absurd ((getElem?_set_of_some hi _).symm.trans hk) nofun
  | unlock =>
    refine iff_of_false ?_ (by rintro ⟨_, _, heq, -⟩; exact nomatch heq)
    rintro ⟨k, call', stack', hmutex, -⟩
    exact nomatch hmutex
  | setLogName => exact iff_of_false h (by rintro ⟨_, _, heq, -⟩; exact nomatch heq)
  | setPrinter => exact iff_of_false h (by rintro ⟨_, _, heq, -⟩; exact nomatch heq)

/-! ## The moves that are left -/

/-- The moves that a call has ahead of it. -/
def Frame.work : Frame → ℕ
  | .waiting call => call.body.length + 2
  | .holding _ rest _ => rest.length + 1

def Logger.work (s : Logger Printer) : ℕ :=
  (s.threads.map fun stack => (stack.map Frame.work).sum).sum

theorem work_set {i : ℕ} {stack stack' : List Frame} (hi : s.threads[i]? = some stack)
    (hthreads : t.threads = s.threads.set i stack') :
    t.work + (stack.map Frame.work).sum = s.work + (stack'.map Frame.work).sum := by
  rw [Logger.work, hthreads]
  exact sum_set_add (fun stack => (stack.map Frame.work).sum) hi stack'

theorem length_body_le (call : Call) : call.body.length ≤ 5 := by
  cases call with
  | log => exact le_rfl
  | printf => exact Nat.le_add_left 2 3
  | print => exact Nat.le_add_left 1 4

/-- **A move is one move less**, and a call brings seven at most. -/
theorem work_of_move (hm : Move minLevel s a t) :
    t.work + (if a.own then 1 else 0) ≤ s.work + if a.isCall then 7 else 0 := by
  cases hm with
  | @call i call stack hi =>
    have hset := work_set hi (t := { s with threads := s.threads.set i (.waiting call :: stack) })
      rfl
    have hbody := length_body_le call
    rw [List.map_cons, List.sum_cons, Frame.work] at hset
    simp only [Action.own, Action.isCall, Bool.false_eq_true, if_false, if_true]
    omega
  | filtered => exact Nat.le_add_right _ _
  | @lock i call stack buffer hi =>
    have hset := work_set hi rfl (t := { s with
      streamMutex := some i, threads := s.threads.set i (.holding call call.body buffer :: stack) })
    rw [List.map_cons, List.sum_cons, List.map_cons, List.sum_cons, Frame.work, Frame.work] at hset
    simp only [Action.own, Action.isCall, Bool.false_eq_true, if_false, if_true]
    omega
  | @run i call statement rest buffer buffer' stack hi =>
    have hset := work_set hi rfl (t := { s with
      threads := s.threads.set i (.holding call rest buffer' :: stack)
      output := s.output ++ (statement.printed buffer').map fun str => (s.logPrinter, str) })
    rw [List.map_cons, List.sum_cons, List.map_cons, List.sum_cons, Frame.work, Frame.work,
      List.length_cons] at hset
    simp only [Action.own, Action.isCall, Bool.false_eq_true, if_false, if_true]
    omega
  | @unlock i call buffer stack hi =>
    have hset := work_set hi rfl (t := { s with
      streamMutex := none, threads := s.threads.set i stack })
    rw [List.map_cons, List.sum_cons, Frame.work, List.length_nil] at hset
    simp only [Action.own, Action.isCall, Bool.false_eq_true, if_false, if_true]
    omega
  | setLogName => exact le_rfl
  | setPrinter => exact le_rfl

/-! ## Nobody is stuck otherwise -/

/-- Formatting into the buffer of the call succeeds. -/
theorem exists_format {statement : Statement} (logName : CString) {size : ℕ}
    {buffer : List UInt8} (hsize : statement.formats = true → size ≠ 0)
    (hbuffer : buffer.length = size) :
    ∃ buffer', statement.format logName size buffer = some buffer' := by
  cases statement with
  | snprintfHeader level function =>
    obtain ⟨buffer', hformat, -⟩ :=
      snprintf_fits (hsize rfl) hbuffer (headerText logName level function)
    exact ⟨buffer', hformat⟩
  | vsnprintf text =>
    obtain ⟨buffer', hformat, -⟩ := snprintf_fits (hsize rfl) hbuffer text
    exact ⟨buffer', hformat⟩
  | printBuffer => exact ⟨buffer, rfl⟩
  | printStr str => exact ⟨buffer, rfl⟩

/-- **Where no thread can go on, no call is underway**, or a thread waits for itself. -/
theorem quiet_of_stuck (hheld : Held Names s printed) (h : ¬SelfLocked s)
    (hstuck : Stuck (step minLevel) (fun a => a.own = true) s) : Quiet s := by
  intro stack hmem
  obtain ⟨i, hi⟩ := List.getElem?_of_mem hmem
  cases hheld with
  | free hfree hwaits =>
    cases stack with
    | nil => rfl
    | cons frame stack =>
      cases frame with
      | holding call rest buffer => exact (hwaits i _ hi _ List.mem_cons_self).elim
      | waiting call =>
        have hlock := hstuck (.lock i (List.replicate call.bufferSize 0)) rfl
        rw [step, hi] at hlock
        dsimp only at hlock
        rw [if_pos ⟨hfree, List.length_replicate⟩] at hlock
        exact (Option.some_ne_none _ hlock).elim
  | @held k call rest buffer _ above below hmutex hk habove hbelow hothers hunderway =>
    cases above with
    | cons frame above =>
      cases frame with
      | holding => exact (habove _ List.mem_cons_self).elim
      | waiting call' => exact absurd ⟨k, call', _, hmutex, hk⟩ h
    | nil =>
      rw [List.nil_append] at hk
      cases rest with
      | nil =>
        have hunlock := hstuck (.unlock k) rfl
        rw [step, hk] at hunlock
        exact (Option.some_ne_none _ hunlock).elim
      | cons statement rest =>
        obtain ⟨buffer', hformat⟩ := exists_format s.logName
          (bufferSize_ne_zero (hunderway.suffix.subset List.mem_cons_self)) hunderway.length
        have hrun := hstuck (.run k) rfl
        rw [step, hk] at hrun
        dsimp only at hrun
        rw [hformat] at hrun
        exact (Option.some_ne_none _ hrun).elim

/-! ## Runs -/

/-- The invariant of a run, whatever has been made and printed. -/
def Sound (minLevel : LogLevel) (first : CString) (s : Logger Printer) : Prop :=
  ∃ as messages printed, Told minLevel first as s messages printed

theorem Sound.of_step (h : Sound minLevel first s) (hstep : step minLevel s a = some t) :
    Sound minLevel first t := by
  obtain ⟨as, messages, printed, h⟩ := h
  exact ⟨as ++ [a], h.of_move (move_of_step hstep)⟩

theorem sound_start (minLevel : LogLevel) (first : CString) (logPrinter : Printer) (n : ℕ) :
    Sound minLevel first (start first logPrinter n) :=
  ⟨[], [], [], told_start minLevel first logPrinter n⟩

theorem not_selfLocked_start (logPrinter : Printer) (n : ℕ) :
    ¬SelfLocked (start first logPrinter n) := by
  rintro ⟨i, call, stack, hmutex, -⟩
  exact nomatch hmutex

/-- Once a thread is locked nothing is printed, whoever runs. -/
theorem SelfLocked.of_run {bs : List (Action Printer)} (hsound : Sound minLevel first s)
    (h : SelfLocked s) (hrun : run (step minLevel) s bs = some t) :
    SelfLocked t ∧ t.output = s.output := by
  refine (run_induction (P := fun u => Sound minLevel first u ∧ SelfLocked u ∧ u.output = s.output)
    ?_ ⟨hsound, h, rfl⟩ hrun).2
  rintro u a v ⟨hu, hlocked, houtput⟩ hstep
  obtain ⟨_, _, _, htold⟩ := hu
  obtain ⟨hlocked', houtput'⟩ := hlocked.of_move htold.held (move_of_step hstep)
  exact ⟨Sound.of_step ⟨_, _, _, htold⟩ hstep, hlocked', houtput'.trans houtput⟩

/-- **A thread is locked exactly if some call of the run was a nested one.** -/
theorem not_selfLocked_iff {logPrinter : Printer} {n : ℕ}
    (hrun : run (step minLevel) (start first logPrinter n) as = some s) :
    ¬SelfLocked s ↔ EveryStep (step minLevel) (fun s a => ¬Nested minLevel s a)
      (start first logPrinter n) as := by
  have hI : ∀ (s : Logger Printer) a t, Sound minLevel first s → step minLevel s a = some t →
      Sound minLevel first t := fun s a t hs hstep => hs.of_step hstep
  have hstart := sound_start minLevel first logPrinter n
  rw [← everyState_iff_everyStep (P := fun s => ¬SelfLocked s) hI (fun s a t hs hP hstep => ?_)
    hstart (not_selfLocked_start logPrinter n)]
  · refine ⟨fun hlast => everyState_of_last (P := fun s => ¬SelfLocked s) hI
      (fun s a t hs hstep ht hlocked => ht ?_) hstart hrun hlast, fun hall => hall.last hrun⟩
    obtain ⟨_, _, _, htold⟩ := hs
    exact (hlocked.of_move htold.held (move_of_step hstep)).1
  · obtain ⟨_, _, _, htold⟩ := hs
    exact not_congr (selfLocked_iff_nested htold.held hP (move_of_step hstep))

/-- What has run, and what can still run, takes seven moves for each call at most. -/
theorem length_own_le {logPrinter : Printer} {n : ℕ} {bs : List (Action Printer)}
    (hrun : run (step minLevel) (start first logPrinter n) as = some s)
    (hbs : ∀ b ∈ bs, b.own = true) (hrun' : run (step minLevel) s bs = some t) :
    as.countP Action.own + bs.length ≤ 7 * as.countP Action.isCall := by
  have hwork : (start first logPrinter n).work = 0 := by
    rw [Logger.work, start, List.map_replicate, List.sum_replicate]
    exact Nat.mul_zero n
  have hcalls : bs.countP Action.isCall = 0 := by
    refine List.countP_eq_zero.mpr fun b hb => ?_
    rw [isCall_of_own (hbs b hb)]
    exact Bool.false_ne_true
  have hpaid := run_potential_countP (p := Action.own) (q := Action.isCall) (I := fun _ => True)
    (V := Logger.work) (fun _ _ _ _ _ => trivial)
    (fun s a t _ hstep => work_of_move (move_of_step hstep)) trivial
    ((run_append_eq_some (step minLevel)).mpr ⟨s, hrun, hrun'⟩)
  rw [List.countP_append, List.countP_append, hcalls, List.countP_eq_length.mpr hbs] at hpaid
  omega

/-- **The calls can be finished exactly if none was made within another one** by the thread that
had the mutex.  They take seven moves each at most, whatever the order; and after a nested call
nothing is printed any more. -/
theorem cc_log_returns_iff (minLevel : LogLevel) (first : CString) (logPrinter : Printer) (n : ℕ)
    (as : List (Action Printer)) (s : Logger Printer)
    (hrun : run (step minLevel) (start first logPrinter n) as = some s) :
    ((∃ bs t, (∀ b ∈ bs, b.own = true) ∧ run (step minLevel) s bs = some t ∧ Quiet t) ↔
      EveryStep (step minLevel) (fun s a => ¬Nested minLevel s a) (start first logPrinter n) as) ∧
    (∀ bs t, (∀ b ∈ bs, b.own = true) → run (step minLevel) s bs = some t →
      as.countP Action.own + bs.length ≤ 7 * as.countP Action.isCall) ∧
    (¬EveryStep (step minLevel) (fun s a => ¬Nested minLevel s a) (start first logPrinter n) as →
      ∀ bs t, run (step minLevel) s bs = some t → t.output = s.output) := by
  have hsound : Sound minLevel first s :=
    run_induction (fun _ _ _ hs hstep => hs.of_step hstep)
      (sound_start minLevel first logPrinter n) hrun
  rw [← not_selfLocked_iff hrun, not_not]
  refine ⟨⟨?_, fun hfree => ?_⟩, fun bs t hbs hrun' => length_own_le hrun hbs hrun',
    fun hlocked bs t hrun' => (hlocked.of_run hsound hrun').2⟩
  · rintro ⟨bs, t, -, hrun', hquiet⟩ hlocked
    obtain ⟨⟨i, call, stack, -, hi⟩, -⟩ := hlocked.of_run hsound hrun'
    exact absurd (hquiet _ (List.mem_of_getElem? hi)) nofun
  · -- the moves of the calls underway lock nobody, and they run out
    have hkept : ∀ (u : Logger Printer) b v, (Sound minLevel first u ∧ ¬SelfLocked u) →
        b.own = true → step minLevel u b = some v → Sound minLevel first v ∧ ¬SelfLocked v := by
      rintro u b v ⟨hu, hfree⟩ hown hstep
      obtain ⟨_, _, _, htold⟩ := hu
      refine ⟨Sound.of_step ⟨_, _, _, htold⟩ hstep, ?_⟩
      rw [selfLocked_iff_nested htold.held hfree (move_of_step hstep)]
      rintro ⟨i, call, rfl, -⟩
      exact Bool.false_ne_true hown
    have hless : ∀ (u : Logger Printer) b v, (Sound minLevel first u ∧ ¬SelfLocked u) →
        b.own = true → step minLevel u b = some v → v.work < u.work := by
      intro u b v _ hown hstep
      have hwork := work_of_move (move_of_step hstep)
      rw [hown, isCall_of_own hown] at hwork
      exact hwork
    obtain ⟨bs, t, hbs, hrun', ⟨⟨_, _, _, htold⟩, hfree'⟩, hstuck⟩ :=
      exists_run_stuck hkept hless ⟨hsound, hfree⟩
    exact ⟨bs, t, hbs, hrun', quiet_of_stuck htold.held hfree' hstuck⟩

/-- A printer that prints: the mutex is taken, and `print` is called from within. -/
def printingPrinter : List (Action ℕ) :=
  [.call 0 (.print ⟨[97], by decide⟩), .lock 0 [], .call 0 (.print ⟨[98], by decide⟩)]

/-- It falls silent. -/
theorem cc_log_returns_iff_printing : ∃ s,
    run (step logDebug) (start ⟨[99], by decide⟩ 0 2) printingPrinter = some s ∧
      ∀ bs t, run (step logDebug) s bs = some t → t.output = s.output := by
  refine ⟨_, rfl, (cc_log_returns_iff logDebug ⟨[99], by decide⟩ 0 2 printingPrinter _ rfl).2.2 ?_⟩
  intro h
  exact (((h _ rfl).2 _ rfl).2 _ rfl).1 ⟨0, _, rfl, trivial, rfl⟩

end Log
end CCore
