import CCore.Except.Backtrace

/-!
# What becomes of a signal

Between `cc_except_init` and `cc_except_fini` a signal goes to `handle_posix_sig`.  Three things are
said of this, about runs of a program that may set its handlers whenever it likes.

* When `cc_except_fini` has been called, the handlers are those that the program has set outside of
  the two calls; what it has set in between is lost (`cc_except_restores`).
* As long as the program has not ended, and no signal has been caught inside a call of the log, the
  handlers that have been called are those that would have been called without `except.c`, on the
  same signals and in the same order (`cc_except_transparent`).
* A signal that is caught is reported, and its handler is called.  Two things can go wrong: inside a
  call of the log `handle_posix_sig` waits for ever, and with it everybody who prints; and for a
  signal that was ignored before `SIGNAL_FORWARD` calls `SIG_IGN` (`cc_except_reports_iff`).

All this is about a build with assertions.  Without them nothing is installed
(`cc_except_without_assertions`).
-/

namespace CCore
namespace Except

open Log Runs Strings

variable {addr : Addr} {d : Signal → Sigaction} {s t : Process} {a : Action} {as : List Action}
  {thread : ℕ} {sig : Signal} {siginfo : Siginfo} {fnames : List CString} {msg : List UInt8}

/-! ## The moves -/

/-- All six handlers are kept and replaced. -/
theorem signalHandlerInit_eq (addr : Addr) (s : Process) : signalHandlerInit false addr s =
    { s with old := s.disposition, disposition := fun _ => ⟨addr, true⟩ } := by
  have hold : (signalHandlerInit false addr s).old = s.disposition := by
    funext sig
    cases sig <;> rfl
  have hnew : (signalHandlerInit false addr s).disposition = fun _ => ⟨addr, true⟩ := by
    funext sig
    cases sig <;> rfl
  exact congrArg₂ (fun old new => { s with old := old, disposition := new }) hold hnew

/-- And put back. -/
theorem signalHandlerFini_eq (s : Process) :
    signalHandlerFini false s = { s with disposition := s.old } := by
  have hback : (signalHandlerFini false s).disposition = s.old := by
    funext sig
    cases sig <;> rfl
  exact congrArg (fun back => { s with disposition := back }) hback

/-- The two calls of the log that a signal makes. -/
def caughtCalls (sig : Signal) (siginfo : Siginfo) (fnames : List CString) : List Log.Call :=
  [.printf (caughtText siginfo sig), .print (stringOf (stackText 1 fnames ++ [0]))]

/-- The program after a signal has been reported. -/
def Process.report (s : Process) (sig : Signal) (siginfo : Siginfo) (fnames : List CString) :
    Process :=
  { s with logged := s.logged ++ caughtCalls sig siginfo fnames }

/-- Whether a handler expects three arguments or one, it gets them. -/
theorem signalForward_eq (s : Process) (act : Sigaction) (sig : Signal) :
    signalForward s act sig =
      if act.handler = null then some { s with ended := true }
      else if act.handler = sigIgn then none
      else some (s.call act sig act.siginfo .handlePosixSig) := by
  rw [signalForward]
  by_cases hnull : act.handler = null
  · rw [if_neg (fun h => h.1 hnull), if_neg (not_not.mpr hnull), if_pos hnull]
  · rw [if_neg hnull]
    cases hinfo : act.siginfo with
    | true => rw [if_pos ⟨hnull, rfl⟩]
    | false => rw [if_neg (by simp), if_pos hnull]

/-- **What `handle_posix_sig` does** when it can print. -/
theorem reportSig_eq (s : Process) (sig : Signal) (siginfo : Siginfo)
    (hmsg : msg.length = (stackText 1 fnames).length + 1) :
    reportSig s sig siginfo fnames msg =
      if sig = .sigint then some { s.report sig siginfo fnames with ended := true }
      else signalForward (s.report sig siginfo fnames) (s.old sig) sig := by
  rw [reportSig, ccPrintStack_eq_some.mpr ⟨hmsg, rfl⟩, Option.bind_some]
  cases sig <;> rfl

/-- **What a step does**, in a build with assertions. -/
inductive Move (addr : Addr) : Process → Action → Process → Prop where
  | init {s : Process} (hinited : s.inited = false) : Move addr s .ccExceptInit
      { s with inited := true, old := s.disposition, disposition := fun _ => ⟨addr, true⟩ }
  | fini {s : Process} (hinited : s.inited = true) :
      Move addr s .ccExceptFini { s with inited := false, disposition := s.old }
  | idle {s : Process} (hinited : s.inited = false) : Move addr s .ccExceptFini s
  | sigaction {s : Process} (sig : Signal) (act : Sigaction) : Move addr s (.sigaction sig act)
      { s with disposition := Function.update s.disposition sig act }
  | lock {s : Process} {thread : ℕ} (hfree : s.streamMutex = none) :
      Move addr s (.lock thread) { s with streamMutex := some thread }
  | unlock {s : Process} {thread : ℕ} (hheld : s.streamMutex = some thread)
      (hgoes : thread ∉ s.stuck) : Move addr s (.unlock thread) { s with streamMutex := none }
  | stick {s : Process} {thread : ℕ} {sig : Signal} {siginfo : Siginfo} {fnames : List CString}
      {msg : List UInt8} (haddr : (s.disposition sig).handler = addr)
      (hheld : s.streamMutex = some thread) :
      Move addr s (.deliver thread sig siginfo fnames msg) { s with stuck := s.stuck ++ [thread] }
  | forward {s : Process} {thread : ℕ} {sig : Signal} {siginfo : Siginfo} {fnames : List CString}
      {msg : List UInt8} (haddr : (s.disposition sig).handler = addr)
      (hfree : s.streamMutex = none) (hsig : sig ≠ .sigint)
      (hnull : (s.old sig).handler ≠ null) (hign : (s.old sig).handler ≠ sigIgn) :
      Move addr s (.deliver thread sig siginfo fnames msg)
        ((s.report sig siginfo fnames).call (s.old sig) sig (s.old sig).siginfo .handlePosixSig)
  | exit {s : Process} {thread : ℕ} {sig : Signal} {siginfo : Siginfo} {fnames : List CString}
      {msg : List UInt8} (haddr : (s.disposition sig).handler = addr)
      (hfree : s.streamMutex = none) (hlast : sig = .sigint ∨ (s.old sig).handler = null) :
      Move addr s (.deliver thread sig siginfo fnames msg)
        { s.report sig siginfo fnames with ended := true }
  | kill {s : Process} {thread : ℕ} {sig : Signal} {siginfo : Siginfo} {fnames : List CString}
      {msg : List UInt8} (haddr : (s.disposition sig).handler ≠ addr)
      (hdfl : (s.disposition sig).handler = sigDfl) :
      Move addr s (.deliver thread sig siginfo fnames msg) { s with ended := true }
  | ignore {s : Process} {thread : ℕ} {sig : Signal} {siginfo : Siginfo} {fnames : List CString}
      {msg : List UInt8} (haddr : (s.disposition sig).handler ≠ addr)
      (hign : (s.disposition sig).handler = sigIgn) :
      Move addr s (.deliver thread sig siginfo fnames msg) s
  | call {s : Process} {thread : ℕ} {sig : Signal} {siginfo : Siginfo} {fnames : List CString}
      {msg : List UInt8} (haddr : (s.disposition sig).handler ≠ addr)
      (hdfl : (s.disposition sig).handler ≠ sigDfl)
      (hign : (s.disposition sig).handler ≠ sigIgn) :
      Move addr s (.deliver thread sig siginfo fnames msg)
        (s.call (s.disposition sig) sig (s.disposition sig).siginfo .kernel)
  | returns {s : Process} {k : ℕ} (hk : s.running[k]? = some .kernel) :
      Move addr s (.returns k) { s with running := s.running.eraseIdx k }
  | exits {s : Process} {k : ℕ} (hk : s.running[k]? = some .handlePosixSig) :
      Move addr s (.returns k) { s with running := s.running.eraseIdx k, ended := true }
  | leaves {s : Process} {k : ℕ} (hk : k < s.running.length) :
      Move addr s (.leaves k) { s with running := s.running.eraseIdx k }

/-- A signal that is reported is forwarded, or ends the program. -/
theorem move_of_reportSig (haddr : (s.disposition sig).handler = addr)
    (hfree : s.streamMutex = none) (h : reportSig s sig siginfo fnames msg = some t) :
    Move addr s (.deliver thread sig siginfo fnames msg) t := by
  have hmsg : msg.length = (stackText 1 fnames).length + 1 := by
    obtain ⟨out, hout, -⟩ := Option.bind_eq_some_iff.mp h
    exact (ccPrintStack_eq_some.mp hout).1
  rw [reportSig_eq s sig siginfo hmsg] at h
  split at h
  · rw [← Option.some.inj h]
    exact .exit haddr hfree (Or.inl ‹_›)
  · rw [signalForward_eq] at h
    split at h
    · rw [← Option.some.inj h]
      exact .exit haddr hfree (Or.inr ‹_›)
    · obtain ⟨hign, h⟩ := Option.ite_none_left_eq_some.mp h
      rw [← Option.some.inj h]
      exact .forward haddr hfree ‹_› ‹_› hign

theorem move_of_deliver (h : deliver addr s thread sig siginfo fnames msg = some t) :
    Move addr s (.deliver thread sig siginfo fnames msg) t := by
  rw [deliver] at h
  split at h
  · rename_i haddr
    rw [handlePosixSig] at h
    split at h
    · rw [← Option.some.inj h]
      exact .stick haddr ‹_›
    · obtain ⟨hfree, h⟩ := Option.ite_none_left_eq_some.mp h
      exact move_of_reportSig haddr (not_not.mp hfree) h
  · split at h
    · rw [← Option.some.inj h]
      exact .kill ‹_› ‹_›
    · split at h
      · rw [← Option.some.inj h]
        exact .ignore ‹_› ‹_›
      · rw [← Option.some.inj h]
        exact .call ‹_› ‹_› ‹_›

theorem move_of_step (h : step false addr s a = some t) : s.ended = false ∧ Move addr s a t := by
  obtain ⟨hended, h⟩ := Option.ite_none_left_eq_some.mp h
  refine ⟨Bool.eq_false_of_not_eq_true hended, ?_⟩
  cases a with
  | ccExceptInit =>
    obtain ⟨hinited, h⟩ := ccassert_eq_some.mp h
    rw [← Option.some.inj h, signalHandlerInit_eq]
    exact .init hinited
  | ccExceptFini =>
    rw [← Option.some.inj h, ccExceptFini]
    split
    · exact .idle ‹_›
    · rw [signalHandlerFini_eq]
      exact .fini (Bool.eq_true_of_not_eq_false ‹_›)
  | sigaction sig act => exact Option.some.inj h ▸ .sigaction sig act
  | lock thread =>
    obtain ⟨hfree, h⟩ := Option.ite_none_right_eq_some.mp h
    exact Option.some.inj h ▸ .lock hfree
  | unlock thread =>
    obtain ⟨⟨hheld, hgoes⟩, h⟩ := Option.ite_none_right_eq_some.mp h
    exact Option.some.inj h ▸ .unlock hheld hgoes
  | deliver => exact move_of_deliver h
  | returns k =>
    rw [act] at h
    split at h
    · exact Option.some.inj h ▸ .returns ‹_›
    · exact Option.some.inj h ▸ .exits ‹_›
    · cases h
  | leaves k =>
    obtain ⟨hk, h⟩ := Option.ite_none_right_eq_some.mp h
    exact Option.some.inj h ▸ .leaves hk

/-! ## What is put back -/

/-- What the program sets outside of `cc_except_init` and `cc_except_fini`. -/
def ownSetting (s : Process) : Action → List (Signal × Sigaction)
  | .sigaction sig act => if s.inited = true then [] else [(sig, act)]
  | _ => []

/-- A handler is set. -/
def setHandler (handlers : Signal → Sigaction) (setting : Signal × Sigaction) :
    Option (Signal → Sigaction) :=
  some (Function.update handlers setting.1 setting.2)

/-- The handlers of the program: those that are kept, or those that the kernel has. -/
def Process.ownHandlers (s : Process) : Signal → Sigaction :=
  if s.inited = true then s.old else s.disposition

theorem Process.ownHandlers_of_inited (h : s.inited = true) : s.ownHandlers = s.old := if_pos h

theorem Process.ownHandlers_of_not (h : s.inited = false) : s.ownHandlers = s.disposition :=
  if_neg (Bool.eq_false_iff.mp h)

/-- Only what is set outside changes them. -/
theorem ownHandlers_move (h : Move addr s a t) :
    run setHandler s.ownHandlers (ownSetting s a) = some t.ownHandlers := by
  cases h with
  | init hinited => exact congrArg some (Process.ownHandlers_of_not hinited)
  | fini hinited => exact congrArg some (Process.ownHandlers_of_inited hinited)
  | sigaction sig act =>
    cases hinited : s.inited with
    | true =>
      rw [ownSetting, if_pos hinited, Process.ownHandlers_of_inited hinited]
      rfl
    | false =>
      rw [ownSetting, if_neg (Bool.eq_false_iff.mp hinited), Process.ownHandlers_of_not hinited]
      rfl
  | _ => rfl

/-- What is set outside, in any run. -/
theorem ownHandlers_of_run (hrun : run (step false addr) (start d) as = some s) :
    run setHandler d (trace (step false addr) ownSetting (start d) as) = some s.ownHandlers := by
  obtain ⟨handlers, hset, rfl⟩ := run_simulation
    (R := fun s (handlers : Signal → Sigaction) => s.ownHandlers = handlers)
    (fun x handlers a y hx hstep => ⟨_, hx ▸ ownHandlers_move (move_of_step hstep).2, rfl⟩)
    (show (start d).ownHandlers = d from rfl) hrun
  exact hset

/-- Since `cc_except_init` a signal is caught, unless the program has set another handler. -/
def CaughtOrSet (addr : Addr) (as : List Action) (s : Process) : Prop :=
  s.inited = true → ∃ before after, as = before ++ .ccExceptInit :: after ∧
    .ccExceptFini ∉ after ∧ ∀ sig,
      s.disposition sig = ⟨addr, true⟩ ∨ .sigaction sig (s.disposition sig) ∈ after

/-- The actions since `cc_except_init`, with one more. -/
theorem CaughtOrSet.append (hs : CaughtOrSet addr as s) (hinited : s.inited = true)
    (ha : a ≠ .ccExceptFini) (hdisposition : ∀ sig,
      t.disposition sig = s.disposition sig ∨ a = .sigaction sig (t.disposition sig)) :
    CaughtOrSet addr (as ++ [a]) t := fun _ => by
  obtain ⟨before, after, rfl, hafter, hcaught⟩ := hs hinited
  refine ⟨before, after ++ [a], List.append_assoc .., ?_, fun sig => ?_⟩
  · rw [List.mem_append, List.mem_singleton, not_or]
    exact ⟨hafter, ha.symm⟩
  · rcases hdisposition sig with hsame | hset
    · rw [hsame]
      exact (hcaught sig).imp_right (List.mem_append_left [a])
    · exact Or.inr (List.mem_append_right after (List.mem_singleton.mpr hset.symm))

theorem CaughtOrSet.of_move (hs : CaughtOrSet addr as s) (h : Move addr s a t) :
    CaughtOrSet addr (as ++ [a]) t := by
  intro hinited
  cases h with
  | init => exact ⟨as, [], rfl, List.not_mem_nil, fun _ => Or.inl rfl⟩
  | fini => exact absurd hinited Bool.false_ne_true
  | idle hnot => exact absurd (hnot.symm.trans hinited) Bool.false_ne_true
  | sigaction other act =>
    refine hs.append hinited Action.noConfusion (fun sig => ?_) hinited
    by_cases hother : sig = other
    · subst hother
      dsimp only
      rw [Function.update_self]
      exact Or.inr rfl
    · exact Or.inl (Function.update_of_ne hother ..)
  | _ => exact hs.append hinited Action.noConfusion (fun _ => Or.inl rfl) hinited

theorem caughtOrSet_of_run (hrun : run (step false addr) (start d) as = some s) :
    CaughtOrSet addr as s :=
  run_history (fun _ _ _ _ hs hstep => CaughtOrSet.of_move hs (move_of_step hstep).2)
    (show CaughtOrSet addr [] (start d) from fun h => absurd h Bool.false_ne_true) hrun

/-- **`cc_except_fini` puts back what was there.**  In every run, the handlers of the program are
those that it has set outside of `cc_except_init` and `cc_except_fini`, whatever it has set in
between; inside, they are kept, and each signal is caught unless the program has set another
handler for it since `cc_except_init`. -/
theorem cc_except_restores (hrun : run (step false addr) (start d) as = some s) :
    run setHandler d (trace (step false addr) ownSetting (start d) as) = some s.ownHandlers ∧
    (s.inited = false → s.disposition = s.ownHandlers) ∧
    (s.inited = true → s.old = s.ownHandlers ∧ ∃ before after,
      as = before ++ .ccExceptInit :: after ∧ .ccExceptFini ∉ after ∧ ∀ sig,
        s.disposition sig = ⟨addr, true⟩ ∨ .sigaction sig (s.disposition sig) ∈ after) :=
  ⟨ownHandlers_of_run hrun, fun h => (Process.ownHandlers_of_not h).symm,
    fun h => ⟨(Process.ownHandlers_of_inited h).symm, caughtOrSet_of_run hrun h⟩⟩

/-- A program that has handlers of its own for all six signals. -/
def sevens : Signal → Sigaction := fun _ => ⟨7, true⟩

/-- One handler is set before `cc_except_init`, and one after it. -/
theorem cc_except_restores_two_settings : ∃ s,
    run (step false 5) (start sevens) [.sigaction .sigterm ⟨9, false⟩, .ccExceptInit,
      .sigaction .sigint ⟨11, false⟩, .ccExceptFini] = some s ∧
    s.disposition .sigterm = ⟨9, false⟩ ∧ s.disposition .sigint = ⟨7, true⟩ := by
  refine ⟨_, rfl, ?_⟩
  obtain ⟨hset, hback, -⟩ := cc_except_restores (show run (step false 5) (start sevens)
    [.sigaction .sigterm ⟨9, false⟩, .ccExceptInit, .sigaction .sigint ⟨11, false⟩,
      .ccExceptFini] = some _ from rfl)
  have hown := (hback rfl).trans (Option.some.inj hset).symm
  exact ⟨congrFun hown .sigterm, congrFun hown .sigint⟩

/-! ## Who is called -/

/-- What is not a call of `cc_except_init` or `cc_except_fini`. -/
def Action.ofProgram : Action → Bool
  | .ccExceptInit => false
  | .ccExceptFini => false
  | _ => true

/-- Handlers are set outside of the two calls, and `handle_posix_sig` is not one of them. -/
def SetsOutside (addr : Addr) (s : Process) : Action → Prop
  | .sigaction _ act => s.inited = false ∧ act.handler ≠ addr
  | _ => True

/-- **A program with `except.c` and one without**, which have done the same. -/
structure Alike (addr : Addr) (s p : Process) : Prop where
  inited : p.inited = false
  ended : p.ended = false
  streamMutex : p.streamMutex = s.streamMutex
  stuck : p.stuck = []
  calls : p.calls = s.calls
  running : p.running = s.running.map fun _ => .kernel
  handlers : p.disposition = s.ownHandlers
  caught : s.inited = true → ∀ sig, (s.disposition sig).handler = addr
  others : ∀ sig, (p.disposition sig).handler ≠ addr
  logged : p.logged = []

theorem step_of_running {ndebug : Bool} (h : s.ended = false) (a : Action) :
    step ndebug addr s a = act ndebug addr s a := if_neg (Bool.eq_false_iff.mp h)

namespace Alike

variable {p : Process}

/-- What is caught here goes to the handler of the program there. -/
theorem old_eq (h : Alike addr s p) (haddr : (s.disposition sig).handler = addr) :
    s.inited = true ∧ p.disposition = s.old := by
  have hinited : s.inited = true := by
    by_contra hnot
    have hown := h.handlers
    rw [Process.ownHandlers_of_not (Bool.eq_false_iff.mpr hnot)] at hown
    exact h.others sig (hown ▸ haddr)
  exact ⟨hinited, h.handlers.trans (Process.ownHandlers_of_inited hinited)⟩

theorem disposition_eq (h : Alike addr s p) (haddr : (s.disposition sig).handler ≠ addr) :
    p.disposition = s.disposition := by
  refine h.handlers.trans (Process.ownHandlers_of_not ?_)
  by_contra hnot
  exact haddr (h.caught (Bool.eq_true_of_not_eq_false hnot) sig)

/-- What is reported makes no difference. -/
theorem report (h : Alike addr s p) (sig : Signal) (siginfo : Siginfo) (fnames : List CString) :
    Alike addr (s.report sig siginfo fnames) p :=
  { h with }

/-- The same thread gets the mutex in both, or gives it back. -/
theorem withMutex (h : Alike addr s p) (holder : Option ℕ) :
    Alike addr { s with streamMutex := holder } { p with streamMutex := holder } :=
  { h with streamMutex := rfl }

/-- A handler is called in both. -/
theorem call (h : Alike addr s p) (action : Sigaction) (sig : Signal) (caller : Caller) :
    Alike addr (s.call action sig action.siginfo caller)
      (p.call action sig action.siginfo .kernel) :=
  have hrunning : p.running ++ [.kernel] = (s.running ++ [caller]).map fun _ => .kernel := by
    rw [List.map_append, h.running]
    rfl
  { h with calls := congrArg (· ++ _) h.calls, running := hrunning }

/-- A handler that runs in both is left in both. -/
theorem eraseIdx (h : Alike addr s p) (k : ℕ) :
    Alike addr { s with running := s.running.eraseIdx k }
      { p with running := p.running.eraseIdx k } :=
  { h with running := by rw [h.running, List.eraseIdx_map] }

/-- **What the one does the other does too**, as long as the one has not ended, and none of its
threads waits for itself. -/
theorem step (h : Alike addr s p) (hmove : Move addr s a t) (hsets : SetsOutside addr s a)
    (hended : t.ended = false) (hstuck : t.stuck = []) :
    ∃ p', run (Except.step false addr) p ([a].filter Action.ofProgram) = some p' ∧
      Alike addr t p' := by
  have hone : ∀ {p'}, act false addr p a = some p' →
      run (Except.step false addr) p [a] = some p' := fun ha =>
    (run_cons_eq_some _).mpr ⟨_, (step_of_running h.ended a).trans ha, rfl⟩
  cases hmove with
  | init hinited =>
    have hhandlers := h.handlers.trans (Process.ownHandlers_of_not hinited)
    exact ⟨p, rfl, { h with handlers := hhandlers, caught := fun _ _ => rfl }⟩
  | fini hinited =>
    have hhandlers := h.handlers.trans (Process.ownHandlers_of_inited hinited)
    exact ⟨p, rfl, { h with handlers := hhandlers, caught := nofun }⟩
  | idle => exact ⟨p, rfl, h⟩
  | sigaction sig action =>
    obtain ⟨hinited, hother⟩ := hsets
    have hhandlers := h.handlers.trans (Process.ownHandlers_of_not hinited)
    refine ⟨_, hone rfl,
      { h with handlers := ?_, caught := fun hs => ?_, others := fun other => ?_ }⟩
    · have hown := Process.ownHandlers_of_not
        (s := { s with disposition := Function.update s.disposition sig action }) hinited
      exact (congrArg (Function.update · sig action) hhandlers).trans hown.symm
    · exact absurd (hinited.symm.trans hs) Bool.false_ne_true
    · dsimp only
      by_cases hsig : other = sig
      · rw [hsig, Function.update_self]
        exact hother
      · rw [Function.update_of_ne hsig]
        exact h.others other
  | @lock thread hfree =>
    refine ⟨_, hone ?_, h.withMutex (some thread)⟩
    rw [act, if_pos (h.streamMutex.trans hfree)]
  | @unlock thread hheld =>
    refine ⟨_, hone ?_, h.withMutex none⟩
    rw [act, if_pos ⟨h.streamMutex.trans hheld, h.stuck ▸ List.not_mem_nil⟩]
  | stick => exact absurd hstuck (List.append_ne_nil_of_right_ne_nil _ (List.cons_ne_nil _ _))
  | @forward _ sig _ _ _ haddr hfree hsig hnull hign =>
    obtain ⟨hinited, hold⟩ := h.old_eq haddr
    refine ⟨_, hone ?_, (h.report sig _ _).call (s.old sig) sig _⟩
    rw [act, deliver, if_neg (h.others sig), hold,
      if_neg (show (s.old sig).handler ≠ sigDfl from hnull), if_neg hign]
  | exit => exact absurd hended.symm Bool.false_ne_true
  | kill => exact absurd hended.symm Bool.false_ne_true
  | @ignore _ sig _ _ _ haddr hign =>
    refine ⟨p, hone ?_, h⟩
    rw [act, deliver, if_neg (h.others sig), h.disposition_eq haddr, if_neg ?_, if_pos hign]
    rw [hign]
    decide
  | @call _ sig _ _ _ haddr hdfl hign =>
    refine ⟨_, hone ?_, h.call (s.disposition sig) sig _⟩
    rw [act, deliver, if_neg (h.others sig), h.disposition_eq haddr, if_neg hdfl, if_neg hign]
  | @returns k hk =>
    refine ⟨_, hone ?_, h.eraseIdx k⟩
    rw [act, h.running, List.getElem?_map, hk]
    rfl
  | exits => exact absurd hended.symm Bool.false_ne_true
  | @leaves k hk =>
    refine ⟨_, hone ?_, h.eraseIdx k⟩
    rw [act, if_pos (by rw [h.running, List.length_map]; exact hk)]

end Alike

theorem alike_start (hd : ∀ sig, (d sig).handler ≠ addr) : Alike addr (start d) (start d) :=
  ⟨rfl, rfl, rfl, rfl, rfl, rfl, rfl, nofun, hd, rfl⟩

/-- A thread that waits for itself does so for ever. -/
theorem stuck_of_move (h : Move addr s a t) (hstuck : t.stuck = []) : s.stuck = [] := by
  cases h with
  | stick => exact (List.append_eq_nil_iff.mp hstuck).1
  | _ => exact hstuck

/-- What a run has done, as long as it goes on, could be done without `except.c`. -/
def HasAlike (addr : Addr) (d : Signal → Sigaction) (as : List Action) (s : Process) : Prop :=
  s.ended = false → s.stuck = [] → ∃ p,
    run (step false addr) (start d) (as.filter Action.ofProgram) = some p ∧ Alike addr s p

theorem HasAlike.of_step (h : HasAlike addr d as s) (hsets : SetsOutside addr s a)
    (hstep : step false addr s a = some t) : HasAlike addr d (as ++ [a]) t := by
  intro hended hstuck
  obtain ⟨hs, hmove⟩ := move_of_step hstep
  obtain ⟨p, hp, halike⟩ := h hs (stuck_of_move hmove hstuck)
  obtain ⟨p', hp', halike'⟩ := halike.step hmove hsets hended hstuck
  rw [List.filter_append]
  exact ⟨p', (run_append_eq_some _).mpr ⟨p, hp, hp'⟩, halike'⟩

/-- **As long as the program goes on, `except.c` makes no difference to its handlers.**  Take a run
in which handlers are set outside of `cc_except_init` and `cc_except_fini` only, that has not ended,
and in which no signal has been caught in a thread that was in a call of the log.  Without the calls
of the two the same run is possible; the same handlers have been called in it, for the same signals,
with the same arguments and in the same order; as many of them are still running; and they are set
as they would be after `cc_except_fini`. -/
theorem cc_except_transparent (hd : ∀ sig, (d sig).handler ≠ addr)
    (hrun : run (step false addr) (start d) as = some s)
    (hsets : EveryStep (step false addr) (SetsOutside addr) (start d) as)
    (hended : s.ended = false) (hstuck : s.stuck = []) :
    ∃ p, run (step false addr) (start d) (as.filter Action.ofProgram) = some p ∧
      p.ended = false ∧ p.logged = [] ∧ p.streamMutex = s.streamMutex ∧ p.calls = s.calls ∧
      p.running.length = s.running.length ∧ p.disposition = s.ownHandlers := by
  have hstart : HasAlike addr d [] (start d) := fun _ _ => ⟨start d, rfl, alike_start hd⟩
  obtain ⟨p, hp, halike⟩ := run_history_of_everyStep
    (fun _ _ _ _ hs hQ hstep => HasAlike.of_step hs hQ hstep) hstart hsets hrun hended hstuck
  refine ⟨p, hp, halike.ended, halike.logged, halike.streamMutex, halike.calls, ?_,
    halike.handlers⟩
  rw [halike.running, List.length_map]

/-- A signal is delivered to a thread, with an empty stack. -/
def terminate : Action := .deliver 0 .sigterm ⟨0, []⟩ [] (List.replicate 16 0)

/-- A handler that leaves by `longjmp`, while another thread prints. -/
theorem cc_except_transparent_one_signal : ∃ p,
    run (step false 5) (start sevens) [.lock 1, .unlock 1, terminate, .lock 1, .leaves 0] =
      some p ∧ p.calls = [⟨7, .sigterm, true⟩] := by
  obtain ⟨p, hp, -, -, -, hcalls, -⟩ := cc_except_transparent
    (fun _ => (by decide : (7 : Addr) ≠ 5))
    (show run (step false 5) (start sevens) [.lock 1, .ccExceptInit, .unlock 1, terminate, .lock 1,
      .leaves 0] = some _ from rfl)
    (fun _ _ => ⟨trivial, fun _ _ => ⟨trivial, fun _ _ => ⟨trivial, fun _ _ => ⟨trivial,
      fun _ _ => ⟨trivial, fun _ _ => ⟨trivial, trivial⟩⟩⟩⟩⟩⟩) rfl rfl
  exact ⟨p, hp, hcalls⟩

/-! ## What is reported -/

/-- A thread has the mutex, and `handle_posix_sig` waits for it in the same thread. -/
def Process.SelfLocked (s : Process) (thread : ℕ) : Prop :=
  s.streamMutex = some thread ∧ thread ∈ s.stuck

/-- **Nobody comes out of it**, and nobody else is reported. -/
theorem Process.SelfLocked.of_move (hs : s.SelfLocked thread) (h : Move addr s a t) :
    t.SelfLocked thread ∧ t.logged = s.logged := by
  obtain ⟨hmutex, hthread⟩ := hs
  have hnot : s.streamMutex ≠ none := fun hfree => nomatch hfree.symm.trans hmutex
  cases h with
  | lock hfree => exact absurd hfree hnot
  | unlock hheld hgoes =>
    obtain rfl := Option.some.inj (hheld.symm.trans hmutex)
    exact absurd hthread hgoes
  | stick => exact ⟨⟨hmutex, List.mem_append_left _ hthread⟩, rfl⟩
  | forward _ hfree => exact absurd hfree hnot
  | exit _ hfree => exact absurd hfree hnot
  | _ => exact ⟨⟨hmutex, hthread⟩, rfl⟩

theorem Process.SelfLocked.of_run (hs : s.SelfLocked thread)
    (hrun : run (step false addr) s as = some t) :
    t.SelfLocked thread ∧ t.logged = s.logged := by
  refine run_induction (P := fun u => u.SelfLocked thread ∧ u.logged = s.logged)
    (fun x a y hx hstep => ?_) ⟨hs, rfl⟩ hrun
  obtain ⟨hy, hlogged⟩ := hx.1.of_move (move_of_step hstep).2
  exact ⟨hy, hlogged.trans hx.2⟩

/-- **A signal has been reported, and forwarded** to the handler that the program has set for it
outside of `cc_except_init` and `cc_except_fini`, if it is not `SIGINT` and if there is one; else
the program has ended. -/
structure Reported (own : Signal → Sigaction) (sig : Signal) (siginfo : Siginfo)
    (fnames : List CString) (s t : Process) : Prop where
  /-- with its text, and with the frames from the third on -/
  logged : ∃ str : CString, str.chars = backtraceStr ++ linesText (fnames.drop 2) ∧
    t.logged = s.logged ++ [.printf (caughtText siginfo sig), .print str]
  ended : t.ended = true ↔ sig = .sigint ∨ (own sig).handler = sigDfl
  calls : t.calls = s.calls ++ if t.ended = true then [] else
    [⟨(own sig).handler, sig, (own sig).siginfo⟩]

/-- Where the log is free, and the signal has not been ignored, it is reported. -/
theorem reported_of_handlers (hended : s.ended = false) (hfree : s.streamMutex = none)
    (haddr : (s.disposition sig).handler = addr)
    (hmsg : msg.length = (stackText 1 fnames).length + 1)
    (hsent : sig = .sigint ∨ (s.old sig).handler ≠ sigIgn) :
    ∃ t, step false addr s (.deliver thread sig siginfo fnames msg) = some t ∧
      Reported s.old sig siginfo fnames s t := by
  have hstr := chars_stringOf 1 fnames
  have hdelivered : step false addr s (.deliver thread sig siginfo fnames msg) =
      reportSig s sig siginfo fnames msg := by
    rw [step_of_running hended, act, deliver, if_pos haddr, handlePosixSig, hfree,
      if_neg (Option.some_ne_none _).symm, if_neg (not_not.mpr rfl)]
  rw [hdelivered, reportSig_eq s sig siginfo hmsg, signalForward_eq]
  by_cases hlast : sig = .sigint ∨ (s.old sig).handler = null
  · refine ⟨{ s.report sig siginfo fnames with ended := true }, ?_, ⟨_, hstr, rfl⟩,
      iff_of_true rfl hlast, (List.append_nil _).symm⟩
    split
    · rfl
    · rw [if_pos (hlast.resolve_left ‹_›)]
  · obtain ⟨hsig, hnull⟩ := not_or.mp hlast
    refine ⟨(s.report sig siginfo fnames).call (s.old sig) sig (s.old sig).siginfo .handlePosixSig,
      ?_, ⟨_, hstr, rfl⟩, iff_of_false (Bool.eq_false_iff.mp hended) hlast, ?_⟩
    · rw [if_neg hsig, if_neg hnull, if_neg (hsent.resolve_left hsig)]
    · rw [if_neg (show ¬((s.report sig siginfo fnames).call (s.old sig) sig (s.old sig).siginfo
        .handlePosixSig).ended = true from Bool.eq_false_iff.mp hended)]
      rfl

/-- **A caught signal is reported and forwarded, unless its thread is printing or it had been
ignored.**  After any run that has not ended, let a signal for which `handle_posix_sig` stands be
delivered to a thread while no other thread is in a call of the log.  It is reported and forwarded
exactly if the thread itself is in none either and, `SIGINT` apart, the program has not set
`SIG_IGN` for it.  If the thread is in a call of the log, `handle_posix_sig` waits for the end of
this call, which does not come: the mutex stays taken, and nothing is reported any more. -/
theorem cc_except_reports_iff (hrun : run (step false addr) (start d) as = some s)
    (hended : s.ended = false) (hinited : s.inited = true)
    (haddr : (s.disposition sig).handler = addr)
    (hothers : ∀ other, s.streamMutex = some other → other = thread)
    (hmsg : msg.length = (stackText 1 fnames).length + 1) :
    ∃ own, run setHandler d (trace (step false addr) ownSetting (start d) as) = some own ∧
      ((∃ t, step false addr s (.deliver thread sig siginfo fnames msg) = some t ∧
          Reported own sig siginfo fnames s t) ↔
        s.streamMutex ≠ some thread ∧ (sig = .sigint ∨ (own sig).handler ≠ sigIgn)) ∧
      (s.streamMutex = some thread →
        ∃ t, step false addr s (.deliver thread sig siginfo fnames msg) = some t ∧
          ∀ bs u, run (step false addr) t bs = some u →
            u.streamMutex = some thread ∧ u.logged = s.logged) := by
  refine ⟨s.old, (ownHandlers_of_run hrun).trans
    (congrArg some (Process.ownHandlers_of_inited hinited)), ⟨?_, ?_⟩, fun hheld => ?_⟩
  · rintro ⟨t, ht, ⟨str, -, hlogged⟩, -, -⟩
    cases (move_of_step ht).2 with
    | stick => exact absurd (List.self_eq_append_right.mp hlogged) (List.cons_ne_nil _ _)
    | forward _ hfree _ _ hign => exact ⟨hfree ▸ (Option.some_ne_none _).symm, Or.inr hign⟩
    | exit _ hfree hlast =>
      refine ⟨hfree ▸ (Option.some_ne_none _).symm, hlast.imp_right fun hnull => ?_⟩
      rw [hnull]
      decide
    | kill hne => exact absurd haddr hne
    | ignore hne => exact absurd haddr hne
    | call hne => exact absurd haddr hne
  · rintro ⟨hnot, hsent⟩
    have hfree : s.streamMutex = none := by
      cases hmutex : s.streamMutex with
      | none => rfl
      | some other => exact absurd (hothers other hmutex ▸ hmutex) hnot
    exact reported_of_handlers hended hfree haddr hmsg hsent
  · have hstep : step false addr s (.deliver thread sig siginfo fnames msg) =
        some { s with stuck := s.stuck ++ [thread] } := by
      rw [step_of_running hended, act, deliver, if_pos haddr, handlePosixSig, if_pos hheld]
    have hlocked : Process.SelfLocked { s with stuck := s.stuck ++ [thread] } thread :=
      ⟨hheld, List.mem_append_right _ (List.mem_singleton_self _)⟩
    refine ⟨_, hstep, fun bs u hu => ?_⟩
    obtain ⟨⟨hmutex, -⟩, hlogged⟩ := hlocked.of_run hu
    exact ⟨hmutex, hlogged⟩

/-- The first signal of a program. -/
theorem cc_except_reports_iff_first : ∃ s t,
    run (step false 5) (start sevens) [.ccExceptInit] = some s ∧ step false 5 s terminate = some t ∧
      t.calls = [⟨7, .sigterm, true⟩] := by
  obtain ⟨own, hown, hreports, -⟩ := @cc_except_reports_iff 5 sevens _ [.ccExceptInit] 0 .sigterm
    ⟨0, []⟩ [] (List.replicate 16 0) rfl rfl rfl rfl nofun rfl
  obtain rfl := Option.some.inj hown
  obtain ⟨t, ht, -, hended, hcalls⟩ := hreports.mpr ⟨nofun, Or.inr (by decide)⟩
  rw [if_neg (fun h => absurd (hended.mp h) (by decide))] at hcalls
  exact ⟨_, t, rfl, ht, hcalls⟩

/-! ## Without assertions -/

/-- Where nothing is installed. -/
theorem reportSig_uninitialised (s : Process) (sig : Signal) (siginfo : Siginfo)
    (fnames : List CString) (msg : List UInt8) :
    reportSig { s with inited := false } sig siginfo fnames msg =
      (reportSig s sig siginfo fnames msg).map fun t => { t with inited := false } := by
  rw [reportSig, reportSig, Option.map_bind]
  refine congrArg _ (funext fun out => ?_)
  cases sig with
  | sigint => rfl
  | _ =>
    dsimp only [Function.comp_apply]
    rw [signalForward_eq, signalForward_eq]
    split
    · rfl
    · split <;> rfl

theorem deliver_uninitialised (s : Process) (thread : ℕ) (sig : Signal) (siginfo : Siginfo)
    (fnames : List CString) (msg : List UInt8) :
    deliver addr { s with inited := false } thread sig siginfo fnames msg =
      (deliver addr s thread sig siginfo fnames msg).map fun t => { t with inited := false } := by
  rw [deliver, deliver]
  dsimp only
  split
  · rw [handlePosixSig, handlePosixSig]
    dsimp only
    split
    · rfl
    · split
      · rfl
      · exact reportSig_uninitialised s sig siginfo fnames msg
  · split
    · rfl
    · split <;> rfl

/-- **Only `inited` can tell that the two have been called.** -/
theorem step_uninitialised (h : step true addr s a = some t) :
    run (step true addr) { s with inited := false } ([a].filter Action.ofProgram) =
      some { t with inited := false } := by
  obtain ⟨hended, h⟩ := Option.ite_none_left_eq_some.mp h
  have hrunning : s.ended = false := Bool.eq_false_of_not_eq_true hended
  have hone : act true addr { s with inited := false } a = some { t with inited := false } →
      run (step true addr) { s with inited := false } [a] = some { t with inited := false } :=
    fun ha => (run_cons_eq_some _).mpr
      ⟨_, (step_of_running (s := { s with inited := false }) hrunning a).trans ha, rfl⟩
  cases a with
  | ccExceptInit => exact Option.some.inj h ▸ rfl
  | ccExceptFini =>
    rw [← Option.some.inj h, ccExceptFini]
    split <;> rfl
  | sigaction => exact hone (Option.some.inj h ▸ rfl)
  | lock thread =>
    obtain ⟨hfree, h⟩ := Option.ite_none_right_eq_some.mp h
    exact hone ((if_pos hfree).trans (Option.some.inj h ▸ rfl))
  | unlock thread =>
    obtain ⟨hheld, h⟩ := Option.ite_none_right_eq_some.mp h
    exact hone ((if_pos hheld).trans (Option.some.inj h ▸ rfl))
  | deliver thread sig siginfo fnames msg =>
    refine hone ((deliver_uninitialised s thread sig siginfo fnames msg).trans ?_)
    rw [show deliver addr s thread sig siginfo fnames msg = some t from h]
    rfl
  | returns k =>
    refine hone ?_
    rw [act] at h ⊢
    dsimp only
    split at h
    · exact Option.some.inj h ▸ rfl
    · exact Option.some.inj h ▸ rfl
    · cases h
  | leaves k =>
    obtain ⟨hk, h⟩ := Option.ite_none_right_eq_some.mp h
    exact hone ((if_pos hk).trans (Option.some.inj h ▸ rfl))

/-- What a run has done could be done without the two calls. -/
def Uninstalled (addr : Addr) (d : Signal → Sigaction) (as : List Action) (s : Process) : Prop :=
  run (step true addr) (start d) (as.filter Action.ofProgram) = some { s with inited := false }

theorem Uninstalled.of_step (h : Uninstalled addr d as s) (hstep : step true addr s a = some t) :
    Uninstalled addr d (as ++ [a]) t := by
  rw [Uninstalled, List.filter_append]
  exact (run_append_eq_some _).mpr ⟨_, h, step_uninitialised hstep⟩

/-- **Without assertions nothing is caught.**  Where `NDEBUG` is defined, a run of any program is
the run without the calls of `cc_except_init` and `cc_except_fini`, but for the value of
`inited`. -/
theorem cc_except_without_assertions (hrun : run (step true addr) (start d) as = some s) :
    run (step true addr) (start d) (as.filter Action.ofProgram) =
      some { s with inited := false } := by
  have hstart : Uninstalled addr d [] (start d) := rfl
  exact run_history (fun _ _ _ _ hs hstep => Uninstalled.of_step hs hstep) hstart hrun

/-- The signal goes to the handler of the program itself. -/
theorem cc_except_without_assertions_one_signal : ∃ s,
    run (step true 5) (start sevens) [terminate] = some s ∧ s.calls = [⟨7, .sigterm, true⟩] :=
  ⟨_, cc_except_without_assertions (show run (step true 5) (start sevens)
    [.ccExceptInit, terminate] = some _ from rfl), rfl⟩

end Except
end CCore
