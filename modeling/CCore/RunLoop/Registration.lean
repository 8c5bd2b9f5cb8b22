import CCore.RunLoop.Model

/-!
# The registered programs

The circular list of a run loop holds exactly the entries between their
registration and their removal, in the order of registration, and a pass makes its
body once at each of them.

`WellFormed` is the invariant: the links are a ring through `registered`, no place
of it is `NULL`, and every registered period is positive.  The last part holds
because `rand() % interval` would have ended the program otherwise.

`pass_eq` turns the inner loop into a fold over the registered entries, and
`foldl_visit_entry` and `foldl_visit_events` say what the fold does: each entry is
changed once, by `ticked`, and the events are those of the single visits, one
after the other.
-/

namespace CCore
namespace RunLoop

open CircularLinks

/-! ## The effect of one visit -/

/-- The countdown reaches zero. -/
def Fires (delta : UInt64) (e : RlEntry) : Prop := e.acc - delta ≤ 0

instance (delta : UInt64) (e : RlEntry) : Decidable (Fires delta e) := by
  unfold Fires; infer_instance

/-- An entry after its visit. -/
def ticked (delta : UInt64) (e : RlEntry) : RlEntry :=
  if Fires delta e then { e with acc := e.acc - delta + e.interval.toUInt64 }
  else { e with acc := e.acc - delta }

/-- The events of a visit. -/
def visitEvents (newT delta : UInt64) (prog : Addr) (e : RlEntry) : List Event :=
  .visit prog :: if Fires delta e then [.call prog e.main newT e.data] else []

variable {s s' : Loop} {newT delta : UInt64}

@[simp] theorem ticked_interval (delta : UInt64) (e : RlEntry) :
    (ticked delta e).interval = e.interval := by
  unfold ticked
  split <;> rfl

@[simp] theorem visit_entry (prog : Addr) : (visit newT delta s prog).entry =
    Function.update s.entry prog (ticked delta (s.entry prog)) := rfl

@[simp] theorem visit_events (prog : Addr) : (visit newT delta s prog).events =
    s.events ++ visitEvents newT delta prog (s.entry prog) := rfl

/-- What the visits of a pass leave as it is. -/
structure SameLinks (s s' : Loop) : Prop where
  programs : s'.programs = s.programs
  next : s'.next = s.next
  prev : s'.prev = s.prev
  registered : s'.registered = s.registered
  t : s'.t = s.t

theorem foldl_visit_sameLinks (newT delta : UInt64) (es : List Addr) (s : Loop) :
    SameLinks s (es.foldl (visit newT delta) s) := by
  induction es generalizing s with
  | nil => exact ⟨rfl, rfl, rfl, rfl, rfl⟩
  | cons e es ih =>
    obtain ⟨hprograms, hnext, hprev, hregistered, ht⟩ := ih (visit newT delta s e)
    exact ⟨hprograms, hnext, hprev, hregistered, ht⟩

/-- **Each entry is changed once.** -/
theorem foldl_visit_entry {es : List Addr} (hnodup : es.Nodup) (x : Addr) :
    (es.foldl (visit newT delta) s).entry x =
      if x ∈ es then ticked delta (s.entry x) else s.entry x := by
  induction es generalizing s with
  | nil => rfl
  | cons e es ih =>
    obtain ⟨he, hes⟩ := List.nodup_cons.mp hnodup
    rw [List.foldl_cons, ih hes, visit_entry]
    rcases eq_or_ne x e with rfl | hx
    · rw [if_neg he, if_pos List.mem_cons_self, Function.update_self]
    · rw [Function.update_of_ne hx]
      simp only [List.mem_cons, hx, false_or]

/-- **The events of a pass are those of its visits.** -/
theorem foldl_visit_events {es : List Addr} (hnodup : es.Nodup) :
    (es.foldl (visit newT delta) s).events =
      s.events ++ es.flatMap fun x => visitEvents newT delta x (s.entry x) := by
  induction es generalizing s with
  | nil => exact (List.append_nil _).symm
  | cons e es ih =>
    obtain ⟨he, hes⟩ := List.nodup_cons.mp hnodup
    have hother : ∀ x ∈ es, visitEvents newT delta x ((visit newT delta s e).entry x) =
        visitEvents newT delta x (s.entry x) := by
      intro x hx
      have hne : x ≠ e := fun h => he (h ▸ hx)
      rw [visit_entry, Function.update_of_ne hne]
    rw [List.foldl_cons, ih hes, List.flatMap_congr hother, visit_events, List.flatMap_cons,
      List.append_assoc]

/-! ## The invariant -/

/-- **The links are a ring through the registered entries.** -/
structure WellFormed (s : Loop) : Prop where
  ring : Ring s.next s.prev s.programs s.registered
  null_notMem : null ∉ s.programs :: s.registered
  interval_pos : ∀ e ∈ s.registered, 0 < (s.entry e).interval.toInt

theorem wellFormed_new {programs : Addr} {entry : Addr → RlEntry} {next prev : Addr → Addr}
    {t : UInt64} (h : programs ≠ null) : WellFormed (ccRunLoopNew programs entry next prev t) := by
  refine ⟨⟨List.isChain_pair.mpr ⟨?_, ?_⟩, List.nodup_singleton _⟩, ?_, nofun⟩
  · exact Function.update_self ..
  · exact Function.update_self ..
  · exact fun hmem => h (List.mem_singleton.mp hmem).symm

/-- `loop_thread` before the inner loop of a pass. -/
def beforePass (s : Loop) (newT : UInt64) : Loop :=
  { s with t := newT, interval := 18446744073709551615 }

/-- `loop_thread` after the inner loop of a pass. -/
def afterPass (s : Loop) : Loop :=
  { s with interval := if s.interval < maxRloopWait then s.interval else maxRloopWait }

/-- **A pass, without its loop.**  The fuel is enough, and the inner loop is a fold
over the registered entries. -/
theorem pass_eq (h : WellFormed s) :
    pass s newT = some (afterPass
      (s.registered.foldl (visit newT (newT - s.t)) (beforePass s newT))) := by
  have hring : Ring (beforePass s newT).next s.prev s.programs s.registered := h.ring
  have hloop : forTo Loop.next (visit newT (newT - s.t)) s.programs s.registered.length
      (beforePass s newT) (s.next s.programs) =
        some (s.registered.foldl (visit newT (newT - s.t)) (beforePass s newT)) :=
    hring.forTo_eq (visit newT (newT - s.t)) (fun _ _ => rfl) le_rfl
  exact congrArg (Option.map afterPass) hloop

/-- What a pass does, in terms of the entries before it. -/
structure Passed (newT : UInt64) (s s' : Loop) : Prop where
  links : SameLinks (beforePass s newT) s'
  entry : ∀ x, s'.entry x =
    if x ∈ s.registered then ticked (newT - s.t) (s.entry x) else s.entry x
  events : s'.events =
    s.events ++ s.registered.flatMap fun x => visitEvents newT (newT - s.t) x (s.entry x)

theorem passed_of_pass (h : WellFormed s) (hpass : pass s newT = some s') :
    Passed newT s s' := by
  rw [pass_eq h, Option.some.injEq] at hpass
  have hnodup := (List.nodup_cons.mp h.ring.nodup).2
  subst hpass
  obtain ⟨hprograms, hnext, hprev, hregistered, ht⟩ :=
    foldl_visit_sameLinks newT (newT - s.t) s.registered (beforePass s newT)
  exact ⟨⟨hprograms, hnext, hprev, hregistered, ht⟩, foldl_visit_entry hnodup,
    foldl_visit_events hnodup⟩

theorem wellFormed_pass (h : WellFormed s) (hpass : Passed newT s s') : WellFormed s' := by
  obtain ⟨⟨hprograms, hnext, hprev, hregistered, -⟩, hentry, -⟩ := hpass
  refine ⟨?_, ?_, fun e he => ?_⟩
  · rw [hprograms, hnext, hprev, hregistered]
    exact h.ring
  · rw [hprograms, hregistered]
    exact h.null_notMem
  · rw [hregistered] at he
    have he' : e ∈ s.registered := he
    rw [hentry, if_pos he', ticked_interval]
    exact h.interval_pos e he

/-! ## Registration and removal -/

/-- What a registration does. -/
structure Registered (entry ticker data : Addr) (s s' : Loop) : Prop where
  fresh : entry ∉ s.registered
  registered : s'.registered = s.registered ++ [entry]
  programs : s'.programs = s.programs
  t : s'.t = s.t
  events : s'.events = s.events
  other : ∀ x, x ≠ entry → s'.entry x = s.entry x
  main : (s'.entry entry).main = ticker
  data : (s'.entry entry).data = data
  acc_lt : ((s'.entry entry).acc.toNat : ℤ) < (s'.entry entry).interval.toInt
  wellFormed : WellFormed s'

theorem period_nonneg {freq : ℚ} {interval : Int64} (hfreq : 0 < freq)
    (h : period freq = some interval) : 0 ≤ interval.toInt := by
  have hfloor : 0 ≤ ⌊1000000 / freq⌋ := Int.floor_nonneg.mpr (by positivity)
  rw [period] at h
  split at h
  · rename_i hlt
    rw [← Option.some.inj h, Int64.toInt_ofInt_of_le (le_trans (by norm_num) hfloor) hlt]
    exact hfloor
  · exact absurd h nofun

/-- A hundred thousand times a second is once in ten microseconds. -/
theorem period_100000 : period 100000 = some 10 := by
  have hdiv : (1000000 / 100000 : ℚ) = (10 : ℤ) := by norm_num
  rw [period, hdiv, Int.floor_intCast]
  rfl

/-- `rand() % interval`, as a `uint64_t`. -/
theorem toNat_ofInt_emod {interval : Int64} (hpos : 0 < interval.toInt) (rand : ℕ) :
    ((UInt64.ofInt (rand % interval.toInt)).toNat : ℤ) = rand % interval.toInt := by
  have hnonneg := Int.emod_nonneg (rand : ℤ) hpos.ne'
  have hlt := Int.emod_lt_of_pos (rand : ℤ) hpos
  have hmax := interval.toInt_lt
  rw [UInt64.ofInt, UInt64.toNat_ofNat']
  omega

/-- A registration succeeds if its entry is in no use, and the period is at least a
microsecond.  The new entry then has the period, and a countdown below it. -/
theorem register_of_period {entry ticker : Addr} {freq : ℚ} {interval : Int64}
    (hticker : ticker ≠ null) (hfreq : 0 < freq)
    (hentry : entry ∉ null :: s.programs :: s.registered)
    (hperiod : period freq = some interval) (hpos : interval ≠ 0) (data : Addr) (rand : ℕ) :
    ∃ s', ccRunLoopRegister s entry ticker freq data rand = some s' ∧
      s'.entry entry = ⟨ticker, data, UInt64.ofInt (rand % interval.toInt), interval⟩ := by
  have hused : ¬(entry = null ∨ entry = s.programs ∨ entry ∈ s.registered) := by
    rwa [List.mem_cons, List.mem_cons] at hentry
  rw [ccRunLoopRegister, ccassert_pos hticker, ccassert_pos hfreq, if_neg hused, hperiod,
    Option.bind_some, if_neg hpos]
  exact ⟨_, rfl, Function.update_self ..⟩

/-- **The tail insertion of a registration.** -/
theorem registered_of_register {entry ticker data : Addr} {freq : ℚ} {rand : ℕ}
    (h : WellFormed s) (hs : ccRunLoopRegister s entry ticker freq data rand = some s') :
    Registered entry ticker data s s' := by
  obtain ⟨-, hs⟩ := ccassert_eq_some.mp hs
  obtain ⟨hfreq, hs⟩ := ccassert_eq_some.mp hs
  split at hs
  · exact absurd hs nofun
  rename_i hused
  obtain ⟨hnull, hprograms, hfresh⟩ : entry ≠ null ∧ entry ≠ s.programs ∧ entry ∉ s.registered := by
    simpa only [not_or] using hused
  obtain ⟨interval, hperiod, hs⟩ := Option.bind_eq_some_iff.mp hs
  split at hs
  · exact absurd hs nofun
  rename_i hzero
  have hs := Option.some.inj hs
  have hpos : 0 < interval.toInt := by
    refine lt_of_le_of_ne (period_nonneg hfreq hperiod) fun hz => hzero ?_
    exact Int64.toInt_inj.mp (hz.symm.trans Int64.toInt_zero.symm)
  have hunused : entry ∉ s.programs :: (s.registered ++ []) := by
    rw [List.append_nil]
    exact fun hm => (List.mem_cons.mp hm).elim hprograms hfresh
  have hinserted : Inserted s.next s.prev s'.next s'.prev (s.registered.getLastD s.programs) entry
      s.programs := by
    have hlast : s.registered.getLastD s.programs ≠ entry := fun e => by
      rcases List.mem_cons.mp (e ▸ List.getLastD_mem_cons) with hm | hm
      · exact hprograms hm
      · exact hfresh hm
    rw [← h.ring.prev_head] at hlast ⊢
    subst hs
    refine ⟨⟨fun x hp hn => ?_, fun x hq hn => ?_⟩, ⟨?_, ?_⟩, ⟨?_, ?_⟩⟩
    all_goals simp [hlast.symm, *]
  have hring : Ring s'.next s'.prev s.programs (s.registered ++ [entry]) := by
    have hold : Ring s.next s.prev s.programs (s.registered ++ []) :=
      (List.append_nil s.registered).symm ▸ h.ring
    exact hold.insert hunused hinserted
  have hentry : s'.entry entry =
      ⟨ticker, data, UInt64.ofInt (rand % interval.toInt), interval⟩ := by
    rw [← hs]
    exact Function.update_self ..
  have hother : ∀ x, x ≠ entry → s'.entry x = s.entry x := fun x hx => by
    rw [← hs]
    exact Function.update_of_ne hx ..
  have hregistered : s'.registered = s.registered ++ [entry] := hs ▸ rfl
  have hsame : s'.programs = s.programs := hs ▸ rfl
  refine ⟨hfresh, hregistered, hsame, hs ▸ rfl, hs ▸ rfl, hother, by rw [hentry], by rw [hentry],
    ?_, ?_, ?_, fun e he => ?_⟩
  · rw [hentry, toNat_ofInt_emod hpos]
    exact Int.emod_lt_of_pos _ hpos
  · rw [hsame, hregistered]
    exact hring
  · have hnotMem := h.null_notMem
    rw [hsame, hregistered]
    simp only [List.mem_cons, List.mem_append, List.not_mem_nil, or_false, not_or] at hnotMem ⊢
    exact ⟨hnotMem.1, hnotMem.2, hnull.symm⟩
  · rw [hregistered] at he
    rcases List.mem_append.mp he with he | he
    · rw [hother e fun h' => hfresh (h' ▸ he)]
      exact h.interval_pos e he
    · rw [List.mem_singleton.mp he, hentry]
      exact hpos

/-- What a removal does. -/
structure Unregistered (handle : Addr) (s s' : Loop) : Prop where
  mem : handle ∈ s.registered
  registered : s'.registered = s.registered.erase handle
  programs : s'.programs = s.programs
  t : s'.t = s.t
  events : s'.events = s.events
  entry : s'.entry = s.entry
  wellFormed : WellFormed s'

/-- **The removal of an entry.** -/
theorem unregistered_of_unregister {handle : Addr} (h : WellFormed s)
    (hs : ccRunLoopUnregister s handle = some s') : Unregistered handle s s' := by
  obtain ⟨-, hs⟩ := ccassert_eq_some.mp hs
  obtain ⟨-, hs⟩ := ccassert_eq_some.mp hs
  split at hs
  · exact absurd hs nofun
  rename_i hmem
  have hmem := not_not.mp hmem
  have hs := Option.some.inj hs
  obtain ⟨as, bs, has⟩ := List.append_of_mem hmem
  have hring := h.ring
  rw [has] at hring
  have hnotMem : handle ∉ as := fun hm =>
    (List.nodup_append.mp (List.nodup_cons.mp hring.nodup).2).2.2 _ hm _ List.mem_cons_self rfl
  have hremoved : Removed s.next s.prev s'.next s'.prev (s.prev handle) handle (s.next handle) := by
    have hprev := hring.prev_ne
    have hnext := hring.next_ne
    subst hs
    refine ⟨⟨fun x hp hn => ?_, fun x hq hn => ?_⟩, ?_, ?_⟩
    all_goals simp [hprev.symm, *]
  rw [hring.prev_mem, hring.next_mem] at hremoved
  have herase : s.registered.erase handle = as ++ bs := by
    rw [has, List.erase_append_right _ hnotMem, List.erase_cons_head]
  have hregistered : s'.registered = s.registered.erase handle := hs ▸ rfl
  have hsame : s'.programs = s.programs := hs ▸ rfl
  have hentry : s'.entry = s.entry := hs ▸ rfl
  have hsub : s'.registered ⊆ s.registered := hregistered ▸ List.erase_subset
  refine ⟨hmem, hregistered, hsame, hs ▸ rfl, hs ▸ rfl, hentry, ?_, fun hm => ?_, fun e he => ?_⟩
  · rw [hsame, hregistered, herase]
    exact hring.remove hremoved
  · rw [hsame] at hm
    exact h.null_notMem (List.cons_subset_cons _ hsub hm)
  · rw [hentry]
    exact h.interval_pos e (hsub he)

theorem wellFormed_step {a : Action} (h : WellFormed s) (hs : step s a = some s') :
    WellFormed s' := by
  cases a with
  | pass newT => exact wellFormed_pass h (passed_of_pass h hs)
  | register entry ticker freq data rand => exact (registered_of_register h hs).wellFormed
  | unregister handle => exact (unregistered_of_unregister h hs).wellFormed

theorem wellFormed_of_reachable (h : Reachable s) : WellFormed s := by
  obtain ⟨programs, entry, next, prev, t, as, hprograms, hrun⟩ := h
  exact Runs.run_induction (fun _ _ _ => wellFormed_step) (wellFormed_new hprograms) hrun

end RunLoop
end CCore
