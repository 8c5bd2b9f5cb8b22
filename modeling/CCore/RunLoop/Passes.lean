import CCore.RunLoop.Registration

/-!
# What a pass visits, and what is freed at the end

Which entries are registered can be told from the calls alone: a registration puts its entry at
the end, and a removal takes it out.  `registeredBy` does so, without looking at the links, and
the locked regions of a run, in whatever order they come, leave the list in this state
(`registered_of_run`).

Then a pass visits these entries in this order, each of them once, and its inner loop ends at
the sentinel.  `cc_run_loop_delete` goes along the same links when the thread has ended, and
frees every entry it leaves behind.  It must not read the link of an entry that it has freed,
so the model of its loop fails where one is read, and where an entry is freed twice.
-/

namespace CCore
namespace RunLoop

open CircularLinks Runs

/-! ## The calls -/

/-- What a locked region makes of the registered entries. -/
def Action.onRegistered (registered : List Addr) : Action → List Addr
  | .pass _ => registered
  | .register entry _ _ _ _ => registered ++ [entry]
  | .unregister handle => registered.erase handle

/-- The entries that are registered after these locked regions, in the order of their
registration. -/
def registeredBy (as : List Action) : List Addr := as.foldl Action.onRegistered []

/-- The handle that a registration returns. -/
def Action.registers : Action → Option Addr
  | .pass _ => none
  | .register entry _ _ _ _ => some entry
  | .unregister _ => none

/-- The entry that an event is the visit of. -/
def Event.visited : Event → Option Addr
  | .visit prog => some prog
  | .call _ _ _ _ => none

/-- The entries that are visited, in order. -/
def Loop.visits (s : Loop) : List Addr := s.events.filterMap Event.visited

/-- `cc_run_loop_delete`, after the loop thread has been joined: the addresses that are passed to
`cc_free`, in order.  `stop` is false until this call sets it.  The links of an entry that has
been freed cannot be read, and it cannot be freed again.  The loop itself is freed last;
`programs` lies twenty-four bytes into it. -/
def ccRunLoopDelete (s : Loop) : Option (List Addr) :=
  let next (freed : List Addr) (entry : Addr) := if entry ∈ freed then none else some (s.next entry)
  let free (freed : List Addr) (entry : Addr) :=
    if entry ∈ freed then none else some (freed ++ [entry])
  (drainTo next free s.programs s.registered.length [] (s.next s.programs)).map fun freed =>
    freed ++ [s.programs - 24]

/-! ## Registered by the calls -/

variable {s s' : Loop} {as : List Action}

theorem registered_of_step {a : Action} (h : WellFormed s) (hs : step s a = some s') :
    s'.programs = s.programs ∧ s'.registered = a.onRegistered s.registered := by
  cases a with
  | pass newT =>
    obtain ⟨hprograms, -, -, hregistered, -⟩ := (passed_of_pass h hs).links
    exact ⟨hprograms, hregistered⟩
  | register entry ticker freq data rand =>
    have hregistered := registered_of_register h hs
    exact ⟨hregistered.programs, hregistered.registered⟩
  | unregister handle =>
    have hunregistered := unregistered_of_unregister h hs
    exact ⟨hunregistered.programs, hunregistered.registered⟩

/-- **The list is what the calls say.** -/
theorem registered_of_run (h : WellFormed s) (hrun : run step s as = some s') :
    WellFormed s' ∧ s'.programs = s.programs ∧
      s'.registered = as.foldl Action.onRegistered s.registered := by
  induction as generalizing s with
  | nil =>
    cases hrun
    exact ⟨h, rfl, rfl⟩
  | cons a as ih =>
    obtain ⟨s₁, hs₁, hrun⟩ := (run_cons_eq_some step).mp hrun
    obtain ⟨hprograms₁, hregistered₁⟩ := registered_of_step h hs₁
    obtain ⟨h', hprograms, hregistered⟩ := ih (wellFormed_step h hs₁) hrun
    exact ⟨h', hprograms.trans hprograms₁, by rw [hregistered, hregistered₁, List.foldl_cons]⟩

/-- An entry comes in with its registration only. -/
theorem notMem_foldl_onRegistered {entry : Addr} {registered : List Addr}
    (hregistered : entry ∉ registered) (has : ∀ a ∈ as, a.registers ≠ some entry) :
    entry ∉ as.foldl Action.onRegistered registered := by
  induction as generalizing registered with
  | nil => exact hregistered
  | cons a as ih =>
    obtain ⟨ha, has⟩ := List.forall_mem_cons.mp has
    refine ih (fun hmem => ?_) has
    cases a with
    | pass newT => exact hregistered hmem
    | register e ticker freq data rand =>
      rcases List.mem_append.mp hmem with hmem | hmem
      · exact hregistered hmem
      · exact ha (congrArg some (List.mem_singleton.mp hmem).symm)
    | unregister handle => exact hregistered (List.mem_of_mem_erase hmem)

/-! ## Passes -/

/-- One visit is one visit. -/
theorem filterMap_visitEvents (newT delta : UInt64) (prog : Addr) (e : RlEntry) :
    (visitEvents newT delta prog e).filterMap Event.visited = [prog] := by
  rw [visitEvents]
  split
  · rfl
  · rfl

/-- **A pass visits the registered entries.** -/
theorem visits_of_pass (h : WellFormed s) (newT : UInt64) :
    ∃ s', pass s newT = some s' ∧ s'.visits = s.visits ++ s.registered := by
  obtain ⟨s', hpass⟩ : ∃ s', pass s newT = some s' := ⟨_, pass_eq h⟩
  refine ⟨s', hpass, ?_⟩
  have heach : ∀ x ∈ s.registered, (visitEvents newT (newT - s.t) x (s.entry x)).filterMap
      Event.visited = [x] := fun x _ => filterMap_visitEvents newT (newT - s.t) x (s.entry x)
  rw [Loop.visits, (passed_of_pass h hpass).events, List.filterMap_append, List.filterMap_flatMap,
    List.flatMap_congr heach, List.flatMap_singleton', Loop.visits]

/-! ## Registration, removal and deletion -/

theorem register_of_fresh {entry ticker : Addr} {freq : ℚ} {interval : Int64}
    (hticker : ticker ≠ null) (hfreq : 0 < freq)
    (hentry : entry ∉ null :: s.programs :: s.registered)
    (hperiod : period freq = some interval) (hpos : interval ≠ 0) (data : Addr) (rand : ℕ) :
    ∃ s', ccRunLoopRegister s entry ticker freq data rand = some s' := by
  obtain ⟨s', hs', -⟩ := register_of_period hticker hfreq hentry hperiod hpos data rand
  exact ⟨s', hs'⟩

theorem WellFormed.next_mem {xs ys : List Addr} {entry : Addr} (h : WellFormed s)
    (hs : s.registered = xs ++ entry :: ys) : s.next entry = ys.headD s.programs := by
  have hring := h.ring
  rw [hs] at hring
  exact hring.next_mem

/-- A handle that is registered can be unregistered: its links are not both `NULL`. -/
theorem unregister_of_mem {handle : Addr} (h : WellFormed s) (hmem : handle ∈ s.registered) :
    ∃ s', ccRunLoopUnregister s handle = some s' := by
  obtain ⟨xs, ys, hs⟩ := List.append_of_mem hmem
  have hhandle : handle ≠ null := fun he => h.null_notMem (List.mem_cons_of_mem _ (he ▸ hmem))
  have hnext : s.next handle ≠ null := by
    rw [h.next_mem hs]
    intro he
    refine h.null_notMem ?_
    cases ys with
    | nil => exact List.mem_cons.mpr (Or.inl he.symm)
    | cons y ys =>
      rw [hs, ← he]
      exact List.mem_cons_of_mem _ (List.mem_append_right _ (List.mem_cons_of_mem _
        List.mem_cons_self))
  rw [ccRunLoopUnregister, ccassert_pos hhandle, ccassert_pos (Or.inl hnext),
    if_neg (not_not.mpr hmem)]
  exact ⟨_, rfl⟩

/-- **Deletion frees the registered entries.** -/
theorem ccRunLoopDelete_eq (h : WellFormed s) :
    ccRunLoopDelete s = some (s.registered ++ [s.programs - 24]) := by
  have hnodup := (List.nodup_cons.mp h.ring.nodup).2
  have hstep : ∀ entry xs freed, s.registered = freed ++ entry :: xs →
      entry ≠ s.programs ∧
      (if entry ∈ freed then none else some (s.next entry)) =
        some ((xs.map id).headD s.programs) ∧
      ∃ freed', (if entry ∈ freed then none else some (freed ++ [entry])) = some freed' ∧
        s.registered = freed' ++ xs := by
    intro entry xs freed hs
    have hnew : entry ∉ freed := by
      rw [hs] at hnodup
      exact fun hm => (List.nodup_append.mp hnodup).2.2 _ hm _ List.mem_cons_self rfl
    refine ⟨fun he => h.ring.head_notMem ?_, ?_, freed ++ [entry], if_neg hnew, ?_⟩
    · rw [← he, hs]
      exact List.mem_append_right _ List.mem_cons_self
    · rw [if_neg hnew, List.map_id, h.next_mem hs]
    · rw [hs, List.append_cons]
  obtain ⟨freed, hdrain, hfreed⟩ := drainTo_rule
    (fun freed entry => if entry ∈ freed then none else some (s.next entry))
    (fun freed entry => if entry ∈ freed then none else some (freed ++ [entry])) id
    (Q := fun xs freed => s.registered = freed ++ xs) hstep (List.nil_append _).symm le_rfl
  rw [List.map_id] at hdrain
  rw [ccRunLoopDelete, h.ring.next_head, hdrain, hfreed, List.append_nil, Option.map_some]

/-! ## Every run -/

/-- **What is visited and what is freed, in every run.**  After any locked regions in any order,
`registeredBy` has the registered entries, without repetition.  A pass comes to its end, and it
has visited them in this order; an entry that was removed, and not registered again, is not
among them.  Every registered handle can be removed.  And a deletion frees the same entries, in
this order, before it frees the loop. -/
theorem pass_visits_registered {programs : Addr} {entry : Addr → RlEntry}
    {next prev : Addr → Addr} {t : UInt64} (hprograms : programs ≠ null)
    (hrun : run step (ccRunLoopNew programs entry next prev t) as = some s) :
    (registeredBy as).Nodup ∧
    (∀ newT, ∃ s', step s (.pass newT) = some s' ∧ s'.visits = s.visits ++ registeredBy as) ∧
    (∀ bs handle cs, as = bs ++ .unregister handle :: cs →
      (∀ a ∈ cs, a.registers ≠ some handle) → handle ∉ registeredBy as) ∧
    (∀ handle ∈ registeredBy as, ∃ s', step s (.unregister handle) = some s') ∧
    ccRunLoopDelete s = some (registeredBy as ++ [programs - 24]) := by
  obtain ⟨h, hsame, hregistered⟩ := registered_of_run (wellFormed_new hprograms) hrun
  have hsame : s.programs = programs := hsame
  have hregistered : s.registered = registeredBy as := hregistered
  have hnodup : s.registered.Nodup := (List.nodup_cons.mp h.ring.nodup).2
  rw [← hregistered, ← hsame]
  refine ⟨hnodup, visits_of_pass h, fun bs handle cs has hcs => ?_, fun handle hmem => ?_,
    ccRunLoopDelete_eq h⟩
  · -- the registrations before the removal do not repeat the handle
    rw [has] at hrun
    obtain ⟨s₁, hs₁, -⟩ := (run_append_eq_some step).mp hrun
    obtain ⟨h₁, -, hregistered₁⟩ := registered_of_run (wellFormed_new hprograms) hs₁
    have hnodup₁ : (registeredBy bs).Nodup := by
      rw [registeredBy]
      exact hregistered₁ ▸ (List.nodup_cons.mp h₁.ring.nodup).2
    rw [hregistered, has, registeredBy, List.foldl_append, List.foldl_cons]
    exact notMem_foldl_onRegistered hnodup₁.not_mem_erase hcs
  · exact unregister_of_mem h hmem

/-- Two programs are registered and the first of them is removed. -/
theorem pass_visits_registered_one_left : ∃ s s',
    run step (ccRunLoopNew 1000 (fun _ => ⟨0, 0, 0, 0⟩) (fun _ => 0) (fun _ => 0) 0)
      [.register 2000 3000 100000 4000 5, .register 2100 3000 100000 4000 7,
        .unregister 2000] = some s ∧
    step s (.pass 5) = some s' ∧ s'.visits = s.visits ++ [2100] ∧
    ccRunLoopDelete s = some [2100, 976] := by
  obtain ⟨s₁, hs₁⟩ : ∃ s₁, step (ccRunLoopNew 1000 (fun _ => ⟨0, 0, 0, 0⟩) (fun _ => 0)
      (fun _ => 0) 0) (.register 2000 3000 100000 4000 5) = some s₁ :=
    register_of_fresh (by decide) (by norm_num) (by decide) period_100000 (by decide) 4000 5
  have hnonnull : (1000 : Addr) ≠ null := by decide
  obtain ⟨hprograms₁, hregistered₁⟩ := registered_of_step (wellFormed_new hnonnull) hs₁
  have h₁ := wellFormed_step (wellFormed_new hnonnull) hs₁
  have hfresh : 2100 ∉ null :: s₁.programs :: s₁.registered := by
    rw [hprograms₁, hregistered₁]
    decide
  obtain ⟨s₂, hs₂⟩ : ∃ s₂, step s₁ (.register 2100 3000 100000 4000 7) = some s₂ :=
    register_of_fresh (by decide) (by norm_num) hfresh period_100000 (by decide) 4000 7
  have hmem : 2000 ∈ s₂.registered := by
    rw [(registered_of_step h₁ hs₂).2, hregistered₁]
    decide
  obtain ⟨s₃, hs₃⟩ : ∃ s₃, step s₂ (.unregister 2000) = some s₃ :=
    unregister_of_mem (wellFormed_step h₁ hs₂) hmem
  have hrun := (run_cons_eq_some step).mpr ⟨s₁, hs₁, (run_cons_eq_some step).mpr
    ⟨s₂, hs₂, (run_cons_eq_some step).mpr ⟨s₃, hs₃, run_nil step s₃⟩⟩⟩
  obtain ⟨-, hpass, -, -, hdelete⟩ := pass_visits_registered hnonnull hrun
  obtain ⟨s', hs', hvisits⟩ := hpass 5
  exact ⟨s₃, s', hrun, hs', hvisits, hdelete⟩

end RunLoop
end CCore
