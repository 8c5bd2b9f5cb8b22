import CCore.ThreadPool.Progress

/-!
# In which order tasks are started

Tasks are taken from the queue in the order of their submissions, under the mutex.  But
a worker calls `task->fn` after it has given the mutex up, and another worker can
overtake it there.  How far can the order get mixed up?

When a task is called, the tasks before it that have not been called are all held by
other workers, so there are fewer of them than workers; and later on there can only be
less of them.  This is `ccpool_bounded_overtaking`.  A pool of one worker overtakes
nobody, and there the order is that of the submissions all the way to the end
(`ccpool_serial`).
-/

namespace CCore
namespace ThreadPool

open CondVar

/-! ## Overtaking -/

/-- `u` comes before `t`, and has not been called. -/
def precedes (called : List Task) (t u : Task) : Bool := u.id < t.id && u ∉ called

theorem precedes_iff {called : List Task} {t u : Task} :
    precedes called t u = true ↔ u.id < t.id ∧ u ∉ called := by
  rw [precedes, Bool.and_eq_true, decide_eq_true_iff, decide_eq_true_iff]

/-- The tasks that were submitted before `t` and have not been called. -/
def Pool.overtaken (s : Pool) (t : Task) : List Task :=
  s.submitted.filter (precedes s.called t)

theorem Pool.mem_overtaken {s : Pool} {t u : Task} :
    u ∈ s.overtaken t ↔ u ∈ s.submitted ∧ u.id < t.id ∧ u ∉ s.called := by
  rw [Pool.overtaken, List.mem_filter, precedes_iff]

theorem Conserved.nodup_overtaken {s : Pool} (h : Conserved s) (t : Task) :
    (s.overtaken t).Nodup := h.submitted_nodup.filter _

/-- The number of a submitted task is its place. -/
theorem Conserved.id_lt {s : Pool} (h : Conserved s) {t : Task} (ht : t ∈ s.submitted) :
    t.id < s.submitted.length :=
  List.mem_range.mp (h.ids ▸ List.mem_map_of_mem ht)

/-- What was submitted before a task that was taken was taken as well. -/
theorem Conserved.mem_taken_of_id_lt {s : Pool} (h : Conserved s) {t u : Task} (ht : t ∈ s.taken)
    (hu : u ∈ s.submitted) (hlt : u.id < t.id) : u ∈ s.taken := by
  have hids : s.taken.map Task.id ++ (s.discarded ++ s.tasks).map Task.id =
      List.range s.submitted.length := by
    rw [← List.map_append, ← h.order, h.ids]
  have hfront : s.taken.map Task.id = List.range s.taken.length := by
    have htake := congrArg (List.take s.taken.length) hids
    rw [List.take_left' (List.length_map _), List.take_range] at htake
    rw [htake, h.order, List.length_append, min_eq_left (Nat.le_add_right _ _)]
  rw [h.order] at hu
  rcases List.mem_append.mp hu with htaken | hlate
  · exact htaken
  · -- its number would be at least that of every taken task
    have hnodup : (List.range s.submitted.length).Nodup := List.nodup_range
    rw [← hids] at hnodup
    have htlt : t.id < s.taken.length :=
      List.mem_range.mp (hfront ▸ List.mem_map_of_mem ht)
    have hmem : u.id ∈ s.taken.map Task.id := by
      rw [hfront]
      exact List.mem_range.mpr (hlt.trans htlt)
    exact absurd rfl ((List.nodup_append.mp hnodup).2.2 _ hmem _ (List.mem_map_of_mem hlate))

/-- What a worker is about to call has overtaken nobody who is not held as well. -/
theorem Conserved.length_overtaken_lt {s : Pool} (h : Conserved s) {w : ℕ} {t : Task}
    (hw : s.workers[w]? = some (.holding t)) : (s.overtaken t).length < s.workers.length := by
  have htheld : t ∈ s.held := List.mem_filterMap.mpr ⟨_, List.mem_of_getElem? hw, rfl⟩
  have httaken : t ∈ s.taken := h.taken.mem_iff.mpr (List.mem_append_left _ htheld)
  have hheld : ∀ u ∈ s.overtaken t, u ∈ s.held := by
    intro u hu
    obtain ⟨hsubmitted, hlt, hnot⟩ := Pool.mem_overtaken.mp hu
    have htaken := h.taken.mem_iff.mp (h.mem_taken_of_id_lt httaken hsubmitted hlt)
    rcases List.mem_append.mp htaken with hheld | hfinished
    · exact hheld
    · exact absurd (h.called.mem_iff.mpr (List.mem_append_right _ hfinished)) hnot
  have hnodup : (t :: s.overtaken t).Nodup :=
    List.nodup_cons.mpr ⟨fun ht => lt_irrefl _ (Pool.mem_overtaken.mp ht).2.1,
      h.nodup_overtaken t⟩
  have hsub : t :: s.overtaken t ⊆ s.held := List.cons_subset.mpr ⟨htheld, hheld⟩
  exact (hnodup.subperm hsub).length_le.trans (List.length_filterMap_le _ _)

/-- What is being executed is held. -/
theorem Pool.inCall_subset_held (s : Pool) : s.inCall ⊆ s.held := by
  intro t ht
  obtain ⟨p, hp, hpt⟩ := List.mem_filterMap.mp ht
  refine List.mem_filterMap.mpr ⟨p, hp, ?_⟩
  cases p <;> simp_all [Worker.inCall, Worker.task]

/-- Only what was submitted is called. -/
theorem Conserved.called_subset {s : Pool} (h : Conserved s) : s.called ⊆ s.submitted := by
  intro t ht
  have htaken : t ∈ s.taken := by
    rw [h.taken.mem_iff, List.mem_append]
    exact (List.mem_append.mp (h.called.mem_iff.mp ht)).imp (fun hm => s.inCall_subset_held hm) id
  rw [h.order]
  exact List.mem_append_left _ htaken

/-- Fewer tasks are overtaken than there are workers. -/
structure OvertakesFew (n : ℕ) (s : Pool) : Prop where
  sized : Sized n s
  conserved : Conserved s
  few : ∀ t ∈ s.called, (s.overtaken t).length < n

/-- A move that neither submits nor calls overtakes nobody. -/
theorem OvertakesFew.of_same {n : ℕ} {s t : Pool} {a : Action} (h : OvertakesFew n s)
    (hm : Move s a t) (hsubmitted : t.submitted = s.submitted) (hcalled : t.called = s.called) :
    OvertakesFew n t := by
  refine ⟨sized_move h.sized hm, conserved_move h.conserved hm, fun u hu => ?_⟩
  rw [hcalled] at hu
  rw [Pool.overtaken, hsubmitted, hcalled]
  exact h.few u hu

theorem overtakesFew_move {n : ℕ} {s t : Pool} {a : Action} (h : OvertakesFew n s)
    (hm : Move s a t) : OvertakesFew n t := by
  cases hm with
  | @submit fn refcon wake ws hws =>
    refine ⟨sized_move h.sized (Move.submit hws), conserved_move h.conserved (Move.submit hws),
      fun u hu => ?_⟩
    -- the new task has a larger number than every task that was called
    have hnew : ¬precedes s.called u ⟨s.submitted.length, fn, refcon⟩ = true := fun hnew =>
      absurd (h.conserved.id_lt (h.conserved.called_subset hu))
        (Nat.lt_asymm (precedes_iff.mp hnew).1)
    show ((s.submitted ++ [_]).filter (precedes s.called u)).length < n
    rw [List.filter_append, List.filter_cons_of_neg hnew, List.filter_nil, List.append_nil]
    exact h.few u hu
  | @call w task hw =>
    refine ⟨sized_move h.sized (Move.call hw), conserved_move h.conserved (Move.call hw),
      fun u hu => ?_⟩
    have hless : (s.submitted.filter (precedes (s.called ++ [task]) u)).length ≤
        (s.overtaken u).length := by
      refine (List.monotone_filter_right _ fun v hv => ?_).length_le
      rw [precedes_iff, List.mem_append, not_or] at hv
      exact precedes_iff.mpr ⟨hv.1, hv.2.1⟩
    refine lt_of_le_of_lt hless ?_
    rcases List.mem_append.mp hu with hold | hnew
    · exact h.few u hold
    · rw [List.mem_singleton.mp hnew]
      exact (h.conserved.length_overtaken_lt hw).trans_le h.sized.length_le
  | create hlt => exact h.of_same (Move.create hlt) rfl rfl
  | sleep hw hp hq hst => exact h.of_same (Move.sleep hw hp hq hst) rfl rfl
  | exit hw hp hst => exact h.of_same (Move.exit hw hp hst) rfl rfl
  | take hw hp hst hq => exact h.of_same (Move.take hw hp hst hq) rfl rfl
  | spurious hw => exact h.of_same (Move.spurious hw) rfl rfl
  | ret hw => exact h.of_same (Move.ret hw) rfl rfl
  | complete hw hvs => exact h.of_same (Move.complete hw hvs) rfl rfl
  | wait => exact h.of_same Move.wait rfl rfl
  | waitSpurious hi => exact h.of_same (Move.waitSpurious hi) rfl rfl
  | waitCheck hi => exact h.of_same (Move.waitCheck hi) rfl rfl
  | stop hn hl => exact h.of_same (Move.stop hn hl) rfl rfl
  | join hi hlt hw => exact h.of_same (Move.join hi hlt hw) rfl rfl
  | free hi hge => exact h.of_same (Move.free hi hge) rfl rfl

/-- **Overtaking is bounded by the number of workers.**  In every reachable state, and
for every task that has been called, fewer tasks than there are workers were submitted
before it and have not been called themselves. -/
theorem ccpool_bounded_overtaking (n : ℕ) (s : Pool) (h : Reachable n s) :
    ∀ t ∈ s.called, (s.overtaken t).length < n :=
  (reachable_induction (P := OvertakesFew n) ⟨sized_start n, conserved_start n, nofun⟩
    (fun _ _ _ => overtakesFew_move) h).few

/-- Two workers have taken two tasks, and the second task is called first. -/
theorem ccpool_bounded_overtaking_two :
    (({ ccpoolStart 2 with
      inWork := 2
      workers := [.holding ⟨0, 5, 6⟩, .calling ⟨1, 7, 8⟩]
      submitted := [⟨0, 5, 6⟩, ⟨1, 7, 8⟩]
      taken := [⟨0, 5, 6⟩, ⟨1, 7, 8⟩]
      called := [⟨1, 7, 8⟩] } : Pool).overtaken ⟨1, 7, 8⟩).length < 2 :=
  ccpool_bounded_overtaking 2 _
    ⟨[.create, .create, .submit 5 6 0, .submit 7 8 0, .check 0, .check 1, .call 1], by decide⟩
    ⟨1, 7, 8⟩ (by decide)

/-! ## One worker -/

/-- What was taken is finished, up to what is held; and what was called is finished, up
to what is being executed. -/
structure Serial (s : Pool) : Prop where
  length_le : s.workers.length ≤ 1
  taken : s.taken = s.finished ++ s.held
  called : s.called = s.finished ++ s.inCall

/-- There is only one worker to move. -/
theorem workers_eq_singleton {ws : List Worker} (hle : ws.length ≤ 1) {w : ℕ} {p : Worker}
    (hw : ws[w]? = some p) : w = 0 ∧ ws = [p] := by
  obtain ⟨hlt, hp⟩ := List.getElem?_eq_some_iff.mp hw
  obtain ⟨q, rfl⟩ : ∃ q, ws = [q] := List.length_eq_one_iff.mp (by omega)
  obtain rfl : w = 0 := by
    rw [List.length_singleton] at hlt
    omega
  exact ⟨rfl, congrArg (fun p => [p]) hp⟩

/-- The worker moves between two places where it holds the same. -/
theorem Serial.set_worker {s : Pool} (h : Serial s) {w : ℕ} {p p' : Worker}
    (hw : s.workers[w]? = some p) (htask : p.task = p'.task) (hcall : p.inCall = p'.inCall) :
    Serial { s with workers := s.workers.set w p' } := by
  obtain ⟨rfl, hs⟩ := workers_eq_singleton h.length_le hw
  have htaken := h.taken
  have hcalled := h.called
  rw [Pool.held, hs, List.filterMap_cons, htask] at htaken
  rw [Pool.inCall, hs, List.filterMap_cons, hcall] at hcalled
  refine ⟨List.length_set.trans_le h.length_le, ?_, ?_⟩
  · rw [Pool.held, hs]
    exact htaken
  · rw [Pool.inCall, hs]
    exact hcalled

/-- The lists of what one worker holds have one member at most. -/
theorem Serial.filterMap_perm {s : Pool} (h : Serial s) {β : Type} (f : Worker → Option β)
    {ws : List Worker} (hperm : (ws.filterMap f).Perm (s.workers.filterMap f)) :
    ws.filterMap f = s.workers.filterMap f := by
  have hle : (s.workers.filterMap f).length ≤ 1 :=
    (List.length_filterMap_le f s.workers).trans h.length_le
  match hx : s.workers.filterMap f, hle with
  | [], _ => exact List.perm_nil.mp (hx ▸ hperm)
  | [x], _ => exact List.perm_singleton.mp (hx ▸ hperm)

theorem serial_move {s t : Pool} {a : Action} (h : Serial s) (hsized : Sized 1 s)
    (hm : Move s a t) : Serial t := by
  have hlength : t.workers.length ≤ 1 := (sized_move hsized hm).length_le
  cases hm with
  | create =>
    refine ⟨hlength, h.taken.trans ?_, h.called.trans ?_⟩
    · show _ = s.finished ++ List.filterMap _ (s.workers ++ [Worker.ready])
      rw [List.filterMap_append]
      exact congrArg _ (List.append_nil _).symm
    · show _ = s.finished ++ List.filterMap _ (s.workers ++ [Worker.ready])
      rw [List.filterMap_append]
      exact congrArg _ (List.append_nil _).symm
  | submit hws =>
    refine ⟨hlength, h.taken.trans ?_, h.called.trans ?_⟩
    · exact congrArg _ (h.filterMap_perm Worker.task (filterMap_signal hws _ rfl rfl)).symm
    · exact congrArg _ (h.filterMap_perm Worker.inCall (filterMap_signal hws _ rfl rfl)).symm
  | sleep hw hp => exact h.set_worker hw hp.task hp.inCall
  | exit hw hp => exact h.set_worker hw hp.task hp.inCall
  | @take w p task rest hw hp =>
    obtain ⟨rfl, hs⟩ := workers_eq_singleton h.length_le hw
    have htaken := h.taken
    have hcalled := h.called
    rw [Pool.held, hs, List.filterMap_cons_none hp.task, List.filterMap_nil,
      List.append_nil] at htaken
    rw [Pool.inCall, hs, List.filterMap_cons_none hp.inCall, List.filterMap_nil,
      List.append_nil] at hcalled
    refine ⟨hlength, ?_, ?_⟩
    · rw [Pool.held, hs, htaken]
      rfl
    · rw [Pool.inCall, hs, hcalled]
      exact (List.append_nil _).symm
  | spurious hw => exact h.set_worker hw rfl rfl
  | @call w task hw =>
    obtain ⟨rfl, hs⟩ := workers_eq_singleton h.length_le hw
    have htaken := h.taken
    have hcalled := h.called
    rw [Pool.held, hs] at htaken
    rw [Pool.inCall, hs] at hcalled
    refine ⟨hlength, ?_, ?_⟩
    · rw [Pool.held, hs, htaken]
      rfl
    · rw [Pool.inCall, hs, hcalled, List.append_assoc]
      rfl
  | @ret w task hw =>
    obtain ⟨rfl, hs⟩ := workers_eq_singleton h.length_le hw
    have htaken := h.taken
    have hcalled := h.called
    rw [Pool.held, hs] at htaken
    rw [Pool.inCall, hs] at hcalled
    refine ⟨hlength, ?_, ?_⟩
    · rw [Pool.held, hs, htaken]
      exact (List.append_nil _).symm
    · rw [Pool.inCall, hs, hcalled]
      exact (List.append_nil _).symm
  | complete hw =>
    have hready : Serial { s with workers := s.workers.set _ .ready } := h.set_worker hw rfl rfl
    exact ⟨hlength, hready.taken, hready.called⟩
  | stop =>
    have hheld : (broadcast Worker.asleep Worker.woken s.workers).filterMap Worker.task = s.held :=
      filterMap_broadcast s.workers Worker.task rfl
    have hcall : (broadcast Worker.asleep Worker.woken s.workers).filterMap Worker.inCall =
        s.inCall := filterMap_broadcast s.workers Worker.inCall rfl
    exact ⟨hlength, h.taken.trans (congrArg _ hheld.symm), h.called.trans (congrArg _ hcall.symm)⟩
  | wait | waitSpurious | waitCheck | join | free => exact ⟨hlength, h.taken, h.called⟩

theorem serial_of_reachable {s : Pool} (h : Reachable 1 s) : Serial s :=
  (reachable_induction (P := fun s => Sized 1 s ∧ Serial s)
    ⟨sized_start 1, Nat.zero_le 1, rfl, rfl⟩
    (fun _ _ _ h hm => ⟨sized_move h.1 hm, serial_move h.2 h.1 hm⟩) h).2

/-- **A pool of one worker is a queue.**  In every reachable state the tasks have been
called in the order of their submissions, they have returned in this order, and all
that were called have returned but the last one, at most. -/
theorem ccpool_serial (s : Pool) (h : Reachable 1 s) :
    s.called <+: s.submitted ∧ s.finished <+: s.called ∧
      s.called.length ≤ s.finished.length + 1 := by
  obtain ⟨hlength, htaken, hcalled⟩ := serial_of_reachable h
  have hone : s.inCall.length ≤ 1 := (List.length_filterMap_le _ _).trans hlength
  refine ⟨List.IsPrefix.trans ?_ ((conserved_of_reachable h).order ▸ List.prefix_append _ _),
    ?_, ?_⟩
  · -- what is being executed is the front of what is held
    rw [hcalled, htaken, List.prefix_append_right_inj]
    match hs : s.workers, hlength with
    | [], _ =>
      rw [Pool.inCall, hs]
      exact List.nil_prefix
    | [p], _ =>
      rw [Pool.inCall, Pool.held, hs]
      cases p with
      | calling task => exact List.prefix_refl _
      | _ => exact List.nil_prefix
  · rw [hcalled]
    exact List.prefix_append _ _
  · rw [hcalled, List.length_append]
    exact Nat.add_le_add_left hone _

/-- One worker that is inside the second of two tasks. -/
theorem ccpool_serial_second_task :
    ([⟨0, 5, 6⟩, ⟨1, 7, 8⟩] : List Task) <+: [⟨0, 5, 6⟩, ⟨1, 7, 8⟩, ⟨2, 9, 1⟩] ∧
    ([⟨0, 5, 6⟩] : List Task) <+: [⟨0, 5, 6⟩, ⟨1, 7, 8⟩] ∧ 2 ≤ 1 + 1 :=
  ccpool_serial { ccpoolStart 1 with
      inWork := 1
      tasks := [⟨2, 9, 1⟩]
      workers := [.calling ⟨1, 7, 8⟩]
      submitted := [⟨0, 5, 6⟩, ⟨1, 7, 8⟩, ⟨2, 9, 1⟩]
      taken := [⟨0, 5, 6⟩, ⟨1, 7, 8⟩]
      called := [⟨0, 5, 6⟩, ⟨1, 7, 8⟩]
      finished := [⟨0, 5, 6⟩] }
    ⟨[.create, .submit 5 6 0, .submit 7 8 0, .submit 9 1 0, .check 0, .call 0, .ret 0,
      .complete 0 0, .check 0, .call 0], by decide⟩

end ThreadPool
end CCore
