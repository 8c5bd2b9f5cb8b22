import CCore.ThreadPool.Moves

/-!
# No task is lost, duplicated, or taken after the stop

The invariant behind this is one equation between lists,

    submitted = taken ++ (discarded ++ tasks),

in the order in which the submissions entered their critical sections.  Before
the stop `discarded` is empty, so a worker that removes the first queued task
extends `taken` by the next submission; at the stop the queue moves over to
`discarded` as a whole; and after the stop nothing is taken, so a late submission
goes to the end on both sides.  First in, first out is read off it (`taken` is a
prefix), and so is the partition of all tasks, once `taken` itself is split into
what workers hold and what they have finished.
-/

namespace CCore
namespace ThreadPool

open CondVar

/-! ## What a worker holds -/

/-- The task that a worker has dequeued and not freed yet. -/
def Worker.task : Worker → Option Task
  | .holding task => some task
  | .calling task => some task
  | _ => none

/-- The task whose `fn` a worker is inside of. -/
def Worker.inCall : Worker → Option Task
  | .calling task => some task
  | _ => none

@[simp] theorem Worker.task_ready : Worker.ready.task = none := rfl
@[simp] theorem Worker.task_asleep : Worker.asleep.task = none := rfl
@[simp] theorem Worker.task_woken : Worker.woken.task = none := rfl
@[simp] theorem Worker.task_returned : Worker.returned.task = none := rfl
@[simp] theorem Worker.task_exited : Worker.exited.task = none := rfl
@[simp] theorem Worker.task_holding (t : Task) : (Worker.holding t).task = some t := rfl
@[simp] theorem Worker.task_calling (t : Task) : (Worker.calling t).task = some t := rfl
@[simp] theorem Worker.inCall_ready : Worker.ready.inCall = none := rfl
@[simp] theorem Worker.inCall_asleep : Worker.asleep.inCall = none := rfl
@[simp] theorem Worker.inCall_woken : Worker.woken.inCall = none := rfl
@[simp] theorem Worker.inCall_returned : Worker.returned.inCall = none := rfl
@[simp] theorem Worker.inCall_exited : Worker.exited.inCall = none := rfl
@[simp] theorem Worker.inCall_holding (t : Task) : (Worker.holding t).inCall = none := rfl
@[simp] theorem Worker.inCall_calling (t : Task) : (Worker.calling t).inCall = some t := rfl

theorem Worker.MayCheck.task {p : Worker} (h : p.MayCheck) : p.task = none := by
  rcases h with rfl | rfl <;> rfl

theorem Worker.MayCheck.inCall {p : Worker} (h : p.MayCheck) : p.inCall = none := by
  rcases h with rfl | rfl <;> rfl

theorem Worker.task_eq_some_iff {p : Worker} {t : Task} :
    p.task = some t ↔ p = .holding t ∨ p = .calling t := by
  cases p <;> simp [Worker.task]

/-- The tasks that workers hold. -/
def Pool.held (s : Pool) : List Task := s.workers.filterMap Worker.task

/-- The tasks whose `fn` is being executed. -/
def Pool.inCall (s : Pool) : List Task := s.workers.filterMap Worker.inCall

/-! ## The invariant -/

/-- The ledger of all tasks. -/
structure Conserved (s : Pool) : Prop where
  /-- Every submission was taken, was discarded, or is queued, in this order. -/
  order : s.submitted = s.taken ++ (s.discarded ++ s.tasks)
  /-- Only `ccpool_stop` discards. -/
  early : s.stop = false → s.discarded = []
  /-- What was taken is held by a worker or finished. -/
  taken : s.taken.Perm (s.held ++ s.finished)
  /-- What was called is being executed or finished. -/
  called : s.called.Perm (s.inCall ++ s.finished)
  /-- Submissions are numbered in order. -/
  ids : s.submitted.map Task.id = List.range s.submitted.length

theorem conserved_start (n : ℕ) : Conserved (ccpoolStart n) where
  order := rfl
  early _ := rfl
  taken := List.Perm.refl _
  called := List.Perm.refl _
  ids := rfl

/-- A move that leaves the queue and its history alone, and after which the
workers hold and execute the same tasks, keeps the ledger. -/
theorem Conserved.of_same {s t : Pool} (h : Conserved s)
    (hq : t.tasks = s.tasks ∧ t.stop = s.stop ∧ t.submitted = s.submitted ∧
      t.taken = s.taken ∧ t.discarded = s.discarded)
    (hf : t.called = s.called ∧ t.finished = s.finished) (hheld : t.held.Perm s.held)
    (hcall : t.inCall.Perm s.inCall) : Conserved t := by
  obtain ⟨h1, h2, h3, h4, h5⟩ := hq
  obtain ⟨h6, h7⟩ := hf
  constructor
  · rw [h1, h3, h4, h5]; exact h.order
  · rw [h2, h5]; exact h.early
  · rw [h4, h7]; exact h.taken.trans (hheld.symm.append_right _)
  · rw [h6, h7]; exact h.called.trans (hcall.symm.append_right _)
  · rw [h3]; exact h.ids

/-- A move that touches neither the workers nor the tasks keeps the ledger. -/
theorem Conserved.of_frame {s t : Pool} (h : Conserved s) (hw : t.workers = s.workers)
    (hq : t.tasks = s.tasks ∧ t.stop = s.stop ∧ t.submitted = s.submitted ∧
      t.taken = s.taken ∧ t.discarded = s.discarded)
    (hf : t.called = s.called ∧ t.finished = s.finished) : Conserved t := by
  refine h.of_same hq hf ?_ ?_
  · rw [Pool.held, hw]; exact List.Perm.refl _
  · rw [Pool.inCall, hw]; exact List.Perm.refl _

/-- A worker that moves between two places where it holds the same. -/
theorem Conserved.set_worker {s : Pool} (h : Conserved s) {w : ℕ} {p p' : Worker}
    (hw : s.workers[w]? = some p) (htask : p.task = p'.task) (hcall : p.inCall = p'.inCall) :
    Conserved { s with workers := s.workers.set w p' } :=
  h.of_same ⟨rfl, rfl, rfl, rfl, rfl⟩ ⟨rfl, rfl⟩
    (filterMap_set_perm_of_eq Worker.task hw htask)
    (filterMap_set_perm_of_eq Worker.inCall hw hcall)

/-- A task comes to the workers, and is written down behind the others. -/
theorem perm_enter {task : Task} {all here here' done : List Task} (h : all.Perm (here ++ done))
    (hhere : here'.Perm (task :: here)) : (all ++ [task]).Perm (here' ++ done) := by
  calc (all ++ [task]).Perm (task :: all) := List.perm_append_singleton _ _
    List.Perm _ (task :: (here ++ done)) := h.cons _
    List.Perm _ _ := hhere.symm.append_right done

/-- A task leaves the workers, and arrives behind those that are done. -/
theorem perm_leave {task : Task} {all here here' done : List Task} (h : all.Perm (here ++ done))
    (hhere : here.Perm (task :: here')) : all.Perm (here' ++ (done ++ [task])) := by
  calc all.Perm (here ++ done) := h
    List.Perm _ (task :: (here' ++ done)) := hhere.append_right done
    List.Perm _ ((here' ++ done) ++ [task]) := (List.perm_append_singleton _ _).symm
    List.Perm _ _ := by rw [List.append_assoc]

/-- A submitted task is the last of the queue, and its number is new. -/
theorem Conserved.submit {s t : Pool} {fn refcon wake : ℕ} (h : Conserved s)
    (hm : Move s (.submit fn refcon wake) t) : Conserved t := by
  cases hm with
  | submit hws =>
    have hheld := filterMap_signal hws Worker.task rfl rfl
    have hcall := filterMap_signal hws Worker.inCall rfl rfl
    constructor
    · show s.submitted ++ [_] = s.taken ++ (s.discarded ++ (s.tasks ++ [_]))
      rw [h.order, List.append_assoc, List.append_assoc]
    · exact h.early
    · exact h.taken.trans (hheld.symm.append_right _)
    · exact h.called.trans (hcall.symm.append_right _)
    · show List.map Task.id (s.submitted ++ [_]) = List.range (s.submitted ++ [_]).length
      rw [List.map_append, h.ids, List.length_append, List.length_singleton, List.range_succ]
      rfl

/-- A task that a worker holds enters its call. -/
theorem Conserved.call {s t : Pool} {w : ℕ} (h : Conserved s)
    (hm : Move s (.call w) t) : Conserved t := by
  cases hm with
  | @call _ task hw =>
    have hheld := filterMap_set_perm_of_eq Worker.task hw
      ((Worker.task_holding task).trans (Worker.task_calling task).symm)
    have hcall := filterMap_set_perm Worker.inCall hw (.calling task)
    rw [Worker.inCall_holding, Worker.inCall_calling] at hcall
    constructor
    · exact h.order
    · exact h.early
    · exact h.taken.trans (hheld.symm.append_right _)
    · exact perm_enter h.called hcall
    · exact h.ids

/-- A task whose call returns is finished. -/
theorem Conserved.ret {s t : Pool} {w : ℕ} (h : Conserved s)
    (hm : Move s (.ret w) t) : Conserved t := by
  cases hm with
  | @ret _ task hw =>
    have hheld := filterMap_set_perm Worker.task hw .returned
    have hcall := filterMap_set_perm Worker.inCall hw .returned
    rw [Worker.task_calling, Worker.task_returned] at hheld
    rw [Worker.inCall_calling, Worker.inCall_returned] at hcall
    constructor
    · exact h.order
    · exact h.early
    · exact perm_leave h.taken hheld.symm
    · exact perm_leave h.called hcall.symm
    · exact h.ids

/-- What is left in the queue is discarded. -/
theorem Conserved.stop {s t : Pool} (h : Conserved s)
    (hm : Move s .stop t) : Conserved t := by
  cases hm with
  | stop =>
    constructor
    · show s.submitted = s.taken ++ (s.discarded ++ s.tasks ++ [])
      rw [List.append_nil]
      exact h.order
    · intro hstop
      exact absurd hstop (by simp)
    · have hheld : (broadcast Worker.asleep Worker.woken s.workers).filterMap Worker.task =
          s.held := filterMap_broadcast s.workers Worker.task rfl
      show s.taken.Perm (List.filterMap Worker.task _ ++ s.finished)
      rw [hheld]
      exact h.taken
    · have hcall : (broadcast Worker.asleep Worker.woken s.workers).filterMap Worker.inCall =
          s.inCall := filterMap_broadcast s.workers Worker.inCall rfl
      show s.called.Perm (List.filterMap Worker.inCall _ ++ s.finished)
      rw [hcall]
      exact h.called
    · exact h.ids

/-- Every move keeps the ledger. -/
theorem conserved_move {s t : Pool} {a : Action} (h : Conserved s) (hm : Move s a t) :
    Conserved t := by
  cases hm with
  | create =>
    refine h.of_same ⟨rfl, rfl, rfl, rfl, rfl⟩ ⟨rfl, rfl⟩ ?_ ?_
    · show (List.filterMap _ (s.workers ++ [Worker.ready])).Perm _
      rw [List.filterMap_append]
      exact (List.append_nil _).symm ▸ List.Perm.refl _
    · show (List.filterMap _ (s.workers ++ [Worker.ready])).Perm _
      rw [List.filterMap_append]
      exact (List.append_nil _).symm ▸ List.Perm.refl _
  | submit hws => exact h.submit (Move.submit hws)
  | sleep hw hp => exact h.set_worker hw hp.task hp.inCall
  | exit hw hp => exact h.set_worker hw hp.task hp.inCall
  | @take w p task rest hw hp hstop htasks =>
    have hheld := filterMap_set_perm Worker.task hw (.holding task)
    have hcall := filterMap_set_perm_of_eq Worker.inCall hw
      (hp.inCall.trans (Worker.inCall_holding task).symm)
    rw [hp.task, Worker.task_holding] at hheld
    constructor
    · -- nothing has been discarded yet, so the queue is next in line
      show s.submitted = s.taken ++ [task] ++ (s.discarded ++ rest)
      rw [h.order, h.early hstop, htasks, List.append_assoc]
      rfl
    · exact h.early
    · exact perm_enter h.taken hheld
    · exact h.called.trans (hcall.symm.append_right _)
    · exact h.ids
  | spurious hw => exact h.set_worker hw rfl rfl
  | call hw => exact h.call (Move.call hw)
  | ret hw => exact h.ret (Move.ret hw)
  | complete hw =>
    exact h.of_same ⟨rfl, rfl, rfl, rfl, rfl⟩ ⟨rfl, rfl⟩
      (filterMap_set_perm_of_eq Worker.task hw rfl) (filterMap_set_perm_of_eq Worker.inCall hw rfl)
  | wait => exact h.of_frame rfl ⟨rfl, rfl, rfl, rfl, rfl⟩ ⟨rfl, rfl⟩
  | waitSpurious => exact h.of_frame rfl ⟨rfl, rfl, rfl, rfl, rfl⟩ ⟨rfl, rfl⟩
  | waitCheck => exact h.of_frame rfl ⟨rfl, rfl, rfl, rfl, rfl⟩ ⟨rfl, rfl⟩
  | stop hn hl => exact h.stop (Move.stop hn hl)
  | join => exact h.of_frame rfl ⟨rfl, rfl, rfl, rfl, rfl⟩ ⟨rfl, rfl⟩
  | free => exact h.of_frame rfl ⟨rfl, rfl, rfl, rfl, rfl⟩ ⟨rfl, rfl⟩

theorem conserved_of_reachable {n : ℕ} {s : Pool} (h : Reachable n s) : Conserved s :=
  reachable_induction (conserved_start n) (fun _ _ _ => conserved_move) h

/-! ## The partition of all tasks -/

theorem Conserved.submitted_nodup {s : Pool} (h : Conserved s) : s.submitted.Nodup :=
  List.Nodup.of_map Task.id (h.ids ▸ List.nodup_range)

/-- Every submission is queued, held, finished or discarded, and nothing else
is. -/
theorem Conserved.partition {s : Pool} (h : Conserved s) :
    s.submitted.Perm (s.tasks ++ (s.held ++ (s.finished ++ s.discarded))) := by
  rw [h.order]
  calc (s.taken ++ (s.discarded ++ s.tasks)).Perm
        ((s.held ++ s.finished) ++ (s.discarded ++ s.tasks)) := h.taken.append_right _
    List.Perm _ (s.tasks ++ ((s.held ++ s.finished) ++ s.discarded)) := by
      rw [← List.append_assoc]
      exact List.perm_append_comm
    List.Perm _ _ := by rw [List.append_assoc]

/-- A task that is finished was called once: it was taken once, and it is not
being executed any more. -/
theorem Conserved.called_once {s : Pool} (h : Conserved s) {t : Task} (ht : t ∈ s.finished) :
    s.called.count t = 1 := by
  have hnodup := h.partition.nodup_iff.mp h.submitted_nodup
  have hfin : (s.held ++ (s.finished ++ s.discarded)).Nodup := (List.nodup_append.mp hnodup).2.1
  have hone : s.finished.count t = 1 :=
    List.count_eq_one_of_mem
      (List.nodup_append.mp (List.nodup_append.mp hfin).2.1).1 ht
  have hnot : t ∉ s.inCall := by
    intro hin
    obtain ⟨p, hp, hpt⟩ := List.mem_filterMap.mp hin
    have hheld : t ∈ s.held := by
      refine List.mem_filterMap.mpr ⟨p, hp, ?_⟩
      cases p <;> simp_all [Worker.inCall, Worker.task]
    exact (List.nodup_append.mp hfin).2.2 t hheld t (List.mem_append_left _ ht) rfl
  rw [h.called.count_eq, List.count_append, List.count_eq_zero.mpr hnot, hone]

/-- The conditions that a submitted task can be in. -/
inductive Condition where
  | queued
  | heldBy (w : ℕ)
  | finished
  | discarded
  deriving DecidableEq

/-- The task `t` is in a condition. -/
def Pool.IsIn (s : Pool) (t : Task) : Condition → Prop
  | .queued => t ∈ s.tasks
  | .heldBy w => ∃ p, s.workers[w]? = some p ∧ p.task = some t
  | .finished => t ∈ s.finished
  | .discarded => t ∈ s.discarded

theorem Pool.mem_held_of_heldBy {s : Pool} {t : Task} {w : ℕ} (h : s.IsIn t (.heldBy w)) :
    t ∈ s.held := by
  obtain ⟨p, hp, ht⟩ := h
  exact List.mem_filterMap.mpr ⟨p, List.mem_of_getElem? hp, ht⟩

/-- A submitted task is in some condition. -/
theorem Conserved.exists_isIn {s : Pool} (h : Conserved s) {t : Task} (ht : t ∈ s.submitted) :
    ∃ c, s.IsIn t c := by
  have hmem := h.partition.mem_iff.mp ht
  rw [List.mem_append, List.mem_append, List.mem_append] at hmem
  rcases hmem with hq | hheld | hf | hd
  · exact ⟨.queued, hq⟩
  · obtain ⟨p, hp, hpt⟩ := List.mem_filterMap.mp hheld
    obtain ⟨w, hw⟩ := List.getElem?_of_mem hp
    exact ⟨.heldBy w, p, hw, hpt⟩
  · exact ⟨.finished, hf⟩
  · exact ⟨.discarded, hd⟩

/-- No task is in two conditions, and no two workers hold one task. -/
theorem Conserved.isIn_unique {s : Pool} (h : Conserved s) {t : Task} {c d : Condition}
    (hc : s.IsIn t c) (hd : s.IsIn t d) : c = d := by
  have hnodup := h.partition.nodup_iff.mp h.submitted_nodup
  obtain ⟨-, hrest, hqueue⟩ := List.nodup_append.mp hnodup
  obtain ⟨hheld, hrest', hholds⟩ := List.nodup_append.mp hrest
  obtain ⟨-, -, hfin⟩ := List.nodup_append.mp hrest'
  have hqh : t ∈ s.tasks → t ∉ s.held :=
    fun hq hh => hqueue t hq t (List.mem_append_left _ hh) rfl
  have hqf : t ∈ s.tasks → t ∉ s.finished := fun hq hf =>
    hqueue t hq t (List.mem_append_right _ (List.mem_append_left _ hf)) rfl
  have hqd : t ∈ s.tasks → t ∉ s.discarded := fun hq hd =>
    hqueue t hq t (List.mem_append_right _ (List.mem_append_right _ hd)) rfl
  have hhf : t ∈ s.held → t ∉ s.finished :=
    fun hh hf => hholds t hh t (List.mem_append_left _ hf) rfl
  have hhd : t ∈ s.held → t ∉ s.discarded :=
    fun hh hd => hholds t hh t (List.mem_append_right _ hd) rfl
  have hfd : t ∈ s.finished → t ∉ s.discarded := fun hf hd => hfin t hf t hd rfl
  cases c with
  | queued =>
    cases d with
    | queued => rfl
    | heldBy w => exact absurd (Pool.mem_held_of_heldBy hd) (hqh hc)
    | finished => exact absurd hd (hqf hc)
    | discarded => exact absurd hd (hqd hc)
  | heldBy w =>
    have hcheld := Pool.mem_held_of_heldBy hc
    cases d with
    | queued => exact absurd hcheld (hqh hd)
    | heldBy w' =>
      obtain ⟨p, hp, hpt⟩ := hc
      obtain ⟨p', hp', hpt'⟩ := hd
      rw [eq_of_filterMap_nodup Worker.task hheld hp hp' hpt hpt']
    | finished => exact absurd hd (hhf hcheld)
    | discarded => exact absurd hd (hhd hcheld)
  | finished =>
    cases d with
    | queued => exact absurd hc (hqf hd)
    | heldBy w => exact absurd hc (hhf (Pool.mem_held_of_heldBy hd))
    | finished => rfl
    | discarded => exact absurd hd (hfd hc)
  | discarded =>
    cases d with
    | queued => exact absurd hc (hqd hd)
    | heldBy w => exact absurd hc (hhd (Pool.mem_held_of_heldBy hd))
    | finished => exact absurd hc (hfd hd)
    | discarded => rfl

/-! ## What has been submitted -/

/-- The arguments of a call of `ccpool_submit`. -/
def Action.submission : Action → Option (ℕ × ℕ)
  | .submit fn refcon _ => some (fn, refcon)
  | _ => none

/-- The tasks that are submitted by the calls of `ccpool_submit` among these actions, in the order
of their critical sections. -/
def submissions (as : List Action) : List Task :=
  (as.filterMap Action.submission).mapIdx fun id call => ⟨id, call.1, call.2⟩

/-- One more call submits one more task. -/
theorem submissions_submit (as : List Action) (fn refcon wake : ℕ) :
    submissions (as ++ [.submit fn refcon wake]) =
      submissions as ++ [⟨(submissions as).length, fn, refcon⟩] := by
  rw [submissions, List.filterMap_append, submissions, List.length_mapIdx]
  exact List.mapIdx_concat

/-- Other actions submit nothing. -/
theorem submissions_of_submission_eq_none {as : List Action} {a : Action}
    (ha : a.submission = none) :
    submissions (as ++ [a]) = submissions as := by
  have hnone : [a].filterMap Action.submission = [] := List.filterMap_cons_none ha
  rw [submissions, List.filterMap_append, hnone, List.append_nil, submissions]

theorem submitted_move {s t : Pool} {a : Action} {as : List Action}
    (h : s.submitted = submissions as) (hm : Move s a t) :
    t.submitted = submissions (as ++ [a]) := by
  cases hm with
  | submit =>
    rw [submissions_submit, ← h]
  | _ => exact h.trans (submissions_of_submission_eq_none rfl).symm

/-- **The history is that of the calls.** -/
theorem submitted_of_run {n : ℕ} {s : Pool} {as : List Action}
    (hrun : Runs.run step (ccpoolStart n) as = some s) : s.submitted = submissions as := by
  have hstart : (ccpoolStart n).submitted = submissions [] := rfl
  exact Runs.run_history (P := fun as s => s.submitted = submissions as)
    (fun _ _ _ _ h hstep => submitted_move h (move_of_step hstep)) hstart hrun

/-! ## After the stop -/

/-- Once `stop` is set it stays set, and no worker takes a task. -/
theorem stopped_move {s t : Pool} {a : Action} {l : List Task}
    (h : s.stop = true ∧ s.taken = l) (hm : Move s a t) : t.stop = true ∧ t.taken = l := by
  cases hm with
  | take _ _ hstop => exact absurd h.1 (by rw [hstop]; simp)
  | stop => exact ⟨rfl, h.2⟩
  | _ => exact h

theorem stopped_run {s t : Pool} {as : List Action} (hs : s.stop = true)
    (h : Runs.run step s as = some t) : t.stop = true ∧ t.taken = s.taken :=
  Runs.run_induction (P := fun u => u.stop = true ∧ u.taken = s.taken)
    (fun _ _ _ hP hstep => stopped_move hP (move_of_step hstep)) ⟨hs, rfl⟩ h

/-- **The pool loses no task, runs none twice, and starts none after the stop.**
After every run the submissions are those of the calls of `ccpool_submit`, in the
order of their critical sections.  They are partitioned into queued, held,
finished and discarded tasks; each is in exactly one condition, a held one with
exactly one worker; a finished one was called exactly once; tasks are taken in
the order of their submissions; and from a state with `stop` set no run takes
another. -/
theorem ccpool_tasks_conserved (n : ℕ) (as : List Action) (s : Pool)
    (hrun : Runs.run step (ccpoolStart n) as = some s) :
    s.submitted = submissions as ∧
    (s.submitted.Nodup ∧
      s.submitted.Perm (s.tasks ++ (s.held ++ (s.finished ++ s.discarded)))) ∧
    (∀ t ∈ s.submitted, ∃! c, s.IsIn t c) ∧
    (∀ t ∈ s.finished, s.called.count t = 1) ∧
    s.taken <+: s.submitted ∧
    (s.stop = true → ∀ bs u, Runs.run step s bs = some u → u.taken = s.taken) := by
  have hc := conserved_of_reachable ⟨as, hrun⟩
  refine ⟨submitted_of_run hrun, ⟨hc.submitted_nodup, hc.partition⟩, fun t ht => ?_,
    fun t => hc.called_once, ?_, fun hstop bs u hu => (stopped_run hstop hu).2⟩
  · obtain ⟨c, hcond⟩ := hc.exists_isIn ht
    exact ⟨c, hcond, fun d hd => hc.isIn_unique hd hcond⟩
  · rw [hc.order]
    exact List.prefix_append _ _

/-- A stopped pool of two workers that has one task in each condition: the first
is finished, the second held by worker 0, the third discarded, and the fourth,
submitted after the stop, still queued. -/
def stoppedPool : Pool :=
  { ccpoolStart 2 with
    inWork := 1
    stop := true
    tasks := [⟨3, 4, 40⟩]
    workers := [.holding ⟨1, 2, 20⟩, .ready]
    stopper := .joining 0
    submitted := [⟨0, 1, 10⟩, ⟨1, 2, 20⟩, ⟨2, 3, 30⟩, ⟨3, 4, 40⟩]
    taken := [⟨0, 1, 10⟩, ⟨1, 2, 20⟩]
    called := [⟨0, 1, 10⟩]
    finished := [⟨0, 1, 10⟩]
    discarded := [⟨2, 3, 30⟩] }

/-- How it comes about. -/
def stoppedRun : List Action :=
  [.create, .create, .submit 1 10 0, .submit 2 20 0, .submit 3 30 0, .check 0, .call 0, .ret 0,
    .complete 0 0, .check 0, .stop, .submit 4 40 0]

theorem run_stoppedRun : Runs.run step (ccpoolStart 2) stoppedRun = some stoppedPool := by decide

theorem reachable_stoppedPool : Reachable 2 stoppedPool := ⟨stoppedRun, run_stoppedRun⟩

theorem ccpool_tasks_conserved_stoppedPool :
    stoppedPool.submitted = submissions stoppedRun ∧ stoppedPool.submitted.Nodup ∧
    (∃! c, stoppedPool.IsIn ⟨1, 2, 20⟩ c) ∧
    stoppedPool.called.count ⟨0, 1, 10⟩ = 1 ∧ stoppedPool.taken <+: stoppedPool.submitted ∧
    ({ stoppedPool with workers := [.holding ⟨1, 2, 20⟩, .exited] } : Pool).taken =
      stoppedPool.taken := by
  obtain ⟨hsubmitted, ⟨hnodup, -⟩, hone, hcalled, hprefix, hstop⟩ :=
    ccpool_tasks_conserved 2 stoppedRun stoppedPool run_stoppedRun
  exact ⟨hsubmitted, hnodup, hone _ (by decide), hcalled _ (by decide), hprefix,
    hstop rfl [.check 1] _ (by decide)⟩

end ThreadPool
end CCore
