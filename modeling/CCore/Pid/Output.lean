import CCore.Pid.Machine
import Mathlib.Data.List.DropRight

/-!
# When the controller has an output

`cc_pid_get_output` answers NaN if `prev` or `integ` is NaN, which both stop being after the first
update.  But the formula behind the guard also uses `deriv`, and this gets its first value with the
second update.  So after exactly one update the guard is passed, and the result is NaN all the
same: the answer says that there is no data, but there is.

Otherwise the answer is right, in every history of resets and updates: the controller is fresh
after a reset, and running after two updates or more (`outputTellsData_iff`).
-/

namespace CCore
namespace Pid

open Machine

variable {g : Gains}

/-! ## Histories -/

/-- A call to the controller. -/
inductive Call where
  | reset
  | update (input : Input)
  deriving DecidableEq

/-- The call is an update. -/
def Call.isUpdate : Call → Bool
  | reset => false
  | update _ => true

/-- What a call does. -/
def Call.run (pid : CcPid) : Call → CcPid
  | reset => ccPidReset pid
  | update input => ccPidUpdate pid (.fin input.value) (.fin input.error) (.fin input.dt)

/-- What a call does to the machine. -/
def Call.runMachine (g : Gains) (m : Machine) : Call → Machine
  | reset => fresh
  | update input => m.update g input

/-- The controller behind some calls that follow `cc_pid_init`. -/
def afterCalls (g : Gains) (pid : CcPid) (calls : List Call) : CcPid :=
  calls.foldl Call.run
    (ccPidInit pid (.fin g.kp) (.fin g.ki) (.fin g.kd) (.fin g.integClamp) (.fin g.riseTau))

/-- **How many updates there were since the last reset.** -/
def updatesSinceReset (calls : List Call) : ℕ := (calls.rtakeWhile Call.isUpdate).length

theorem updatesSinceReset_reset (calls : List Call) :
    updatesSinceReset (calls ++ [.reset]) = 0 := by
  rw [updatesSinceReset, List.rtakeWhile_concat_neg _ _ _ Bool.false_ne_true]
  rfl

theorem updatesSinceReset_update (calls : List Call) (input : Input) :
    updatesSinceReset (calls ++ [.update input]) = updatesSinceReset calls + 1 := by
  rw [updatesSinceReset, List.rtakeWhile_concat_pos _ _ _ rfl, List.length_append]
  rfl

/-- The machine behind some calls. -/
def machineAfter (g : Gains) (calls : List Call) : Machine :=
  calls.foldl (Call.runMachine g) fresh

theorem afterCalls_concat (pid : CcPid) (calls : List Call) (call : Call) :
    afterCalls g pid (calls ++ [call]) = call.run (afterCalls g pid calls) :=
  List.foldl_append

theorem machineAfter_concat (calls : List Call) (call : Call) :
    machineAfter g (calls ++ [call]) = call.runMachine g (machineAfter g calls) :=
  List.foldl_append

/-- **The controller is at every time what the machine is.** -/
theorem afterCalls_represent (htau : g.riseTau ≠ 0) (pid : CcPid) {calls : List Call}
    (hdt : ∀ input, .update input ∈ calls → input.dt ≠ 0) :
    afterCalls g pid calls = (machineAfter g calls).represent g := by
  induction calls using List.reverseRecOn with
  | nil => exact ccPidInit_represent pid
  | append_singleton calls call ih =>
    rw [afterCalls_concat, machineAfter_concat,
      ih fun input hinput => hdt input (List.mem_append_left _ hinput)]
    cases call with
    | reset => exact ccPidReset_represent _
    | update input =>
      exact ccPidUpdate_represent htau (hdt input (List.mem_append_right _ List.mem_cons_self)) _

/-! ## The output -/

/-- How many updates a machine knows of: the third looks like the second. -/
def Machine.updatesSeen : Machine → ℕ
  | fresh => 0
  | started _ _ _ => 1
  | running _ _ _ _ => 2

theorem updatesSeen_update (m : Machine) (input : Input) :
    (m.update g input).updatesSeen = min 2 (m.updatesSeen + 1) := by
  cases m with
  | fresh => rfl
  | started prev error integ => rfl
  | running prev error integ deriv => rfl

/-- **The machine knows how many updates there were**, up to two. -/
theorem updatesSeen_machineAfter (calls : List Call) :
    (machineAfter g calls).updatesSeen = min 2 (updatesSinceReset calls) := by
  induction calls using List.reverseRecOn with
  | nil => rfl
  | append_singleton calls call ih =>
    rw [machineAfter_concat]
    cases call with
    | reset =>
      rw [updatesSinceReset_reset]
      rfl
    | update input =>
      rw [updatesSinceReset_update, Call.runMachine, updatesSeen_update, ih]
      omega

/-- **The output is NaN** until there were two updates. -/
theorem ccPidGetOutput_eq_nan_iff (m : Machine) :
    ccPidGetOutput (m.represent g) = .nan ↔ m.updatesSeen < 2 := by
  rw [ccPidGetOutput_represent]
  cases m with
  | fresh => exact iff_of_true rfl Nat.two_pos
  | started prev error integ => exact iff_of_true rfl Nat.one_lt_two
  | running prev error integ deriv => exact iff_of_false (fun h => nomatch h) (lt_irrefl 2)

/-- **The output tells whether there is data.**  It is NaN exactly if there was no update since the
last reset. -/
def OutputTellsData (g : Gains) (pid : CcPid) (calls : List Call) : Prop :=
  ccPidGetOutput (afterCalls g pid calls) = .nan ↔ updatesSinceReset calls = 0

/-- **Exactly when it does**: unless there was one update since the last reset, and no more. -/
theorem outputTellsData_iff (htau : 0 < g.riseTau) (pid : CcPid) {calls : List Call}
    (hdt : ∀ input, .update input ∈ calls → 0 < input.dt) :
    OutputTellsData g pid calls ↔ updatesSinceReset calls ≠ 1 := by
  rw [OutputTellsData, afterCalls_represent htau.ne' pid fun input hinput => (hdt input hinput).ne',
    ccPidGetOutput_eq_nan_iff, updatesSeen_machineAfter]
  omega

/-- Two updates, a reset, and three updates. -/
theorem outputTellsData_iff_three :
    OutputTellsData ⟨1, 1, 1, 1, 1⟩ (fresh.represent ⟨0, 0, 0, 0, 0⟩)
      [.update ⟨1, 1, 1⟩, .update ⟨2, 1, 1⟩, .reset, .update ⟨1, 1, 1⟩, .update ⟨1, 0, 2⟩,
        .update ⟨4, -2, 1⟩] := by
  have hdt : ∀ input, Call.update input ∈ [Call.update ⟨1, 1, 1⟩, .update ⟨2, 1, 1⟩, .reset,
      .update ⟨1, 1, 1⟩, .update ⟨1, 0, 2⟩, .update ⟨4, -2, 1⟩] → 0 < input.dt := by
    intro input hinput
    simp only [List.mem_cons, Call.update.injEq, reduceCtorEq, List.not_mem_nil, or_false,
      false_or] at hinput
    rcases hinput with rfl | rfl | rfl | rfl | rfl
    all_goals decide +kernel
  exact (outputTellsData_iff (by decide +kernel) _ hdt).mpr (by decide)

/-- **One update**: the guard is passed, and the output is NaN. -/
theorem not_outputTellsData_one :
    ¬ OutputTellsData ⟨1, 1, 1, 1, 1⟩ (fresh.represent ⟨0, 0, 0, 0, 0⟩) [.update ⟨1, 1, 1⟩] := by
  intro h
  have hnan : ccPidGetOutput (afterCalls ⟨1, 1, 1, 1, 1⟩ (fresh.represent ⟨0, 0, 0, 0, 0⟩)
      [.update ⟨1, 1, 1⟩]) = .nan := by
    decide +kernel
  exact absurd (h.mp hnan) (by decide)

end Pid
end CCore
