import CCore.Library.Smoothing
import CCore.Pid.Model

/-!
# The controller as a machine

Four fields of the controller begin as NaN, and they get their values at different times: `prev`,
`error` and `integ` with the first update, and `deriv` with the second, since a slope needs two
values.  So of all the combinations of fields that may be NaN only three occur, and `Machine` is the
type of these three, over the rationals.

With rational gains and inputs, and as long as nothing is divided by zero, an update of the
controller is an update of the machine (`ccPidUpdate_represent`), and the output can be told from
the state of the machine: it is a number in one of the three (`ccPidGetOutput_represent`).
-/

namespace CCore
namespace Pid

open Smoothing

/-- The parameters of a controller. -/
structure Gains where
  kp : ℚ
  ki : ℚ
  kd : ℚ
  integClamp : ℚ
  riseTau : ℚ

/-- What `cc_pid_update` is called with. -/
structure Input where
  value : ℚ
  error : ℚ
  dt : ℚ
  deriving DecidableEq

/-- **The values that a controller has**: none, those of one update, or all of them. -/
inductive Machine where
  | fresh
  | started (prev error integ : ℚ)
  | running (prev error integ deriv : ℚ)

namespace Machine

variable (g : Gains)

/-- The integral, with one more error. -/
def accumulate (integ : ℚ) (input : Input) : ℚ :=
  clamp (integ + input.error * input.dt) (-g.integClamp) g.integClamp

/-- The slope from an earlier value. -/
def slopeFrom (prev : ℚ) (input : Input) : ℚ := (input.value - prev) / input.dt

/-- An update. -/
def update : Machine → Input → Machine
  | fresh, input => started input.value input.error (accumulate g 0 input)
  | started prev _ integ, input =>
    running input.value input.error (accumulate g integ input) (slopeFrom prev input)
  | running prev _ integ deriv, input =>
    running input.value input.error (accumulate g integ input)
      (smooth deriv (slopeFrom prev input) (input.dt / g.riseTau))

/-- The controller with these values. -/
def represent : Machine → CcPid
  | fresh => ⟨.nan, .nan, .nan, .nan,
      .fin g.kp, .fin g.ki, .fin g.kd, .fin g.integClamp, .fin g.riseTau⟩
  | started prev error integ => ⟨.fin prev, .fin error, .nan, .fin integ,
      .fin g.kp, .fin g.ki, .fin g.kd, .fin g.integClamp, .fin g.riseTau⟩
  | running prev error integ deriv => ⟨.fin prev, .fin error, .fin deriv, .fin integ,
      .fin g.kp, .fin g.ki, .fin g.kd, .fin g.integClamp, .fin g.riseTau⟩

end Machine

open Machine

variable {g : Gains}

/-! ## Refinement -/

theorem clampF64_fin (v lo hi : ℚ) :
    clampF64 (.fin v) (.fin lo) (.fin hi) = .fin (clamp v lo hi) := by
  rw [clampF64, clamp]
  by_cases hlo : lo < v
  · rw [if_pos (F64.fin_lt_fin.mpr hlo), if_pos hlo]
    by_cases hhi : v < hi
    · rw [if_pos (F64.fin_lt_fin.mpr hhi), if_pos hhi]
    · rw [if_neg fun h => hhi (F64.fin_lt_fin.mp h), if_neg hhi]
  · rw [if_neg fun h => hlo (F64.fin_lt_fin.mp h), if_neg hlo]

/-- **A reset controller is fresh**, whatever it was. -/
theorem ccPidReset_represent (m : Machine) : ccPidReset (m.represent g) = fresh.represent g := by
  cases m with
  | fresh => rfl
  | started prev error integ => rfl
  | running prev error integ deriv => rfl

theorem ccPidInit_represent (pid : CcPid) :
    ccPidInit pid (.fin g.kp) (.fin g.ki) (.fin g.kd) (.fin g.integClamp) (.fin g.riseTau) =
      fresh.represent g := rfl

/-- The integral is that of the machine. -/
theorem clampF64_accumulate (integ : ℚ) (input : Input) :
    clampF64 (.fin integ + .fin input.error * .fin input.dt) (-.fin g.integClamp)
      (.fin g.integClamp) = .fin (accumulate g integ input) := by
  rw [F64.fin_mul_fin, F64.fin_add_fin, F64.neg_fin, clampF64_fin]
  rfl

/-- The slope is that of the machine. -/
theorem fin_slopeFrom (prev : ℚ) {input : Input} (hdt : input.dt ≠ 0) :
    (.fin input.value - .fin prev) / .fin input.dt = F64.fin (slopeFrom prev input) := by
  rw [F64.fin_sub_fin, F64.fin_div_fin hdt]
  rfl

/-- The smoothed derivative is that of the machine. -/
theorem fin_smooth (deriv slope : ℚ) {dt tau : ℚ} (htau : tau ≠ 0) :
    .fin deriv + (.fin slope - .fin deriv) * (.fin dt / .fin tau) =
      F64.fin (smooth deriv slope (dt / tau)) := by
  rw [F64.fin_div_fin htau, F64.fin_sub_fin, F64.fin_mul_fin, F64.fin_add_fin]
  rfl

/-- **An update of the controller is an update of the machine.** -/
theorem ccPidUpdate_represent (htau : g.riseTau ≠ 0) {input : Input} (hdt : input.dt ≠ 0)
    (m : Machine) :
    ccPidUpdate (m.represent g) (.fin input.value) (.fin input.error) (.fin input.dt) =
      (m.update g input).represent g := by
  cases m with
  | fresh =>
    simp only [represent, update, ccPidUpdate, F64.isNan_nan, F64.zero_eq, clampF64_accumulate,
      if_true, Bool.not_true, Bool.false_eq_true, if_false]
  | started prev error integ =>
    simp only [represent, update, ccPidUpdate, F64.isNan_nan, F64.isNan_fin, clampF64_accumulate,
      fin_slopeFrom prev hdt, if_true, Bool.not_false, Bool.false_eq_true, if_false]
  | running prev error integ deriv =>
    simp only [represent, update, ccPidUpdate, F64.isNan_fin, clampF64_accumulate,
      fin_slopeFrom prev hdt, fin_smooth deriv _ htau, if_true, Bool.not_false, Bool.false_eq_true,
      if_false]

/-- What the output is, if it is a number. -/
def outputOf (g : Gains) (error integ deriv : ℚ) : ℚ := g.kp * error + g.ki * integ + g.kd * deriv

/-- **The output of a controller.**  It is a number if all of the values are there.  The guard asks
for two of them only, so it is passed after the first update, when `deriv` is still NaN. -/
theorem ccPidGetOutput_represent (m : Machine) :
    ccPidGetOutput (m.represent g) =
      match m with
      | fresh => .nan
      | started _ _ _ => .nan
      | running _ error integ deriv => .fin (outputOf g error integ deriv) := by
  cases m with
  | fresh => rfl
  | started prev error integ =>
    simp only [represent, ccPidGetOutput, F64.isNan_fin, Bool.or_self, Bool.false_eq_true, if_false,
      F64.mul_nan, F64.add_nan]
  | running prev error integ deriv =>
    simp only [represent, ccPidGetOutput, F64.isNan_fin, Bool.or_self, Bool.false_eq_true, if_false,
      F64.fin_mul_fin, F64.fin_add_fin, outputOf]

/-! ## Runs -/

/-- `cc_pid_update`, for each of the inputs. -/
def ccPidUpdates (pid : CcPid) (inputs : List Input) : CcPid :=
  inputs.foldl (fun pid input =>
    ccPidUpdate pid (.fin input.value) (.fin input.error) (.fin input.dt)) pid

/-- **A run of the controller is a run of the machine.** -/
theorem ccPidUpdates_represent (htau : g.riseTau ≠ 0) (m : Machine) {inputs : List Input}
    (hdt : ∀ input ∈ inputs, input.dt ≠ 0) :
    ccPidUpdates (m.represent g) inputs = (inputs.foldl (Machine.update g) m).represent g := by
  induction inputs generalizing m with
  | nil => rfl
  | cons input inputs ih =>
    obtain ⟨hfirst, hrest⟩ := List.forall_mem_cons.mp hdt
    rw [ccPidUpdates, List.foldl_cons, ccPidUpdate_represent htau hfirst, List.foldl_cons]
    exact ih _ hrest

end Pid
end CCore
