import CCore.Pid.Machine
import Mathlib.Data.Finset.Max

/-!
# The controller stays within bounds

The integral is clamped by every update, so it is within the bounds of the clamp after the first.

The derivative begins as the slope between the first two values, and then moves towards each slope
by the part `dt / rise_tau` of the way.  If no step is longer than the time constant, this part
is at most one, so the derivative stays between the smallest and the largest of the slopes that
were seen, although the steps differ in length.  The invariant of the run is that everything it has
seen and everything it still will see is within the same bounds.
-/

namespace CCore
namespace Pid

open Smoothing Machine

variable {g : Gains}

/-! ## Slopes -/

/-- The slopes of some inputs, from an earlier value. -/
def slopesFrom : ℚ → List Input → List ℚ
  | _, [] => []
  | prev, input :: inputs => slopeFrom prev input :: slopesFrom input.value inputs

/-- **The raw slopes of a run**: one for each update but the first. -/
def slopes : List Input → List ℚ
  | [] => []
  | input :: inputs => slopesFrom input.value inputs

/-- Of some slopes, one is the least under a measure. -/
theorem exists_least (f : ℚ → ℚ) {samples : List ℚ} (h : samples ≠ []) :
    ∃ least ∈ samples, ∀ s ∈ samples, f least ≤ f s := by
  obtain ⟨least, hleast, hall⟩ := samples.toFinset.exists_min_image f
    (List.toFinset_nonempty_iff samples |>.mpr h)
  exact ⟨least, List.mem_toFinset.mp hleast, fun s hs => hall s (List.mem_toFinset.mpr hs)⟩

/-! ## Runs of the machine -/

/-- The integral is within the bounds of the clamp. -/
def Clamped (g : Gains) (integ : ℚ) : Prop := -g.integClamp ≤ integ ∧ integ ≤ g.integClamp

theorem accumulate_clamped (hclamp : 0 ≤ g.integClamp) (integ : ℚ) (input : Input) :
    Clamped g (accumulate g integ input) :=
  clamp_mem (by linarith)

/-- The inputs take their time, but no longer than the time constant. -/
def Steady (g : Gains) (inputs : List Input) : Prop :=
  ∀ input ∈ inputs, 0 < input.dt ∧ input.dt ≤ g.riseTau

/-- **A running machine stays within the bounds of the slopes.** -/
theorem foldl_running (hclamp : 0 ≤ g.integClamp) {inputs : List Input} (hsteady : Steady g inputs)
    {lo hi prev error integ deriv : ℚ} (hinteg : Clamped g integ) (hderiv : lo ≤ deriv ∧ deriv ≤ hi)
    (hslopes : ∀ s ∈ slopesFrom prev inputs, lo ≤ s ∧ s ≤ hi) :
    ∃ prev' error' integ' deriv', inputs.foldl (update g) (running prev error integ deriv) =
      running prev' error' integ' deriv' ∧ Clamped g integ' ∧ lo ≤ deriv' ∧ deriv' ≤ hi := by
  induction inputs generalizing prev error integ deriv with
  | nil => exact ⟨prev, error, integ, deriv, rfl, hinteg, hderiv⟩
  | cons input inputs ih =>
    obtain ⟨⟨hpos, hle⟩, hrest⟩ := List.forall_mem_cons.mp hsteady
    obtain ⟨hslope, hmore⟩ := List.forall_mem_cons.mp hslopes
    have htau : 0 < g.riseTau := hpos.trans_le hle
    have hpart : 0 ≤ input.dt / g.riseTau ∧ input.dt / g.riseTau ≤ 1 :=
      ⟨(div_pos hpos htau).le, (div_le_one htau).mpr hle⟩
    exact ih hrest (accumulate_clamped hclamp integ input) (smooth_mem hderiv hslope hpart) hmore

/-- From the second update on, the machine is running. -/
theorem foldl_fresh (hclamp : 0 ≤ g.integClamp) {inputs : List Input} (hsteady : Steady g inputs)
    (htwo : 2 ≤ inputs.length) {lo hi : ℚ} (hslopes : ∀ s ∈ slopes inputs, lo ≤ s ∧ s ≤ hi) :
    ∃ prev error integ deriv, inputs.foldl (update g) fresh = running prev error integ deriv ∧
      Clamped g integ ∧ lo ≤ deriv ∧ deriv ≤ hi := by
  match inputs, htwo with
  | first :: second :: inputs, _ =>
    obtain ⟨-, hsteady'⟩ := List.forall_mem_cons.mp hsteady
    obtain ⟨-, hrest⟩ := List.forall_mem_cons.mp hsteady'
    obtain ⟨hslope, hmore⟩ := List.forall_mem_cons.mp hslopes
    exact foldl_running hclamp hrest (accumulate_clamped hclamp _ second) hslope hmore

/-! ## The controller -/

/-- The parameters of a controller are these numbers. -/
structure HasGains (g : Gains) (pid : CcPid) : Prop where
  kp : pid.kp = .fin g.kp
  ki : pid.ki = .fin g.ki
  kd : pid.kd = .fin g.kd
  integClamp : pid.integClamp = .fin g.integClamp
  riseTau : pid.riseTau = .fin g.riseTau

theorem HasGains.ccPidReset {pid : CcPid} (h : HasGains g pid) :
    ccPidReset pid = fresh.represent g := by
  rw [Pid.ccPidReset, h.kp, h.ki, h.kd, h.integClamp, h.riseTau]
  rfl

/-- The output, from bounds on what goes into it. -/
theorem abs_outputOf_le {error integ deriv bound : ℚ} (hinteg : Clamped g integ)
    (hderiv : |deriv| ≤ bound) :
    |outputOf g error integ deriv| ≤
      |g.kp| * |error| + |g.ki| * g.integClamp + |g.kd| * bound := by
  have hinteg' : |integ| ≤ g.integClamp := abs_le.mpr hinteg
  calc |outputOf g error integ deriv|
      ≤ |g.kp * error| + |g.ki * integ| + |g.kd * deriv| := abs_add_three _ _ _
    _ = |g.kp| * |error| + |g.ki| * |integ| + |g.kd| * |deriv| := by
      rw [abs_mul, abs_mul, abs_mul]
    _ ≤ |g.kp| * |error| + |g.ki| * g.integClamp + |g.kd| * bound :=
      add_le_add (add_le_add le_rfl (mul_le_mul_of_nonneg_left hinteg' (abs_nonneg _)))
        (mul_le_mul_of_nonneg_left hderiv (abs_nonneg _))

/-- **Every update clamps the integral.** -/
theorem update_clamped (hclamp : 0 ≤ g.integClamp) (m : Machine) (input : Input) :
    ∃ integ, ((m.update g input).represent g).integ = .fin integ ∧ Clamped g integ := by
  cases m with
  | fresh => exact ⟨_, rfl, accumulate_clamped hclamp 0 input⟩
  | started prev error integ => exact ⟨_, rfl, accumulate_clamped hclamp integ input⟩
  | running prev error integ deriv => exact ⟨_, rfl, accumulate_clamped hclamp integ input⟩

/-- **The controller is bounded over whole runs.**  After each update that follows a reset, the
integral is within the bounds of the clamp.  From the second update on, the derivative is between
the smallest and the largest of the slopes since the reset, and the output is at most what the
gains make of these bounds. -/
theorem ccPidUpdates_bounded {pid : CcPid} (hgains : HasGains g pid) (hclamp : 0 ≤ g.integClamp)
    (htau : 0 < g.riseTau) (inputs : List Input) (hsteady : Steady g inputs) :
    (1 ≤ inputs.length → ∃ integ,
      (ccPidUpdates (ccPidReset pid) inputs).integ = .fin integ ∧
        -g.integClamp ≤ integ ∧ integ ≤ g.integClamp) ∧
    (2 ≤ inputs.length → ∃ error deriv output,
      (ccPidUpdates (ccPidReset pid) inputs).error = .fin error ∧
      (ccPidUpdates (ccPidReset pid) inputs).deriv = .fin deriv ∧
      ccPidGetOutput (ccPidUpdates (ccPidReset pid) inputs) = .fin output ∧
      (∃ lo ∈ slopes inputs, ∃ hi ∈ slopes inputs,
        (∀ s ∈ slopes inputs, lo ≤ s ∧ s ≤ hi) ∧ lo ≤ deriv ∧ deriv ≤ hi) ∧
      ∃ top ∈ slopes inputs, (∀ s ∈ slopes inputs, |s| ≤ |top|) ∧
        |output| ≤ |g.kp| * |error| + |g.ki| * g.integClamp + |g.kd| * |top|) := by
  have hdt : ∀ input ∈ inputs, input.dt ≠ 0 := fun input hinput => (hsteady input hinput).1.ne'
  rw [hgains.ccPidReset, ccPidUpdates_represent htau.ne' fresh hdt]
  constructor
  · intro hone
    obtain rfl | ⟨earlier, last, rfl⟩ := List.eq_nil_or_concat' inputs
    · exact absurd hone (Nat.not_succ_le_zero 0)
    · rw [List.foldl_append]
      exact update_clamped hclamp _ last
  · intro htwo
    have hne : slopes inputs ≠ [] := by
      match inputs, htwo with
      | first :: second :: inputs, _ => exact List.cons_ne_nil _ _
    obtain ⟨lo, hlo, hleast⟩ := exists_least id hne
    obtain ⟨hi, hhi, hmost⟩ := exists_least (fun s => -s) hne
    obtain ⟨top, htop, habs⟩ := exists_least (fun s => -|s|) hne
    have hslopes : ∀ s ∈ slopes inputs, lo ≤ s ∧ s ≤ hi := fun s hs =>
      ⟨hleast s hs, neg_le_neg_iff.mp (hmost s hs)⟩
    have htops : ∀ s ∈ slopes inputs, |s| ≤ |top| := fun s hs => neg_le_neg_iff.mp (habs s hs)
    obtain ⟨prev, error, integ, deriv, hrun, hinteg, hderiv⟩ :=
      foldl_fresh hclamp hsteady htwo hslopes
    rw [hrun, ccPidGetOutput_represent]
    refine ⟨error, deriv, _, rfl, rfl, rfl, ⟨lo, hlo, hi, hhi, hslopes, hderiv⟩, top, htop, htops,
      ?_⟩
    exact abs_outputOf_le hinteg (abs_le_of_mem hderiv (htops lo hlo) (htops hi hhi))

/-- Three updates of different lengths. -/
theorem ccPidUpdates_bounded_three :
    ∃ integ, (ccPidUpdates (ccPidReset (fresh.represent ⟨1, 1, 1, 2, 1⟩))
        [⟨0, 5, 1⟩, ⟨3, -1, 1 / 2⟩, ⟨4, 2, 1 / 3⟩]).integ = .fin integ ∧
      -2 ≤ integ ∧ integ ≤ 2 := by
  have hsteady : ∀ input ∈ [(⟨0, 5, 1⟩ : Input), ⟨3, -1, 1 / 2⟩, ⟨4, 2, 1 / 3⟩],
      0 < input.dt ∧ input.dt ≤ 1 := by
    decide +kernel
  have hgains : HasGains ⟨1, 1, 1, 2, 1⟩ (fresh.represent ⟨1, 1, 1, 2, 1⟩) :=
    ⟨rfl, rfl, rfl, rfl, rfl⟩
  have hbounded :=
    ccPidUpdates_bounded hgains (by decide +kernel) (by decide +kernel) _ hsteady
  exact hbounded.1 (by decide)

end Pid
end CCore
