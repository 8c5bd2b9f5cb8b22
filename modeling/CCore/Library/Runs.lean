import Mathlib.Algebra.GroupWithZero.Nat
import Mathlib.Data.List.Basic

/-!
# Runs of a partial step function

A concurrent program whose critical sections are atomic is a partial step
function `step : σ → α → Option σ`: the action says which thread moves and how
the nondeterminism of that move is resolved, and `none` says that the thread
cannot make this move here.  A run is then a list of actions, and "for every
interleaving" is "for every list of actions that the step function accepts".

Four kinds of statement are made about runs, and each gets its induction here
once.

* An invariant holds in every state that a run reaches (`run_induction`).
* A property that some steps break holds in every state of a run exactly when
  no step of the run is one of those (`everyState_iff_everyStep`).  This is the
  form in which a defect is located: the step condition is the exact one.
* A potential pays for the steps of a run (`run_potential`), so that runs of steps
  that cost something end, and end in a state that has none of them left
  (`exists_run_stuck`).
* A run of one program is a run of another, coarser one (`run_simulation`): each step
  of the first is some steps of the second, or none.
-/

namespace CCore
namespace Runs

variable {σ α : Type*} (step : σ → α → Option σ)

/-- The state at the end of a list of actions, if every one of them can be
made. -/
def run : σ → List α → Option σ
  | s, [] => some s
  | s, a :: as => (step s a).bind fun t => run t as

@[simp] theorem run_nil (s : σ) : run step s [] = some s := rfl

theorem run_cons (s : σ) (a : α) (as : List α) :
    run step s (a :: as) = (step s a).bind fun t => run step t as := rfl

theorem run_cons_eq_some {s u : σ} {a : α} {as : List α} :
    run step s (a :: as) = some u ↔ ∃ t, step s a = some t ∧ run step t as = some u := by
  rw [run_cons, Option.bind_eq_some_iff]

/-- Runs compose. -/
theorem run_append (s : σ) (as bs : List α) :
    run step s (as ++ bs) = (run step s as).bind fun t => run step t bs := by
  induction as generalizing s with
  | nil => rfl
  | cons a as ih =>
    rw [List.cons_append, run_cons, run_cons, Option.bind_assoc]
    exact congrArg _ (funext fun t => ih t)

theorem run_append_eq_some {s u : σ} {as bs : List α} :
    run step s (as ++ bs) = some u ↔ ∃ t, run step s as = some t ∧ run step t bs = some u := by
  rw [run_append, Option.bind_eq_some_iff]

/-- A run followed by one more step. -/
theorem run_snoc {s t u : σ} {as : List α} {a : α} (h : run step s as = some t)
    (ha : step t a = some u) : run step s (as ++ [a]) = some u :=
  (run_append_eq_some step).mpr ⟨t, h, (run_cons_eq_some step).mpr ⟨u, ha, rfl⟩⟩

variable {step}

/-- **The invariant rule.**  What every step preserves, every run preserves. -/
theorem run_induction {P : σ → Prop} (hstep : ∀ s a t, P s → step s a = some t → P t) :
    ∀ {s t : σ} {as : List α}, P s → run step s as = some t → P t := by
  intro s t as hs h
  induction as generalizing s with
  | nil =>
    rw [run_nil, Option.some.injEq] at h
    exact h ▸ hs
  | cons a as ih =>
    obtain ⟨u, hu, ht⟩ := (run_cons_eq_some step).mp h
    exact ih (hstep s a u hs hu) ht

/-! ## Properties of the states and of the steps of one run -/

variable (step)

/-- `P` holds in every state that the run passes through, its first and its last
included. -/
def EveryState (P : σ → Prop) : σ → List α → Prop
  | s, [] => P s
  | s, a :: as => P s ∧ ∀ t, step s a = some t → EveryState P t as

/-- `Q` holds of every step of the run: of the state before the step and of the
action. -/
def EveryStep (Q : σ → α → Prop) : σ → List α → Prop
  | _, [] => True
  | s, a :: as => ∀ t, step s a = some t → Q s a ∧ EveryStep Q t as

variable {step}

/-- The rule for what is said of a state and of the actions that led to it, in a run whose steps
have some property. -/
theorem run_history_of_everyStep {P : List α → σ → Prop} {Q : σ → α → Prop}
    (hstep : ∀ as s a t, P as s → Q s a → step s a = some t → P (as ++ [a]) t) :
    ∀ {s t : σ} {as bs : List α}, P as s → EveryStep step Q s bs → run step s bs = some t →
      P (as ++ bs) t := by
  intro s t as bs hs hQ h
  induction bs generalizing s as with
  | nil =>
    rw [run_nil, Option.some.injEq] at h
    rw [List.append_nil]
    exact h ▸ hs
  | cons b bs ih =>
    obtain ⟨u, hu, ht⟩ := (run_cons_eq_some step).mp h
    obtain ⟨hb, hbs⟩ := hQ u hu
    rw [List.append_cons]
    exact ih (hstep as s b u hs hb hu) hbs ht

theorem everyStep_true (s : σ) (as : List α) : EveryStep step (fun _ _ => True) s as := by
  induction as generalizing s with
  | nil => trivial
  | cons a as ih => exact fun t _ => ⟨trivial, ih t⟩

/-- The rule for any run. -/
theorem run_history {P : List α → σ → Prop}
    (hstep : ∀ as s a t, P as s → step s a = some t → P (as ++ [a]) t) {s t : σ} {as bs : List α}
    (hs : P as s) (hrun : run step s bs = some t) : P (as ++ bs) t :=
  run_history_of_everyStep (fun as s a t hs _ h => hstep as s a t hs h) hs (everyStep_true s bs)
    hrun

theorem EveryState.head {P : σ → Prop} {s : σ} {as : List α} (h : EveryState step P s as) :
    P s := by
  cases as with
  | nil => exact h
  | cons a as => exact h.1

theorem EveryState.last {P : σ → Prop} {s t : σ} {as : List α} (h : EveryState step P s as)
    (hrun : run step s as = some t) : P t := by
  induction as generalizing s with
  | nil =>
    rw [← Option.some.inj hrun]
    exact h
  | cons a as ih =>
    obtain ⟨u, hu, hrest⟩ := (run_cons_eq_some step).mp hrun
    exact ih (h.2 u hu) hrest

/-- What is lost for good, once it is lost, has held all along if it holds at the end. -/
theorem everyState_of_last {I P : σ → Prop} (hI : ∀ s a t, I s → step s a = some t → I t)
    (hlost : ∀ s a t, I s → step s a = some t → P t → P s) {s t : σ} {as : List α} (hs : I s)
    (hrun : run step s as = some t) (ht : P t) : EveryState step P s as := by
  induction as generalizing s with
  | nil =>
    rw [run_nil, Option.some_inj] at hrun
    exact hrun ▸ ht
  | cons a as ih =>
    obtain ⟨u, hu, hrest⟩ := (run_cons_eq_some step).mp hrun
    have hall := ih (hI s a u hs hu) hrest
    refine ⟨hlost s a u hs hu hall.head, fun v hv => ?_⟩
    obtain rfl := Option.some.inj (hu.symm.trans hv)
    exact hall

/-- **Locating a defect.**  Suppose that, from states that satisfy an invariant
`I` and the property `P`, a step keeps `P` exactly when `Q` holds of it.  Then a
run that starts well has `P` in all its states exactly when `Q` holds of all its
steps. -/
theorem everyState_iff_everyStep {I P : σ → Prop} {Q : σ → α → Prop}
    (hI : ∀ s a t, I s → step s a = some t → I t)
    (hPQ : ∀ s a t, I s → P s → step s a = some t → (P t ↔ Q s a)) {s : σ} {as : List α}
    (hs : I s) (hP : P s) : EveryState step P s as ↔ EveryStep step Q s as := by
  induction as generalizing s with
  | nil => exact ⟨fun _ => trivial, fun _ => hP⟩
  | cons a as ih =>
    constructor
    · rintro ⟨-, hrest⟩ t ht
      have hPt : P t := (hrest t ht).head
      exact ⟨(hPQ s a t hs hP ht).mp hPt, (ih (hI s a t hs ht) hPt).mp (hrest t ht)⟩
    · intro h
      refine ⟨hP, fun t ht => ?_⟩
      obtain ⟨hQ, hrest⟩ := h t ht
      have hPt : P t := (hPQ s a t hs hP ht).mpr hQ
      exact (ih (hI s a t hs ht) hPt).mpr hrest

/-- Two properties of steps that agree where an invariant holds agree along a run
whose actions, all of them in `A`, keep it. -/
theorem everyStep_congr {I : σ → Prop} {A : α → Prop} {Q Q' : σ → α → Prop}
    (hI : ∀ s a t, A a → I s → step s a = some t → I t)
    (hQ : ∀ s a t, I s → step s a = some t → (Q s a ↔ Q' s a)) {s : σ} {as : List α}
    (hs : I s) (has : ∀ a ∈ as, A a) : EveryStep step Q s as ↔ EveryStep step Q' s as := by
  induction as generalizing s with
  | nil => rfl
  | cons a as ih =>
    obtain ⟨ha, has⟩ := List.forall_mem_cons.mp has
    refine forall_congr' fun t => forall_congr' fun ht => ?_
    rw [hQ s a t hs ht, ih (hI s a t ha hs ht) has]

/-! ## Simulation -/

section Simulation

variable {σ' α' : Type*} {step' : σ' → α' → Option σ'}

variable (step) in
/-- What can be seen of a run, when `vis` tells what can be seen of a step. -/
def trace (vis : σ → α → List α') : σ → List α → List α'
  | _, [] => []
  | s, a :: as => vis s a ++ ((step s a).map fun t => trace vis t as).getD []

/-- **The simulation rule.**  If one step here is made up for by the steps that can be seen of it
there, then so is every run. -/
theorem run_simulation {vis : σ → α → List α'} {R : σ → σ' → Prop}
    (hstep : ∀ x s a y, R x s → step x a = some y → ∃ t, run step' s (vis x a) = some t ∧ R y t)
    {x y : σ} {s : σ'} {as : List α} (hx : R x s) (hrun : run step x as = some y) :
    ∃ t, run step' s (trace step vis x as) = some t ∧ R y t := by
  induction as generalizing x s with
  | nil =>
    rw [run_nil, Option.some_inj] at hrun
    exact ⟨s, rfl, hrun ▸ hx⟩
  | cons a as ih =>
    obtain ⟨z, hz, hrest⟩ := (run_cons_eq_some step).mp hrun
    obtain ⟨u, hu, hzu⟩ := hstep x s a z hx hz
    obtain ⟨t, ht, hyt⟩ := ih hzu hrest
    refine ⟨t, ?_, hyt⟩
    rw [trace, hz, Option.map_some, Option.getD_some]
    exact (run_append_eq_some step').mpr ⟨u, hu, ht⟩

end Simulation

/-! ## Potentials -/

section Potential

variable {I : σ → Prop} {V : σ → ℕ}

/-- **The potential rule.**  A step takes what it costs out of the potential `V`, and
adds what it gains at most. -/
theorem run_potential {cost gain : α → ℕ} (hI : ∀ s a t, I s → step s a = some t → I t)
    (hstep : ∀ s a t, I s → step s a = some t → V t + cost a ≤ V s + gain a)
    {s t : σ} {as : List α} (hs : I s) (hrun : run step s as = some t) :
    V t + (as.map cost).sum ≤ V s + (as.map gain).sum := by
  induction as generalizing s with
  | nil =>
    rw [← Option.some.inj hrun]
    exact Nat.le_refl _
  | cons a as ih =>
    obtain ⟨u, hu, hrest⟩ := (run_cons_eq_some step).mp hrun
    have hone := hstep s a u hs hu
    have hmany := ih (hI s a u hs hu) hrest
    rw [List.map_cons, List.sum_cons, List.map_cons, List.sum_cons]
    omega

/-- What a run costs when the steps of one kind cost `n` each. -/
theorem sum_map_ite (p : α → Bool) (n : ℕ) (as : List α) :
    (as.map fun a => if p a then n else 0).sum = n * as.countP p := by
  induction as with
  | nil => rfl
  | cons a as ih =>
    rw [List.map_cons, List.sum_cons, ih, List.countP_cons, Nat.mul_add, Nat.add_comm]
    split
    · rw [Nat.mul_one]
    · rw [Nat.mul_zero]

/-- The rule where the steps of one kind cost one each, and those of another bring in `k`. -/
theorem run_potential_countP {p q : α → Bool} {k : ℕ}
    (hI : ∀ s a t, I s → step s a = some t → I t)
    (hstep : ∀ s a t, I s → step s a = some t →
      V t + (if p a then 1 else 0) ≤ V s + if q a then k else 0)
    {s t : σ} {as : List α} (hs : I s) (hrun : run step s as = some t) :
    V t + as.countP p ≤ V s + k * as.countP q := by
  have hpaid := run_potential hI hstep hs hrun
  rwa [sum_map_ite, sum_map_ite, Nat.one_mul] at hpaid

variable (step) in
/-- No action of the class can be made. -/
def Stuck (A : α → Prop) (s : σ) : Prop := ∀ a, A a → step s a = none

/-- **Runs end.**  If the steps of a class keep an invariant and lower the potential, then some run
of them leads to a state where none of them is left. -/
theorem exists_run_stuck {A : α → Prop} (hI : ∀ s a t, I s → A a → step s a = some t → I t)
    (hstep : ∀ s a t, I s → A a → step s a = some t → V t < V s) {s : σ} (hs : I s) :
    ∃ as t, (∀ a ∈ as, A a) ∧ run step s as = some t ∧ I t ∧ Stuck step A t := by
  induction hn : V s using Nat.strongRecOn generalizing s with
  | _ n ih =>
    subst hn
    by_cases hstuck : Stuck step A s
    · exact ⟨[], s, nofun, rfl, hs, hstuck⟩
    · obtain ⟨a, ha, hsome⟩ : ∃ a, A a ∧ step s a ≠ none := by
        simpa only [Stuck, not_forall, exists_prop] using hstuck
      obtain ⟨u, hu⟩ := Option.ne_none_iff_exists'.mp hsome
      obtain ⟨as, t, has, hrun, ht⟩ := ih _ (hstep s a u hs ha hu) (hI s a u hs ha hu) rfl
      refine ⟨a :: as, t, fun b hb => ?_, (run_cons_eq_some step).mpr ⟨u, hu, hrun⟩, ht⟩
      rcases List.mem_cons.mp hb with rfl | hb
      · exact ha
      · exact has b hb

end Potential

end Runs
end CCore
