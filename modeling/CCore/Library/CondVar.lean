import Mathlib.Algebra.GroupWithZero.Nat
import Mathlib.Data.List.Basic
import Mathlib.Data.List.Perm.Basic

/-!
# Threads, and the condition variable they sleep on

A family of threads that run the same code is a list: entry `i` says where
thread `i` stands in that code.  One of these places is "asleep on the condition
variable", another is "woken, about to take the mutex again", and the condition
variable itself is nothing but the set of threads at the first place.

* `signal` moves one sleeper, chosen by the scheduler, from the first place to
  the second; when nobody sleeps it is lost.
* `broadcast` moves all of them.

Everything that is ever counted about such a family (how many threads are
asleep, how many are busy) or collected from it (what the threads hold) changes
by one entry when one thread moves.  `countP_set_add` and `filterMap_set_perm`
say how, with no subtraction.
-/

namespace CCore
namespace CondVar

variable {W : Type*}

/-! ## One thread moves -/

/-- Moving thread `i` from `w` to `w'` changes a count by the difference of the
two places. -/
theorem countP_set_add (p : W → Bool) {ws : List W} {i : ℕ} {w : W} (h : ws[i]? = some w)
    (w' : W) :
    (ws.set i w').countP p + (if p w then 1 else 0) =
      ws.countP p + (if p w' then 1 else 0) := by
  induction ws generalizing i with
  | nil => simp at h
  | cons v ws ih =>
    cases i with
    | zero =>
      rw [List.getElem?_cons_zero, Option.some.injEq] at h
      rw [h, List.set_cons_zero, List.countP_cons, List.countP_cons]
      omega
    | succ i =>
      rw [List.getElem?_cons_succ] at h
      have hi := ih h
      rw [List.set_cons_succ, List.countP_cons, List.countP_cons]
      omega

/-- Likewise for a sum of weights. -/
theorem sum_set_add (f : W → ℕ) {ws : List W} {i : ℕ} {w : W} (h : ws[i]? = some w) (w' : W) :
    ((ws.set i w').map f).sum + f w = (ws.map f).sum + f w' := by
  induction ws generalizing i with
  | nil => simp at h
  | cons v ws ih =>
    cases i with
    | zero =>
      rw [List.getElem?_cons_zero, Option.some.injEq] at h
      rw [h, List.set_cons_zero, List.map_cons, List.map_cons, List.sum_cons, List.sum_cons]
      omega
    | succ i =>
      rw [List.getElem?_cons_succ] at h
      have hi := ih h
      rw [List.set_cons_succ, List.map_cons, List.map_cons, List.sum_cons, List.sum_cons]
      omega

/-- What the threads hold, after thread `i` has moved from `w` to `w'`. -/
theorem filterMap_set_perm {β : Type*} (f : W → Option β) {ws : List W} {i : ℕ} {w : W}
    (h : ws[i]? = some w) (w' : W) :
    ((f w).toList ++ (ws.set i w').filterMap f).Perm ((f w').toList ++ ws.filterMap f) := by
  have hcons : ∀ (v : W) (vs : List W),
      (v :: vs).filterMap f = (f v).toList ++ vs.filterMap f := by
    intro v vs
    cases hv : f v with
    | none => rw [List.filterMap_cons_none hv, Option.toList_none, List.nil_append]
    | some b => rw [List.filterMap_cons_some hv, Option.toList_some, List.singleton_append]
  induction ws generalizing i with
  | nil => simp at h
  | cons v ws ih =>
    cases i with
    | zero =>
      rw [List.getElem?_cons_zero, Option.some.injEq] at h
      rw [h, List.set_cons_zero, hcons, hcons, ← List.append_assoc, ← List.append_assoc]
      exact List.Perm.append_right _ List.perm_append_comm
    | succ i =>
      rw [List.getElem?_cons_succ] at h
      rw [List.set_cons_succ, hcons, hcons]
      calc ((f w).toList ++ ((f v).toList ++ (ws.set i w').filterMap f)).Perm
            ((f v).toList ++ ((f w).toList ++ (ws.set i w').filterMap f)) :=
              List.perm_append_comm_assoc _ _ _
        List.Perm _ ((f v).toList ++ ((f w').toList ++ ws.filterMap f)) :=
              List.Perm.append_left _ (ih h)
        List.Perm _ ((f w').toList ++ ((f v).toList ++ ws.filterMap f)) :=
              List.perm_append_comm_assoc _ _ _

/-- A thread that moves between places which hold the same things changes
nothing. -/
theorem filterMap_set_perm_of_eq {β : Type*} (f : W → Option β) {ws : List W} {i : ℕ} {w w' : W}
    (h : ws[i]? = some w) (hf : f w = f w') :
    ((ws.set i w').filterMap f).Perm (ws.filterMap f) := by
  have hset := filterMap_set_perm f h w'
  rw [hf] at hset
  exact (List.perm_append_left_iff _).mp hset

/-- When no two threads hold the same thing, what is held names its holder. -/
theorem eq_of_filterMap_nodup {β : Type*} (f : W → Option β) {ws : List W}
    (hnodup : (ws.filterMap f).Nodup) {i j : ℕ} {v w : W} {b : β} (hi : ws[i]? = some v)
    (hj : ws[j]? = some w) (hv : f v = some b) (hw : f w = some b) : i = j := by
  induction ws generalizing i j with
  | nil => simp at hi
  | cons u ws ih =>
    -- a thread of the tail that holds what the head holds is a duplicate
    have hhead : ∀ {k : ℕ} {x : W}, ws[k]? = some x → f x = some b → f u ≠ some b := by
      intro k x hk hx hu
      rw [List.filterMap_cons_some hu, List.nodup_cons] at hnodup
      exact hnodup.1 (List.mem_filterMap.mpr ⟨x, List.mem_of_getElem? hk, hx⟩)
    have htail : (ws.filterMap f).Nodup :=
      hnodup.sublist ((List.sublist_cons_self u ws).filterMap f)
    cases i with
    | zero =>
      rw [List.getElem?_cons_zero, Option.some.injEq] at hi
      cases j with
      | zero => rfl
      | succ j => exact absurd (hi ▸ hv) (hhead (List.getElem?_cons_succ ▸ hj) hw)
    | succ i =>
      rw [List.getElem?_cons_succ] at hi
      cases j with
      | zero =>
        rw [List.getElem?_cons_zero, Option.some.injEq] at hj
        exact absurd (hj ▸ hw) (hhead hi hv)
      | succ j =>
        rw [List.getElem?_cons_succ] at hj
        rw [ih htail hi hj]

/-! ## Waking sleepers -/

section Waking

variable [DecidableEq W] (asleep woken : W)

/-- `pthread_cond_signal`: if some thread is asleep, one of them is woken, and
`i` is the scheduler's choice; `none` means that `i` was no possible choice. -/
def signal (ws : List W) (i : ℕ) : Option (List W) :=
  if asleep ∈ ws then
    if ws[i]? = some asleep then some (ws.set i woken) else none
  else some ws

/-- `pthread_cond_broadcast`: every thread that is asleep is woken. -/
def broadcast (ws : List W) : List W :=
  ws.map fun w => if w = asleep then woken else w

variable {asleep woken}

/-- All a signal can do: it is lost, or it wakes the chosen sleeper. -/
theorem signal_cases {ws ws' : List W} {i : ℕ} (h : signal asleep woken ws i = some ws') :
    (asleep ∉ ws ∧ ws' = ws) ∨ (ws[i]? = some asleep ∧ ws' = ws.set i woken) := by
  unfold signal at h
  split at h
  · split at h
    · exact Or.inr ⟨‹_›, (Option.some.inj h).symm⟩
    · exact absurd h (by simp)
  · exact Or.inl ⟨‹_›, (Option.some.inj h).symm⟩

/-- A signal changes no count that does not tell sleepers from woken threads. -/
theorem countP_signal {ws ws' : List W} {i : ℕ} (h : signal asleep woken ws i = some ws')
    (p : W → Bool) (hp : p asleep = p woken) : ws'.countP p = ws.countP p := by
  rcases signal_cases h with ⟨-, rfl⟩ | ⟨hi, rfl⟩
  · rfl
  · have hset := countP_set_add p hi woken
    rw [hp] at hset
    omega

/-- A signal changes nothing that is collected from neither sleepers nor woken
threads. -/
theorem filterMap_signal {β : Type*} {ws ws' : List W} {i : ℕ}
    (h : signal asleep woken ws i = some ws') (f : W → Option β) (ha : f asleep = none)
    (hw : f woken = none) : (ws'.filterMap f).Perm (ws.filterMap f) := by
  rcases signal_cases h with ⟨-, rfl⟩ | ⟨hi, rfl⟩
  · exact List.Perm.refl _
  · have hset := filterMap_set_perm f hi woken
    rwa [ha, hw] at hset

/-- A signal keeps every thread that is not asleep where it is. -/
theorem getElem?_signal {ws ws' : List W} {i j : ℕ} {w : W}
    (h : signal asleep woken ws i = some ws') (hj : ws[j]? = some w) (hw : w ≠ asleep) :
    ws'[j]? = some w := by
  rcases signal_cases h with ⟨-, rfl⟩ | ⟨hi, rfl⟩
  · exact hj
  · have hij : i ≠ j := by
      rintro rfl
      rw [hi, Option.some.injEq] at hj
      exact hw hj.symm
    rw [List.getElem?_set_ne hij]
    exact hj

/-- A signal adds one waking to a sum of weights. -/
theorem sum_signal_le {ws ws' : List W} {i : ℕ} (h : signal asleep woken ws i = some ws')
    (f : W → ℕ) : (ws'.map f).sum ≤ (ws.map f).sum + f woken := by
  rcases signal_cases h with ⟨-, rfl⟩ | ⟨hi, rfl⟩
  · exact Nat.le_add_right _ _
  · have hset := sum_set_add f hi woken
    omega

theorem length_signal {ws ws' : List W} {i : ℕ} (h : signal asleep woken ws i = some ws') :
    ws'.length = ws.length := by
  rcases signal_cases h with ⟨-, rfl⟩ | ⟨-, rfl⟩
  · rfl
  · exact List.length_set

/-- **A signal takes one sleeper away**, if there is one. -/
theorem count_signal (hne : woken ≠ asleep) {ws ws' : List W} {i : ℕ}
    (h : signal asleep woken ws i = some ws') :
    ws'.count asleep = ws.count asleep - 1 := by
  rcases signal_cases h with ⟨hn, rfl⟩ | ⟨hi, rfl⟩
  · rw [List.count_eq_zero.mpr hn]
  · have hset := countP_set_add (fun w => w == asleep) hi woken
    simp only [beq_self_eq_true, if_true, beq_eq_false_iff_ne.mpr hne, Bool.false_eq_true,
      if_false] at hset
    simp only [List.count]
    omega

/-- After a broadcast nobody is asleep. -/
theorem asleep_notMem_broadcast (hne : woken ≠ asleep) (ws : List W) :
    asleep ∉ broadcast asleep woken ws := by
  intro h
  obtain ⟨w, -, hw⟩ := List.mem_map.mp h
  split at hw
  · exact hne hw
  · exact ‹¬_› hw

theorem countP_broadcast (ws : List W) (p : W → Bool) (hp : p asleep = p woken) :
    (broadcast asleep woken ws).countP p = ws.countP p := by
  rw [broadcast, List.countP_map]
  congr 1
  funext w
  by_cases hw : w = asleep
  · rw [Function.comp_apply, if_pos hw, hw, hp]
  · rw [Function.comp_apply, if_neg hw]

theorem filterMap_broadcast {β : Type*} (ws : List W) (f : W → Option β)
    (hf : f asleep = f woken) : (broadcast asleep woken ws).filterMap f = ws.filterMap f := by
  rw [broadcast, List.filterMap_map]
  congr 1
  funext w
  by_cases hw : w = asleep
  · rw [Function.comp_apply, if_pos hw, hw, hf]
  · rw [Function.comp_apply, if_neg hw]

/-- A broadcast adds one waking for each thread at most. -/
theorem sum_broadcast_le (ws : List W) (f : W → ℕ) :
    ((broadcast asleep woken ws).map f).sum ≤ (ws.map f).sum + ws.length * f woken := by
  rw [broadcast]
  induction ws with
  | nil => exact Nat.zero_le _
  | cons w ws ih =>
    rw [List.map_cons, List.map_cons, List.sum_cons, List.map_cons, List.sum_cons,
      List.length_cons, Nat.succ_mul]
    split
    · omega
    · omega

@[simp] theorem length_broadcast (ws : List W) :
    (broadcast asleep woken ws).length = ws.length :=
  List.length_map _

/-- Threads that are seen from further away: if one can still tell who is asleep, a signal to
what is seen is seen of the signal. -/
theorem signal_map {W' : Type*} [DecidableEq W'] {asleep' woken' : W'} {f : W → W'}
    (hasleep : ∀ w, f w = asleep' ↔ w = asleep) (hwoken : f woken = woken') (ws : List W) (i : ℕ) :
    signal asleep' woken' (ws.map f) i = (signal asleep woken ws i).map (List.map f) := by
  have hmem : asleep' ∈ ws.map f ↔ asleep ∈ ws := by
    rw [List.mem_map]
    exact ⟨fun ⟨w, hw, h⟩ => (hasleep w).mp h ▸ hw, fun h => ⟨asleep, h, (hasleep asleep).mpr rfl⟩⟩
  have hget : (ws.map f)[i]? = some asleep' ↔ ws[i]? = some asleep := by
    rw [List.getElem?_map, Option.map_eq_some_iff]
    exact ⟨fun ⟨w, hw, h⟩ => (hasleep w).mp h ▸ hw, fun h => ⟨asleep, h, (hasleep asleep).mpr rfl⟩⟩
  rw [signal, signal, if_congr hmem (if_congr hget rfl rfl) rfl]
  split
  · split
    · rw [Option.map_some, List.map_set, hwoken]
    · rfl
  · rfl

theorem broadcast_map {W' : Type*} [DecidableEq W'] {asleep' woken' : W'} {f : W → W'}
    (hasleep : ∀ w, f w = asleep' ↔ w = asleep) (hwoken : f woken = woken') (ws : List W) :
    broadcast asleep' woken' (ws.map f) = (broadcast asleep woken ws).map f := by
  rw [broadcast, broadcast, List.map_map, List.map_map]
  refine List.map_congr_left fun w _ => ?_
  rw [Function.comp_apply, Function.comp_apply, apply_ite f, hwoken]
  exact if_congr (hasleep w) rfl rfl

end Waking

end CondVar
end CCore
