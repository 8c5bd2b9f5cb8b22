import Mathlib.Data.List.Infix
import Mathlib.Data.List.TakeWhile

/-!
# Runs of characters

A hand-written scanner skips the characters of one kind and stops at the first of
another.  Its result is `dropWhile`, and what a proof about it needs is the converse:
that a text of the form `w ++ l`, with `w` of the kind and `l` not beginning with it,
is cut just there.  `Stops p l` is the second condition.
-/

namespace CCore
namespace Scanning

variable {α : Type*} {p : α → Bool}

/-- `l` does not begin with an element that satisfies `p`. -/
def Stops (p : α → Bool) (l : List α) : Prop := ∀ c ∈ l.head?, p c = false

@[simp] theorem stops_nil : Stops p [] := nofun

@[simp] theorem stops_cons {c : α} {l : List α} : Stops p (c :: l) ↔ p c = false := by
  rw [Stops, List.head?_cons]
  exact ⟨fun h => h c rfl, fun h d hd => Option.some.inj hd ▸ h⟩

theorem stops_dropWhile (p : α → Bool) (l : List α) : Stops p (l.dropWhile p) := by
  intro c hc
  have h := List.head?_dropWhile_not p l
  rw [Option.mem_def] at hc
  rw [hc] at h
  exact h

/-- **A run is skipped up to its end.** -/
theorem dropWhile_append {w l : List α} (hw : ∀ c ∈ w, p c = true) (hl : Stops p l) :
    (w ++ l).dropWhile p = l := by
  rw [List.dropWhile_append_of_pos hw]
  cases l with
  | nil => rfl
  | cons c l => rw [List.dropWhile_cons, stops_cons.mp hl, if_neg Bool.false_ne_true]

/-- Every text is a run and what comes behind it. -/
theorem exists_run (p : α → Bool) (l : List α) :
    ∃ w, (∀ c ∈ w, p c = true) ∧ l = w ++ l.dropWhile p :=
  ⟨l.takeWhile p, fun _ hc => List.mem_takeWhile_imp hc, List.takeWhile_append_dropWhile.symm⟩

/-- A text behind a run of other characters stops, if it does or is empty. -/
theorem stops_append {w l : List α} (hw : ∀ c ∈ w, p c = false) (hl : Stops p l) :
    Stops p (w ++ l) := by
  cases w with
  | nil => exact hl
  | cons c w => exact stops_cons.mpr (hw c List.mem_cons_self)

/-! ## Longest prefixes -/

/-- The longest prefix of the form `q`, or nothing. -/
def longestPrefix (q : List α → Bool) (l : List α) : List α := (l.inits.reverse.find? q).getD []

/-- A text of the form is its own longest prefix. -/
theorem longestPrefix_of {q : List α → Bool} {l : List α} (h : q l = true) :
    longestPrefix q l = l := by
  have hlast : l.inits.reverse = l :: l.inits.reverse.tail := by
    rw [List.inits_eq_tails, List.reverse_reverse]
    cases hl : l.reverse with
    | nil =>
      obtain rfl := List.reverse_eq_nil_iff.mp hl
      rfl
    | cons a l' => rw [List.tails_cons, List.map_cons, List.tail_cons, ← hl, List.reverse_reverse]
  rw [longestPrefix, hlast, List.find?_cons_of_pos h, Option.getD_some]

/-- What cannot be continued to the form is not looked at. -/
theorem longestPrefix_append {q : List α → Bool} {l rest : List α}
    (h : ∀ r, r <+: rest → r ≠ [] → q (l ++ r) = false) :
    longestPrefix q (l ++ rest) = longestPrefix q l := by
  have hnone : ((rest.inits.tail.map (l ++ ·)).reverse.find? q) = none := by
    refine List.find?_eq_none.mpr fun s hs => ?_
    obtain ⟨r, hr, rfl⟩ := List.mem_map.mp (List.mem_reverse.mp hs)
    have hne : r ≠ [] := by
      cases rest with
      | nil => exact absurd hr List.not_mem_nil
      | cons a rest =>
        rw [List.inits_cons, List.tail_cons] at hr
        obtain ⟨t, -, rfl⟩ := List.mem_map.mp hr
        exact List.cons_ne_nil a t
    rw [h r ((List.mem_inits r rest).mp (List.mem_of_mem_tail hr)) hne]
    exact Bool.false_ne_true
  rw [longestPrefix, List.inits_append, List.reverse_append, List.find?_append, hnone,
    Option.none_or, longestPrefix]

/-! ## Delimiters

A search for an element is a run of the others. -/

variable [DecidableEq α] {a : α}

/-- The first occurrence of the element, found by skipping the others. -/
theorem dropWhile_ne_append {w : List α} (hw : a ∉ w) (l : List α) :
    (w ++ a :: l).dropWhile (· ≠ a) = a :: l := by
  refine dropWhile_append (fun c hc => decide_eq_true ?_) (stops_cons.mpr ?_)
  · rintro rfl
    exact hw hc
  · exact decide_eq_false (not_not.mpr rfl)

/-- What lies in front of the first occurrence. -/
theorem takeWhile_ne_append {w : List α} (hw : a ∉ w) (l : List α) :
    (w ++ a :: l).takeWhile (· ≠ a) = w := by
  have hkeep : w.takeWhile (· ≠ a) = w := by
    refine List.takeWhile_eq_self_iff.mpr fun c hc => decide_eq_true ?_
    rintro rfl
    exact hw hc
  have hstop : (a :: l).takeWhile (· ≠ a) = [] := by
    rw [List.takeWhile_cons, if_neg (by simp)]
  rw [List.takeWhile_append, hkeep, if_pos rfl, hstop, List.append_nil]

/-- **A search that ends at an element has found it**, and cuts the text there. -/
theorem cut_of_dropWhile_ne {c : α} {l after : List α} (h : l.dropWhile (· ≠ a) = c :: after) :
    c = a ∧ l = l.takeWhile (· ≠ a) ++ a :: after ∧ a ∉ l.takeWhile (· ≠ a) := by
  have hsplit := List.takeWhile_append_dropWhile (p := (· ≠ a)) (l := l)
  have hstops := stops_dropWhile (· ≠ a) l
  rw [h] at hsplit hstops
  have hc : c = a := not_not.mp (of_decide_eq_false (hstops c rfl))
  refine ⟨hc, ?_, fun hmem => ?_⟩
  · rw [hc] at hsplit
    exact hsplit.symm
  · have hne := List.mem_takeWhile_imp hmem
    exact of_decide_eq_true (p := a ≠ a) hne rfl

/-- A search that finds nothing has nothing to find. -/
theorem notMem_of_dropWhile_ne {l : List α} (h : l.dropWhile (· ≠ a) = []) : a ∉ l := by
  intro hmem
  have hne := List.dropWhile_eq_nil_iff.mp h a hmem
  exact of_decide_eq_true (p := a ≠ a) hne rfl

omit [DecidableEq α] in
/-- The first element without a property is in one place. -/
theorem first_unique {q : α → Prop} {w w' l l' : List α} {b b' : α}
    (h : w ++ b :: l = w' ++ b' :: l') (hw : ∀ c ∈ w, q c) (hw' : ∀ c ∈ w', q c) (hb : ¬q b)
    (hb' : ¬q b') : w = w' ∧ b = b' ∧ l = l' := by
  induction w generalizing w' with
  | nil =>
    cases w' with
    | nil => exact ⟨rfl, List.cons.inj h⟩
    | cons c w' => exact absurd ((List.cons.inj h).1 ▸ hw' c List.mem_cons_self) hb
  | cons c w ih =>
    cases w' with
    | nil => exact absurd ((List.cons.inj h).1 ▸ hw c List.mem_cons_self) hb'
    | cons c' w' =>
      obtain ⟨rfl, htail⟩ := List.cons.inj h
      obtain ⟨rfl, hrest⟩ := ih htail (fun d hd => hw d (List.mem_cons_of_mem c hd))
        fun d hd => hw' d (List.mem_cons_of_mem c hd)
      exact ⟨rfl, hrest⟩

omit [DecidableEq α] in
/-- A text has one first occurrence of an element, and is cut there in one way. -/
theorem append_cons_inj {w w' l l' : List α} (hw : a ∉ w) (hw' : a ∉ w')
    (h : w ++ a :: l = w' ++ a :: l') : w = w' ∧ l = l' := by
  have hne : ∀ {v : List α}, a ∉ v → ∀ c ∈ v, c ≠ a := fun hv c hc hca => hv (hca ▸ hc)
  obtain ⟨hcut, -, hrest⟩ := first_unique h (hne hw) (hne hw') (not_not.mpr rfl) (not_not.mpr rfl)
  exact ⟨hcut, hrest⟩

end Scanning
end CCore
