import Mathlib.Data.List.Infix

/-!
# Joining parts with a separator

Parts are joined with a separator between any two of them.  The join grows with every part, so
among the prefixes of a list of parts there is a longest one whose join fits into a given room, and
it is where a program ends that adds part after part until one does not fit.
-/

namespace CCore
namespace Joining

variable {α : Type*} {sep : α} {room : ℕ} {part : List α} {parts before before' : List (List α)}

/-- The parts, with the separator between them. -/
def joined (sep : α) (parts : List (List α)) : List α := [sep].intercalate parts

@[simp] theorem joined_nil : joined sep [] = [] := rfl

theorem joined_singleton : joined sep [part] = part := List.intercalate_singleton

theorem joined_cons (h : parts ≠ []) :
    joined sep (part :: parts) = part ++ sep :: joined sep parts := by
  rw [joined, List.intercalate_cons_of_ne_nil h, List.append_assoc]
  rfl

/-- **One more part** comes behind one more separator. -/
theorem joined_concat (h : parts ≠ []) :
    joined sep (parts ++ [part]) = joined sep parts ++ sep :: part := by
  induction parts with
  | nil => exact absurd rfl h
  | cons first parts ih =>
    by_cases hparts : parts = []
    · rw [hparts, List.singleton_append, joined_cons (List.cons_ne_nil _ _), joined_singleton,
        joined_singleton]
    · rw [List.cons_append, joined_cons (List.append_ne_nil_of_left_ne_nil hparts _), ih hparts,
        joined_cons hparts, List.append_assoc, List.cons_append]

/-- **Joins of joins.** -/
theorem joined_append {after : List (List α)} (hbefore : before ≠ []) (hafter : after ≠ []) :
    joined sep (before ++ after) = joined sep before ++ sep :: joined sep after := by
  induction before with
  | nil => exact absurd rfl hbefore
  | cons first before ih =>
    by_cases hnil : before = []
    · rw [hnil, List.singleton_append, joined_cons hafter, joined_singleton]
    · rw [List.cons_append, joined_cons (List.append_ne_nil_of_left_ne_nil hnil _), ih hnil,
        joined_cons hnil, List.append_assoc, List.cons_append]

/-- What is in a join is the separator, or in a part. -/
theorem mem_joined {a : α} (h : a ∈ joined sep parts) : a = sep ∨ ∃ part ∈ parts, a ∈ part := by
  induction parts with
  | nil => exact absurd h List.not_mem_nil
  | cons part parts ih =>
    by_cases hnil : parts = []
    · rw [hnil, joined_singleton] at h
      exact Or.inr ⟨part, List.mem_cons_self, h⟩
    · rw [joined_cons hnil, List.mem_append, List.mem_cons] at h
      rcases h with h | h | h
      · exact Or.inr ⟨part, List.mem_cons_self, h⟩
      · exact Or.inl h
      · obtain hsep | ⟨other, hother, ha⟩ := ih h
        · exact Or.inl hsep
        · exact Or.inr ⟨other, List.mem_cons_of_mem _ hother, ha⟩

/-- Between parts without separators there are as many as there are parts, less one. -/
theorem countP_joined {p : α → Bool} (hsep : p sep = true) (hne : parts ≠ [])
    (hparts : ∀ part ∈ parts, part.countP p = 0) :
    (joined sep parts).countP p + 1 = parts.length := by
  induction parts with
  | nil => exact absurd rfl hne
  | cons part parts ih =>
    obtain ⟨hpart, hrest⟩ := List.forall_mem_cons.mp hparts
    by_cases hnil : parts = []
    · rw [hnil, joined_singleton, hpart]
      rfl
    · rw [joined_cons hnil, List.countP_append, List.countP_cons_of_pos hsep, hpart,
        List.length_cons, Nat.zero_add, ih hnil hrest]

/-- The join grows. -/
theorem length_joined_le_cons : part.length ≤ (joined sep (part :: parts)).length := by
  by_cases hparts : parts = []
  · rw [hparts, joined_singleton]
  · rw [joined_cons hparts, List.length_append]
    exact Nat.le_add_right _ _

theorem length_joined_le_append (sep : α) (parts more : List (List α)) :
    (joined sep parts).length ≤ (joined sep (parts ++ more)).length := by
  induction more using List.reverseRecOn with
  | nil => rw [List.append_nil]
  | append_singleton more last ih =>
    refine ih.trans ?_
    rw [← List.append_assoc]
    by_cases hnil : parts ++ more = []
    · rw [hnil]
      exact Nat.zero_le _
    · rw [joined_concat hnil, List.length_append]
      exact Nat.le_add_right _ _

/-- **The longest prefix that fits.**  The join of a prefix fits if the room is larger than it. -/
structure LongestFit (sep : α) (room : ℕ) (parts before : List (List α)) : Prop where
  isPrefix : before <+: parts
  fits : (joined sep before).length < room
  longest : ∀ other, other <+: parts → (joined sep other).length < room →
    other.length ≤ before.length

/-- **Where the next part does not fit, no longer prefix does.** -/
theorem longestFit_of_next {after : List (List α)} (hparts : parts = before ++ after)
    (hfits : (joined sep before).length < room)
    (hnext : ∀ next rest, after = next :: rest →
      room ≤ (joined sep (before ++ [next])).length) : LongestFit sep room parts before := by
  refine ⟨⟨after, hparts.symm⟩, hfits, fun other hother hroom => ?_⟩
  by_contra hlong
  have hprefix : before <+: other :=
    List.prefix_of_prefix_length_le ⟨after, hparts.symm⟩ hother (Nat.le_of_not_le hlong)
  obtain ⟨more, rfl⟩ := hprefix
  cases more with
  | nil => exact hlong (congrArg List.length (List.append_nil before)).le
  | cons next more =>
    obtain ⟨rest, hrest⟩ := hother
    rw [hparts, List.append_assoc, List.append_cancel_left_eq, List.cons_append] at hrest
    have hle := length_joined_le_append sep (before ++ [next]) more
    rw [← List.append_cons] at hle
    exact absurd ((hnext next _ hrest.symm).trans hle) (Nat.not_le.mpr hroom)

end Joining
end CCore
