import Mathlib.Data.List.Nodup
import Mathlib.Data.List.Perm.Basic

/-!
# Entries with distinct keys, spread over buckets

A hash table with chaining keeps its entries in an array of lists, and the key of
an entry says which list it is in.  What it stands for is the collection of all
entries together, and that collection has at most one entry for each key.

`Placed` is the invariant behind this.  Its two halves are used together: because
an entry lies where its key says (`place`), a search that finds nothing in one
bucket has found nothing anywhere, and because no two entries share a key (`nodup`),
a search that finds something has found the only thing there is.  So a search in
one bucket is a statement about the whole collection (`Placed.find?_eq_some_iff`).

A bucket is changed in two ways: an entry is put at its front (`Placed.push`), or
the entry that has a given key is replaced by one with the same key
(`Placed.update`).  In both, the rest of the collection stays as it is, up to order.

The hash function appears only as the map from keys to indices, and nothing is
assumed of it.
-/

namespace CCore
namespace KeyedBuckets

variable {ε κ : Type*}

/-! ## Updating one entry -/

/-- Replace the first entry that satisfies `p`; `none` if no entry does. -/
def updateFirst (p : ε → Bool) (f : ε → ε) : List ε → Option (List ε)
  | [] => none
  | e :: es => if p e then some (f e :: es) else (updateFirst p f es).map (e :: ·)

variable {p : ε → Bool} {f : ε → ε}

theorem updateFirst_eq_none {es : List ε} (h : updateFirst p f es = none) :
    ∀ e ∈ es, p e = false := by
  induction es with
  | nil => exact nofun
  | cons e es ih =>
    rw [updateFirst] at h
    split at h
    · exact absurd h nofun
    · rename_i he
      rw [Option.map_eq_none_iff] at h
      exact List.forall_mem_cons.mpr ⟨Bool.eq_false_iff.mpr he, ih h⟩

theorem updateFirst_of_eq_false {es : List ε} (h : ∀ e ∈ es, p e = false) :
    updateFirst p f es = none := by
  induction es with
  | nil => rfl
  | cons e es ih =>
    obtain ⟨he, hes⟩ := List.forall_mem_cons.mp h
    rw [updateFirst, he, if_neg Bool.false_ne_true, ih hes, Option.map_none]

/-- **An update seen through a projection.**  The entries are those of some `xs`, without
repetition, and what changes is the entry of the first of them that the search finds. -/
theorem updateFirst_map {ι : Type*} {g g' : ι → ε} {xs : List ι} {y : ι} (hnodup : xs.Nodup)
    (hfind : xs.find? (fun x => p (g x)) = some y) (hy : g' y = f (g y))
    (hother : ∀ x ∈ xs, x ≠ y → g' x = g x) :
    updateFirst p f (xs.map g) = some (xs.map g') := by
  induction xs with
  | nil => cases hfind
  | cons x xs ih =>
    obtain ⟨hx, hxs⟩ := List.nodup_cons.mp hnodup
    obtain ⟨hotherx, hother⟩ := List.forall_mem_cons.mp hother
    rw [List.map_cons, List.map_cons, updateFirst]
    by_cases hpx : p (g x) = true
    · rw [List.find?_cons_of_pos (p := fun x => p (g x)) hpx, Option.some.injEq] at hfind
      have hrest : xs.map g' = xs.map g :=
        List.map_congr_left fun z hz => hother z hz fun he => hx (hfind.trans he.symm ▸ hz)
      rw [if_pos hpx, hrest, hfind, hy]
    · rw [List.find?_cons_of_neg (p := fun x => p (g x)) hpx] at hfind
      have hpy : p (g y) = true := List.find?_some (p := fun x => p (g x)) hfind
      have hne : x ≠ y := fun he => hpx (he ▸ hpy)
      rw [if_neg hpx, ih hxs hfind hother, hotherx hne, Option.map_some]

/-- **What an update can do.** -/
theorem updateFirst_eq_some {es es' : List ε} (h : updateFirst p f es = some es') :
    ∃ as e bs, es = as ++ e :: bs ∧ p e = true ∧ es' = as ++ f e :: bs := by
  induction es generalizing es' with
  | nil => exact absurd h nofun
  | cons e es ih =>
    rw [updateFirst] at h
    split at h
    · rename_i he
      exact ⟨[], e, es, rfl, he, (Option.some.inj h).symm⟩
    · obtain ⟨rest, hrest, rfl⟩ := Option.map_eq_some_iff.mp h
      obtain ⟨as, a, bs, rfl, ha, rfl⟩ := ih hrest
      exact ⟨e :: as, a, bs, rfl, ha, rfl⟩

/-! ## One bucket among the others -/

/-- The collection of all entries is that of one bucket and of the rest, whatever
the bucket holds. -/
theorem exists_rest {buckets : List (List ε)} {i : ℕ} {b : List ε} (h : buckets[i]? = some b) :
    ∃ rest, buckets.flatten.Perm (b ++ rest) ∧
      ∀ b', (buckets.set i b').flatten.Perm (b' ++ rest) := by
  induction buckets generalizing i with
  | nil => exact absurd h nofun
  | cons a buckets ih =>
    cases i with
    | zero =>
      rw [List.getElem?_cons_zero, Option.some.injEq] at h
      exact ⟨buckets.flatten, h ▸ List.Perm.refl _, fun b' => List.Perm.refl _⟩
    | succ i =>
      obtain ⟨rest, hold, hnew⟩ := ih (List.getElem?_cons_succ ▸ h)
      have hswap : ∀ b' : List ε, (a ++ (b' ++ rest)).Perm (b' ++ (a ++ rest)) := fun b' => by
        rw [← List.append_assoc, ← List.append_assoc]
        exact List.perm_append_comm.append_right rest
      refine ⟨a ++ rest, (hold.append_left a).trans (hswap b), fun b' => ?_⟩
      exact ((hnew b').append_left a).trans (hswap b')

/-- One more entry in one place. -/
theorem flatMap_perm_cons {ι : Type*} {g g' : ι → List ε} {l : List ι} {j : ι} {e : ε}
    (hnodup : l.Nodup) (hj : j ∈ l) (he : g' j = e :: g j)
    (hother : ∀ i ∈ l, i ≠ j → g' i = g i) : (l.flatMap g').Perm (e :: l.flatMap g) := by
  induction l with
  | nil => exact absurd hj List.not_mem_nil
  | cons i l ih =>
    obtain ⟨hi, hl⟩ := List.nodup_cons.mp hnodup
    obtain ⟨hotheri, hother⟩ := List.forall_mem_cons.mp hother
    rw [List.flatMap_cons, List.flatMap_cons]
    by_cases hij : i = j
    · have hrest : l.flatMap g' = l.flatMap g :=
        List.flatMap_congr fun k hk => hother k hk fun hkj => hi (hij.trans hkj.symm ▸ hk)
      rw [hij, he, hrest, List.cons_append]
    · have hmem : j ∈ l := (List.mem_cons.mp hj).resolve_left (Ne.symm hij)
      rw [hotheri hij]
      exact ((ih hl hmem hother).append_left _).trans List.perm_middle

/-! ## The invariant -/

variable (key : ε → κ) (idx : κ → ℕ)

/-- **Every entry lies in the bucket of its key, and no two entries share a key.** -/
structure Placed (buckets : List (List ε)) : Prop where
  place : ∀ i b, buckets[i]? = some b → ∀ e ∈ b, idx (key e) = i
  nodup : (buckets.flatten.map key).Nodup

theorem placed_replicate (n : ℕ) : Placed key idx (List.replicate n ([] : List ε)) := by
  refine ⟨fun i b hb e he => ?_, ?_⟩
  · rw [List.eq_of_mem_replicate (List.mem_of_getElem? hb)] at he
    exact absurd he List.not_mem_nil
  · rw [List.flatten_replicate_nil]
    exact List.nodup_nil

namespace Placed

variable {key idx} {buckets : List (List ε)} {b b' : List ε} {k : κ} {e : ε}

/-- An entry of the collection is in the bucket of its key. -/
theorem mem_bucket (h : Placed key idx buckets) (hb : buckets[idx k]? = some b)
    (he : e ∈ buckets.flatten) (hk : k = key e) : e ∈ b := by
  obtain ⟨c, hc, hec⟩ := List.mem_flatten.mp he
  obtain ⟨i, hi⟩ := List.mem_iff_getElem?.mp hc
  have hplace := h.place i c hi e hec
  rw [hk, hplace, hi, Option.some.injEq] at hb
  exact hb ▸ hec

/-- **A search in one bucket is a search everywhere.** -/
theorem find?_eq_some_iff [DecidableEq κ] (h : Placed key idx buckets)
    (hb : buckets[idx k]? = some b) :
    (b.find? fun e => k = key e) = some e ↔ e ∈ buckets.flatten ∧ k = key e := by
  have hsub : ∀ e ∈ b, e ∈ buckets.flatten := fun e he =>
    List.mem_flatten.mpr ⟨b, List.mem_of_getElem? hb, he⟩
  constructor
  · intro hfind
    have hk := List.find?_some hfind
    exact ⟨hsub e (List.mem_of_find?_eq_some hfind), of_decide_eq_true hk⟩
  · rintro ⟨he, hk⟩
    cases hfind : b.find? fun e => k = key e with
    | none =>
      have hnot := List.find?_eq_none.mp hfind e (h.mem_bucket hb he hk)
      exact absurd (decide_eq_true hk) hnot
    | some d =>
      have hd := hsub d (List.mem_of_find?_eq_some hfind)
      have hfound := List.find?_some hfind
      have hkd : k = key d := of_decide_eq_true hfound
      exact congrArg some (List.inj_on_of_nodup_map h.nodup hd he (hkd.symm.trans hk))

theorem find?_eq_none_iff [DecidableEq κ] (h : Placed key idx buckets)
    (hb : buckets[idx k]? = some b) :
    (b.find? fun e => k = key e) = none ↔ ∀ e ∈ buckets.flatten, k ≠ key e := by
  rw [Option.eq_none_iff_forall_ne_some]
  constructor
  · exact fun hnone e he hk => hnone e ((h.find?_eq_some_iff hb).mpr ⟨he, hk⟩)
  · intro hnone e hfind
    obtain ⟨he, hk⟩ := (h.find?_eq_some_iff hb).mp hfind
    exact hnone e he hk

/-- Replacing a bucket keeps the places, if the new entries belong there. -/
theorem place_set (h : Placed key idx buckets) {j : ℕ} (hb' : ∀ e ∈ b', idx (key e) = j) :
    ∀ i c, (buckets.set j b')[i]? = some c → ∀ e ∈ c, idx (key e) = i := by
  intro i c hc e he
  rw [List.getElem?_set] at hc
  split at hc
  · rename_i hij
    split at hc
    · rw [Option.some.injEq] at hc
      exact hij ▸ hb' e (hc ▸ he)
    · exact absurd hc nofun
  · exact h.place i c hc e he

/-- **A new entry**, under a key that its bucket does not have. -/
theorem push (h : Placed key idx buckets) (hb : buckets[idx (key e)]? = some b)
    (hnew : ∀ d ∈ b, key e ≠ key d) :
    Placed key idx (buckets.set (idx (key e)) (e :: b)) ∧
      (buckets.set (idx (key e)) (e :: b)).flatten.Perm (e :: buckets.flatten) := by
  obtain ⟨rest, hold, hset⟩ := exists_rest hb
  have hperm : (buckets.set (idx (key e)) (e :: b)).flatten.Perm (e :: buckets.flatten) :=
    (hset (e :: b)).trans (hold.symm.cons e)
  refine ⟨⟨h.place_set (List.forall_mem_cons.mpr ⟨rfl, h.place _ b hb⟩), ?_⟩, hperm⟩
  refine (hperm.map key).nodup_iff.mpr (List.nodup_cons.mpr ⟨fun hmem => ?_, h.nodup⟩)
  obtain ⟨d, hd, hkey⟩ := List.mem_map.mp hmem
  exact hnew d (h.mem_bucket hb hd hkey.symm) hkey.symm

/-- **A changed entry**, which keeps its key. -/
theorem update [DecidableEq κ] (h : Placed key idx buckets) (hb : buckets[idx k]? = some b)
    (hf : ∀ e, key (f e) = key e) (hu : updateFirst (fun e => k = key e) f b = some b') :
    Placed key idx (buckets.set (idx k) b') ∧ ∃ e rest, k = key e ∧
      buckets.flatten.Perm (e :: rest) ∧ (buckets.set (idx k) b').flatten.Perm (f e :: rest) := by
  obtain ⟨as, e, bs, rfl, he, rfl⟩ := updateFirst_eq_some hu
  obtain ⟨others, hold, hset⟩ := exists_rest hb
  have hfront : ∀ d, (as ++ d :: bs ++ others).Perm (d :: (as ++ bs ++ others)) := fun d =>
    List.perm_middle.append_right others
  have hold' := hold.trans (hfront e)
  have hset' := (hset (as ++ f e :: bs)).trans (hfront (f e))
  refine ⟨⟨h.place_set fun d hd => ?_, ?_⟩, e, as ++ bs ++ others, of_decide_eq_true he, hold',
    hset'⟩
  · have hplace := h.place _ _ hb
    rcases List.mem_append.mp hd with hd | hd
    · exact hplace d (List.mem_append_left _ hd)
    · rcases List.mem_cons.mp hd with rfl | hd
      · rw [hf]
        exact hplace e (List.mem_append_right _ List.mem_cons_self)
      · exact hplace d (List.mem_append_right _ (List.mem_cons_of_mem _ hd))
  · have hkeys := (hold'.map key).nodup_iff.mp h.nodup
    refine (hset'.map key).nodup_iff.mpr ?_
    rw [List.map_cons, hf, ← List.map_cons]
    exact hkeys

end Placed

end KeyedBuckets
end CCore
