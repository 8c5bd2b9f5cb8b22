import CCore.LinkedList.Refinement

/-!
# Insertion at a position

`cclist_insert_at` looks for its place with `cclist_nth_item`, which counts down while it
walks:

    while(item != &list->head && n--) item = item->next;
    CCASSERT(!n);

The decrement is a part of the test.  Where the counter ends the walk, the test that finds it
at zero has already taken it below, and it has wrapped; so the assertion sees the largest
`size_t`.  Only the walk that the head ends leaves the counter as it was.

`nthItemLoop_eq` is what the loop does on a list of any length, and
`cclistInsertAt_insertsAt_iff` what follows: of all the positions in a list, the function can
insert at the last one only.

An assertion that fails aborts the program.  Here the model has to tell this from a loop that
does not end, and says what the heap is when it happens: the result is `none` if the fuel is
used up, and `error m` if the program aborts with the heap `m`.
-/

namespace CCore
namespace LinkedList

open CircularLinks

/-- The loop of `cclist_nth_item`: the node where it ends, and what is left of `n`. -/
def nthItemLoop (m : Heap) (head : Addr) : ℕ → Addr → UInt64 → Option (Addr × UInt64)
  | 0, _, _ => none
  | fuel + 1, item, n =>
    if item = head then some (item, n)
    -- `n--` is evaluated, whatever it finds
    else if n = 0 then some (item, n - 1)
    else nthItemLoop m head fuel (m.next item) (n - 1)

/-- `cclist_nth_item` -/
def cclistNthItem (m : Heap) (list : Addr) (n : UInt64) (fuel : ℕ) :
    Option (Except Heap Addr) :=
  (nthItemLoop m (headOf list) fuel (m.next (headOf list)) n).map fun (item, n) =>
    if n = 0 then .ok item else .error m

/-- `cclist_insert_at` -/
def cclistInsertAt (m : Heap) (list object : Addr) (n : UInt64) (fuel : ℕ) :
    Option (Except Heap Heap) :=
  if list = null then some (.error m)
  else
    (cclistNthItem m list n fuel).map fun
      | .ok nth => .ok (cclistDoInsertBefore m list object nth)
      | .error m => .error m

/-- **What the loop leaves of the counter.**  On a chain of `xs` that ends at the head: if the
counter is at most the last index, it has wrapped when the walk stops; else the walk has
stopped at the head, and the counter is what is too much. -/
theorem nthItemLoop_eq {m : Heap} {head : Addr} {xs : List Addr} {n : UInt64} {fuel : ℕ}
    (hchain : (xs ++ [head]).IsChain fun a b => m.next a = b) (hhead : head ∉ xs)
    (hfuel : xs.length < fuel) :
    nthItemLoop m head fuel (xs.headD head) n =
      some (if n.toNat < xs.length then (xs.getD n.toNat head, 0 - 1)
        else (head, n - UInt64.ofNat xs.length)) := by
  induction xs generalizing n fuel with
  | nil =>
    obtain ⟨fuel, rfl⟩ := Nat.exists_eq_succ_of_ne_zero (Nat.ne_of_gt hfuel)
    have hzero : n - UInt64.ofNat 0 = n := UInt64.sub_zero n
    rw [List.headD_nil, nthItemLoop, if_pos rfl, List.length_nil, if_neg (Nat.not_lt_zero _), hzero]
  | cons x xs ih =>
    obtain ⟨fuel, rfl⟩ := Nat.exists_eq_succ_of_ne_zero (Nat.ne_of_gt (Nat.zero_lt_of_lt hfuel))
    obtain ⟨hx, hxs⟩ := not_or.mp (mt List.mem_cons.mpr hhead)
    rw [List.headD_cons, nthItemLoop, if_neg (Ne.symm hx)]
    by_cases hn : n = 0
    · rw [if_pos hn, hn]
      rfl
    · have hpos : n.toNat ≠ 0 := fun h => hn (UInt64.toNat_inj.mp h)
      obtain ⟨k, hk⟩ := Nat.exists_eq_succ_of_ne_zero hpos
      have hpred : (n - 1).toNat = k := by
        have hone : 1 ≤ n := UInt64.le_iff_toNat_le.mpr (hk ▸ Nat.succ_le_succ k.zero_le)
        rw [UInt64.toNat_sub_of_le _ _ hone, hk]
        rfl
      have hlen : n - 1 - UInt64.ofNat xs.length = n - UInt64.ofNat (xs.length + 1) := by
        have hone : UInt64.ofNat 1 = 1 := rfl
        rw [UInt64.ofNat_add, hone]
        grind
      rw [if_neg hn, next_headD hchain, ih (List.isChain_of_isChain_cons hchain) hxs
        (Nat.lt_of_succ_lt_succ hfuel), hpred, hk, List.length_cons, List.getD_cons_succ, hlen]
      simp only [Nat.succ_eq_add_one, Nat.add_lt_add_iff_right]

/-- The walk from the first node of a list. -/
theorem Holds.nthItemLoop_eq {m : Heap} {list : Addr} {c : Content} (h : Holds m list c)
    (n : UInt64) {fuel : ℕ} (hfuel : c.objects.length < fuel) :
    nthItemLoop m (headOf list) fuel (m.next (headOf list)) n =
      some (if n.toNat < c.objects.length then (c.nodes.getD n.toNat (headOf list), 0 - 1)
        else (headOf list, n - UInt64.ofNat c.objects.length)) := by
  have hlen : c.nodes.length = c.objects.length := List.length_map _
  have hchain := (List.isChain_of_isChain_cons h.ring.links).imp fun a b hab => hab.1
  rw [h.ring.next_head, LinkedList.nthItemLoop_eq hchain h.ring.head_notMem (hlen ▸ hfuel), hlen]

/-- **What `cclist_insert_at` should do**: put the object at its position, for the positions in
the list and the one behind them; and abort, before anything is written, for all others. -/
def InsertsAt (m : Heap) (list object : Addr) (c : Content) (n : UInt64)
    (result : Option (Except Heap Heap)) : Prop :=
  (n.toNat ≤ c.objects.length → ∃ m', result = some (.ok m') ∧
      Updates m m' list ⟨c.offset, c.objects.insertIdx n.toNat object⟩
        ((object + c.offset) :: places list c)) ∧
    (c.objects.length < n.toNat → result = some (.error m))

/-- **Insertion works at the end of the list, and nowhere else.**  At a position in the list the
assertion fails on the counter that has wrapped. -/
theorem cclistInsertAt_insertsAt_iff {m : Heap} {list object : Addr} {c : Content}
    (h : Holds m list c) (hobject : object ≠ null) (hfree : object + c.offset ∉ places list c)
    (n : UInt64) {fuel : ℕ} (hfuel : c.objects.length < fuel) :
    InsertsAt m list object c n (cclistInsertAt m list object n fuel) ↔
      c.objects.length ≤ n.toNat := by
  have hloop := h.nthItemLoop_eq n hfuel
  rw [cclistInsertAt, if_neg h.list_ne_null, cclistNthItem, hloop, Option.map_some, Option.map_some]
  by_cases hlt : n.toNat < c.objects.length
  · rw [if_pos hlt]
    refine iff_of_false (fun hinserts => ?_) (Nat.not_le_of_gt hlt)
    obtain ⟨m', hok, -⟩ := hinserts.1 hlt.le
    exact nomatch Option.some.inj hok
  · rw [if_neg hlt]
    have hle : c.objects.length ≤ n.toNat := not_lt.mp hlt
    refine iff_of_true ⟨fun hge => ?_, fun hgt => ?_⟩ hle
    · have hn : n.toNat = c.objects.length := le_antisymm hge hle
      have hzero : n - UInt64.ofNat c.objects.length = 0 := by
        rw [← hn, UInt64.ofNat_toNat, UInt64.sub_self]
      obtain ⟨offset, xs⟩ := c
      simp only [hzero, if_pos]
      refine ⟨_, rfl, ?_⟩
      have hend : xs.insertIdx n.toNat object = xs ++ object :: [] := by
        have hseam := insertIdx_length_append xs [] object
        rw [List.append_nil] at hseam
        rw [hn]
        exact hseam
      rw [hend]
      rw [← List.append_nil xs] at h hfree
      have hupdates := cclistDoInsertBefore_updates h hobject hfree rfl
      rw [List.append_nil] at hupdates
      exact hupdates
    · have hne : n - UInt64.ofNat c.objects.length ≠ 0 := by
        intro hzero
        have hn : n = UInt64.ofNat c.objects.length := UInt64.sub_eq_iff_eq_add.mp hzero |>.trans
          (UInt64.zero_add _)
        have hnat := congrArg UInt64.toNat hn
        rw [UInt64.toNat_ofNat', Nat.mod_eq_of_lt h.length_lt] at hnat
        omega
      simp only [if_neg hne]

/-- The heap of a list at 100 that holds the object at 1000. -/
def oneObject : Heap where
  prev a := if a = 108 then 1016 else 108
  next a := if a = 108 then 1016 else 108
  size _ := 1
  offset _ := 16

theorem oneObject_holds : Holds oneObject 100 ⟨16, [1000]⟩ where
  list_ne_null := by decide
  offset := rfl
  size := rfl
  ring := ⟨by simp [Linked, oneObject, headOf], by decide⟩
  null_notMem := by decide

theorem cclistInsertAt_insertsAt_iff_end :
    InsertsAt oneObject 100 2000 ⟨16, [1000]⟩ 1 (cclistInsertAt oneObject 100 2000 1 2) ↔
      1 ≤ (1 : UInt64).toNat :=
  cclistInsertAt_insertsAt_iff oneObject_holds (by decide) (by decide) 1 (by decide)

/-- At position 0 of a list with one object, the program aborts. -/
theorem not_insertsAt_front :
    Holds oneObject 100 ⟨16, [1000]⟩ ∧
      ¬InsertsAt oneObject 100 2000 ⟨16, [1000]⟩ 0 (cclistInsertAt oneObject 100 2000 0 2) := by
  refine ⟨oneObject_holds, fun hinserts => ?_⟩
  obtain ⟨m', hok, -⟩ := hinserts.1 (Nat.zero_le _)
  have habort : cclistInsertAt oneObject 100 2000 0 2 = some (.error oneObject) := by
    rfl
  exact nomatch Option.some.inj (habort.symm.trans hok)

end LinkedList
end CCore
