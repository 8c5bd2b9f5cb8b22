import Mathlib.Data.List.Chain
import Mathlib.Data.List.Nodup

/-!
# Circular doubly linked lists

A circular list is a pair of link functions `next` and `prev` on some type of
places, a head, and the places that one meets on the way around from the head
back to it.  Nothing here says where the links are stored: a program that keeps
them in records of a heap reads its heap through these two functions.

`Ring` says that consecutive places are linked both ways, from the head around to
the head, and that no place is met twice.  It is a chain in the sense of
`List.IsChain`, so cutting it at a gap is `isChain_gap`, and reading it backwards
is `Ring.reverse`: every statement about `prev` is one about `next` for the
reversed ring.

An insertion or a removal is described by what the links are afterwards, not by
the writes that made them so: `Inserted` and `Removed`.  Programs differ in the
order of their writes, in which neighbour they start from, and in whether they
clear the links of a removed place; all of them end in one of these two
relations, and `Ring.insert` and `Ring.remove` are proved once.

`forTo` is the loop that follows a link function from a place until it meets a
stop, with the fuel that makes it a recursion.  `forTo_eq` says how much fuel is
enough, and that the loop is then a fold.  `drainTo` is the loop that destroys what
it has passed, `drainLogged` is that loop with a log of what it reads and runs, and
`drainLogged_rule` is the rule for both.
-/

namespace CCore
namespace CircularLinks

variable {α : Type*}

/-! ## Chains and gaps -/

/-- `a` and `b` are neighbours: each leads to the other. -/
def Linked (next prev : α → α) (a b : α) : Prop := next a = b ∧ prev b = a

variable {next prev next' prev' : α → α} {R : α → α → Prop}

/-- **Cutting a chain at a gap.**  The gap lies between the last place of `a :: xs`
and the first of `ys ++ [b]`. -/
theorem isChain_gap {a b : α} {xs ys : List α} :
    (a :: (xs ++ ys) ++ [b]).IsChain R ↔
      (a :: xs).IsChain R ∧ R (xs.getLastD a) (ys.headD b) ∧ (ys ++ [b]).IsChain R := by
  have hlast : (a :: xs).getLast? = some (xs.getLastD a) := by
    rw [List.getLast?_cons, List.getLastD_eq_getLast?]
  have hhead : (ys ++ [b]).head? = some (ys.headD b) := by
    cases ys with
    | nil => rfl
    | cons y ys => rfl
  have hcut : a :: (xs ++ ys) ++ [b] = (a :: xs) ++ (ys ++ [b]) := by
    rw [List.cons_append, List.append_assoc, List.cons_append]
  rw [hcut, List.isChain_append, hlast, hhead]
  constructor
  · rintro ⟨hleft, hright, hgap⟩
    exact ⟨hleft, hgap _ rfl _ rfl, hright⟩
  · rintro ⟨hleft, hgap, hright⟩
    refine ⟨hleft, hright, fun x hx y hy => ?_⟩
    rw [Option.mem_some_iff] at hx hy
    exact hx ▸ hy ▸ hgap

/-- A chain read backwards is a chain for the exchanged links. -/
theorem isChain_linked_reverse {l : List α} :
    l.reverse.IsChain (Linked prev next) ↔ l.IsChain (Linked next prev) := by
  have hflip : (fun a b => Linked prev next b a) = Linked next prev := by
    funext a b
    exact propext and_comm
  rw [List.isChain_reverse, hflip]

/-- A chain is kept when `next` changes at its last place at most, and `prev` at
its first. -/
theorem isChain_linked_congr {a : α} {xs : List α} (h : (a :: xs).IsChain (Linked next prev))
    (hnodup : (a :: xs).Nodup) (hnext : ∀ x ∈ a :: xs, x ≠ xs.getLastD a → next' x = next x)
    (hprev : ∀ x ∈ xs, prev' x = prev x) : (a :: xs).IsChain (Linked next' prev') := by
  induction xs generalizing a with
  | nil => exact List.IsChain.singleton a
  | cons x xs ih =>
    rw [List.isChain_cons_cons] at h ⊢
    obtain ⟨⟨hax, hxa⟩, hrest⟩ := h
    obtain ⟨ha, hnodup'⟩ := List.nodup_cons.mp hnodup
    rw [List.getLastD_cons] at hnext
    have hlast : a ≠ xs.getLastD x := fun e => ha (e ▸ List.getLastD_mem_cons)
    refine ⟨⟨?_, ?_⟩, ih hrest hnodup' (fun y hy => hnext y (List.mem_cons_of_mem _ hy))
      fun y hy => hprev y (List.mem_cons_of_mem _ hy)⟩
    · rw [hnext a List.mem_cons_self hlast, hax]
    · rw [hprev x List.mem_cons_self, hxa]

/-! ## Insertion and removal, by their effect -/

/-- Outside `n`, the links are as before, except for the link over the gap between
`p` and `q`. -/
structure Spliced (next prev next' prev' : α → α) (p n q : α) : Prop where
  next_other : ∀ x, x ≠ p → x ≠ n → next' x = next x
  prev_other : ∀ x, x ≠ q → x ≠ n → prev' x = prev x

/-- The links after `n` has been put between `p` and `q`. -/
structure Inserted (next prev next' prev' : α → α) (p n q : α) : Prop
    extends Spliced next prev next' prev' p n q where
  left : Linked next' prev' p n
  right : Linked next' prev' n q

/-- The links after `n` has been taken out from between `p` and `q`.  The links
of `n` itself may be anything. -/
structure Removed (next prev next' prev' : α → α) (p n q : α) : Prop
    extends Spliced next prev next' prev' p n q where
  bridged : Linked next' prev' p q

/-- The same splice, read backwards. -/
theorem Spliced.symm {p n q : α} (h : Spliced next prev next' prev' p n q) :
    Spliced prev next prev' next' q n p := ⟨h.prev_other, h.next_other⟩

/-- A splice keeps what is left of the gap. -/
theorem Spliced.kept_left {h n q : α} {xs : List α}
    (hs : Spliced next prev next' prev' (xs.getLastD h) n q)
    (hleft : (h :: xs).IsChain (Linked next prev)) (hnodup : (h :: xs).Nodup)
    (hn : n ∉ h :: xs) (hq : q ∉ xs) : (h :: xs).IsChain (Linked next' prev') := by
  refine isChain_linked_congr hleft hnodup (fun x hx hlast => hs.next_other x hlast ?_)
    fun x hx => hs.prev_other x ?_ ?_
  · exact fun e => hn (e ▸ hx)
  · exact fun e => hq (e ▸ hx)
  · exact fun e => hn (e ▸ List.mem_cons_of_mem _ hx)

/-- A splice keeps both sides of the gap. -/
theorem Spliced.kept {h n : α} {xs ys : List α}
    (hs : Spliced next prev next' prev' (xs.getLastD h) n (ys.headD h))
    (hleft : (h :: xs).IsChain (Linked next prev))
    (hright : (ys ++ [h]).IsChain (Linked next prev)) (hnodup : (h :: (xs ++ ys)).Nodup)
    (hn : n ∉ h :: (xs ++ ys)) :
    (h :: xs).IsChain (Linked next' prev') ∧ (ys ++ [h]).IsChain (Linked next' prev') := by
  obtain ⟨hh, hxy⟩ := List.nodup_cons.mp hnodup
  obtain ⟨hxs, hys, hdisj⟩ := List.nodup_append.mp hxy
  obtain ⟨hhx, hhy⟩ := not_or.mp (mt List.mem_append.mpr hh)
  obtain ⟨hnh, hnxy⟩ := not_or.mp (mt List.mem_cons.mpr hn)
  obtain ⟨hnx, hny⟩ := not_or.mp (mt List.mem_append.mpr hnxy)
  constructor
  · refine hs.kept_left hleft (List.nodup_cons.mpr ⟨hhx, hxs⟩) ?_ fun hq => ?_
    · exact fun hm => (List.mem_cons.mp hm).elim hnh hnx
    · -- the right neighbour is the head, or the first of `ys`
      cases ys with
      | nil => exact hhx hq
      | cons y ys => exact hdisj y hq y List.mem_cons_self rfl
  · have hlast : ys.reverse.getLastD h = ys.headD h := by
      cases ys with
      | nil => rfl
      | cons y ys => rw [List.reverse_cons, List.getLastD_concat, List.headD_cons]
    have hrev : (h :: ys.reverse) = (ys ++ [h]).reverse := by simp
    rw [← isChain_linked_reverse, ← hrev]
    refine (hlast ▸ hs.symm).kept_left ?_ ?_ ?_ fun hq => ?_
    · rw [hrev]
      exact isChain_linked_reverse.mpr hright
    · exact List.nodup_cons.mpr ⟨mt List.mem_reverse.mp hhy, List.nodup_reverse.mpr hys⟩
    · exact fun hm => (List.mem_cons.mp hm).elim hnh fun hm => hny (List.mem_reverse.mp hm)
    · rw [List.mem_reverse] at hq
      rcases List.mem_cons.mp (List.getLastD_mem_cons (l := xs) (a := h)) with he | hm
      · exact hhy (he ▸ hq)
      · exact hdisj _ hm _ hq rfl

/-! ## Rings -/

/-- A circular list with head `h`: the way around meets `ns`, each place once. -/
structure Ring (next prev : α → α) (h : α) (ns : List α) : Prop where
  links : (h :: ns ++ [h]).IsChain (Linked next prev)
  nodup : (h :: ns).Nodup

namespace Ring

variable {h n : α} {ns xs ys : List α}

theorem head_notMem (hr : Ring next prev h ns) : h ∉ ns := (List.nodup_cons.mp hr.nodup).1

/-- A ring read backwards. -/
theorem reverse (hr : Ring next prev h ns) : Ring prev next h ns.reverse := by
  have hrev : h :: ns.reverse ++ [h] = (h :: ns ++ [h]).reverse := by simp
  refine ⟨?_, List.nodup_cons.mpr ⟨?_, List.nodup_reverse.mpr (List.nodup_cons.mp hr.nodup).2⟩⟩
  · rw [hrev]
    exact isChain_linked_reverse.mpr hr.links
  · rw [List.mem_reverse]
    exact hr.head_notMem

/-- The neighbours over any gap of the ring. -/
theorem gap (hr : Ring next prev h (xs ++ ys)) :
    Linked next prev (xs.getLastD h) (ys.headD h) := (isChain_gap.mp hr.links).2.1

theorem next_head (hr : Ring next prev h ns) : next h = ns.headD h := by
  rw [← List.nil_append ns] at hr
  exact hr.gap.1

theorem prev_head (hr : Ring next prev h ns) : prev h = ns.getLastD h := by
  rw [← List.append_nil ns] at hr
  exact hr.gap.2

theorem next_mem (hr : Ring next prev h (xs ++ n :: ys)) : next n = ys.headD h := by
  rw [List.append_cons] at hr
  have hgap := hr.gap.1
  rwa [List.getLastD_concat] at hgap

theorem prev_mem (hr : Ring next prev h (xs ++ n :: ys)) : prev n = xs.getLastD h := hr.gap.2

/-- Moving a place to the front keeps the places of a ring. -/
theorem perm_front : (h :: (xs ++ n :: ys)).Perm (n :: h :: (xs ++ ys)) :=
  (List.perm_middle.cons h).trans (List.Perm.swap n h _)

/-- **Insertion into a ring.** -/
theorem insert (hr : Ring next prev h (xs ++ ys)) (hn : n ∉ h :: (xs ++ ys))
    (hi : Inserted next prev next' prev' (xs.getLastD h) n (ys.headD h)) :
    Ring next' prev' h (xs ++ n :: ys) := by
  obtain ⟨hleft, -, hright⟩ := isChain_gap.mp hr.links
  obtain ⟨hleft', hright'⟩ := hi.toSpliced.kept hleft hright hr.nodup hn
  refine ⟨isChain_gap.mpr ⟨hleft', hi.left, ?_⟩,
    perm_front.nodup_iff.mpr (List.nodup_cons.mpr ⟨hn, hr.nodup⟩)⟩
  cases ys with
  | nil => exact List.isChain_pair.mpr hi.right
  | cons y ys => exact List.isChain_cons_cons.mpr ⟨hi.right, hright'⟩

/-- **Removal from a ring.** -/
theorem remove (hr : Ring next prev h (xs ++ n :: ys))
    (hrem : Removed next prev next' prev' (xs.getLastD h) n (ys.headD h)) :
    Ring next' prev' h (xs ++ ys) := by
  obtain ⟨hleft, -, hright⟩ := isChain_gap.mp hr.links
  obtain ⟨hn, hnodup⟩ := List.nodup_cons.mp (perm_front.nodup_iff.mp hr.nodup)
  rw [List.cons_append] at hright
  obtain ⟨hleft', hright'⟩ :=
    hrem.toSpliced.kept hleft (List.isChain_of_isChain_cons hright) hnodup hn
  exact ⟨isChain_gap.mpr ⟨hleft', hrem.bridged, hright'⟩, hnodup⟩

/-- No place of a ring is its own neighbour. -/
theorem next_ne (hr : Ring next prev h (xs ++ n :: ys)) : next n ≠ n := by
  obtain ⟨hn, -⟩ := List.nodup_cons.mp (perm_front.nodup_iff.mp hr.nodup)
  rw [hr.next_mem]
  intro he
  cases ys with
  | nil => exact hn (he ▸ List.mem_cons_self)
  | cons y ys =>
    exact hn (he ▸ List.mem_cons_of_mem _ (List.mem_append_right _ List.mem_cons_self))

theorem prev_ne (hr : Ring next prev h (xs ++ n :: ys)) : prev n ≠ n := by
  have hrev := hr.reverse
  rw [List.reverse_append, List.reverse_cons, List.append_assoc, List.singleton_append] at hrev
  exact hrev.next_ne

/-- The way around does not leave the places of the ring. -/
theorem next_mem_places (hr : Ring next prev h ns) {x : α} (hx : x ∈ h :: ns) :
    next x ∈ h :: ns := by
  have hhead : ∀ xs ys : List α, ys.headD h ∈ h :: (xs ++ ys) := by
    intro xs ys
    cases ys with
    | nil => exact List.mem_cons_self
    | cons y ys => exact List.mem_cons_of_mem _ (List.mem_append_right _ List.mem_cons_self)
  rcases List.mem_cons.mp hx with rfl | hx
  · rw [hr.next_head]
    exact hhead [] ns
  · obtain ⟨xs, ys, rfl⟩ := List.append_of_mem hx
    rw [hr.next_mem, List.append_cons]
    exact hhead (xs ++ [x]) ys

theorem prev_mem_places (hr : Ring next prev h ns) {x : α} (hx : x ∈ h :: ns) :
    prev x ∈ h :: ns := by
  have hmem : ∀ y, y ∈ h :: ns.reverse ↔ y ∈ h :: ns := fun y => by
    rw [List.mem_cons, List.mem_cons, List.mem_reverse]
  exact (hmem _).mp (hr.reverse.next_mem_places ((hmem x).mpr hx))

/-- A ring depends on the links of its own places only. -/
theorem congr (hr : Ring next prev h ns) (hnext : ∀ x ∈ h :: ns, next' x = next x)
    (hprev : ∀ x ∈ h :: ns, prev' x = prev x) : Ring next' prev' h ns := by
  refine ⟨?_, hr.nodup⟩
  have hgap := hr.links
  rw [← List.append_nil ns] at hgap ⊢
  obtain ⟨hleft, hover, hright⟩ := isChain_gap.mp hgap
  have hlast : ns.getLastD h ∈ h :: ns := List.getLastD_mem_cons
  refine isChain_gap.mpr ⟨?_, ⟨?_, ?_⟩, List.IsChain.singleton h⟩
  · exact isChain_linked_congr hleft hr.nodup (fun x hx _ => hnext x hx)
      fun x hx => hprev x (List.mem_cons_of_mem _ hx)
  · rw [hnext _ hlast]
    exact hover.1
  · rw [List.headD_nil, hprev h List.mem_cons_self]
    exact hover.2

end Ring

/-! ## Loops along a chain -/

section Loops

variable {σ : Type*} [DecidableEq α]

omit [DecidableEq α] in
/-- The place that follows the first one of a chain. -/
theorem next_headD {next : α → α} {stop x : α} {xs : List α}
    (h : (x :: xs ++ [stop]).IsChain fun a b => next a = b) : next x = xs.headD stop := by
  cases xs with
  | nil => exact (List.isChain_cons_cons.mp h).1
  | cons y ys => exact (List.isChain_cons_cons.mp h).1

/-- `for(x = start; x != stop; x = next(x)) body(x)`, on a state that the body may
change and that `next` reads; `none` if it does not end within the fuel. -/
def forTo (next : σ → α → α) (body : σ → α → σ) (stop : α) : ℕ → σ → α → Option σ
  | 0, s, x => if x = stop then some s else none
  | fuel + 1, s, x =>
    if x = stop then some s else forTo next body stop fuel (body s x) (next (body s x) x)

/-- **The loop along a chain.**  If the body keeps the links that the loop follows,
the loop makes its body once at each place of the chain, and ends. -/
theorem forTo_eq {follow : σ → α → α} (body : σ → α → σ) {next : α → α} {stop : α} {s : σ}
    {xs : List α} (hs : follow s = next) (hbody : ∀ s x, follow (body s x) = follow s)
    (h : (xs ++ [stop]).IsChain fun a b => next a = b) (hstop : stop ∉ xs) {fuel : ℕ}
    (hfuel : xs.length ≤ fuel) :
    forTo follow body stop fuel s (xs.headD stop) = some (xs.foldl body s) := by
  induction xs generalizing s fuel with
  | nil =>
    cases fuel with
    | zero => exact if_pos rfl
    | succ fuel => exact if_pos rfl
  | cons x xs ih =>
    obtain ⟨hx, hxs⟩ := not_or.mp (mt List.mem_cons.mpr hstop)
    cases fuel with
    | zero => exact absurd hfuel (Nat.not_succ_le_zero _)
    | succ fuel =>
      have hkeep : follow (body s x) = next := (hbody s x).trans hs
      rw [List.headD_cons, forTo, if_neg (Ne.symm hx), hkeep, next_headD h, List.foldl_cons]
      exact ih hkeep (List.isChain_of_isChain_cons h) hxs (Nat.le_of_succ_le_succ hfuel)

/-- The loop around a ring. -/
theorem Ring.forTo_eq {follow : σ → α → α} (body : σ → α → σ) {h : α} {ns : List α} {s : σ}
    (hr : Ring (follow s) prev h ns) (hbody : ∀ s x, follow (body s x) = follow s) {fuel : ℕ}
    (hfuel : ns.length ≤ fuel) :
    forTo follow body h fuel s (follow s h) = some (ns.foldl body s) := by
  have hchain := (List.isChain_of_isChain_cons hr.links).imp fun a b hab => hab.1
  rw [hr.next_head]
  exact CircularLinks.forTo_eq body rfl hbody hchain hr.head_notMem hfuel

/-- `for(x = start; x != stop; x = next(x)) if(p(x)) return x;`: the place it returns, if it
returns one; `none` if it does not end within the fuel. -/
def findTo (next : α → α) (p : α → Bool) (stop : α) : ℕ → α → Option (Option α)
  | 0, x => if x = stop then some none else none
  | fuel + 1, x =>
    if x = stop then some none
    else if p x then some (some x)
    else findTo next p stop fuel (next x)

/-- **The search along a chain.** -/
theorem findTo_eq {next : α → α} {stop : α} (p : α → Bool) {xs : List α}
    (h : (xs ++ [stop]).IsChain fun a b => next a = b) (hstop : stop ∉ xs) {fuel : ℕ}
    (hfuel : xs.length ≤ fuel) : findTo next p stop fuel (xs.headD stop) = some (xs.find? p) := by
  induction xs generalizing fuel with
  | nil =>
    cases fuel with
    | zero => exact if_pos rfl
    | succ fuel => exact if_pos rfl
  | cons x xs ih =>
    obtain ⟨hx, hxs⟩ := not_or.mp (mt List.mem_cons.mpr hstop)
    cases fuel with
    | zero => exact absurd hfuel (Nat.not_succ_le_zero _)
    | succ fuel =>
      rw [List.headD_cons, findTo, if_neg (Ne.symm hx)]
      by_cases hp : p x = true
      · rw [if_pos hp, List.find?_cons_of_pos hp]
      · rw [if_neg hp, List.find?_cons_of_neg hp, next_headD h]
        exact ih (List.isChain_of_isChain_cons h) hxs (Nat.le_of_succ_le_succ hfuel)

/-- `for(x = start; x != stop;) { y = x; x = next(x); body(y); }`: the link is read before the
body is run, which may destroy it.  Both may fail. -/
def drainTo (next : σ → α → Option α) (body : σ → α → Option σ) (stop : α) :
    ℕ → σ → α → Option σ
  | 0, s, x => if x = stop then some s else none
  | fuel + 1, s, x =>
    if x = stop then some s
    else (next s x).bind fun y => (body s x).bind fun s => drainTo next body stop fuel s y

/-- The same loop with a log: `reads` once the link has been read, and `runs` once the body has
been run. -/
def drainLogged {ε : Type*} (next : σ → α → Option α) (body : σ → α → Option σ)
    (reads runs : σ → α → List ε) (stop : α) : ℕ → σ → List ε → α → Option (σ × List ε)
  | 0, s, log, x => if x = stop then some (s, log) else none
  | fuel + 1, s, log, x =>
    if x = stop then some (s, log)
    else
      (next s x).bind fun y =>
        let log := log ++ reads s x
        (body s x).bind fun s' =>
          let log := log ++ runs s x
          drainLogged next body reads runs stop fuel s' log y

/-- The log is not looked at. -/
theorem drainLogged_map_fst {ε : Type*} (next : σ → α → Option α) (body : σ → α → Option σ)
    (reads runs : σ → α → List ε) (stop : α) (fuel : ℕ) (s : σ) (log : List ε) (x : α) :
    (drainLogged next body reads runs stop fuel s log x).map Prod.fst =
      drainTo next body stop fuel s x := by
  induction fuel generalizing s log x with
  | zero =>
    rw [drainLogged, drainTo, apply_ite (Option.map Prod.fst)]
    rfl
  | succ fuel ih =>
    rw [drainLogged, drainTo, apply_ite (Option.map Prod.fst), Option.map_bind]
    refine congrArg (ite _ _) (Option.bind_congr fun y _ => ?_)
    rw [Function.comp_apply, Option.map_bind]
    exact Option.bind_congr fun s' _ => ih s' _ y

/-- **The rule for such a loop.**  The places are those of some `xs`, and `Q xs s` says that `s` is
a state in which these are still to come. -/
theorem drainLogged_rule {β ε : Type*} (next : σ → α → Option α) (body : σ → α → Option σ)
    (reads runs : σ → α → List ε) {stop : α} (place : β → α) (event : β → List ε)
    {Q : List β → σ → Prop} {s : σ} {xs : List β} {fuel : ℕ}
    (hstep : ∀ x xs s, Q (x :: xs) s → place x ≠ stop ∧
      next s (place x) = some ((xs.map place).headD stop) ∧
      reads s (place x) ++ runs s (place x) = event x ∧
      ∃ s', body s (place x) = some s' ∧ Q xs s')
    (hs : Q xs s) (hfuel : xs.length ≤ fuel) (log : List ε) :
    ∃ s', drainLogged next body reads runs stop fuel s log ((xs.map place).headD stop) =
        some (s', log ++ xs.flatMap event) ∧ Q [] s' := by
  induction xs generalizing s fuel log with
  | nil =>
    refine ⟨s, ?_, hs⟩
    rw [List.flatMap_nil, List.append_nil]
    cases fuel with
    | zero => exact if_pos rfl
    | succ fuel => exact if_pos rfl
  | cons x xs ih =>
    obtain ⟨hx, hnext, hevent, s₁, hbody, hs₁⟩ := hstep x xs s hs
    cases fuel with
    | zero => exact absurd hfuel (Nat.not_succ_le_zero _)
    | succ fuel =>
      obtain ⟨s₂, hdrain, hs₂⟩ := ih hs₁ (Nat.le_of_succ_le_succ hfuel) (log ++ event x)
      refine ⟨s₂, ?_, hs₂⟩
      rw [List.map_cons, List.headD_cons, drainLogged, if_neg hx, hnext, Option.bind_some, hbody,
        Option.bind_some, List.append_assoc log, hevent, List.flatMap_cons, ← List.append_assoc]
      exact hdrain

/-- The rule without the log. -/
theorem drainTo_rule {β : Type*} (next : σ → α → Option α) (body : σ → α → Option σ) {stop : α}
    (place : β → α) {Q : List β → σ → Prop} {s : σ} {xs : List β} {fuel : ℕ}
    (hstep : ∀ x xs s, Q (x :: xs) s → place x ≠ stop ∧
      next s (place x) = some ((xs.map place).headD stop) ∧
      ∃ s', body s (place x) = some s' ∧ Q xs s')
    (hs : Q xs s) (hfuel : xs.length ≤ fuel) :
    ∃ s', drainTo next body stop fuel s ((xs.map place).headD stop) = some s' ∧ Q [] s' := by
  have hlogged : ∀ x xs s, Q (x :: xs) s → place x ≠ stop ∧
      next s (place x) = some ((xs.map place).headD stop) ∧ [] ++ [] = ([] : List Unit) ∧
      ∃ s', body s (place x) = some s' ∧ Q xs s' := by
    intro x xs s h
    obtain ⟨hx, hnext, hbody⟩ := hstep x xs s h
    exact ⟨hx, hnext, rfl, hbody⟩
  obtain ⟨s', hdrain, hs'⟩ := drainLogged_rule next body (fun _ _ => []) (fun _ _ => []) place
    (fun _ => []) hlogged hs hfuel []
  refine ⟨s', ?_, hs'⟩
  rw [← drainLogged_map_fst, hdrain]
  rfl

/-- `for(x = start; x != stop; x = next(x))`: the places it visits. -/
def walkTo (next : α → α) (stop : α) (fuel : ℕ) (start : α) : Option (List α) :=
  forTo (fun _ => next) (fun visited x => visited ++ [x]) stop fuel [] start

omit [DecidableEq α] in
theorem foldl_snoc (visited xs : List α) :
    xs.foldl (fun ys x => ys ++ [x]) visited = visited ++ xs := by
  induction xs generalizing visited with
  | nil => exact (List.append_nil visited).symm
  | cons x xs ih => rw [List.foldl_cons, ih, List.append_assoc, List.singleton_append]

/-- The walk along a chain visits its places. -/
theorem walkTo_eq {next : α → α} {stop : α} {xs : List α}
    (h : (xs ++ [stop]).IsChain fun a b => next a = b) (hstop : stop ∉ xs) {fuel : ℕ}
    (hfuel : xs.length ≤ fuel) : walkTo next stop fuel (xs.headD stop) = some xs := by
  rw [walkTo, forTo_eq (fun visited x => visited ++ [x]) rfl (fun _ _ => rfl) h hstop hfuel,
    foldl_snoc, List.nil_append]

end Loops

end CircularLinks
end CCore
