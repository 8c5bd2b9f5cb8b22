import CCore.HashTable.InMemory
import CCore.Library.KeyedBuckets

/-!
# How a table lies in memory

A `World` of lists says where the nodes of a table and their values are, and `Laid` how the blocks
lie: there is one for the array, one for each node and one for each value, and no others.  In a
table of one kind the nodes have lists of their own, in one of the other kind they have none.

An allocation returns a block that is apart from all of these, so that what lies in it is in no
list yet (`Laid.free`).  Linking it changes one list: a node comes to the front of its bucket
(`Laid.pushNode`), a value to the front of those of its node (`Laid.pushValue`).
-/

namespace CCore
namespace HashTable
namespace InMemory

open CircularLinks LinkedList KeyedBuckets

/-! ## Where the nodes and the values are -/

/-- The objects of a list, or none if there is no list. -/
def objectsOf (W : World) (list : Addr) : List Addr := ((W list).map Content.objects).getD []

/-- The nodes of a bucket. -/
def CctableT.nodesAt (t : CctableT) (W : World) (i : ℕ) : List Addr := objectsOf W (t.bucketAt i)

/-- The nodes of a table. -/
def CctableT.nodes (t : CctableT) (W : World) : List Addr :=
  (List.range t.capacity.toNat).flatMap (t.nodesAt W)

/-- The blocks of a node: those of its values, if it has any, and its own. -/
def blocksOf (W : World) (node : Addr) : List Addr := objectsOf W node ++ [node]

/-- The blocks of a table, less the array. -/
def CctableT.owned (t : CctableT) (W : World) : List Addr := (t.nodes W).flatMap (blocksOf W)

/-- **How a table lies in memory.** -/
structure Laid (m : Mem) (t : CctableT) (W : World) : Prop where
  capacity_pos : 1 ≤ t.capacity
  array : m.HasBlock t.buckets (32 * t.capacity.toNat)
  bucket : ∀ i < t.capacity.toNat, ∃ xs, W (t.bucketAt i) = some ⟨32, xs⟩
  kind : ∀ x ∈ t.nodes W, (W x).map Content.offset = if t.allowMultiple then some 8 else none
  covered : ∀ list c, W list = some c → ∀ p ∈ places list c, m.Accessible p 16
  nodeBlock : ∀ x ∈ t.nodes W, m.HasBlock x 48
  valueBlock : ∀ x ∈ t.nodes W, ∀ v ∈ objectsOf W x, m.HasBlock v 24
  starts : m.starts.Perm (t.buckets :: t.owned W)
  nodup : m.starts.Nodup

variable {m m₁ : Mem} {t : CctableT} {W W' : World} {list x z : Addr} {size j : ℕ}

theorem objectsOf_eq {c : Content} (h : W list = some c) : objectsOf W list = c.objects := by
  rw [objectsOf, h]
  rfl

theorem objectsOf_of_none (h : W list = none) : objectsOf W list = [] := by
  rw [objectsOf, h]
  rfl

theorem objectsOf_congr (h : W' list = W list) : objectsOf W' list = objectsOf W list := by
  rw [objectsOf, h, objectsOf]

theorem CctableT.mem_nodes : x ∈ t.nodes W ↔ ∃ i < t.capacity.toNat, x ∈ t.nodesAt W i := by
  simp only [CctableT.nodes, List.mem_flatMap, List.mem_range]

namespace Laid

theorem nodesAt_eq (h : Laid m t W) (hj : j < t.capacity.toNat) :
    W (t.bucketAt j) = some ⟨32, t.nodesAt W j⟩ := by
  obtain ⟨xs, hxs⟩ := h.bucket j hj
  rw [CctableT.nodesAt, objectsOf_eq hxs]
  exact hxs

/-- A node is not the place of a bucket. -/
theorem ne_bucketAt (h : Laid m t W) (hx : x ∈ t.nodes W) (hj : j < t.capacity.toNat) :
    x ≠ t.bucketAt j := by
  rintro rfl
  have hkind := h.kind _ hx
  rw [h.nodesAt_eq hj] at hkind
  cases hmany : t.allowMultiple with
  | false =>
    rw [hmany] at hkind
    cases hkind
  | true =>
    rw [hmany] at hkind
    exact absurd (Option.some.inj hkind) (show (32 : UInt64) ≠ 8 by decide)

theorem mem_starts (h : Laid m t W) (hx : x ∈ t.nodes W) : x ∈ m.starts := by
  refine h.starts.mem_iff.mpr (List.mem_cons_of_mem _ (List.mem_flatMap.mpr ⟨x, hx, ?_⟩))
  exact List.mem_append_right _ List.mem_cons_self

theorem value_mem_starts (h : Laid m t W) (hx : x ∈ t.nodes W) {v : Addr}
    (hv : v ∈ objectsOf W x) : v ∈ m.starts := by
  refine h.starts.mem_iff.mpr (List.mem_cons_of_mem _ (List.mem_flatMap.mpr ⟨x, hx, ?_⟩))
  exact List.mem_append_left _ hv

theorem nodup_owned (h : Laid m t W) : (t.owned W).Nodup :=
  (List.nodup_cons.mp (h.starts.nodup_iff.mp h.nodup)).2

theorem nodup_nodes (h : Laid m t W) : (t.nodes W).Nodup := by
  obtain ⟨-, hdisjoint⟩ := List.nodup_flatMap.mp h.nodup_owned
  refine hdisjoint.imp fun {x y} hxy hne => ?_
  exact hxy (List.mem_append_right _ List.mem_cons_self)
    (hne ▸ List.mem_append_right _ List.mem_cons_self)

theorem nodup_nodesAt (h : Laid m t W) (hj : j < t.capacity.toNat) : (t.nodesAt W j).Nodup :=
  (List.nodup_flatMap.mp h.nodup_nodes).1 j (List.mem_range.mpr hj)

/-- A node is in one bucket only. -/
theorem notMem_nodesAt (h : Laid m t W) {i : ℕ} (hi : i < t.capacity.toNat)
    (hj : j < t.capacity.toNat) (hij : i ≠ j) (hx : x ∈ t.nodesAt W j) : x ∉ t.nodesAt W i := by
  have hpairwise := (List.nodup_flatMap.mp h.nodup_nodes).2
  have hsymm : Std.Symm (Function.onFun List.Disjoint (t.nodesAt W)) :=
    ⟨fun _ _ => List.Disjoint.symm⟩
  exact fun hxi =>
    hpairwise.forall (List.mem_range.mpr hi) (List.mem_range.mpr hj) hij hxi hx

/-- The distance of a bucket from the first one. -/
theorem toNat_distance (h : Laid m t W) (hj : j < t.capacity.toNat) :
    (32 * UInt64.ofNat j).toNat = 32 * j := by
  have h32 : (32 : UInt64).toNat = 32 := rfl
  have hlt := t.capacity.toNat_lt
  obtain ⟨b, -, -, hsize⟩ := h.array
  have hfits := b.fits
  rw [UInt64.toNat_mul, UInt64.toNat_ofNat', h32]
  omega

/-- The buckets lie one behind the other. -/
theorem toNat_bucketAt (h : Laid m t W) (hj : j < t.capacity.toNat) :
    (t.bucketAt j).toNat = t.buckets.toNat + 32 * j := by
  obtain ⟨b, -, hstart, hsize⟩ := h.array
  have hfits := b.fits
  rw [hstart] at hfits
  rw [CctableT.bucketAt, UInt64.toNat_add, h.toNat_distance hj]
  omega

theorem bucketAt_ne (h : Laid m t W) {i : ℕ} (hi : i < t.capacity.toNat)
    (hj : j < t.capacity.toNat) (hij : i ≠ j) : t.bucketAt i ≠ t.bucketAt j := by
  intro he
  have hnat := congrArg UInt64.toNat he
  rw [h.toNat_bucketAt hi, h.toNat_bucketAt hj] at hnat
  omega

/-- Only the blocks count, and not what is in them. -/
theorem of_blocks (h : Laid m t W) {m' : Mem} (hblocks : m'.blocks = m.blocks) : Laid m' t W := by
  obtain ⟨heap', blocks', allocated', freed', rest'⟩ := m'
  obtain rfl : blocks' = m.blocks := hblocks
  exact ⟨h.capacity_pos, h.array, h.bucket, h.kind, h.covered, h.nodeBlock, h.valueBlock, h.starts,
    h.nodup⟩

/-- Nor does the number of entries. -/
theorem grow (h : Laid m t W) : Laid m { t with size := t.size + 1 } W :=
  ⟨h.capacity_pos, h.array, h.bucket, h.kind, h.covered, h.nodeBlock, h.valueBlock, h.starts,
    h.nodup⟩

/-! ## New blocks -/

/-- No node of a list lies in a new block. -/
theorem free (h : Laid m t W) (ha : m.Allocated z size m₁) {k : UInt64} (hk : k.toNat < size) :
    W.Free (z + k) := fun list c hc hmem =>
  ha.fresh _ 16 (by decide) (h.covered list c hc _ hmem) k hk rfl

/-- And no list has its head there. -/
theorem eq_none (h : Laid m t W) (ha : m.Allocated z size m₁) (hsize : 24 ≤ size) : W z = none := by
  cases hz : W z with
  | none => rfl
  | some c =>
    refine absurd List.mem_cons_self (h.free ha (k := 8) ?_ z c hz)
    exact (show (8 : UInt64).toNat < 24 by decide).trans_le hsize

/-- Where there is no list there is no bucket. -/
theorem ne_bucketAt_of_eq_none (h : Laid m t W) (hz : W z = none) (hj : j < t.capacity.toNat) :
    z ≠ t.bucketAt j := fun he => by
  rw [he, h.nodesAt_eq hj] at hz
  cases hz

/-- The places of a list that has got one more object, in the new block. -/
theorem covered_cons {xs : List Addr} {offset : UInt64} (h : Laid m t W)
    (ha : m.Allocated z size m₁) (hlist : W list = some ⟨offset, xs⟩)
    (hpart : offset.toNat + 16 ≤ size) :
    ∀ p ∈ places list ⟨offset, z :: xs⟩, m₁.Accessible p 16 := by
  intro p hp
  have hcovered := h.covered list _ hlist p
  rw [places_mk, List.mem_cons] at hcovered
  rw [places_mk, List.map_cons, List.mem_cons, List.mem_cons] at hp
  rcases hp with hp | rfl | hp
  · exact ha.keeps_accessible _ _ (hcovered (Or.inl hp))
  · exact ha.hasBlock.accessible (by decide) hpart
  · exact ha.keeps_accessible _ _ (hcovered (Or.inr hp))

/-- The blocks, when one more is owned. -/
theorem starts_cons (h : Laid m t W) (ha : m.Allocated z size m₁)
    (howned : (t.owned W').Perm (z :: t.owned W)) :
    m₁.starts.Perm (t.buckets :: t.owned W') ∧ m₁.starts.Nodup := by
  rw [ha.starts]
  refine ⟨?_, List.nodup_cons.mpr ⟨ha.start_fresh, h.nodup⟩⟩
  exact ((h.starts.cons z).trans (List.Perm.swap _ _ _)).trans (howned.symm.cons _)

theorem notMem_nodes (h : Laid m t W) (ha : m.Allocated z size m₁) : z ∉ t.nodes W :=
  fun hz => ha.start_fresh (h.mem_starts hz)

end Laid

/-! ## A new node -/

/-- The lists with a new node at the front of a bucket. -/
def withNode (t : CctableT) (W : World) (j : ℕ) (node : Addr) : World :=
  Function.update (if t.allowMultiple then Function.update W node (some ⟨8, []⟩) else W)
    (t.bucketAt j) (some ⟨32, node :: t.nodesAt W j⟩)

theorem withNode_bucket : withNode t W j z (t.bucketAt j) = some ⟨32, z :: t.nodesAt W j⟩ :=
  Function.update_self ..

theorem withNode_of_ne (hz : list ≠ z) (hj : list ≠ t.bucketAt j) :
    withNode t W j z list = W list := by
  rw [withNode, Function.update_of_ne hj]
  split
  · exact Function.update_of_ne hz ..
  · rfl

theorem withNode_self (hz : W z = none) (hj : z ≠ t.bucketAt j) :
    withNode t W j z z = if t.allowMultiple then some ⟨8, []⟩ else none := by
  rw [withNode, Function.update_of_ne hj]
  split
  · exact Function.update_self ..
  · exact hz

theorem objectsOf_withNode (hz : W z = none) (hj : list ≠ t.bucketAt j) :
    objectsOf (withNode t W j z) list = objectsOf W list := by
  by_cases hlist : list = z
  · rw [hlist] at hj ⊢
    rw [objectsOf, withNode_self hz hj, objectsOf_of_none hz]
    split
    · rfl
    · rfl
  · exact objectsOf_congr (withNode_of_ne hlist hj)

namespace Laid

/-- The nodes are the new one and those there were. -/
theorem nodes_withNode (h : Laid m t W) (hz : W z = none) (hj : j < t.capacity.toNat) :
    (t.nodes (withNode t W j z)).Perm (z :: t.nodes W) := by
  refine flatMap_perm_cons List.nodup_range (List.mem_range.mpr hj) ?_ fun i hi hij => ?_
  · exact objectsOf_eq withNode_bucket
  · exact objectsOf_withNode hz (h.bucketAt_ne (List.mem_range.mp hi) hj hij)

/-- What the nodes that there were own is as it was. -/
theorem withNode_of_mem (h : Laid m t W) (ha : m.Allocated z size m₁) (hx : x ∈ t.nodes W)
    (hj : j < t.capacity.toNat) : withNode t W j z x = W x :=
  withNode_of_ne (fun he => h.notMem_nodes ha (he ▸ hx)) (h.ne_bucketAt hx hj)

/-- The new node owns itself. -/
theorem owned_withNode (h : Laid m t W) (ha : m.Allocated z size m₁) (hz : W z = none)
    (hj : j < t.capacity.toNat) : (t.owned (withNode t W j z)).Perm (z :: t.owned W) := by
  have hself : blocksOf (withNode t W j z) z = [z] := by
    rw [blocksOf, objectsOf_withNode hz (h.ne_bucketAt_of_eq_none hz hj), objectsOf_of_none hz,
      List.nil_append]
  have hothers : (t.nodes W).flatMap (blocksOf (withNode t W j z)) = t.owned W :=
    List.flatMap_congr fun x hx =>
      congrArg (· ++ [x]) (objectsOf_congr (h.withNode_of_mem ha hx hj))
  refine ((h.nodes_withNode hz hj).flatMap_right _).trans ?_
  rw [List.flatMap_cons, hself, hothers]
  exact List.Perm.refl _

/-- The places of the lists, with those of the new node. -/
theorem covered_withNode (h : Laid m t W) (ha : m.Allocated z size m₁) (hsize : 48 ≤ size)
    (hz : W z = none) (hj : j < t.capacity.toNat) :
    ∀ list c, withNode t W j z list = some c → ∀ p ∈ places list c, m₁.Accessible p 16 := by
  intro list c hc p hp
  by_cases hlist : list = t.bucketAt j
  · rw [hlist, withNode_bucket, Option.some.injEq] at hc
    rw [hlist, ← hc] at hp
    exact h.covered_cons ha (h.nodesAt_eq hj) hsize p hp
  · by_cases hnode : list = z
    · rw [hnode, withNode_self hz (h.ne_bucketAt_of_eq_none hz hj)] at hc
      obtain ⟨-, hc⟩ := Option.ite_none_right_eq_some.mp hc
      rw [← Option.some.inj hc, places_mk, List.map_nil, List.mem_singleton] at hp
      rw [hp, hnode]
      exact (ha.hasBlock.mono hsize).accessible (by decide) (by decide)
    · rw [withNode_of_ne hnode hlist] at hc
      exact ha.keeps_accessible _ _ (h.covered list c hc p hp)

/-- **A new node is linked.** -/
theorem pushNode (h : Laid m t W) (ha : m.Allocated z size m₁) (hsize : 48 ≤ size)
    (hj : j < t.capacity.toNat) : Laid m₁ t (withNode t W j z) := by
  have hz : W z = none := h.eq_none ha (Nat.le_trans (by decide) hsize)
  have hne := h.ne_bucketAt_of_eq_none hz hj
  have hmem : ∀ x, x ∈ t.nodes (withNode t W j z) ↔ x = z ∨ x ∈ t.nodes W := fun x => by
    rw [(h.nodes_withNode hz hj).mem_iff, List.mem_cons]
  obtain ⟨hstarts, hnodup⟩ := h.starts_cons ha (h.owned_withNode ha hz hj)
  refine ⟨h.capacity_pos, ha.keeps _ _ h.array, fun i hi => ?_, fun x hx => ?_,
    h.covered_withNode ha hsize hz hj, fun x hx => ?_, fun x hx v hv => ?_, hstarts, hnodup⟩
  · by_cases hij : i = j
    · rw [hij]
      exact ⟨_, withNode_bucket⟩
    · rw [withNode_of_ne (h.ne_bucketAt_of_eq_none hz hi).symm (h.bucketAt_ne hi hj hij)]
      exact h.bucket i hi
  · rcases (hmem x).mp hx with rfl | hx
    · rw [withNode_self hz hne, apply_ite (Option.map Content.offset)]
      rfl
    · rw [h.withNode_of_mem ha hx hj]
      exact h.kind x hx
  · rcases (hmem x).mp hx with rfl | hx
    · exact ha.hasBlock.mono hsize
    · exact ha.keeps _ _ (h.nodeBlock x hx)
  · rcases (hmem x).mp hx with rfl | hx
    · rw [objectsOf_withNode hz hne, objectsOf_of_none hz] at hv
      exact absurd hv List.not_mem_nil
    · rw [objectsOf_congr (h.withNode_of_mem ha hx hj)] at hv
      exact ha.keeps _ _ (h.valueBlock x hx v hv)

end Laid

/-! ## A new value -/

/-- The lists with a new value at the front of those of a node. -/
def withValue (W : World) (node value : Addr) : World :=
  Function.update W node (some ⟨8, value :: objectsOf W node⟩)

theorem withValue_self : withValue W x z x = some ⟨8, z :: objectsOf W x⟩ :=
  Function.update_self ..

theorem withValue_of_ne (hlist : list ≠ x) : withValue W x z list = W list :=
  Function.update_of_ne hlist ..

namespace Laid

/-- A node of a table of the second kind has a list. -/
theorem list_of_node (h : Laid m t W) (hmany : t.allowMultiple = true) (hx : x ∈ t.nodes W) :
    W x = some ⟨8, objectsOf W x⟩ := by
  have hkind := h.kind x hx
  rw [hmany, if_pos rfl] at hkind
  obtain ⟨⟨offset, objects⟩, hc, rfl⟩ := Option.map_eq_some_iff.mp hkind
  rw [objectsOf_eq hc]
  exact hc

/-- The nodes stay where they are. -/
theorem nodesAt_withValue (h : Laid m t W) (hx : x ∈ t.nodes W) (hj : j < t.capacity.toNat) :
    t.nodesAt (withValue W x z) j = t.nodesAt W j :=
  objectsOf_congr (withValue_of_ne (h.ne_bucketAt hx hj).symm)

theorem nodes_withValue (h : Laid m t W) (hx : x ∈ t.nodes W) :
    t.nodes (withValue W x z) = t.nodes W :=
  List.flatMap_congr fun _ hj => h.nodesAt_withValue hx (List.mem_range.mp hj)

/-- The node owns the new value. -/
theorem owned_withValue (h : Laid m t W) (hx : x ∈ t.nodes W) :
    (t.owned (withValue W x z)).Perm (z :: t.owned W) := by
  have hself : blocksOf (withValue W x z) x = z :: blocksOf W x := by
    rw [blocksOf, objectsOf_eq withValue_self, List.cons_append, blocksOf]
  rw [CctableT.owned, h.nodes_withValue hx]
  exact flatMap_perm_cons h.nodup_nodes hx hself fun y _ hyx =>
    congrArg (· ++ [y]) (objectsOf_congr (withValue_of_ne hyx))

/-- **A new value is linked.** -/
theorem pushValue (h : Laid m t W) (hmany : t.allowMultiple = true) (hx : x ∈ t.nodes W)
    (ha : m.Allocated z size m₁) (hsize : 24 ≤ size) : Laid m₁ t (withValue W x z) := by
  have hblock : m₁.HasBlock z 24 := ha.hasBlock.mono hsize
  have hnodes := h.nodes_withValue (z := z) hx
  obtain ⟨hstarts, hnodup⟩ := h.starts_cons ha (h.owned_withValue hx)
  refine ⟨h.capacity_pos, ha.keeps _ _ h.array, fun i hi => ?_, fun y hy => ?_,
    fun list c hc p hp => ?_, fun y hy => ?_, fun y hy v hv => ?_, hstarts, hnodup⟩
  · rw [withValue_of_ne (h.ne_bucketAt hx hi).symm]
    exact h.bucket i hi
  · rw [hnodes] at hy
    by_cases hyx : y = x
    · rw [hyx, withValue_self, hmany]
      rfl
    · rw [withValue_of_ne hyx]
      exact h.kind y hy
  · by_cases he : list = x
    · rw [he, withValue_self, Option.some.injEq] at hc
      rw [he, ← hc] at hp
      exact h.covered_cons ha (h.list_of_node hmany hx) hsize p hp
    · rw [withValue_of_ne he] at hc
      exact ha.keeps_accessible _ _ (h.covered list c hc p hp)
  · rw [hnodes] at hy
    exact ha.keeps _ _ (h.nodeBlock y hy)
  · rw [hnodes] at hy
    by_cases hyx : y = x
    · rw [hyx, objectsOf_eq withValue_self] at hv
      rcases List.mem_cons.mp hv with rfl | hv
      · exact hblock
      · exact ha.keeps _ _ (h.valueBlock x hx v hv)
    · rw [objectsOf_congr (withValue_of_ne hyx)] at hv
      exact ha.keeps _ _ (h.valueBlock y hy v hv)

end Laid

end InMemory
end HashTable
end CCore
