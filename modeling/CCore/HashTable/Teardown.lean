import CCore.HashTable.FirstWins
import CCore.HashTable.Histories
import CCore.HashTable.Insertion

/-!
# Taking a table down

`cctable_deinit` clears one bucket after the other, and the destructor of a bucket's nodes frees
the node it is given; in a multi-valued table it clears the list of its values before that, with a
destructor that frees the value it is given.  So two walks run at the same time over memory that
is being freed under them.

## One relation for all of it

`Torn` is what any part of this does: it passes some objects to the destructor, it frees some
blocks, it empties some lists, and it leaves the rest alone.  It composes (`Torn.trans`), and so
one theorem about `cclist_clear`, `cclistClear_torn`, serves for the values of a node and for the
nodes of a bucket.  What it asks of a destructor is `Destructs`: that it can do its part in any
state that is reached without freeing or emptying what it works on.

The blocks that are freed are those of `owned`, in its order, which `Laid` says are all there are;
and the objects that are passed on are those that an iteration comes to, in the same order.
-/

namespace CCore
namespace HashTable
namespace InMemory

open CircularLinks LinkedList

/-- The calls of the destructor with these objects. -/
def calls (data : DestructorData) (objects : List Addr) : List (Addr × Addr) :=
  if data.destructor ≠ null then objects.map fun object => (object, data.userData) else []

/-- What a destructor does with an object of a list: what it passes on, what it frees, and which
lists it empties. -/
structure Part where
  objects : Addr → List Addr
  frees : Addr → List Addr
  empties : Addr → List Addr

/-- **A part of a teardown.** -/
structure Torn (data : DestructorData) (m : Mem) (W : World) (objects frees empties : List Addr)
    (m' : Mem) (W' : World) : Prop where
  represents : Represents m'.heap W'
  kept : ∀ list, list ∉ empties → W' list = W list
  sizes : ∀ x, x ∉ empties → m'.heap.size x = m.heap.size x
  blocks : m'.blocks = m.blocks.filter (·.start ∉ frees)
  freed : m'.freed = m.freed ++ frees
  destroyed : m'.rest.destroyed = m.rest.destroyed ++ calls data objects
  value : m'.rest.value = m.rest.value

/-- **What is asked of a destructor.** -/
def Destructs (data : DestructorData) (m : Mem) (W : World)
    (des : Mem → Addr → DestructorData → Option Mem) (part : Part) (x : Addr) : Prop :=
  ∀ m₁ W₁ objects frees empties, Torn data m W objects frees empties m₁ W₁ →
    (part.frees x).Disjoint frees → x ∉ empties →
    ∃ m₂ W₂, des m₁ x data = some m₂ ∧
      Torn data m₁ W₁ (part.objects x) (part.frees x) (part.empties x) m₂ W₂

variable {data : DestructorData} {m m₁ m₂ : Mem} {W W₁ W₂ : World} {t : CctableT}
  {objects frees empties objects' frees' empties' : List Addr} {x list a : Addr} {n : ℕ}
  {des : Mem → Addr → DestructorData → Option Mem} {part : Part}

theorem calls_append (data : DestructorData) (objects objects' : List Addr) :
    calls data (objects ++ objects') = calls data objects ++ calls data objects' := by
  rw [calls, calls, calls]
  split
  · exact List.map_append
  · rfl

namespace Torn

theorem refl (h : Represents m.heap W) : Torn data m W [] [] [] m W := by
  refine ⟨h, fun _ _ => rfl, fun _ _ => rfl, ?_, (List.append_nil _).symm, ?_, rfl⟩
  · exact (List.filter_eq_self.mpr fun b _ => decide_eq_true List.not_mem_nil).symm
  · rw [calls]
    split
    · exact (List.append_nil _).symm
    · exact (List.append_nil _).symm

/-- **One part after the other.** -/
theorem trans (h : Torn data m W objects frees empties m₁ W₁)
    (h' : Torn data m₁ W₁ objects' frees' empties' m₂ W₂) :
    Torn data m W (objects ++ objects') (frees ++ frees') (empties ++ empties') m₂ W₂ := by
  refine ⟨h'.represents, fun list hlist => ?_, fun x hx => ?_, ?_, ?_, ?_, h'.value.trans h.value⟩
  · rw [List.mem_append, not_or] at hlist
    exact (h'.kept list hlist.2).trans (h.kept list hlist.1)
  · rw [List.mem_append, not_or] at hx
    exact (h'.sizes x hx.2).trans (h.sizes x hx.1)
  · rw [h'.blocks, h.blocks, List.filter_filter]
    refine List.filter_congr fun b _ => ?_
    rw [← Bool.decide_and]
    refine decide_eq_decide.mpr ?_
    rw [List.mem_append, not_or, and_comm]
  · rw [h'.freed, h.freed, List.append_assoc]
  · rw [h'.destroyed, h.destroyed, List.append_assoc, calls_append]

/-- A block that is not freed. -/
theorem hasBlock (h : Torn data m W objects frees empties m₁ W₁) (hblock : m.HasBlock a n)
    (ha : a ∉ frees) : m₁.HasBlock a n := by
  obtain ⟨b, hb, rfl, hsize⟩ := hblock
  refine ⟨b, ?_, rfl, hsize⟩
  rw [h.blocks]
  exact List.mem_filter.mpr ⟨hb, decide_eq_true ha⟩

end Torn

/-- A destructor that can do its part can still do it when other parts have been done. -/
theorem Destructs.after (h : Destructs data m W des part x)
    (ht : Torn data m W objects frees empties m₁ W₁) (hfrees : (part.frees x).Disjoint frees)
    (hempties : x ∉ empties) : Destructs data m₁ W₁ des part x := by
  intro m₂ W₂ objects' frees' empties' ht' hfrees' hempties'
  refine h m₂ W₂ _ _ _ (ht.trans ht') (List.disjoint_append_right.mpr ⟨hfrees, hfrees'⟩) ?_
  rw [List.mem_append, not_or]
  exact ⟨hempties, hempties'⟩

/-! ## The pieces -/

theorem ccFree_torn (data : DestructorData) (hrep : Represents m.heap W)
    (hblock : m.HasBlock x n) :
    ∃ m', ccFree m x = some m' ∧ Torn data m W [] [x] [] m' W := by
  refine ⟨_, ccFree_of_hasBlock hblock, hrep, fun _ _ => rfl, fun _ _ => rfl, ?_, rfl, ?_, rfl⟩
  · exact List.filter_congr fun b _ => decide_eq_decide.mpr List.mem_singleton.not.symm
  · exact (Torn.refl hrep).destroyed

/-- **The destructor of an object that its block begins with.** -/
theorem destroyWith_torn (data : DestructorData) (object : Mem → Addr → Addr)
    (hrep : Represents m.heap W) (hblock : m.HasBlock x n) (hn : 8 ≤ n) :
    ∃ m', destroyWith object m x data = some m' ∧ Torn data m W [object m x] [x] [] m' W := by
  rw [destroyWith, Memory.access_pos (hblock.accessible_start hn)]
  by_cases hdes : data.destructor ≠ null
  · rw [if_pos hdes, Option.bind_some]
    have hnone : Torn data m W [] [] [] m W := Torn.refl hrep
    have hcall : Torn data m W [object m x] [] [] { m with rest := { m.rest with
        destroyed := m.rest.destroyed ++ [(object m x, data.userData)] } } W := by
      refine ⟨hrep, fun _ _ => rfl, fun _ _ => rfl, hnone.blocks, hnone.freed, ?_, rfl⟩
      rw [calls, if_pos hdes]
      rfl
    obtain ⟨m', hm', hfree⟩ := ccFree_torn data hcall.represents
      (hcall.hasBlock hblock List.not_mem_nil)
    exact ⟨m', hm', hcall.trans hfree⟩
  · rw [if_neg hdes, Option.bind_some]
    obtain ⟨m', hm', hfree⟩ := ccFree_torn data hrep hblock
    refine ⟨m', hm', hfree.represents, hfree.kept, hfree.sizes, hfree.blocks, hfree.freed, ?_,
      hfree.value⟩
    rw [hfree.destroyed, calls, if_neg hdes, calls, if_neg hdes]

/-! ## Clearing a list -/

/-- The initialisation that ends it. -/
theorem cclistInit_torn {c : Content} {offset : UInt64} {heap : Heap} (data : DestructorData)
    (hrep : Represents m.heap W) (hlist : W list = some c)
    (hheap : cclistInit m.heap list offset = some heap) :
    ∃ W', Torn data m W [] [] [list] { m with heap := heap } W' := by
  have hlegal : W.Legal (.init list offset) :=
    ⟨(hrep.holds _ _ hlist).list_ne_null, fun other d hd hother =>
      hrep.disjoint _ _ _ _ hother.symm hlist hd List.mem_cons_self⟩
  obtain ⟨heap', hheap', hrep', -⟩ := exec_represents hrep hlegal
  obtain rfl : heap = heap' := Option.some.inj (hheap.symm.trans hheap')
  obtain ⟨-, -, -, hblocks, hfreed, hdestroyed, -⟩ : Torn data m W [] [] [] m W := Torn.refl hrep
  refine ⟨_, hrep', fun other hother => ?_, fun x hx => ?_, hblocks, hfreed, hdestroyed, rfl⟩
  · exact Function.update_of_ne (List.ne_of_not_mem_cons hother) ..
  · obtain ⟨-, hheap⟩ := ccassert_eq_some.mp hheap
    rw [← Option.some.inj hheap]
    exact Function.update_of_ne (List.ne_of_not_mem_cons hx) ..

/-- **`cclist_clear`, with a destructor that frees what it is given.**  The list lies in a block
that is not among those that are freed, and each object begins a block that its own part frees;
no block is freed twice. -/
theorem cclistClear_torn (part : Part) {offset k : UInt64} {xs : List Addr}
    (hrep : Represents m.heap W) (hlist : W (a + k) = some ⟨offset, xs⟩)
    (hblock : m.HasBlock a n) (hk : k.toNat + 32 ≤ n)
    (ha : a ∉ xs.flatMap part.frees) (hnodes : ∀ x ∈ xs, m.HasBlock x (offset.toNat + 16))
    (hself : ∀ x ∈ xs, x ∈ part.frees x) (hnodup : (xs.flatMap part.frees).Nodup)
    (hempties : ∀ x ∈ xs, part.empties x ⊆ part.frees x)
    (hkeeps : a + k ∉ xs.flatMap part.empties) (hdes : ∀ x ∈ xs, Destructs data m W des part x) :
    ∃ m' W', cclistClear m (a + k) (some des) data = some m' ∧
      Torn data m W (xs.flatMap part.objects) (xs.flatMap part.frees)
        (xs.flatMap part.empties ++ [a + k]) m' W' := by
  have hholds := hrep.holds _ _ hlist
  -- what is known when the objects of `pre` have been given to the destructor
  have hlater : ∀ pre post m₁ W₁, xs = pre ++ post →
      Torn data m W (pre.flatMap part.objects) (pre.flatMap part.frees)
        (pre.flatMap part.empties) m₁ W₁ →
      m₁.Accessible (a + k) 32 ∧ W₁ (a + k) = some ⟨offset, xs⟩ := by
    rintro pre post m₁ W₁ rfl ht
    rw [List.flatMap_append, List.mem_append, not_or] at ha hkeeps
    refine ⟨(ht.hasBlock hblock ha.1).accessible (by decide) hk, ?_⟩
    rw [ht.kept _ hkeeps.1]
    exact hlist
  have hstep : ∀ x post m₁, (∃ pre W₁, xs = pre ++ x :: post ∧
      Torn data m W (pre.flatMap part.objects) (pre.flatMap part.frees)
        (pre.flatMap part.empties) m₁ W₁) →
      x + offset ≠ headOf (a + k) ∧ m₁.Accessible (x + offset) 16 ∧
      m₁.heap.next (x + offset) = (post.map (· + offset)).headD (headOf (a + k)) ∧
      ∃ m₂, des m₁ x data = some m₂ ∧ ∃ pre W₂, xs = pre ++ post ∧
        Torn data m W (pre.flatMap part.objects) (pre.flatMap part.frees)
          (pre.flatMap part.empties) m₂ W₂ := by
    rintro x post m₁ ⟨pre, W₁, hpre, ht⟩
    have hring := (ht.represents.holds _ _ (hlater pre (x :: post) m₁ W₁ hpre ht).2).ring
    have hx : x ∈ xs := hpre ▸ List.mem_append_right _ List.mem_cons_self
    rw [hpre, List.flatMap_append, List.flatMap_cons] at hnodup
    obtain ⟨-, -, hapart⟩ := List.nodup_append'.mp hnodup
    have hnew : (part.frees x).Disjoint (pre.flatMap part.frees) := fun b hb hb' =>
      hapart hb' (List.mem_append_left _ hb)
    have hkept : x ∉ pre.flatMap part.empties := fun hmem => by
      obtain ⟨y, hy, hmem⟩ := List.mem_flatMap.mp hmem
      have hyx := hempties y (hpre ▸ List.mem_append_left _ hy) hmem
      exact hnew (hself x hx) (List.mem_flatMap.mpr ⟨y, hy, hyx⟩)
    obtain ⟨m₂, W₂, hm₂, ht₂⟩ := hdes x hx m₁ W₁ _ _ _ ht hnew hkept
    refine ⟨fun he => hring.head_notMem ?_, ?_, ?_, m₂, hm₂, pre ++ [x], W₂, ?_, ?_⟩
    · rw [← he]
      exact List.mem_map_of_mem hx
    · exact (ht.hasBlock (hnodes x hx) (hnew (hself x hx))).accessible (by decide) le_rfl
    · rw [Content.nodes_mk, hpre, List.map_append, List.map_cons] at hring
      exact hring.next_mem
    · rw [hpre, List.append_cons]
    · rw [List.flatMap_append, List.flatMap_append, List.flatMap_append, List.flatMap_singleton,
        List.flatMap_singleton, List.flatMap_singleton]
      exact ht.trans ht₂
  obtain ⟨m₁, heap, ⟨pre, W₁, hpre, ht⟩, hheap, hclear⟩ := cclistClear_rule
    (Q := fun post m₁ => ∃ pre W₁, xs = pre ++ post ∧
      Torn data m W (pre.flatMap part.objects) (pre.flatMap part.frees)
        (pre.flatMap part.empties) m₁ W₁)
    hholds.list_ne_null
    (fun post m₁ ⟨pre, W₁, hpre, ht⟩ =>
      ⟨(hlater pre post m₁ W₁ hpre ht).1,
        (ht.represents.holds _ _ (hlater pre post m₁ W₁ hpre ht).2).offset⟩)
    hstep ⟨[], W, rfl, Torn.refl hrep⟩ hholds.size_toNat.ge hholds.ring.next_head
  obtain ⟨-, hlist₁⟩ := hlater pre [] m₁ W₁ hpre ht
  obtain ⟨W', hinit⟩ := cclistInit_torn data ht.represents hlist₁ hheap
  have htorn := ht.trans hinit
  rw [List.append_nil] at hpre
  rw [← hpre, List.append_nil, List.append_nil] at htorn
  exact ⟨_, W', hclear, htorn⟩

/-! ## The destructors of a table -/

/-- What is done with a value. -/
def valuePart (m : Mem) : Part where
  objects v := [m.rest.value v]
  frees v := [v]
  empties _ := []

/-- What is done with a node of a table of either kind. -/
def nodePart (t : CctableT) (m : Mem) (W : World) : Part where
  objects x := if t.allowMultiple then (objectsOf W x).map m.rest.value else [oneValue m x]
  frees := blocksOf W
  empties x := if t.allowMultiple then [x] else []

theorem valueDestructorMany_destructs (hblock : m.HasBlock x 24) :
    Destructs data m W valueDestructorMany (valuePart m) x := by
  intro m₁ W₁ objects frees empties ht hfrees hempties
  have hblock₁ := ht.hasBlock hblock (List.disjoint_left.mp hfrees List.mem_cons_self)
  obtain ⟨m₂, hm₂, ht₂⟩ := destroyWith_torn data (fun m value => m.rest.value value)
    ht.represents hblock₁ (by decide)
  refine ⟨m₂, W₁, hm₂, ?_⟩
  rw [ht.value] at ht₂
  exact ht₂

/-- **`node_destructor_single`** -/
theorem nodeDestructorSingle_destructs (h : Laid m t W) (hsingle : t.allowMultiple = false)
    (hx : x ∈ t.nodes W) : Destructs data m W nodeDestructorSingle (nodePart t m W) x := by
  intro m₁ W₁ objects frees empties ht hfrees hempties
  have hself : x ∈ blocksOf W x := List.mem_append_right _ List.mem_cons_self
  have hblock₁ := ht.hasBlock (h.nodeBlock x hx) (List.disjoint_left.mp hfrees hself)
  obtain ⟨m₂, hm₂, ht₂⟩ := destroyWith_torn data oneValue ht.represents hblock₁ (by decide)
  refine ⟨m₂, W₁, hm₂, ?_⟩
  have hobject : oneValue m₁ x = oneValue m x := ht.sizes x hempties
  have hkind := h.kind x hx
  rw [hsingle, if_neg Bool.false_ne_true, Option.map_eq_none_iff] at hkind
  have hobjects : (nodePart t m W).objects x = [oneValue m₁ x] := by
    rw [nodePart, hsingle, hobject]
    rfl
  have hblocks : (nodePart t m W).frees x = [x] :=
    congrArg (· ++ [x]) (objectsOf_of_none hkind)
  have hlists : (nodePart t m W).empties x = [] := by
    rw [nodePart, hsingle]
    rfl
  rw [hobjects, hblocks, hlists]
  exact ht₂

/-- **`node_destructor_many`**, which clears the list of the values first. -/
theorem nodeDestructorMany_destructs (h : Laid m t W) (hmany : t.allowMultiple = true)
    (hx : x ∈ t.nodes W) : Destructs data m W nodeDestructorMany (nodePart t m W) x := by
  intro m₁ W₁ objects frees empties ht hfrees hempties
  have hlist : W₁ (x + 0) = some ⟨8, objectsOf W x⟩ := by
    rw [UInt64.add_zero, ht.kept x hempties]
    exact h.list_of_node hmany hx
  have hself : x ∈ blocksOf W x := List.mem_append_right _ List.mem_cons_self
  have hvalue : ∀ v ∈ objectsOf W x, m₁.HasBlock v 24 := fun v hv =>
    ht.hasBlock (h.valueBlock x hx v hv) (List.disjoint_left.mp hfrees (List.mem_append_left _ hv))
  have hnode : m₁.HasBlock x 48 :=
    ht.hasBlock (h.nodeBlock x hx) (List.disjoint_left.mp hfrees hself)
  have hnodup : (blocksOf W x).Nodup := (List.nodup_flatMap.mp h.nodup_owned).1 x hx
  obtain ⟨hvalues, -, hapart⟩ := List.nodup_append'.mp hnodup
  have hx' : x ∉ objectsOf W x := fun hmem => hapart hmem List.mem_cons_self
  have hfrees' : (objectsOf W x).flatMap (valuePart m₁).frees = objectsOf W x :=
    List.flatMap_singleton' _
  have hempties' : (objectsOf W x).flatMap (valuePart m₁).empties = [] :=
    List.flatMap_eq_nil_iff.mpr fun _ _ => rfl
  have hobjects : (objectsOf W x).flatMap (valuePart m₁).objects = (nodePart t m W).objects x := by
    rw [nodePart, hmany]
    exact (congrArg (List.map · (objectsOf W x)) ht.value.symm).trans List.map_eq_flatMap |>.symm
  have hlists : (nodePart t m W).empties x = [x] := by
    rw [nodePart, hmany]
    rfl
  obtain ⟨m₂, W₂, hclear, ht₂⟩ := cclistClear_torn (valuePart m₁) ht.represents hlist hnode
    (by decide) (hfrees'.symm ▸ hx') hvalue (fun v _ => List.mem_cons_self) (hfrees'.symm ▸ hvalues)
    (fun v _ => List.nil_subset _) (hempties'.symm ▸ List.not_mem_nil)
    fun v hv => valueDestructorMany_destructs (hvalue v hv)
  rw [UInt64.add_zero] at hclear ht₂
  rw [hfrees', hempties', hobjects] at ht₂
  obtain ⟨m₃, hfree, ht₃⟩ := ccFree_torn data ht₂.represents (ht₂.hasBlock hnode hx')
  refine ⟨m₃, W₂, ?_, ?_⟩
  · rw [nodeDestructorMany, hclear, Option.bind_some, hfree]
  · have htorn := ht₂.trans ht₃
    rw [List.append_nil, List.append_nil, List.nil_append] at htorn
    rw [hlists]
    exact htorn

/-! ## The buckets -/

/-- The blocks of the nodes of a bucket. -/
def CctableT.ownedAt (t : CctableT) (W : World) (i : ℕ) : List Addr :=
  (t.nodesAt W i).flatMap (blocksOf W)

/-- The lists that are emptied with a bucket. -/
def CctableT.emptiesAt (t : CctableT) (m : Mem) (W : World) (i : ℕ) : List Addr :=
  (t.nodesAt W i).flatMap (nodePart t m W).empties ++ [t.bucketAt i]

namespace Laid

variable {i j : ℕ}

theorem owned_eq (t : CctableT) (W : World) :
    t.owned W = (List.range t.capacity.toNat).flatMap (t.ownedAt W) := by
  rw [CctableT.owned, CctableT.nodes, List.flatMap_assoc]
  rfl

theorem nodup_ownedAt (h : Laid m t W) (hj : j < t.capacity.toNat) : (t.ownedAt W j).Nodup := by
  have hnodup := h.nodup_owned
  rw [owned_eq] at hnodup
  exact (List.nodup_flatMap.mp hnodup).1 j (List.mem_range.mpr hj)

/-- No block belongs to two buckets. -/
theorem disjoint_ownedAt (h : Laid m t W) (hi : i < t.capacity.toNat) (hj : j < t.capacity.toNat)
    (hij : i ≠ j) : (t.ownedAt W i).Disjoint (t.ownedAt W j) := by
  have hnodup := h.nodup_owned
  rw [owned_eq] at hnodup
  have hsymm : Std.Symm (Function.onFun List.Disjoint (t.ownedAt W)) :=
    ⟨fun _ _ => List.Disjoint.symm⟩
  exact (List.nodup_flatMap.mp hnodup).2.forall (List.mem_range.mpr hi) (List.mem_range.mpr hj) hij

theorem array_notMem (h : Laid m t W) (hj : j < t.capacity.toNat) : t.buckets ∉ t.ownedAt W j := by
  have hnot := (List.nodup_cons.mp (h.starts.nodup_iff.mp h.nodup)).1
  rw [owned_eq] at hnot
  exact fun hmem => hnot (List.mem_flatMap.mpr ⟨j, List.mem_range.mpr hj, hmem⟩)

/-- What is emptied with a node is the node. -/
theorem eq_of_mem_empties {y : Addr} (hx : x ∈ (nodePart t m W).empties y) : x = y := by
  have hx : x ∈ if t.allowMultiple then [y] else [] := hx
  split at hx
  · exact List.mem_singleton.mp hx
  · exact absurd hx List.not_mem_nil

/-- What is emptied with a bucket is one of its nodes, or the bucket. -/
theorem mem_emptiesAt (hx : x ∈ t.emptiesAt m W j) : x ∈ t.nodesAt W j ∨ x = t.bucketAt j := by
  rcases List.mem_append.mp hx with hx | hx
  · obtain ⟨y, hy, hxy⟩ := List.mem_flatMap.mp hx
    rw [eq_of_mem_empties hxy]
    exact Or.inl hy
  · exact Or.inr (List.mem_singleton.mp hx)

/-- A bucket is not emptied with another one, nor is a node of it. -/
theorem notMem_emptiesAt (h : Laid m t W) (hi : i < t.capacity.toNat) (hj : j < t.capacity.toNat)
    (hij : i ≠ j) (hx : x ∈ t.nodesAt W j ∨ x = t.bucketAt j) : x ∉ t.emptiesAt m W i := by
  have hnode : ∀ {k y}, k < t.capacity.toNat → y ∈ t.nodesAt W k → y ∈ t.nodes W := fun hk hy =>
    CctableT.mem_nodes.mpr ⟨_, hk, hy⟩
  intro hmem
  rcases hx with hx | rfl
  · rcases mem_emptiesAt hmem with hxi | rfl
    · exact h.notMem_nodesAt hi hj hij hx hxi
    · exact h.ne_bucketAt (hnode hj hx) hi rfl
  · rcases mem_emptiesAt hmem with hxi | he
    · exact h.ne_bucketAt (hnode hi hxi) hj rfl
    · exact h.bucketAt_ne hi hj hij he.symm

/-- The destructor of the nodes. -/
theorem nodeDestructor_destructs (h : Laid m t W) (hx : x ∈ t.nodes W) :
    Destructs data m W t.nodeDestructor (nodePart t m W) x := by
  cases hmany : t.allowMultiple with
  | false =>
    rw [CctableT.nodeDestructor, hmany]
    exact nodeDestructorSingle_destructs h hmany hx
  | true =>
    rw [CctableT.nodeDestructor, hmany]
    exact nodeDestructorMany_destructs h hmany hx

end Laid

/-- **One bucket**, after those before it. -/
theorem clearBucket_torn (h : Laid m t W) (hn : n < t.capacity.toNat)
    (ht : Torn data m W objects ((List.range n).flatMap (t.ownedAt W))
      ((List.range n).flatMap (t.emptiesAt m W)) m₁ W₁) :
    ∃ m₂ W₂, clearBucket t data m₁ n = some m₂ ∧
      Torn data m₁ W₁ ((t.nodesAt W n).flatMap (nodePart t m W).objects) (t.ownedAt W n)
        (t.emptiesAt m W n) m₂ W₂ := by
  have hlt : ∀ i ∈ List.range n, i < t.capacity.toNat ∧ i ≠ n := fun i hi =>
    ⟨(List.mem_range.mp hi).trans hn, (List.mem_range.mp hi).ne⟩
  have hkept : ∀ x, x ∈ t.nodesAt W n ∨ x = t.bucketAt n →
      x ∉ (List.range n).flatMap (t.emptiesAt m W) := fun x hx hmem => by
    obtain ⟨i, hi, hmem⟩ := List.mem_flatMap.mp hmem
    exact h.notMem_emptiesAt (hlt i hi).1 hn (hlt i hi).2 hx hmem
  have hunfreed : (t.ownedAt W n).Disjoint ((List.range n).flatMap (t.ownedAt W)) :=
    fun b hb hmem => by
      obtain ⟨i, hi, hmem⟩ := List.mem_flatMap.mp hmem
      exact h.disjoint_ownedAt (hlt i hi).1 hn (hlt i hi).2 hmem hb
  have harray : t.buckets ∉ (List.range n).flatMap (t.ownedAt W) := fun hmem => by
    obtain ⟨i, hi, hmem⟩ := List.mem_flatMap.mp hmem
    exact h.array_notMem (hlt i hi).1 hmem
  have hnode : ∀ x ∈ t.nodesAt W n, x ∈ t.nodes W := fun x hx => CctableT.mem_nodes.mpr ⟨n, hn, hx⟩
  have hself : ∀ x, x ∈ blocksOf W x := fun x => List.mem_append_right _ List.mem_cons_self
  have howned : ∀ x ∈ t.nodesAt W n,
      (blocksOf W x).Disjoint ((List.range n).flatMap (t.ownedAt W)) :=
    fun x hx b hb => hunfreed (List.mem_flatMap.mpr ⟨x, hx, hb⟩)
  have hlist : W₁ (t.bucketAt n) = some ⟨32, t.nodesAt W n⟩ := by
    rw [ht.kept _ (hkept _ (Or.inr rfl))]
    exact h.nodesAt_eq hn
  have hdistance : (32 * UInt64.ofNat n).toNat + 32 ≤ 32 * t.capacity.toNat := by
    rw [h.toNat_distance hn]
    omega
  refine cclistClear_torn (nodePart t m W) ht.represents hlist (ht.hasBlock h.array harray)
    hdistance (h.array_notMem hn) (fun x hx => ?_) (fun x _ => hself x) (h.nodup_ownedAt hn)
    (fun x _ y hy => ?_) (fun hmem => ?_) fun x hx => ?_
  · exact ht.hasBlock (h.nodeBlock x (hnode x hx)) fun hmem => howned x hx (hself x) hmem
  · rw [Laid.eq_of_mem_empties hy]
    exact hself x
  · obtain ⟨x, hx, he⟩ := List.mem_flatMap.mp hmem
    exact h.ne_bucketAt (hnode x hx) hn (Laid.eq_of_mem_empties he).symm
  · exact (h.nodeDestructor_destructs (hnode x hx)).after ht (howned x hx) (hkept x (Or.inl hx))

/-- **The buckets, one after the other.** -/
theorem foldlM_clearBucket (h : Laid m t W) (hrep : Represents m.heap W) (data : DestructorData)
    (hn : n ≤ t.capacity.toNat) :
    ∃ m' W', (List.range n).foldlM (clearBucket t data) m = some m' ∧
      Torn data m W
        ((List.range n).flatMap fun i => (t.nodesAt W i).flatMap (nodePart t m W).objects)
        ((List.range n).flatMap (t.ownedAt W)) ((List.range n).flatMap (t.emptiesAt m W))
        m' W' := by
  induction n with
  | zero => exact ⟨m, W, rfl, Torn.refl hrep⟩
  | succ n ih =>
    obtain ⟨m₁, W₁, hm₁, ht₁⟩ := ih (Nat.le_of_succ_le hn)
    obtain ⟨m₂, W₂, hm₂, ht₂⟩ := clearBucket_torn h hn ht₁
    refine ⟨m₂, W₂, ?_, ?_⟩
    · rw [List.range_succ, List.foldlM_append, hm₁]
      exact (congrArg (Option.bind · _) hm₂).trans (Option.bind_some ..)
    · rw [List.range_succ, List.flatMap_append, List.flatMap_append, List.flatMap_append,
        List.flatMap_singleton, List.flatMap_singleton, List.flatMap_singleton]
      exact ht₁.trans ht₂

/-! ## Objects, in the order of an iteration -/

theorem collect_eq {α β : Type} {f : α → Option (List β)} {g : α → List β} {xs : List α}
    (h : ∀ x ∈ xs, f x = some (g x)) : collect f xs = some (xs.flatMap g) := by
  induction xs with
  | nil => rfl
  | cons x xs ih =>
    obtain ⟨hx, hxs⟩ := List.forall_mem_cons.mp h
    rw [collect, hx, Option.bind_some, ih hxs, Option.map_some, List.flatMap_cons]

/-- The pairs of a node. -/
def nodePairs (t : CctableT) (m : Mem) (W : World) (x : Addr) : List (CString × Addr) :=
  ((nodePart t m W).objects x).map fun object => (m.rest.key x, object)

theorem cctableIter_eq (h : Laid m t W) (hrep : Represents m.heap W) :
    cctableIter m t =
      some ((List.range t.capacity.toNat).flatMap fun i =>
        (t.nodesAt W i).flatMap (nodePairs t m W)) := by
  refine collect_eq fun i hi => ?_
  have hholds := hrep.holds _ _ (h.nodesAt_eq (List.mem_range.mp hi))
  rw [hholds.walkForward hholds.size_toNat.ge, Option.bind_some]
  refine collect_eq fun x hx => ?_
  have hnode : x ∈ t.nodes W := CctableT.mem_nodes.mpr ⟨i, List.mem_range.mp hi, hx⟩
  cases hmany : t.allowMultiple with
  | false =>
    rw [iterNode, nodePairs, nodePart, hmany]
    rfl
  | true =>
    have hlist := hrep.holds _ _ (h.list_of_node hmany hnode)
    rw [iterNode, nodePairs, nodePart, hmany, hlist.walkForward hlist.size_toNat.ge]
    exact congrArg some (List.map_map (l := objectsOf W x)).symm

theorem cctableIter_shows {T : Cctable} (h : Shows m t W T) :
    HashTable.cctableIter T =
      (List.range t.capacity.toNat).flatMap fun i => (t.nodesAt W i).flatMap (nodePairs t m W) := by
  cases T with
  | single T =>
    obtain ⟨hsingle, hshows⟩ := h
    rw [HashTable.cctableIter, hshows.buckets, List.flatMap_map]
    refine List.flatMap_congr fun i _ => ?_
    rw [List.map_map, List.map_eq_flatMap]
    refine List.flatMap_congr fun x _ => ?_
    rw [nodePairs, nodePart, hsingle]
    rfl
  | many T =>
    obtain ⟨hmany, hshows⟩ := h
    rw [HashTable.cctableIter, hshows.buckets, List.flatMap_map]
    refine List.flatMap_congr fun i _ => ?_
    rw [List.flatMap_map]
    refine List.flatMap_congr fun x _ => ?_
    rw [nodePairs, nodePart, hmany]
    rfl

/-- The objects of these pairs are what is passed to the destructor. -/
theorem map_snd_cctableIter {T : Cctable} (h : Shows m t W T) :
    (HashTable.cctableIter T).map Prod.snd = (List.range t.capacity.toNat).flatMap fun i =>
      (t.nodesAt W i).flatMap (nodePart t m W).objects := by
  rw [cctableIter_shows h, List.map_flatMap]
  refine List.flatMap_congr fun i _ => ?_
  rw [List.map_flatMap]
  refine List.flatMap_congr fun x _ => ?_
  rw [nodePairs, List.map_map]
  exact List.map_id _

/-! ## Every table -/

/-- **A teardown visits everything exactly once.**  Take any memory, a table of either kind with
at least one bucket that has been made in it, and any insertions.  An iteration comes to the pairs
that the model's table has after the same insertions.  `cctable_deinit` comes to its end, so that
it has read nothing that was freed; it has called the destructor, if there is one, once for each
of these pairs, with the object and with `ptr`; and what it has freed is what was allocated, each
block once, so that none is left. -/
theorem cctableDeinit_exactly_once {heap : Heap} {keys : Addr → CString} {values : Addr → Addr}
    {count : UInt64} {allowMultiple : Bool} {buckets : Addr} {m₀ : Mem} {t₀ : CctableT}
    {insertions : List Insertion} (hcapacity : 1 ≤ nextPowerOf2 count)
    (hinit : cctableInit (memBefore heap keys values) count allowMultiple buckets = some (m₀, t₀))
    (hinsert : insertAll (m₀, t₀) insertions = some (m, t)) (des ptr : Addr) :
    ∃ T m', HashTable.insertAll (HashTable.cctableInit count allowMultiple)
        (insertions.map fun i => (i.key, i.object)) = some T ∧
      cctableIter m t = some (HashTable.cctableIter T) ∧
      cctableDeinit m t des ptr =
        some (m', { t with capacity := 0, size := 0, buckets := null }) ∧
      m'.rest.destroyed =
        (if des ≠ null then (HashTable.cctableIter T).map fun p => (p.2, ptr) else []) ∧
      m.allocated.Nodup ∧ m'.freed.Perm m.allocated ∧ m'.blocks = [] := by
  obtain ⟨W₀, h₀⟩ := cctableInit_stores hcapacity hinit
  obtain ⟨W, T, hT, h⟩ := insertAll_stores h₀ hinsert
  obtain ⟨hrep, hlaid, hshows, hallocated, hfreed, hdestroyed⟩ := h
  obtain ⟨m₁, W₁, hloop, ht₁⟩ := foldlM_clearBucket hlaid hrep ⟨des, ptr⟩ le_rfl
  rw [← Laid.owned_eq] at ht₁
  have harray : t.buckets ∉ t.owned W :=
    (List.nodup_cons.mp (hlaid.starts.nodup_iff.mp hlaid.nodup)).1
  obtain ⟨m', hfree, ht'⟩ :=
    ccFree_torn ⟨des, ptr⟩ ht₁.represents (ht₁.hasBlock hlaid.array harray)
  have ht := ht₁.trans ht'
  have hall : ∀ a, a ∈ m.starts ↔ a ∈ t.owned W ++ [t.buckets] := fun a => by
    rw [hlaid.starts.mem_iff, (List.perm_append_singleton _ _).mem_iff]
  refine ⟨T, m', hT, ?_, ?_, ?_, hallocated.nodup_iff.mpr hlaid.nodup, ?_, ?_⟩
  · rw [cctableIter_eq hlaid hrep, cctableIter_shows hshows]
  · rw [cctableDeinit, hloop, Option.bind_some, hfree, Option.map_some]
  · rw [ht.destroyed, hdestroyed, List.nil_append, List.append_nil,
      ← map_snd_cctableIter hshows, calls, List.map_map]
    rfl
  · rw [ht.freed, hfreed, List.nil_append]
    exact ((List.perm_append_singleton _ _).trans hlaid.starts.symm).trans hallocated.symm
  · rw [ht.blocks, List.filter_eq_nil_iff]
    intro b hb hnot
    exact of_decide_eq_true hnot ((hall b.start).mp (List.mem_map_of_mem hb))

/-- Three objects under two keys, the first of which has a list of two. -/
theorem cctableDeinit_exactly_once_three : ∃ s₀ s m',
    cctableInit (memBefore ⟨fun _ => 7, fun _ => 7, fun _ => 7, fun _ => 7⟩
      (fun _ => ⟨[], List.not_mem_nil⟩) fun _ => 7) 2 true 1000 = some s₀ ∧
    insertAll s₀ [⟨⟨[97], by decide⟩, 10, 2000, 3000⟩, ⟨⟨[98], by decide⟩, 20, 2100, 3100⟩,
      ⟨⟨[97], by decide⟩, 30, 2200, 3200⟩] = some s ∧
    cctableDeinit s.1 s.2 5000 6000 =
        some (m', { s.2 with capacity := 0, size := 0, buckets := null }) ∧
    m'.rest.destroyed = [(20, 6000), (30, 6000), (10, 6000)] ∧ m'.freed.Perm s.1.allocated := by
  have hsome : ((cctableInit (memBefore ⟨fun _ => 7, fun _ => 7, fun _ => 7, fun _ => 7⟩
      (fun _ => ⟨[], List.not_mem_nil⟩) fun _ => 7) 2 true 1000).bind fun s₀ =>
      insertAll s₀ [⟨⟨[97], by decide⟩, 10, 2000, 3000⟩, ⟨⟨[98], by decide⟩, 20, 2100, 3100⟩,
        ⟨⟨[97], by decide⟩, 30, 2200, 3200⟩]).isSome = true := by
    decide +kernel
  obtain ⟨s, hs⟩ := Option.isSome_iff_exists.mp hsome
  obtain ⟨s₀, hinit, hinsert⟩ := Option.bind_eq_some_iff.mp hs
  obtain ⟨T, m', hT, -, hdeinit, hdestroyed, -, hfreed, -⟩ :=
    cctableDeinit_exactly_once (by decide) hinit hinsert 5000 6000
  have hiter : (HashTable.insertAll (HashTable.cctableInit 2 true) [(⟨[97], by decide⟩, 10),
      (⟨[98], by decide⟩, 20), (⟨[97], by decide⟩, 30)]).map HashTable.cctableIter =
        some [(⟨[98], by decide⟩, 20), (⟨[97], by decide⟩, 30), (⟨[97], by decide⟩, 10)] := by
    decide +kernel
  have hT : HashTable.insertAll (HashTable.cctableInit 2 true) [(⟨[97], by decide⟩, 10),
      (⟨[98], by decide⟩, 20), (⟨[97], by decide⟩, 30)] = some T := hT
  rw [hT, Option.map_some, Option.some.injEq] at hiter
  rw [hiter] at hdestroyed
  exact ⟨s₀, s, m', hinit, hinsert, hdeinit, hdestroyed, hfreed⟩

end InMemory
end HashTable
end CCore
