import HyperionRuntime.Slab.Frame

/-!
# The HNSW index over the slab allocator

`HNSWIndex::Insert` allocates an `HNSWNode` from the slab allocator, writes its fields, and
links it with the entry point, the first node inserted, in both directions while each side has
fewer than sixteen neighbours. The abstract model `Abs` is the allocator's abstract heap with the
graph as a list of nodes in insertion order (`Graph.insert`); `Holds` says that the bytes hold
both. Each `Insert` keeps `Holds` (`Holds.insert`), so over any run the allocator keeps its heap
and every node lies in the payload of its own used block (`Holds.insertAll`). The graph is a
star (`Graph.Star`): the entry point lists the first sixteen nodes inserted after it and every
other node lists the entry point alone, so from the seventeenth node after the entry point on
the link is one-way. A failed allocation drops the node, and every later one with it
(`Abs.insertAll_of_full`). `insertAll_star` puts this together for a new index.
-/

namespace HyperionRuntime.Index
open Slab (SlabAllocator Heap)

/-- `sizeof(HNSWNode)`: `id` at `0`, `vector_offset` at `8`, `neighbor_count` at `16` and
`neighbors[16]` at `24`. -/
def nodeSize : Nat := 152

/-- An `HNSWIndex`: the allocator its nodes live in, and `m_entry_point_offset`. -/
structure HNSWIndex where
  allocator : SlabAllocator
  entryPointOffset : Nat

namespace HNSWIndex

/-- The constructor `HNSWIndex(allocator)`: no entry point yet. -/
def create (allocator : SlabAllocator) : HNSWIndex := ⟨allocator, 0⟩

/-- `node->id = id; node->vector_offset = vector_offset; node->neighbor_count = 0;` -/
def initNode (m : Mem) (node id vectorOffset : Nat) : Mem :=
  ((m.storeLE node 4 id).store (node + 8) vectorOffset).storeLE (node + 16) 4 0

/-- `if (node->neighbor_count < 16) node->neighbors[node->neighbor_count++] = v;` -/
def addNeighbor (m : Mem) (node v : Nat) : Mem :=
  let count := m.loadLE (node + 16) 4
  if count < 16 then (m.store (node + 24 + 8 * count) v).storeLE (node + 16) 4 (count + 1) else m

/-- The writes of `Insert` after `Allocate` returned the node at `nodeOffset`: the node's fields,
then the links with the entry point, or the node becomes the entry point. -/
def link (a : SlabAllocator) (entry nodeOffset id vectorOffset : Nat) : HNSWIndex :=
  let m := initNode a.mem nodeOffset id vectorOffset
  if entry ≠ 0 then ⟨{ a with mem := addNeighbor (addNeighbor m entry nodeOffset) nodeOffset entry }, entry⟩
  else ⟨{ a with mem := m }, nodeOffset⟩

theorem link_of_ne_zero {a : SlabAllocator} {entry : Nat} (h : entry ≠ 0) (nodeOffset id vectorOffset : Nat) :
    link a entry nodeOffset id vectorOffset = ⟨{ a with mem := addNeighbor (addNeighbor
      (initNode a.mem nodeOffset id vectorOffset) entry nodeOffset) nodeOffset entry }, entry⟩ :=
  if_pos h

theorem region_link (a : SlabAllocator) (entry nodeOffset id vectorOffset : Nat) :
    (link a entry nodeOffset id vectorOffset).allocator.region = a.region := by
  unfold link; split <;> exact SlabAllocator.region_with_mem _ _

/-- `Insert(id, vector_offset, vec_data)`, with `fuel` for the allocator's first-fit walk;
`vec_data` is not read. A failed allocation returns at once. -/
def insert (idx : HNSWIndex) (fuel id vectorOffset : Nat) : Option HNSWIndex :=
  match idx.allocator.allocate nodeSize fuel with
  | none => none
  | some (a, nodeOffset) =>
    if nodeOffset = 0 then some { idx with allocator := a }
    else some (link a idx.entryPointOffset nodeOffset id vectorOffset)

/-- `Insert` writes no field of the allocator that only `Init` writes. -/
theorem region_insert {idx idx' : HNSWIndex} {fuel id vectorOffset : Nat}
    (h : idx.insert fuel id vectorOffset = some idx') : idx'.allocator.region = idx.allocator.region := by
  unfold insert at h
  split at h
  · cases h
  · next a p hal =>
    have hreg := SlabAllocator.region_of_allocate _ hal
    split_ifs at h <;> cases h
    · exact hreg
    · exact (region_link ..).trans hreg

/-- A run of `Insert` calls, each given as its `id` and `vector_offset`. -/
def insertAll (idx : HNSWIndex) (fuel : Nat) : List (Nat × Nat) → Option HNSWIndex
  | [] => some idx
  | (id, vo) :: ops => (idx.insert fuel id vo).bind fun idx' => idx'.insertAll fuel ops

theorem region_insertAll {fuel : Nat} :
    ∀ {ops : List (Nat × Nat)} {idx idx' : HNSWIndex}, idx.insertAll fuel ops = some idx' →
      idx'.allocator.region = idx.allocator.region
  | [], _, _, h => by cases h; rfl
  | (_, _) :: _, _, _, h => by
    obtain ⟨_, h₁, h'⟩ := Option.bind_eq_some.1 h
    exact (region_insertAll h').trans (region_insert h₁)

end HNSWIndex

/-! ## The abstract graph -/

/-- A node as the index holds it: its offset, `id`, `vector_offset` and neighbours. -/
structure Node where
  offset : Nat
  id : Nat
  vectorOffset : Nat
  neighbors : List Nat
deriving DecidableEq, Repr

namespace Graph

/-- What `Insert` does to the graph, nodes in insertion order: the first node inserted is the
entry point; a later node gets the entry point as its neighbour, and the entry point gets the
new node while it has fewer than sixteen. -/
def insert : List Node → Nat → Nat → Nat → List Node
  | [], o, id, vo => [⟨o, id, vo, []⟩]
  | e :: rest, o, id, vo =>
    { e with neighbors := if e.neighbors.length < 16 then e.neighbors ++ [o] else e.neighbors } ::
      (rest ++ [⟨o, id, vo, [e.offset]⟩])

/-- The star a run of insertions builds. -/
def Star : List Node → Prop
  | [] => True
  | e :: rest => e.neighbors = (rest.take 16).map Node.offset ∧ ∀ r ∈ rest, r.neighbors = [e.offset]

theorem star_insert {g : List Node} (hg : Star g) (o id vo : Nat) : Star (insert g o id vo) := by
  cases g with
  | nil => exact ⟨rfl, by simp⟩
  | cons e rest =>
    obtain ⟨he, hr⟩ := hg
    refine ⟨?_, fun r hr' => ?_⟩
    · dsimp only
      rw [he]
      by_cases h : rest.length < 16
      · rw [List.take_of_length_le (by omega : rest.length ≤ 16), List.take_of_length_le (by simp; omega),
          if_pos (by simpa using h), List.map_append]; rfl
      · rw [List.take_append_of_le_length (by omega), if_neg (by simp; omega)]
    · rcases List.mem_append.1 hr' with h | h
      · exact hr r h
      · rw [List.mem_singleton.1 h]

/-- The offsets of the nodes, in insertion order. -/
theorem map_offset_insert (g : List Node) (o id vo : Nat) :
    (insert g o id vo).map Node.offset = g.map Node.offset ++ [o] := by
  cases g <;> simp [insert]

/-- The `id`s and `vector_offset`s of the nodes, in insertion order. -/
theorem map_fields_insert (g : List Node) (o id vo : Nat) :
    (insert g o id vo).map (fun x => (x.id, x.vectorOffset)) = g.map (fun x => (x.id, x.vectorOffset)) ++ [(id, vo)] := by
  cases g <;> simp [insert]

end Graph

/-! ## The bytes of a node -/

/-- The bytes at `x.offset` hold node `x`. -/
structure NodeAt (m : Mem) (x : Node) : Prop where
  id_eq : m.loadLE x.offset 4 = x.id % 2 ^ 32
  vectorOffset_eq : m.load (x.offset + 8) = x.vectorOffset % 2 ^ 64
  count_eq : m.loadLE (x.offset + 16) 4 = x.neighbors.length
  neighbor_eq : ∀ k v, x.neighbors[k]? = some v → m.load (x.offset + 24 + 8 * k) = v % 2 ^ 64
  length_le : x.neighbors.length ≤ 16

section Bytes
variable {m m' : Mem} {x : Node} {P : Nat → Prop}

/-- A node none of whose bytes is touched stays. -/
theorem NodeAt.of_touches (hx : NodeAt m x) (ht : Mem.Touches m m' P) (hlt : x.offset + nodeSize ≤ 2 ^ 64)
    (hP : ∀ j, x.offset ≤ j → j < x.offset + nodeSize → ¬P j) : NodeAt m' x := by
  unfold nodeSize at hlt hP
  have := hx.length_le
  refine ⟨?_, ?_, ?_, fun k v hk => ?_, this⟩
  · rw [ht.loadLE_eq (by omega) fun j h₁ h₂ => hP j h₁ (by omega), hx.id_eq]
  · rw [ht.load_eq (by omega) fun j h₁ h₂ => hP j (by omega) (by omega), hx.vectorOffset_eq]
  · rw [ht.loadLE_eq (by omega) fun j h₁ h₂ => hP j (by omega) (by omega), hx.count_eq]
  · have := (List.getElem?_eq_some_iff.1 hk).1
    rw [ht.load_eq (by omega) fun j h₁ h₂ => hP j (by omega) (by omega), hx.neighbor_eq k v hk]

theorem touches_initNode (m : Mem) {p : Nat} (id vo : Nat) (hp : p + 20 ≤ 2 ^ 64) :
    Mem.Touches m (HNSWIndex.initNode m p id vo) fun j => p ≤ j ∧ j < p + 20 :=
  (((Mem.touches_storeLE m id (by omega)).trans (Mem.touches_store _ vo (by omega))).trans
    (Mem.touches_storeLE _ 0 (by omega))).mono fun _ _ h => by omega

/-- The three field writes of `Insert` make a node with no neighbours. -/
theorem nodeAt_initNode (m : Mem) {p : Nat} (id vo : Nat) (hp : p + 20 ≤ 2 ^ 64) :
    NodeAt (HNSWIndex.initNode m p id vo) ⟨p, id, vo, []⟩ := by
  have ht₂ := Mem.touches_storeLE ((m.storeLE p 4 id).store (p + 8) vo) 0 (a := p + 16) (n := 4)
    (by omega)
  refine ⟨?_, ?_, ?_, fun k v hk => by simp at hk, Nat.zero_le _⟩ <;> dsimp only
  · rw [HNSWIndex.initNode, ht₂.loadLE_eq (by omega) fun j _ _ => by omega,
      ((Mem.touches_store _ vo (by omega)).loadLE_eq (by omega) fun j _ _ => by omega),
      Mem.loadLE_storeLE_self (by omega)]; rfl
  · rw [HNSWIndex.initNode, ht₂.load_eq (by omega) fun j _ _ => by omega, Mem.load_store_self]
  · rw [HNSWIndex.initNode, Mem.loadLE_storeLE_self (by omega)]; rfl

theorem addNeighbor_of_lt {o v n : Nat} (hc : m.loadLE (o + 16) 4 = n) (h : n < 16) :
    HNSWIndex.addNeighbor m o v = (m.store (o + 24 + 8 * n) v).storeLE (o + 16) 4 (n + 1) := by
  simp only [HNSWIndex.addNeighbor, hc, if_pos h]

theorem addNeighbor_of_le {o v : Nat} (hc : 16 ≤ m.loadLE (o + 16) 4) : HNSWIndex.addNeighbor m o v = m := by
  simp only [HNSWIndex.addNeighbor, if_neg (Nat.not_lt.2 hc)]

theorem touches_addNeighbor (m : Mem) {o : Nat} (v : Nat) (ho : o + nodeSize ≤ 2 ^ 64) :
    Mem.Touches m (HNSWIndex.addNeighbor m o v) fun j => o + 16 ≤ j ∧ j < o + nodeSize := by
  unfold nodeSize at ho ⊢
  rcases Nat.lt_or_ge (m.loadLE (o + 16) 4) 16 with h | h
  · rw [addNeighbor_of_lt rfl h]
    exact ((Mem.touches_store m v (by omega)).trans (Mem.touches_storeLE _ _ (by omega))).mono
      fun _ _ h' => by omega
  · rw [addNeighbor_of_le h]; exact Mem.Touches.refl _ _

/-- `Insert`'s link: the node gains `v` while it has fewer than sixteen neighbours. -/
theorem NodeAt.addNeighbor (hx : NodeAt m x) (ho : x.offset + nodeSize ≤ 2 ^ 64) (v : Nat) :
    NodeAt (HNSWIndex.addNeighbor m x.offset v)
      { x with neighbors := if x.neighbors.length < 16 then x.neighbors ++ [v] else x.neighbors } := by
  have ht := touches_addNeighbor m v ho
  have hl := hx.length_le
  unfold nodeSize at ho ht
  have hid := (ht.loadLE_eq (by omega) fun j _ _ => by omega).trans hx.id_eq
  have hvo := (ht.load_eq (by omega) fun j _ _ => by omega).trans hx.vectorOffset_eq
  split_ifs with h
  · rw [addNeighbor_of_lt hx.count_eq h] at hid hvo ⊢
    have ht' := Mem.touches_storeLE (m.store (x.offset + 24 + 8 * x.neighbors.length) v)
      (x.neighbors.length + 1) (a := x.offset + 16) (n := 4) (by omega)
    refine ⟨hid, hvo, ?_, fun k w hk => ?_, by simp; omega⟩
    · rw [Mem.loadLE_storeLE_self (by omega), List.length_append, List.length_singleton]
      exact Nat.mod_eq_of_lt (by omega)
    · dsimp only at hk ⊢
      have hk' := (List.getElem?_eq_some_iff.1 hk).1
      rw [List.length_append, List.length_singleton] at hk'
      rw [ht'.load_eq (by omega) fun j _ _ => by omega]
      rcases getElem?_concat_eq_some hk with hk | ⟨rfl, rfl⟩
      · have := (List.getElem?_eq_some_iff.1 hk).1
        rw [Mem.load_store_of_disjoint _ _ (by omega) (by omega) (by omega), hx.neighbor_eq k w hk]
      · exact Mem.load_store_self _ _ _
  · rw [addNeighbor_of_le (hx.count_eq ▸ Nat.not_lt.1 h)]; exact hx

end Bytes

/-- The abstract index: the allocator's abstract heap and the graph. -/
structure Abs where
  heap : Heap
  nodes : List Node

/-- `Insert` on the abstract index: the heap allocates a node, and a nonzero payload offset
joins the graph. -/
def Abs.insert (A : Abs) (id vo : Nat) : Abs :=
  if (A.heap.allocate nodeSize).2 = 0 then ⟨(A.heap.allocate nodeSize).1, A.nodes⟩
  else ⟨(A.heap.allocate nodeSize).1, Graph.insert A.nodes (A.heap.allocate nodeSize).2 id vo⟩

/-- A run of abstract insertions. -/
def Abs.insertAll (A : Abs) (ops : List (Nat × Nat)) : Abs := ops.foldl (fun A op => A.insert op.1 op.2) A

/-- Every abstract run from an empty graph builds a star. -/
theorem Abs.star_insertAll (A : Abs) (hA : Graph.Star A.nodes) :
    ∀ ops : List (Nat × Nat), Graph.Star (A.insertAll ops).nodes
  | [] => hA
  | (id, vo) :: ops => by
    refine Abs.star_insertAll (A.insert id vo) ?_ ops
    unfold Abs.insert
    split_ifs
    · exact hA
    · exact Graph.star_insert hA _ _ _

/-- Once a node cannot be allocated, nothing changes any more: the heap stays as it was, so
every later `Insert` fails too. -/
theorem Abs.insertAll_of_full {A : Abs} (hA : (A.heap.allocate nodeSize).2 = 0) :
    ∀ ops : List (Nat × Nat), A.insertAll ops = A
  | [] => rfl
  | (id, vo) :: ops => by
    have h₁ : A.insert id vo = A := by
      unfold Abs.insert; rw [if_pos hA, Slab.Heap.allocate_fst_of_snd_eq_zero hA]
    show (A.insert id vo).insertAll ops = A
    rw [h₁]; exact Abs.insertAll_of_full hA ops

/-- The nodes a run adds hold the `id`s and `vector_offset`s of a prefix of the run, and a
shorter prefix than the whole run means a node can no longer be allocated. -/
theorem Abs.fields_insertAll : ∀ (A : Abs) (ops : List (Nat × Nat)), ∃ k,
    (A.insertAll ops).nodes.map (fun x => (x.id, x.vectorOffset)) =
      A.nodes.map (fun x => (x.id, x.vectorOffset)) ++ ops.take k ∧
    (k < ops.length → ((A.insertAll ops).heap.allocate nodeSize).2 = 0)
  | A, [] => ⟨0, by simp [Abs.insertAll]⟩
  | A, (id, vo) :: ops => by
    by_cases hA : (A.heap.allocate nodeSize).2 = 0
    · exact ⟨0, by simp [Abs.insertAll_of_full hA, hA]⟩
    obtain ⟨k, hk, hfull⟩ := Abs.fields_insertAll (A.insert id vo) ops
    have h₁ : (A.insert id vo).nodes = Graph.insert A.nodes (A.heap.allocate nodeSize).2 id vo := by
      unfold Abs.insert; rw [if_neg hA]
    refine ⟨k + 1, ?_, fun hk' => hfull (by simpa using hk')⟩
    show ((A.insert id vo).insertAll ops).nodes.map _ = _
    rw [hk, h₁, Graph.map_fields_insert]
    simp

/-! ## The bytes hold the abstract index -/

/-- The bytes of the index hold the abstract index `A`: the allocator holds `A.heap`, which
satisfies the heap invariant; the entry point is the first node; the nodes lie at distinct
offsets, each `64` past the header of a used block of at least `320` bytes, the rounded size of
an `HNSWNode`; and each node's bytes hold its fields. -/
structure Holds (idx : HNSWIndex) (A : Abs) : Prop where
  repr : Slab.Repr idx.allocator A.heap
  inv : Heap.Inv idx.allocator.firstBlockOffset idx.allocator.heapEnd A.heap
  entry_eq : idx.entryPointOffset = (A.nodes.head?.map Node.offset).getD 0
  nodup : (A.nodes.map Node.offset).Nodup
  block : ∀ x ∈ A.nodes, ∃ u ∈ A.heap.blocks, u.free = false ∧ x.offset = u.offset + 64 ∧ 320 ≤ u.size
  nodeAt : ∀ x ∈ A.nodes, NodeAt idx.allocator.mem x

section Holds
variable {idx : HNSWIndex} {A : Abs} {s : SlabAllocator} {h : Heap} {first e : Nat}

/-- The heap invariant reads the allocator's fields, not its bytes. -/
theorem inv_with_mem (H : Heap.Inv s.firstBlockOffset s.heapEnd h) (m : Mem) :
    Heap.Inv { s with mem := m }.firstBlockOffset { s with mem := m }.heapEnd h := H

/-- A node's bytes lie in its block's payload. -/
theorem node_bounds {x : Node} {u : Slab.Block} (hx : x.offset = u.offset + 64) (hu : 320 ≤ u.size) :
    x.offset + nodeSize + 8 ≤ u.offset + u.size := by unfold nodeSize; omega

/-- The nodes of two blocks at different offsets do not overlap. -/
theorem node_apart {bs : List Slab.Block} (H : Slab.Layout first e bs) {u v : Slab.Block} (hu : u ∈ bs)
    (hv : v ∈ bs) (huv : u.offset ≠ v.offset) (hus : 320 ≤ u.size) (hvs : 320 ≤ v.size) :
    u.offset + 64 + nodeSize ≤ v.offset + 64 ∨ v.offset + 64 + nodeSize ≤ u.offset + 64 := by
  have := H.disjoint hu hv fun h => huv (h ▸ rfl); unfold nodeSize; omega

theorem NodeAt.of_touches_apart {m m' : Mem} {x : Node} (hx : NodeAt m x) {a b : Nat}
    (ht : Mem.Touches m m' fun j => a ≤ j ∧ j < b) (hlt : x.offset + nodeSize ≤ 2 ^ 64)
    (hapart : x.offset + nodeSize ≤ a ∨ b ≤ x.offset) : NodeAt m' x :=
  hx.of_touches ht hlt fun _ _ _ _ => by omega

/-- `Allocate` keeps the nodes: their blocks are used, so their bytes stay. -/
theorem Holds.allocate (H : Holds idx A) {fuel p : Nat} (hfuel : A.heap.freeList.length < fuel)
    (hal : idx.allocator.allocate nodeSize fuel = some (s, p))
    (hR : Slab.Repr s (A.heap.allocate nodeSize).1) :
    Holds ⟨s, idx.entryPointOffset⟩ ⟨(A.heap.allocate nodeSize).1, A.nodes⟩ := by
  have hreg := SlabAllocator.region_of_allocate _ hal
  refine ⟨hR, ?_, H.entry_eq, H.nodup, fun x hx => ?_, fun x hx => ?_⟩
  · rw [SlabAllocator.firstBlockOffset_of_region hreg, SlabAllocator.heapEnd_of_region hreg]
    exact H.inv.allocate (by decide)
  · obtain ⟨u, hu, huf, hxu, hus⟩ := H.block x hx
    exact ⟨u, Heap.mem_allocate_of_used H.inv _ hu huf, huf, hxu, hus⟩
  · obtain ⟨u, hu, huf, hxu, hus⟩ := H.block x hx
    have := node_bounds hxu hus
    have := H.inv.lt hu
    exact (H.nodeAt x hx).of_touches (Slab.allocate_touches H.repr H.inv (by decide) hfuel hal)
      (by omega) fun j h₁ h₂ => H.inv.not_inFree hu huf (by omega) (by omega)

/-- The first node becomes the entry point. -/
theorem Holds.link_first {entry : Nat} (H : Holds ⟨s, entry⟩ ⟨h, []⟩) {c : Slab.Block} (hc : c ∈ h.blocks)
    (hcu : c.free = false) (hcs : 320 ≤ c.size) (id vo : Nat) :
    Holds (HNSWIndex.link s entry (c.offset + 64) id vo) ⟨h, Graph.insert [] (c.offset + 64) id vo⟩ := by
  obtain rfl : entry = 0 := H.entry_eq
  have := H.inv.lt hc
  have ht := touches_initNode s.mem id vo (p := c.offset + 64) (by omega)
  refine ⟨H.repr.of_touches_payload H.inv hc hcu (ht.mono fun j _ hj => ⟨hj.1, by omega⟩),
    inv_with_mem H.inv _, rfl,
    List.nodup_singleton _, fun x hx => ?_, fun x hx => ?_⟩ <;> obtain rfl := List.mem_singleton.1 hx
  · exact ⟨c, hc, hcu, rfl, hcs⟩
  · exact nodeAt_initNode _ _ _ (by omega)

/-- A later node links with the entry point `e`: `e` gains it while `e` has fewer than sixteen
neighbours, and it gets `e`. -/
theorem Holds.link_entry {entry : Nat} {e : Node} {rest : List Node} (H : Holds ⟨s, entry⟩ ⟨h, e :: rest⟩)
    {c : Slab.Block} (hc : c ∈ h.blocks) (hcu : c.free = false) (hcs : 320 ≤ c.size)
    (hfresh : ∀ x ∈ e :: rest, x.offset ≠ c.offset + 64) (id vo : Nat) :
    Holds (HNSWIndex.link s entry (c.offset + 64) id vo) ⟨h, Graph.insert (e :: rest) (c.offset + 64) id vo⟩ := by
  obtain rfl : entry = e.offset := H.entry_eq
  have hns : nodeSize = 152 := rfl
  have hlt := H.inv.lt hc
  -- every node lies apart from the new one, and below `2 ^ 64`
  have hnode : ∀ x ∈ e :: rest, x.offset + nodeSize ≤ 2 ^ 64 ∧
      (x.offset + nodeSize ≤ c.offset + 64 ∨ c.offset + 64 + nodeSize ≤ x.offset) := fun x hx => by
    obtain ⟨u, hu, -, hxu, hus⟩ := H.block x hx
    have := node_bounds hxu hus; have := H.inv.lt hu
    have := node_apart H.inv.toLayout hu hc (fun h => hfresh x hx (by omega)) hus hcs
    omega
  obtain ⟨ue, hue, hueu, heu, hues⟩ := H.block e (List.mem_cons_self _ _)
  have he0 : e.offset ≠ 0 := by omega
  have hbe := node_bounds heu hues
  have hbc : c.offset + 64 + nodeSize + 8 ≤ c.offset + c.size := node_bounds (x := ⟨c.offset + 64, id, vo, []⟩) rfl hcs
  have hne := hnode e (List.mem_cons_self _ _)
  -- the three steps of the bytes
  have ht₁ := touches_initNode s.mem id vo (p := c.offset + 64) (by omega)
  have ht₂ := touches_addNeighbor (HNSWIndex.initNode s.mem (c.offset + 64) id vo) (c.offset + 64) hne.1
  have ht₃ := touches_addNeighbor (HNSWIndex.addNeighbor (HNSWIndex.initNode s.mem (c.offset + 64) id vo)
    e.offset (c.offset + 64)) (o := c.offset + 64) e.offset (by omega)
  have hrest : ∀ x ∈ rest, NodeAt (HNSWIndex.addNeighbor (HNSWIndex.addNeighbor
      (HNSWIndex.initNode s.mem (c.offset + 64) id vo) e.offset (c.offset + 64)) (c.offset + 64) e.offset) x :=
    fun x hx => by
      have hxn := hnode x (List.mem_cons_of_mem _ hx)
      obtain ⟨u, hu, -, hxu, hus⟩ := H.block x (List.mem_cons_of_mem _ hx)
      have hxe : x.offset ≠ e.offset := fun h => (List.nodup_cons.1 H.nodup).1 (h ▸ List.mem_map_of_mem _ hx)
      have := node_apart H.inv.toLayout hu hue (by omega) hus hues
      exact (((H.nodeAt x (List.mem_cons_of_mem _ hx)).of_touches_apart ht₁ hxn.1 (by omega)).of_touches_apart
        ht₂ hxn.1 (by omega)).of_touches_apart ht₃ hxn.1 (by omega)
  rw [HNSWIndex.link_of_ne_zero he0]
  refine ⟨?_, inv_with_mem H.inv _, rfl, ?_, fun x hx => ?_, fun x hx => ?_⟩
  · exact ((H.repr.of_touches_payload H.inv hc hcu (ht₁.mono fun j _ hj => ⟨hj.1, by omega⟩)).of_touches_payload_mem
      H.inv hue hueu (ht₂.mono fun j _ hj => ⟨by omega, by omega⟩)).of_touches_payload_mem H.inv hc hcu
      (ht₃.mono fun j _ hj => ⟨by omega, by omega⟩)
  · have hp : c.offset + 64 ∉ (e :: rest).map Node.offset := fun h => by
      obtain ⟨x, hx, hxo⟩ := List.mem_map.1 h; exact hfresh x hx hxo
    rw [Graph.map_offset_insert]
    exact List.nodup_append.2 ⟨H.nodup, List.nodup_singleton _, List.disjoint_singleton.2 hp⟩
  · simp only [Graph.insert, List.mem_cons, List.mem_append, List.not_mem_nil, or_false] at hx
    rcases hx with rfl | hx | rfl
    · exact ⟨ue, hue, hueu, heu, hues⟩
    · exact H.block x (List.mem_cons_of_mem _ hx)
    · exact ⟨c, hc, hcu, rfl, hcs⟩
  · dsimp only
    simp only [Graph.insert, List.mem_cons, List.mem_append, List.not_mem_nil, or_false] at hx
    rcases hx with rfl | hx | rfl
    · exact ((H.nodeAt e (List.mem_cons_self _ _)).of_touches_apart ht₁ hne.1 (by omega)).addNeighbor
        hne.1 _ |>.of_touches_apart ht₃ hne.1 (hne.2.imp (fun h => Nat.le_trans h (Nat.le_add_right _ _)) fun h => h)
    · exact hrest x hx
    · have hb : c.offset + 64 + nodeSize ≤ 2 ^ 64 := by omega
      simpa using ((nodeAt_initNode s.mem id vo (p := c.offset + 64) (by omega)).of_touches_apart ht₂ hb
        (hne.2.symm.imp (fun h => Nat.le_trans h (Nat.le_add_right _ _)) fun h => h)).addNeighbor hb e.offset

/-- The rounded size of an `HNSWNode`. -/
theorem requiredTotalSize_nodeSize : SlabAllocator.requiredTotalSize nodeSize = 320 := by
  rw [SlabAllocator.requiredTotalSize_eq (by decide)]; rfl

/-- Each `Insert` keeps the bytes holding the abstract index, given more fuel than the free list
is long. -/
theorem Holds.insert (H : Holds idx A) {fuel : Nat} (hfuel : A.heap.freeList.length < fuel) (id vo : Nat) :
    ∃ idx', idx.insert fuel id vo = some idx' ∧ Holds idx' (A.insert id vo) := by
  obtain ⟨s', hal, hR, -⟩ := Slab.allocate_refines H.repr H.inv (n := nodeSize) (by decide) hfuel
  have H₁ := H.allocate hfuel hal hR
  unfold HNSWIndex.insert Abs.insert
  rw [hal]
  dsimp only
  by_cases hp : (A.heap.allocate nodeSize).2 = 0
  · rw [if_pos hp, if_pos hp]
    exact ⟨_, rfl, H₁⟩
  rw [if_neg hp, if_neg hp]
  obtain ⟨c, hc, hcu, hpc, hcs⟩ := (H.inv.allocate_payload nodeSize).resolve_left hp
  rw [requiredTotalSize_nodeSize] at hcs
  obtain ⟨c₀, hc₀, hc₀f, hpc₀⟩ := H.inv.allocate_fresh hp
  have hfresh : ∀ x ∈ A.nodes, x.offset ≠ c.offset + 64 := fun x hx hxo => by
    obtain ⟨u, hu, huf, hxu, -⟩ := H.block x hx
    have := H.inv.disjoint hu hc₀ fun h => by rw [h, hc₀f] at huf; cases huf
    have := H.inv.size_pos hu; have := H.inv.size_pos hc₀
    omega
  rw [hpc]
  refine ⟨_, rfl, ?_⟩
  obtain ⟨heap, nodes⟩ := A
  cases nodes with
  | nil => exact H₁.link_first hc hcu hcs id vo
  | cons e rest => exact H₁.link_entry hc hcu hcs hfresh id vo

/-- A new index over bytes that hold a heap satisfying the invariant holds an empty graph. -/
theorem Holds.create {s : SlabAllocator} (hs : Slab.Repr s h) (H : Heap.Inv s.firstBlockOffset s.heapEnd h) :
    Holds (HNSWIndex.create s) ⟨h, []⟩ :=
  ⟨hs, H, rfl, List.nodup_nil, fun _ hx => absurd hx (List.not_mem_nil _),
    fun _ hx => absurd hx (List.not_mem_nil _)⟩

/-- Every run of `Insert` calls with `2 ^ 64` fuel keeps the bytes holding the abstract run. -/
theorem Holds.insertAll {fuel : Nat} (hfuel : 2 ^ 64 ≤ fuel) :
    ∀ (ops : List (Nat × Nat)) {idx : HNSWIndex} {A : Abs}, Holds idx A →
      ∃ idx', idx.insertAll fuel ops = some idx' ∧ Holds idx' (A.insertAll ops)
  | [], idx, _, H => ⟨idx, rfl, H⟩
  | (id, vo) :: ops, _, _, H => by
    obtain ⟨idx₁, h₁, H₁⟩ := H.insert (Nat.lt_of_lt_of_le H.inv.length_freeList_lt hfuel) id vo
    obtain ⟨idx', h', H'⟩ := Holds.insertAll hfuel ops H₁
    exact ⟨idx', by rw [HNSWIndex.insertAll, h₁, Option.some_bind, h'], H'⟩

end Holds

/-! ## Runs of `Insert` -/

/-- Every run of `Insert` calls with `2 ^ 64` fuel on a new index over an allocator that
satisfies the heap invariant returns, and keeps the invariant. The nodes it leaves in the
bytes hold the `id`s and `vector_offset`s of a prefix of the run, at distinct offsets, each the
payload of a used block; when the prefix is shorter than the run, allocating another node
returns `0` and changes nothing. The entry point is the first node, and the nodes form a star:
the entry point lists the first sixteen nodes inserted after it, and every later node lists the
entry point alone. -/
theorem insertAll_star {s : SlabAllocator} (I : s.HeapInv) {fuel : Nat} (hfuel : 2 ^ 64 ≤ fuel)
    (ops : List (Nat × Nat)) :
    ∃ idx', (HNSWIndex.create s).insertAll fuel ops = some idx' ∧ idx'.allocator.HeapInv ∧
      ∃ nodes : List Node, nodes.map (fun x => (x.id, x.vectorOffset)) <+: ops ∧
        (nodes.length < ops.length →
          idx'.allocator.allocate nodeSize fuel = some (idx'.allocator, 0)) ∧
        (nodes.map Node.offset).Nodup ∧ idx'.entryPointOffset = (nodes.head?.map Node.offset).getD 0 ∧
        (∀ x ∈ nodes, NodeAt idx'.allocator.mem x ∧ idx'.allocator.UsedPayload x.offset) ∧
        Graph.Star nodes := by
  obtain ⟨hR, h, hs, H⟩ := I
  obtain ⟨idx', hrun, H'⟩ := Holds.insertAll hfuel ops (Holds.create hs H)
  obtain ⟨k, hk, hfull⟩ := Abs.fields_insertAll ⟨h, []⟩ ops
  rw [List.map_nil, List.nil_append] at hk
  refine ⟨idx', hrun, ⟨hR.of_region (HNSWIndex.region_insertAll hrun), _, H'.repr, H'.inv⟩, _,
    hk ▸ List.take_prefix k ops, fun hlt => ?_, H'.nodup, H'.entry_eq,
    fun x hx => ⟨H'.nodeAt x hx, ?_⟩, Abs.star_insertAll ⟨h, []⟩ trivial ops⟩
  · have hlen := congrArg List.length hk
    rw [List.length_map, List.length_take] at hlen
    obtain ⟨s', hal, -, hsame⟩ := Slab.allocate_refines H'.repr H'.inv (n := nodeSize) (by decide)
      (Nat.lt_of_lt_of_le H'.inv.length_freeList_lt hfuel)
    have h0 := hfull (by omega)
    rw [hal, h0, hsame h0]
  · obtain ⟨u, hu, huf, hxu, -⟩ := H'.block x hx
    exact ⟨_, H'.repr, H'.inv, u, hu, huf, hxu⟩

theorem insertAll_star_example :
    (SlabAllocator.create 64 1024 64 0 fun _ => 0).HeapInv ∧
      ∃ idx', (HNSWIndex.create (SlabAllocator.create 64 1024 64 0 fun _ => 0)).insertAll (2 ^ 64)
          [(1, 4096), (2, 8192)] = some idx' ∧ idx'.allocator.HeapInv ∧
        ∃ nodes : List Node, nodes.map (fun x => (x.id, x.vectorOffset)) <+: [(1, 4096), (2, 8192)] ∧
          (nodes.length < [(1, 4096), (2, 8192)].length →
            idx'.allocator.allocate nodeSize (2 ^ 64) = some (idx'.allocator, 0)) ∧
          (nodes.map Node.offset).Nodup ∧ idx'.entryPointOffset = (nodes.head?.map Node.offset).getD 0 ∧
          (∀ x ∈ nodes, NodeAt idx'.allocator.mem x ∧ idx'.allocator.UsedPayload x.offset) ∧
          Graph.Star nodes :=
  ⟨Slab.create_example_heapInv.1, insertAll_star Slab.create_example_heapInv.1 le_rfl _⟩

end HyperionRuntime.Index
