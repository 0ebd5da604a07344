import HyperionRuntime.Slab.Correctness
import Mathlib.Data.List.Perm.Subperm

/-!
# What `Allocate` and `Free` write

A client of the allocator keeps its data in the payloads of the blocks it was given. Neither
call ever writes there: `Allocate` writes only bytes of blocks that were free
(`allocate_touches`), and `Free(p)` only bytes of the freed block and of blocks that were free
(`free_touches`). So every other used block, header, payload and footer, reads the same
afterwards (`allocate_keeps_used`, `free_keeps_used`). Conversely, what a client writes inside
a payload keeps the heap (`Repr.of_touches_payload`).
-/

namespace HyperionRuntime.Slab
open BlockHeader Heap

/-- The bytes of the free blocks of `bs`. -/
def InFree (bs : List Block) (j : Nat) : Prop :=
  ∃ c ∈ bs, c.free = true ∧ c.offset ≤ j ∧ j < c.offset + c.size

/-- The payload of a block, `[offset + sizeof(BlockHeader), offset + size - sizeof(BlockFooter))`:
the bytes that `Allocate` hands out. -/
def Block.InPayload (c : Block) (j : Nat) : Prop := c.offset + 64 ≤ j ∧ j + 8 < c.offset + c.size

section Bytes
variable {first e : Nat} {h : Heap} {c : Block} {x j : Nat}

/-- The header and footer words lie in the block. -/
theorem Block.inWords_bounds (hj : c.InWords j) (h8 : 8 ≤ c.size) : c.offset ≤ j ∧ j < c.offset + c.size := by
  unfold Block.InWords at hj; omega

theorem inFree_of_le {bs : List Block} (hc : c ∈ bs) (hcf : c.free = true) (h₁ : c.offset ≤ j)
    (h₂ : j < c.offset + c.size) : InFree bs j := ⟨c, hc, hcf, h₁, h₂⟩

/-- The `FreeNode` of an offset on the free list lies in a free block. -/
theorem Heap.Inv.inFree_of_inNode (H : Inv first e h) (hx : x ∈ h.freeList) (hj : InNode x j) :
    InFree h.blocks j := by
  obtain ⟨c, hc, rfl, hcf⟩ := (H.mem_freeList x).1 hx
  have := (H.valid c hc).size_ge
  exact inFree_of_le hc hcf (by unfold InNode at hj; omega) (by unfold InNode at hj; omega)

/-- A byte of a used block `u` is no byte of a free block. -/
theorem Layout.not_inFree {bs : List Block} (H : Layout first e bs) {u : Block} (hu : u ∈ bs)
    (huf : u.free = false) (h₁ : u.offset ≤ j) (h₂ : j < u.offset + u.size) : ¬InFree bs j := by
  rintro ⟨c, hc, hcf, h₃, h₄⟩
  have := H.disjoint hc hu (by rintro rfl; simp [hcf] at huf)
  omega

end Bytes

/-! ## `Allocate` -/

section Allocate
variable {s : SlabAllocator} {first e : Nat} {pre post : List Block} {c : Block} {fl : List Nat}

/-- The split path writes the two new blocks' words, which lie in `c`, and the `FreeNode`s of
the remainder and of `c`'s neighbours on the list. -/
theorem touches_split (hs : Repr s ⟨pre ++ c :: post, fl⟩) (H : Inv first e ⟨pre ++ c :: post, fl⟩)
    (hc : c.free = true) {R : Nat} (h64 : R % 64 = 0) (h88 : 88 ≤ R) (hrem : 64 + 64 + 8 ≤ c.size - R) :
    Mem.Touches s.mem (s.split c.offset R (c.size - R)).mem (InFree (pre ++ c :: post)) := by
  have H' := (H.split hc h64 h88 hrem).toLayout
  have hlt := H.lt (c := c) (by simp)
  have hcm : c ∈ pre ++ c :: post := by simp
  have hfl : ∀ x ∈ fl, ∃ d ∈ pre ++ ⟨c.offset, R, false⟩ ::
      ⟨c.offset + R, c.size - R, true⟩ :: post, d.offset = x := by
    intro x hx
    obtain ⟨d, hd, rfl, -⟩ := (H.mem_freeList x).1 hx
    rcases mem_split_iff.1 hd with rfl | hd
    · exact ⟨⟨d.offset, R, false⟩, by simp, rfl⟩
    · exact ⟨d, mem_split_iff.2 (.inr (mem_split_iff.2 (.inr hd))), rfl⟩
  have hc₁ : (⟨c.offset, R, false⟩ : Block) ∈ pre ++ ⟨c.offset, R, false⟩ ::
      ⟨c.offset + R, c.size - R, true⟩ :: post := by simp
  have hc₂ : (⟨c.offset + R, c.size - R, true⟩ : Block) ∈ pre ++ ⟨c.offset, R, false⟩ ::
      ⟨c.offset + R, c.size - R, true⟩ :: post := by simp
  have hw₁ : (s.store c.offset (set R false)).updateFooter c.offset =
      (s.store c.offset (set R false)).store (c.offset + R - 8) (set R false) :=
    store_updateFooter s (c := ⟨c.offset, R, false⟩) (H'.valid _ hc₁).size_even (by dsimp only; omega)
      (H'.lt hc₁)
  have hw₂ (t : SlabAllocator) : (t.store (c.offset + R) (set (c.size - R) true)).updateFooter
      (c.offset + R) = (t.store (c.offset + R) (set (c.size - R) true)).store
        (c.offset + R + (c.size - R) - 8) (set (c.size - R) true) :=
    store_updateFooter t (c := ⟨c.offset + R, c.size - R, true⟩) (H'.valid _ hc₂).size_even
      (by dsimp only; omega) (H'.lt hc₂)
  have ht₁ : Mem.Touches s.mem (((s.store c.offset (set R false)).updateFooter c.offset).store
      (c.offset + R) (set (c.size - R) true) |>.updateFooter (c.offset + R)).mem fun j =>
        (⟨c.offset, R, false⟩ : Block).InWords j ∨ (⟨c.offset + R, c.size - R, true⟩ : Block).InWords j := by
    simp only [hw₂, hw₁, SlabAllocator.store_mem]
    exact (touches_writeBlock s.mem (c := ⟨c.offset, R, false⟩) (H'.lt hc₁) (by dsimp only; omega)
      _).trans (touches_writeBlock _ (c := ⟨c.offset + R, c.size - R, true⟩) (H'.lt hc₂)
        (by dsimp only; omega) _)
  have hf₂ : FreeList (((s.store c.offset (set R false)).updateFooter c.offset).store (c.offset + R)
      (set (c.size - R) true) |>.updateFooter (c.offset + R)).mem s.freeListHeadOffset fl := by
    simp only [hw₂, hw₁, SlabAllocator.store_mem]
    exact (hs.freeList.writeBlock (c := ⟨c.offset, R, false⟩) H' hc₁ hfl).writeBlock
      (c := ⟨c.offset + R, c.size - R, true⟩) H' hc₂ hfl
  have hold : c.offset ∈ fl := (H.mem_freeList _).2 ⟨c, hcm, rfl, hc⟩
  have hnew : c.offset + R ∉ fl := H.not_mem_freeList_of_inside hcm (by omega) (by omega)
  have hsep := H'.nodesApart (L := (c.offset + R) :: fl) fun x hx =>
    (List.mem_cons.1 hx).elim (fun h => ⟨_, hc₂, h.symm⟩) (hfl x)
  simp only [SlabAllocator.split, add64_of_lt (by omega : c.offset + R < 2 ^ 64)]
  refine (ht₁.trans (SlabAllocator.touches_spliceNode hf₂ hsep hold hnew (by omega))).mono fun j _ hj => ?_
  rcases hj with (hj | hj) | hj | ⟨h0, hj⟩ | ⟨h0, hj⟩
  · have := Block.inWords_bounds hj (by dsimp only; omega); dsimp only at this
    exact inFree_of_le hcm hc (by omega) (by omega)
  · have := Block.inWords_bounds hj (by dsimp only; omega); dsimp only at this
    exact inFree_of_le hcm hc (by omega) (by omega)
  · exact inFree_of_le hcm hc (by unfold InNode at hj; omega) (by unfold InNode at hj; omega)
  · exact H.inFree_of_inNode (prevIn_mem h0) hj
  · exact H.inFree_of_inNode (nextIn_mem h0) hj

/-- The whole-block path writes `c`'s header and footer and the `FreeNode`s of `c`'s
neighbours on the list. -/
theorem touches_useWhole (hs : Repr s ⟨pre ++ c :: post, fl⟩) (H : Inv first e ⟨pre ++ c :: post, fl⟩)
    (hc : c.free = true) :
    Mem.Touches s.mem (s.useWhole c.offset).mem (InFree (pre ++ c :: post)) := by
  have H' := H.useWhole.toLayout
  have hcm : c ∈ pre ++ c :: post := by simp
  have hc' : (⟨c.offset, c.size, false⟩ : Block) ∈ pre ++ ⟨c.offset, c.size, false⟩ :: post := by simp
  have hlt := H.lt hcm
  have h88 := (H.valid c hcm).size_ge
  have hfl : ∀ x ∈ fl, ∃ d ∈ pre ++ ⟨c.offset, c.size, false⟩ :: post, d.offset = x := by
    intro x hx
    obtain ⟨d, hd, rfl, -⟩ := (H.mem_freeList x).1 hx
    rcases mem_split_iff.1 hd with rfl | hd
    · exact ⟨_, hc', rfl⟩
    · exact ⟨d, mem_split_iff.2 (.inr hd), rfl⟩
  have ht₀ : Mem.Touches s.mem (s.store c.offset (set (s.load c.offset) false)).mem
      (⟨c.offset, c.size, false⟩ : Block).InWords :=
    (Mem.touches_store _ _ (by omega)).mono fun j _ h => .inl h
  have hf₀ : FreeList (s.store c.offset (set (s.load c.offset) false)).mem s.freeListHeadOffset fl :=
    hs.freeList.of_touches ht₀ (H'.nodesApart hfl).lt fun x hx j hj => by
      obtain ⟨d, hd, rfl⟩ := hfl x hx; exact H'.node_not_inWords hc' hd hj
  have hmem : c.offset ∈ fl := (H.mem_freeList _).2 ⟨c, hcm, rfl, hc⟩
  have hword : set (s.load c.offset) false = (⟨c.offset, c.size, false⟩ : Block).word := by
    rw [SlabAllocator.load, (hs.words c hcm).1]; simp [Block.word]
  have hload : ((s.store c.offset (set (s.load c.offset) false)).removeFromFreeList c.offset).load
      c.offset = (⟨c.offset, c.size, false⟩ : Block).word := by
    refine (load_removeFromFreeList hf₀ H' hfl hmem hc').trans ?_
    rw [SlabAllocator.load, SlabAllocator.store_mem, Mem.load_store_self, hword]
    exact Nat.mod_eq_of_lt (Block.word_lt (c := ⟨c.offset, c.size, false⟩) (by dsimp only; omega))
  have ht₂ : ∀ t : SlabAllocator, t.load c.offset = (⟨c.offset, c.size, false⟩ : Block).word →
      Mem.Touches t.mem ((t.store c.offset (set (t.load c.offset) false)).updateFooter c.offset).mem
        (⟨c.offset, c.size, false⟩ : Block).InWords := fun t ht => by
    rw [ht, show set (Block.word ⟨c.offset, c.size, false⟩) false = Block.word ⟨c.offset, c.size, false⟩
      from set_set _ _ _, store_updateFooter t (H'.valid _ hc').size_even (by dsimp only; omega) (H'.lt hc')]
    exact touches_writeBlock t.mem (c := ⟨c.offset, c.size, false⟩) (H'.lt hc') (by dsimp only; omega) _
  refine ((ht₀.trans (SlabAllocator.FreeList.touches_removeFromFreeList hf₀ (H'.nodesApart hfl)
    hmem)).trans (ht₂ _ hload)).mono fun j _ hj => ?_
  rcases hj with (hj | ⟨h0, hj⟩ | ⟨h0, hj⟩) | hj
  · have := Block.inWords_bounds hj (by dsimp only; omega); dsimp only at this
    exact inFree_of_le hcm hc this.1 this.2
  · exact H.inFree_of_inNode (prevIn_mem h0) hj
  · exact H.inFree_of_inNode (nextIn_mem h0) hj
  · have := Block.inWords_bounds hj (by dsimp only; omega); dsimp only at this
    exact inFree_of_le hcm hc this.1 this.2

/-- On bytes holding a heap, the first-fit walk finds the first offset of the free list whose
block is large enough, given more fuel than the list is long. -/
theorem firstFit_of_repr {h : Heap} (hs : Repr s h) (H : Inv first e h) (R : Nat) {fuel : Nat}
    (hfuel : h.freeList.length < fuel) :
    s.firstFit R fuel s.freeListHeadOffset = some ((h.freeList.find? fun x => R ≤ h.sizeAt x).getD 0) := by
  have hsize : ∀ x ∈ h.freeList, getSize (s.load x) = h.sizeAt x := fun x hx => by
    obtain ⟨pre, c, post, hbs, rfl, -, hloc⟩ := H.mem_blocks hx
    have hc : c ∈ h.blocks := by simp [hbs]
    rw [SlabAllocator.load, (hs.words c hc).1, Block.getSize_word (H.valid c hc).size_even]
    simp [sizeAt, hloc]
  rw [hs.freeList.head_eq, SlabAllocator.firstFit_eq _ hs.freeList.nodup hs.freeList.zero_not_mem
    hs.freeList.next_eq hfuel, find?_congr fun x hx => by rw [hsize x hx]]

/-- `Allocate` writes only bytes of blocks that were free. -/
theorem allocate_touches {h : Heap} (hs : Repr s h) (H : Inv first e h) {n fuel p : Nat}
    {s' : SlabAllocator} (hn : n ≤ 2 ^ 64 - 192) (hfuel : h.freeList.length < fuel)
    (ha : s.allocate n fuel = some (s', p)) :
    Mem.Touches s.mem s'.mem (InFree h.blocks) := by
  unfold SlabAllocator.allocate at ha
  split_ifs at ha with hn0
  · cases ha; exact Mem.Touches.refl _ _
  have hR := SlabAllocator.requiredTotalSize_eq hn
  dsimp only at ha
  rw [firstFit_of_repr hs H _ hfuel] at ha
  cases hf : h.freeList.find? fun x => SlabAllocator.requiredTotalSize n ≤ h.sizeAt x with
  | none =>
    simp only [hf, Option.getD_none, if_true, Option.some.injEq, Prod.mk.injEq] at ha
    rw [← ha.1]; exact Mem.Touches.refl _ _
  | some x =>
    obtain ⟨bs, fl⟩ := h
    obtain ⟨pre, c, post, hbs, rfl, hcf, hloc⟩ := H.mem_blocks (List.mem_of_find?_eq_some hf)
    simp only at hbs hloc; subst hbs
    have hcm : c ∈ pre ++ c :: post := by simp
    have hsz : getSize (s.load c.offset) = c.size := by
      rw [SlabAllocator.load, (hs.words c hcm).1, Block.getSize_word (H.valid c hcm).size_even]
    have hfit : SlabAllocator.requiredTotalSize n ≤ c.size := by
      simpa [sizeAt, hloc] using List.find?_some hf
    simp only [hf, Option.getD_some, (H.valid c hcm).offset_pos.ne', if_false, hsz] at ha
    split_ifs at ha with hsplit
    · obtain ⟨rfl, -⟩ := Prod.mk.inj (Option.some.inj ha)
      exact touches_split hs H hcf (by omega) (by omega) hsplit
    · obtain ⟨rfl, -⟩ := Prod.mk.inj (Option.some.inj ha)
      exact touches_useWhole hs H hcf

/-- So `Allocate` of every size below the wrap, on bytes holding a heap that satisfies the
invariant and with more fuel than the free list is long, returns and keeps every used block,
header, payload and footer, byte for byte. -/
theorem allocate_keeps_used {h : Heap} (hs : Repr s h) (H : Inv first e h) {n fuel : Nat}
    (hn : n ≤ 2 ^ 64 - 192) (hfuel : h.freeList.length < fuel) :
    ∃ s' p, s.allocate n fuel = some (s', p) ∧ Mem.Touches s.mem s'.mem (InFree h.blocks) ∧
      ∀ u ∈ h.blocks, u.free = false → ∀ j, u.offset ≤ j → j < u.offset + u.size → s'.mem j = s.mem j := by
  obtain ⟨s', hal, -, -⟩ := allocate_refines hs H hn hfuel
  have ht := allocate_touches hs H hn hfuel hal
  exact ⟨s', _, hal, ht, fun u hu huf j h₁ h₂ => ht j (by have := H.lt hu; omega) (H.not_inFree hu huf h₁ h₂)⟩

theorem allocate_keeps_used_example :
    ∃ t₁ t₂, (SlabAllocator.create 64 1024 64 0 fun _ => 0).allocate 1 2 = some (t₁, 128) ∧
      t₁.allocate 1 2 = some (t₂, 320) ∧
      ∃ s' p, t₂.allocate 1 2 = some (s', p) ∧
        Mem.Touches t₂.mem s'.mem (InFree [⟨64, 192, false⟩, ⟨256, 192, false⟩, ⟨448, 640, true⟩]) ∧
        ∀ u ∈ ([⟨64, 192, false⟩, ⟨256, 192, false⟩, ⟨448, 640, true⟩] : List Block), u.free = false →
          ∀ j, u.offset ≤ j → j < u.offset + u.size → s'.mem j = t₂.mem j := by
  obtain ⟨t₁, t₂, hal₁, hal₂, -, -, -, -, hs, H⟩ := create_example_allocate_twice
  exact ⟨t₁, t₂, hal₁, hal₂, allocate_keeps_used hs H (by decide) (show [448].length < 2 by decide)⟩

/-- `Allocate` keeps every used block of the abstract heap. -/
theorem Heap.mem_allocate_of_used {h : Heap} (H : Inv first e h) (n : Nat) {u : Block} (hu : u ∈ h.blocks)
    (huf : u.free = false) : u ∈ (h.allocate n).1.blocks := by
  unfold Heap.allocate Heap.allocateRequired
  split_ifs; · exact hu
  split; · exact hu
  next x hx =>
  obtain ⟨pre, c, post, hbs, rfl, hcf, hloc⟩ := H.mem_blocks (List.mem_of_find?_eq_some hx)
  have hu' : u ∈ pre ++ post := (mem_split_iff.1 (hbs ▸ hu)).resolve_left fun h => by
    simp [h, hcf] at huf
  simp only [hloc]
  split_ifs <;> simp only [List.mem_append, List.mem_cons] at hu' ⊢ <;> tauto

/-- A nonzero payload offset of `Allocate` is `64` past a block that was free. -/
theorem Heap.Inv.allocate_fresh {h : Heap} (H : Inv first e h) {n : Nat} (hp : (h.allocate n).2 ≠ 0) :
    ∃ c ∈ h.blocks, c.free = true ∧ (h.allocate n).2 = c.offset + 64 := by
  unfold Heap.allocate Heap.allocateRequired at *
  split_ifs at * with hn
  · exact absurd rfl hp
  cases hx : h.freeList.find? fun x => SlabAllocator.requiredTotalSize n ≤ h.sizeAt x with
  | none => simp [hx] at hp
  | some x =>
    obtain ⟨pre, c, post, hbs, rfl, hcf, hloc⟩ := H.mem_blocks (List.mem_of_find?_eq_some hx)
    refine ⟨c, by simp [hbs], hcf, ?_⟩
    simp only [hx, hloc]
    split_ifs <;> rfl

/-- An `Allocate` that returns `0` leaves the heap as it was. -/
theorem Heap.allocate_fst_of_snd_eq_zero {h : Heap} {n : Nat} (hp : (h.allocate n).2 = 0) :
    (h.allocate n).1 = h := by
  revert hp
  unfold Heap.allocate Heap.allocateRequired
  split_ifs; · exact fun _ => rfl
  split; · exact fun _ => rfl
  split; · exact fun _ => rfl
  split_ifs <;> intro hp <;> simp at hp

/-- The free list holds distinct offsets below the end of the heap, so fewer than `2 ^ 64`:
that much fuel always lets the first-fit walk reach the end. -/
theorem Heap.Inv.length_freeList_lt {h : Heap} (H : Inv first e h) : h.freeList.length < 2 ^ 64 := by
  have hsub : h.freeList ⊆ List.range e := fun x hx => by
    obtain ⟨c, hc, rfl, -⟩ := (H.mem_freeList x).1 hx
    have := H.bounds hc; have := H.size_pos hc
    exact List.mem_range.2 (by omega)
  have := (H.nodup.subperm hsub).length_le
  rw [List.length_range] at this
  have := H.end_lt
  omega

/-! ## What a client writes -/

/-- A client's writes inside the payload of a used block keep the heap. -/
theorem Repr.of_touches_payload {h : Heap} (hs : Repr s h) (H : Inv first e h) {u : Block}
    (hu : u ∈ h.blocks) (huf : u.free = false) {m : Mem} (ht : Mem.Touches s.mem m u.InPayload) :
    Repr { s with mem := m } h := by
  have hout : ∀ d ∈ h.blocks, ∀ j, d.offset ≤ j → j < d.offset + d.size →
      (d = u → j < u.offset + 64 ∨ u.offset + u.size ≤ j + 8) → ¬u.InPayload j := by
    intro d hd j h₁ h₂ hdu hp
    unfold Block.InPayload at hp
    by_cases hdu' : d = u
    · rcases hdu hdu' with h | h <;> omega
    · have := H.disjoint hd hu hdu'; omega
  refine ⟨hs.words.of_touches ht H.words_lt fun d hd j hj => ?_,
    hs.freeList.of_touches ht (H.nodesApart fun x hx => ?_).lt fun x hx j hj => ?_⟩
  · have := (H.valid d hd).size_ge
    refine hout d hd j (Block.inWords_bounds hj (by omega)).1 (Block.inWords_bounds hj (by omega)).2
      fun hdu => ?_
    subst hdu; unfold Block.InWords at hj; omega
  · obtain ⟨c, hc, rfl, -⟩ := (H.mem_freeList x).1 hx; exact ⟨c, hc, rfl⟩
  · obtain ⟨c, hc, rfl, hcf⟩ := (H.mem_freeList x).1 hx
    have := (H.valid c hc).size_ge
    unfold InNode at hj
    exact hout c hc j (by omega) (by omega) fun hcu => by subst hcu; simp [hcf] at huf

/-- The same for a state whose bytes were already replaced: successive client writes. -/
theorem Repr.of_touches_payload_mem {h : Heap} {m m' : Mem} (hs : Repr { s with mem := m } h)
    (H : Inv first e h) {u : Block} (hu : u ∈ h.blocks) (huf : u.free = false)
    (ht : Mem.Touches m m' u.InPayload) : Repr { s with mem := m' } h :=
  hs.of_touches_payload H hu huf ht

end Allocate

/-! ## `Free` -/

section Free
variable {s : SlabAllocator} {first e : Nat} {pre post : List Block} {b : Block} {fl : List Nat}

/-- The block `mergeRight` leaves lies in `b` and the blocks it swallowed, which were free. -/
theorem Freed.inFree_mergeRight (F : Freed first e pre b post fl) {j : Nat}
    (hj : InFree (pre ++ (Heap.mergeRight b fl post).1 :: (Heap.mergeRight b fl post).2.1) j) :
    InFree (pre ++ b :: post) j := by
  obtain ⟨c, hc, hcf, h₁, h₂⟩ := hj
  have hbm : b ∈ pre ++ b :: post := by simp
  rcases post with _ | ⟨r, rest⟩
  · rcases mem_split_iff.1 hc with rfl | hc
    · exact inFree_of_le hbm F.free h₁ h₂
    · exact ⟨c, mem_split_iff.2 (.inr hc), hcf, h₁, h₂⟩
  have hr' : r.offset = b.offset + b.size := (tiles_middle.1 F.layout.tiles).2.1
  cases hrf : r.free
  · simp only [Heap.mergeRight, hrf] at hc
    rcases mem_split_iff.1 hc with rfl | hc
    · exact inFree_of_le hbm F.free h₁ h₂
    · exact ⟨c, mem_split_iff.2 (.inr hc), hcf, h₁, h₂⟩
  simp only [Heap.mergeRight, hrf, if_true] at hc
  rcases mem_split_iff.1 hc with rfl | hc
  · by_cases hj : j < b.offset + b.size
    · exact inFree_of_le hbm F.free h₁ hj
    · dsimp only at h₁ h₂
      exact inFree_of_le (c := r) (by simp) hrf (by omega) (by omega)
  · simp only [List.mem_append] at hc
    exact ⟨c, by simp only [List.mem_append, List.mem_cons]; tauto, hcf, h₁, h₂⟩

theorem mem_of_mem_mergeRight {x : Nat} (hx : x ∈ (mergeRight b fl post).2.2) : x ∈ fl := by
  rcases post with _ | ⟨r, rest⟩
  · exact hx
  · by_cases hrf : r.free
    · simp only [Heap.mergeRight, hrf, if_true] at hx; exact List.mem_of_mem_erase hx
    · simpa [Heap.mergeRight, hrf] using hx

/-- The right-coalesce step writes the `FreeNode`s of the list neighbours of the block it
swallows, and the words of the merged block. -/
theorem touches_coalesceRight (hs : Repr s ⟨pre ++ b :: post, fl⟩) (F : Freed first e pre b post fl)
    (hB : Bounds s first e) (hr : ∀ r ∈ post.head?, r.free = true → r.offset ∈ fl) :
    Mem.Touches s.mem (s.coalesceRight b.offset (b.offset + b.size)).mem fun j =>
      InFree (pre ++ b :: post) j ∨ ∃ x ∈ fl, InNode x j := by
  have H := F.layout
  have hbm : b ∈ pre ++ b :: post := by simp
  have hbb := H.bounds hbm
  have hvb := H.valid b hbm
  have hnext := (tiles_middle.1 H.tiles).2
  have he := H.end_lt
  have hb88 : 88 ≤ b.size := hvb.size_ge
  unfold SlabAllocator.coalesceRight
  split_ifs with hcond
  swap; · exact Mem.Touches.refl _ _
  rcases post with _ | ⟨r, rest⟩
  · rw [hB.end_eq] at hcond; simp only [tiles_nil] at hnext; omega
  obtain ⟨hr', -⟩ := hnext
  have hrm : r ∈ pre ++ b :: r :: rest := by simp
  have hrb := H.bounds hrm
  have hvr := H.valid r hrm
  have hr88 : 88 ≤ r.size := hvr.size_ge
  have hrw : s.load (b.offset + b.size) = r.word := hr' ▸ (hs.words r hrm).1
  have hrf : r.free = true := by simpa [hrw] using hcond.2.2
  have hrfl : r.offset ∈ fl := hr r rfl hrf
  have hl₁ : (s.removeFromFreeList r.offset).load b.offset = b.word :=
    (load_removeFromFreeList hs.freeList H F.starts_of hrfl hbm).trans (hs.words b hbm).1
  have hl₂ : (s.removeFromFreeList r.offset).load r.offset = r.word :=
    (load_removeFromFreeList hs.freeList H F.starts_of hrfl hrm).trans (hs.words r hrm).1
  have hsz : add64 (getSize b.word) (getSize r.word) = b.size + r.size := by
    rw [Block.getSize_word hvb.size_even, Block.getSize_word hvr.size_even, add64_of_lt (by omega)]
  have hc : (⟨b.offset, b.size + r.size, true⟩ : Block).size % 2 = 0 := by
    have := hvb.size_even; have := hvr.size_even; dsimp only; omega
  rw [← hr']
  simp only [hl₁, hl₂, hsz, Block.isFree_word, F.free]
  rw [show set (b.size + r.size) true = Block.word ⟨b.offset, b.size + r.size, true⟩ from rfl,
    store_updateFooter _ hc (by dsimp only; omega) (by dsimp only; omega), SlabAllocator.store_mem,
    SlabAllocator.store_mem]
  refine ((SlabAllocator.FreeList.touches_removeFromFreeList hs.freeList (H.nodesApart F.starts_of)
    hrfl).trans (touches_writeBlock _ (c := ⟨b.offset, b.size + r.size, true⟩) (by dsimp only; omega)
      (by dsimp only; omega) _)).mono fun j _ hj => ?_
  rcases hj with (⟨h0, hj⟩ | ⟨h0, hj⟩) | hj
  · exact .inr ⟨_, prevIn_mem h0, hj⟩
  · exact .inr ⟨_, nextIn_mem h0, hj⟩
  · -- the merged block's words lie in `b` or in `r`
    have := Block.inWords_bounds hj (by dsimp only; omega); dsimp only at this
    by_cases hj' : j < b.offset + b.size
    · exact .inl (inFree_of_le hbm F.free (by omega) hj')
    · exact .inl (inFree_of_le hrm hrf (by omega) (by omega))

/-- The left-coalesce step writes the words of the block it grows, a free left neighbour, or
else the `FreeNode`s of `b` and of the old head of the list. -/
theorem touches_coalesceLeft (hs : Repr s ⟨pre ++ b :: post, fl⟩) (F : Freed first e pre b post fl)
    (hB : Bounds s first e) :
    Mem.Touches s.mem (s.coalesceLeft b.offset).mem fun j =>
      InFree (pre ++ b :: post) j ∨ ∃ x ∈ fl, InNode x j := by
  have H := F.layout
  have hbm : b ∈ pre ++ b :: post := by simp
  have hbb := H.bounds hbm
  have hvb := H.valid b hbm
  have hb88 : 88 ≤ b.size := hvb.size_ge
  have he := H.end_lt
  have hhead : Mem.Touches s.mem (s.insertHead b.offset).mem fun j =>
      InFree (pre ++ b :: post) j ∨ ∃ x ∈ fl, InNode x j := by
    have hsep := H.nodesApart (L := b.offset :: fl) fun x hx =>
      (List.mem_cons.1 hx).elim (fun h => ⟨b, hbm, h.symm⟩) (F.starts_of x)
    refine (SlabAllocator.touches_insertHead hs.freeList hsep).mono fun j _ hj => ?_
    rcases hj with hj | ⟨h0, hj⟩
    · exact .inl (inFree_of_le hbm F.free (by unfold InNode at hj; omega) (by unfold InNode at hj; omega))
    · exact .inr ⟨_, (SlabAllocator.head_eq_zero_or_mem hs.freeList).resolve_left h0, hj⟩
  unfold SlabAllocator.coalesceLeft
  rcases List.eq_nil_or_concat pre with rfl | ⟨pre, l, rfl⟩
  · have : b.offset = first := (tiles_middle.1 H.tiles).1.symm
    rw [if_neg (by rw [hB.first_eq]; omega)]
    exact hhead
  simp only [List.concat_eq_append] at hs H hbm hhead ⊢
  obtain ⟨m, -, hlt⟩ := tiles_append.1 (tiles_middle.1 H.tiles).1
  simp only [tiles_cons, tiles_nil] at hlt
  obtain ⟨rfl, hlo⟩ := hlt
  have hlm : l ∈ pre ++ [l] ++ b :: post := by simp
  have hvl := H.valid l hlm
  have hl88 : 88 ≤ l.size := hvl.size_ge
  have hlb := H.bounds hlm
  have hlw : s.load (sub64 b.offset 8) = l.word := by
    rw [sub64_of_le (by omega) (by omega), ← hlo]; exact (hs.words l hlm).2
  cases hlf : l.free
  · rw [if_neg fun h => by simp [hlw, hlf] at h]
    exact hhead
  -- `b` joins its free left neighbour, whose words are the only ones written
  rw [if_pos ⟨by rw [hB.first_eq]; omega, by simp [hlw, hlf]⟩]
  have hprev : sub64 b.offset (getSize l.word) = l.offset := by
    rw [Block.getSize_word hvl.size_even, sub64_of_le (by omega) (by omega)]; omega
  have hwl : s.load l.offset = l.word := (hs.words l hlm).1
  have hwb : s.load b.offset = b.word := (hs.words b (by simp)).1
  have hsz : add64 (getSize l.word) (getSize b.word) = l.size + b.size := by
    rw [Block.getSize_word hvl.size_even, Block.getSize_word hvb.size_even, add64_of_lt (by omega)]
  have hc : (⟨l.offset, l.size + b.size, true⟩ : Block).size % 2 = 0 := by
    have := hvl.size_even; have := hvb.size_even; dsimp only; omega
  simp only [hlw, hprev, hwl, hwb, hsz, Block.isFree_word, hlf]
  rw [show set (l.size + b.size) true = Block.word ⟨l.offset, l.size + b.size, true⟩ from rfl,
    store_updateFooter _ hc (by dsimp only; omega) (by dsimp only; omega), SlabAllocator.store_mem,
    SlabAllocator.store_mem]
  refine (touches_writeBlock s.mem (c := ⟨l.offset, l.size + b.size, true⟩) (by dsimp only; omega)
    (by dsimp only; omega) _).mono fun j _ hj => ?_
  have := Block.inWords_bounds hj (by dsimp only; omega); dsimp only at this
  by_cases hj' : j < l.offset + l.size
  · exact .inl (inFree_of_le hlm hlf (by omega) hj')
  · exact .inl (inFree_of_le hbm F.free (by omega) (by omega))

/-- Once the header of a used block `b` says free, the state of `Free` holds. -/
theorem Heap.Inv.freed (H : Inv first e ⟨pre ++ b :: post, fl⟩) (hbu : b.free = false) :
    Freed first e pre ⟨b.offset, b.size, true⟩ post fl := by
  have hvb := H.valid b (by simp)
  have H₁ : Layout first e (pre ++ [⟨b.offset, b.size, true⟩] ++ post) :=
    (show Layout first e (pre ++ [b] ++ post) by simpa using H.toLayout).replace (fun _ _ ht => ht)
      fun d hd => by
        obtain rfl := List.mem_singleton.1 hd
        exact ⟨hvb.offset_pos, hvb.size_ge, hvb.size_even, hvb.aligned⟩
  refine ⟨by simpa using H₁, rfl, fun x hx => ?_, H.nodup⟩
  obtain ⟨c, hc, rfl, hcf⟩ := (H.mem_freeList x).1 hx
  rcases mem_split_iff.1 hc with rfl | hc
  · simp [hbu] at hcf
  · exact ⟨c, hc, rfl⟩

/-- `Free(p)` of the payload of a used block `b` writes only bytes of `b` and of blocks that
were free. -/
theorem free_touches {h : Heap} (hs : Repr s h) (H : Inv first e h) (hB : Bounds s first e)
    (hb : b ∈ h.blocks) (hbu : b.free = false) :
    Mem.Touches s.mem (s.free (b.offset + 64)).mem fun j =>
      (b.offset ≤ j ∧ j < b.offset + b.size) ∨ InFree h.blocks j := by
  obtain ⟨bs, fl⟩ := h
  obtain ⟨pre, post, rfl⟩ := List.append_of_mem hb
  have hvb := H.valid b hb
  have hbb := H.bounds hb
  have hb88 : 88 ≤ b.size := hvb.size_ge
  have he := H.end_lt
  have F₁ := H.freed hbu
  have hbm : (⟨b.offset, b.size, true⟩ : Block) ∈ pre ++ ⟨b.offset, b.size, true⟩ :: post := by simp
  have hbs : ∀ d ∈ pre ++ ⟨b.offset, b.size, true⟩ :: post, d = ⟨b.offset, b.size, true⟩ ∨
      d ∈ pre ++ b :: post ∧ d ∈ pre ++ ⟨b.offset, b.size, true⟩ :: post :=
    fun d hd => (mem_split_iff.1 hd).imp_right fun h => ⟨mem_split_iff.2 (.inr h), hd⟩
  have R₁ := hs.writeBlock F₁.layout hbm hbs F₁.starts_of
  have hB₁ : Bounds ((s.store b.offset (set b.size true)).updateFooter b.offset) first e :=
    hB.of_region (by simp)
  have hr : ∀ r ∈ post.head?, r.free = true → r.offset ∈ fl := fun r hr hrf =>
    (H.mem_freeList _).2 ⟨r, mem_split_iff.2 (.inr (List.mem_append_right _ (List.mem_of_mem_head? hr))),
      rfl, hrf⟩
  -- the three steps of `Free`, each confined
  have t₁ : Mem.Touches s.mem ((s.store b.offset (set b.size true)).updateFooter b.offset).mem
      (⟨b.offset, b.size, true⟩ : Block).InWords := by
    rw [show set b.size true = Block.word ⟨b.offset, b.size, true⟩ from rfl,
      store_updateFooter s (c := ⟨b.offset, b.size, true⟩) hvb.size_even (by dsimp only; omega)
        (F₁.layout.lt hbm), SlabAllocator.store_mem,
      SlabAllocator.store_mem]
    exact touches_writeBlock s.mem (F₁.layout.lt hbm) (by dsimp only; omega) _
  have t₂ := touches_coalesceRight R₁ F₁ hB₁ hr
  have t₃ := touches_coalesceLeft (R₁.coalesceRight F₁ hB₁ hr) F₁.mergeRight (hB₁.of_region (by simp))
  rw [mergeRight_fst_offset] at t₃
  have hwb₁ : ((s.store b.offset (set b.size true)).updateFooter b.offset).load b.offset =
      set b.size true := (R₁.words ⟨b.offset, b.size, true⟩ hbm).1
  have hstate : s.free (b.offset + 64) =
      (((s.store b.offset (set b.size true)).updateFooter b.offset).coalesceRight b.offset
        (b.offset + b.size)).coalesceLeft b.offset := by
    have hwb : s.load b.offset = b.word := (hs.words b hb).1
    have hev : b.size % 2 = 0 := hvb.size_even
    simp only [SlabAllocator.free, sub64_of_le (by omega : 64 ≤ b.offset + 64) (by omega),
      Nat.add_sub_cancel, hwb, Block.word, hbu, set_set, hwb₁, getSize_set, isFree_set, hev,
      Nat.sub_zero, add64_of_lt (by omega : b.offset + b.size < 2 ^ 64),
      if_neg (by omega : b.offset + 64 ≠ 0), Bool.false_eq_true, if_false]
  rw [hstate]
  -- every byte written lies in `b` or in a block that was free
  have hin : ∀ j, InFree (pre ++ ⟨b.offset, b.size, true⟩ :: post) j →
      (b.offset ≤ j ∧ j < b.offset + b.size) ∨ InFree (pre ++ b :: post) j := by
    rintro j ⟨c, hc, hcf, h₁, h₂⟩
    rcases mem_split_iff.1 hc with rfl | hc
    · exact .inl ⟨h₁, h₂⟩
    · exact .inr ⟨c, mem_split_iff.2 (.inr hc), hcf, h₁, h₂⟩
  refine ((t₁.trans t₂).trans t₃).mono fun j _ hj => ?_
  rcases hj with (hj | hj | ⟨x, hx, hj⟩) | hj | ⟨x, hx, hj⟩
  · have := Block.inWords_bounds hj (by dsimp only; omega); exact .inl this
  · exact hin j hj
  · exact .inr (H.inFree_of_inNode hx hj)
  · exact hin j (F₁.inFree_mergeRight hj)
  · exact .inr (H.inFree_of_inNode (mem_of_mem_mergeRight hx) hj)

/-- So `Free(p)` keeps every other used block, header, payload and footer, byte for byte. -/
theorem free_keeps_used {h : Heap} (hR : s.Region) (hs : Repr s h)
    (H : Inv s.firstBlockOffset s.heapEnd h) (hb : b ∈ h.blocks) (hbu : b.free = false) :
    Mem.Touches s.mem (s.free (b.offset + 64)).mem
        (fun j => (b.offset ≤ j ∧ j < b.offset + b.size) ∨ InFree h.blocks j) ∧
      ∀ u ∈ h.blocks, u.free = false → u ≠ b → ∀ j, u.offset ≤ j → j < u.offset + u.size →
        (s.free (b.offset + 64)).mem j = s.mem j := by
  have ht := free_touches hs H (hR.bounds H.end_lt) hb hbu
  refine ⟨ht, fun u hu huf hub j h₁ h₂ => ht j (by have := H.lt hu; omega) ?_⟩
  rintro (hj | hj)
  · have := H.disjoint hu hb hub; omega
  · exact H.not_inFree hu huf h₁ h₂ hj

theorem free_keeps_used_example :
    ∃ t₁ t₂, (SlabAllocator.create 64 1024 64 0 fun _ => 0).allocate 1 2 = some (t₁, 128) ∧
      t₁.allocate 1 2 = some (t₂, 320) ∧
      Mem.Touches t₂.mem (t₂.free (64 + 64)).mem (fun j => (64 ≤ j ∧ j < 64 + 192) ∨
          InFree [⟨64, 192, false⟩, ⟨256, 192, false⟩, ⟨448, 640, true⟩] j) ∧
        ∀ u ∈ ([⟨64, 192, false⟩, ⟨256, 192, false⟩, ⟨448, 640, true⟩] : List Block), u.free = false →
          u ≠ ⟨64, 192, false⟩ → ∀ j, u.offset ≤ j → j < u.offset + u.size →
            (t₂.free (64 + 64)).mem j = t₂.mem j := by
  obtain ⟨t₁, t₂, hal₁, hal₂, -, -, -, hR, hs, H⟩ := create_example_allocate_twice
  have := free_keeps_used hR hs H (b := ⟨64, 192, false⟩) (by decide) rfl
  dsimp only at this
  exact ⟨t₁, t₂, hal₁, hal₂, this⟩

end Free

end HyperionRuntime.Slab
