import HyperionRuntime.Slab.Heap

/-!
# Bytes that hold a heap

`Repr s h` says that the bytes of the allocator `s` hold the abstract heap `h`: each block's
word sits in its header and in its footer (`Words`), and `FreeList` threads the free list
through the `FreeNode`s. In a layout the `FreeNode` of a block lies between its header and
its footer (`Layout.node_not_inWords`), so writing a block's two words keeps the free list
(`FreeList.writeBlock`) and the free-list operations keep every header and footer
(`Repr.removeFromFreeList`, `Repr.insertHead`, `Repr.spliceNode`). `FreeListUpdate` collects
what `RemoveFromFreeList` and `InsertHead` do to a whole allocator state, and
`free_list_ops_frame` proves it for every well-formed list.
-/

namespace HyperionRuntime.Slab
open BlockHeader

/-! ## Words -/

@[simp] theorem BlockHeader.set_set (size : Nat) (f g : Bool) : set (set size f) g = set size g := by
  cases f <;> cases g <;> simp [set] <;> omega

namespace Block

theorem getSize_word {c : Block} (h : c.size % 2 = 0) : getSize c.word = c.size := by
  simp [word]; omega

@[simp] theorem isFree_word (c : Block) : isFree c.word = c.free := isFree_set _ _

theorem word_lt {c : Block} (h : c.size < 2 ^ 64) : c.word < 2 ^ 64 := set_lt h _

/-- The header word `[offset, offset + 8)` and the footer word `[offset + size - 8, offset + size)`. -/
def InWords (c : Block) (j : Nat) : Prop :=
  c.offset ≤ j ∧ j < c.offset + 8 ∨ c.offset + c.size - 8 ≤ j ∧ j < c.offset + c.size

end Block

/-- The header and the footer of each block of `bs` hold its word. -/
def Words (m : Mem) (bs : List Block) : Prop :=
  ∀ c ∈ bs, m.load c.offset = c.word ∧ m.load (c.offset + c.size - 8) = c.word

/-- The bytes of the allocator hold the abstract heap `h`. -/
structure Repr (s : SlabAllocator) (h : Heap) : Prop where
  words : Words s.mem h.blocks
  freeList : FreeList s.mem s.freeListHeadOffset h.freeList

section Frames
variable {m m' : Mem} {P : Nat → Prop} {bs : List Block} {head : Nat} {L : List Nat}

theorem Words.mono {bs' : List Block} (hw : Words m bs) (h : ∀ c ∈ bs', c ∈ bs) : Words m bs' :=
  fun c hc => hw c (h c hc)

theorem Words.of_touches (hw : Words m bs) (ht : Mem.Touches m m' P)
    (hlt : ∀ c ∈ bs, 16 ≤ c.size ∧ c.offset + c.size ≤ 2 ^ 64)
    (hP : ∀ c ∈ bs, ∀ j, c.InWords j → ¬P j) : Words m' bs := by
  intro c hc
  have := hlt c hc
  rw [ht.load_eq (by omega) fun j h₁ h₂ => hP c hc j (.inl ⟨h₁, h₂⟩),
    ht.load_eq (by omega) fun j h₁ h₂ => hP c hc j (.inr ⟨h₁, by omega⟩)]
  exact hw c hc

theorem FreeList.of_touches (hf : FreeList m head L) (ht : Mem.Touches m m' P)
    (hlt : ∀ x ∈ L, x + 80 ≤ 2 ^ 64) (hP : ∀ x ∈ L, ∀ j, InNode x j → ¬P j) :
    FreeList m' head L := by
  refine ⟨hf.nodup, hf.zero_not_mem, hf.head_eq, fun x hx => ?_, fun x hx => ?_⟩
  · have := hlt x hx
    rw [ht.load_eq (by omega) fun j h₁ h₂ => hP x hx j ⟨by omega, by omega⟩]
    exact hf.next_eq x hx
  · have := hlt x hx
    rw [ht.load_eq (by omega) fun j h₁ h₂ => hP x hx j ⟨by omega, by omega⟩]
    exact hf.prev_eq x hx

end Frames

/-! ## Layouts in memory -/

section Layout
variable {first e : Nat} {bs : List Block} {c d : Block} {L : List Nat}

theorem Layout.lt (H : Layout first e bs) (hc : c ∈ bs) : c.offset + c.size < 2 ^ 64 := by
  have := H.bounds hc; have := H.end_lt; omega

/-- A block's `FreeNode` lies between its header and its footer, and inside the block. -/
theorem Layout.node_not_inWords (H : Layout first e bs) (hc : c ∈ bs) (hd : d ∈ bs) {j : Nat}
    (hj : InNode d.offset j) : ¬c.InWords j := by
  have := (H.valid d hd).size_ge
  unfold InNode at hj
  unfold Block.InWords
  by_cases hcd : c = d
  · subst hcd; omega
  · have := H.disjoint hc hd hcd; omega

/-- The offsets of a layout's blocks have `FreeNode`s that lie apart. -/
theorem Layout.nodesApart (H : Layout first e bs) (hL : ∀ x ∈ L, ∃ c ∈ bs, c.offset = x) :
    NodesApart L := by
  refine ⟨fun x hx => ?_, fun x hx y hy hxy => ?_⟩
  · obtain ⟨c, hc, rfl⟩ := hL x hx
    have := H.lt hc; have := (H.valid c hc).size_ge; omega
  · obtain ⟨c, hc, rfl⟩ := hL x hx
    obtain ⟨d, hd, rfl⟩ := hL y hy
    have := (H.valid c hc).size_ge; have := (H.valid d hd).size_ge
    have := H.disjoint hc hd fun h => hxy (h ▸ rfl); omega

theorem Layout.inWords_disjoint (H : Layout first e bs) (hc : c ∈ bs) (hd : d ∈ bs) (hcd : c ≠ d)
    {j : Nat} (hj : c.InWords j) : ¬d.InWords j := by
  have := H.disjoint hc hd hcd; have := (H.valid c hc).size_ge; have := (H.valid d hd).size_ge
  unfold Block.InWords at hj ⊢; omega

theorem Layout.locate_eq {pre post : List Block} (H : Layout first e (pre ++ c :: post)) :
    Heap.locate c.offset (pre ++ c :: post) = some (pre, c, post) :=
  Heap.locate_of_tiles H.tiles fun _ hd => H.size_pos (by simp [hd])

/-- The words of a layout's blocks lie below `2 ^ 64` and hold a whole block each. -/
theorem Layout.words_lt (H : Layout first e bs) : ∀ c ∈ bs, 16 ≤ c.size ∧ c.offset + c.size ≤ 2 ^ 64 :=
  fun c hc => by have := H.lt hc; have := (H.valid c hc).size_ge; omega

end Layout

/-! ## Writing a block -/

section Write
variable {s : SlabAllocator} {m : Mem} {first e : Nat} {bs bs' L : List Block} {c : Block}
  {head : Nat} {fl : List Nat}

/-- The header-then-`UpdateFooter` pattern of the source writes the block's word twice. -/
theorem store_updateFooter (s : SlabAllocator) (hc : c.size % 2 = 0) (h8 : 8 ≤ c.size)
    (hlt : c.offset + c.size < 2 ^ 64) :
    (s.store c.offset c.word).updateFooter c.offset =
      (s.store c.offset c.word).store (c.offset + c.size - 8) c.word := by
  have hw := Block.word_lt (c := c) (by omega)
  simp only [SlabAllocator.updateFooter, SlabAllocator.getFooter, SlabAllocator.load,
    SlabAllocator.store_mem, Mem.load_store_self, Nat.mod_eq_of_lt hw, Block.getSize_word hc,
    sub64_of_le (by omega : 8 ≤ c.offset + c.size) hlt]

theorem touches_writeBlock (m : Mem) (hlt : c.offset + c.size < 2 ^ 64) (h8 : 8 ≤ c.size) (v : Nat) :
    Mem.Touches m ((m.store c.offset v).store (c.offset + c.size - 8) v) c.InWords :=
  ((Mem.touches_store m v (by omega)).trans (Mem.touches_store _ v (by omega))).mono
    fun _ _ h => by unfold Block.InWords; omega

/-- Writing the words of a block `c` of a layout `L` puts `c` in memory and keeps every other
block of `L` that was there. -/
theorem Words.writeBlock (hw : Words m bs) (H : Layout first e L) (hc : c ∈ L)
    (hbs : ∀ d ∈ bs', d = c ∨ d ∈ bs ∧ d ∈ L) :
    Words ((m.store c.offset c.word).store (c.offset + c.size - 8) c.word) bs' := by
  have hlt := H.lt hc
  have h88 := (H.valid c hc).size_ge
  have ht := touches_writeBlock m hlt (by omega) c.word
  intro d hd
  by_cases hcd : d = c
  · subst hcd
    have hw := Block.word_lt (c := d) (by omega)
    rw [Mem.load_store_self, Mem.load_store_of_disjoint _ _ (by omega) (by omega) (by omega),
      Mem.load_store_self, Nat.mod_eq_of_lt hw]
    exact ⟨rfl, rfl⟩
  · obtain ⟨hd, hdL⟩ := (hbs d hd).resolve_left hcd
    refine Words.of_touches (hw.mono (by simpa using hd)) ht (by simpa using H.words_lt d hdL) ?_ d
      (List.mem_singleton_self d)
    simp only [List.mem_singleton, forall_eq]
    have := H.disjoint hdL hc hcd
    have := (H.valid d hdL).size_ge
    unfold Block.InWords
    omega

/-- Writing the words of a block of a layout keeps a free list whose nodes are in the layout. -/
theorem FreeList.writeBlock (hf : FreeList m head fl) (H : Layout first e L) (hc : c ∈ L)
    (hfl : ∀ x ∈ fl, ∃ d ∈ L, d.offset = x) :
    FreeList ((m.store c.offset c.word).store (c.offset + c.size - 8) c.word) head fl := by
  have := (H.valid c hc).size_ge
  refine hf.of_touches (touches_writeBlock m (H.lt hc) (by omega) _) (H.nodesApart hfl).lt
    fun x hx j hj => ?_
  obtain ⟨d, hd, rfl⟩ := hfl x hx
  exact H.node_not_inWords hc hd hj

theorem Repr.writeBlock (R : Repr s ⟨bs, fl⟩) (H : Layout first e L) (hc : c ∈ L)
    (hbs : ∀ d ∈ bs', d = c ∨ d ∈ bs ∧ d ∈ L) (hfl : ∀ x ∈ fl, ∃ d ∈ L, d.offset = x) :
    Repr ((s.store c.offset c.word).updateFooter c.offset) ⟨bs', fl⟩ := by
  have := (H.valid c hc)
  rw [store_updateFooter s this.size_even (by have := this.size_ge; omega) (H.lt hc)]
  exact ⟨R.words.writeBlock H hc hbs, R.freeList.writeBlock H hc hfl⟩

end Write

/-! ## The free-list operations -/

section Ops
variable {s : SlabAllocator} {first e : Nat} {bs : List Block} {fl : List Nat} {r x : Nat}

/-- `RemoveFromFreeList` keeps the blocks `bs` of a layout `L` in memory. -/
theorem Repr.removeFromFreeList {L : List Block} (R : Repr s ⟨bs, fl⟩) (H : Layout first e L)
    (hbs : ∀ c ∈ bs, c ∈ L) (hfl : ∀ x ∈ fl, ∃ c ∈ L, c.offset = x) (hr : r ∈ fl) :
    Repr (s.removeFromFreeList r) ⟨bs, fl.erase r⟩ := by
  have hsep := H.nodesApart hfl
  refine ⟨R.words.of_touches (SlabAllocator.FreeList.touches_removeFromFreeList R.freeList hsep hr)
    (fun c hc => H.words_lt c (hbs c hc)) fun c hc j hj hP => ?_,
    SlabAllocator.FreeList.removeFromFreeList R.freeList hsep hr⟩
  rcases hP with ⟨h0, hn⟩ | ⟨h0, hn⟩
  · obtain ⟨d, hd, hdo⟩ := hfl _ (prevIn_mem h0)
    exact H.node_not_inWords (hbs c hc) hd (hdo ▸ hn) hj
  · obtain ⟨d, hd, hdo⟩ := hfl _ (nextIn_mem h0)
    exact H.node_not_inWords (hbs c hc) hd (hdo ▸ hn) hj

/-- `RemoveFromFreeList` keeps every header of the layout. -/
theorem load_removeFromFreeList {L : List Block} {c : Block} (R : FreeList s.mem s.freeListHeadOffset fl)
    (H : Layout first e L) (hfl : ∀ x ∈ fl, ∃ c ∈ L, c.offset = x) (hr : r ∈ fl) (hc : c ∈ L) :
    (s.removeFromFreeList r).load c.offset = s.load c.offset := by
  have := H.words_lt c hc
  refine (SlabAllocator.FreeList.touches_removeFromFreeList R (H.nodesApart hfl) hr).load_eq (by omega)
    fun j h₁ h₂ hP => ?_
  rcases hP with ⟨h0, hn⟩ | ⟨h0, hn⟩
  · obtain ⟨d, hd, hdo⟩ := hfl _ (prevIn_mem h0)
    exact H.node_not_inWords hc hd (hdo ▸ hn) (.inl ⟨h₁, h₂⟩)
  · obtain ⟨d, hd, hdo⟩ := hfl _ (nextIn_mem h0)
    exact H.node_not_inWords hc hd (hdo ▸ hn) (.inl ⟨h₁, h₂⟩)

theorem Repr.insertHead (R : Repr s ⟨bs, fl⟩) (H : Layout first e bs)
    (hfl : ∀ x ∈ fl, ∃ c ∈ bs, c.offset = x) (hx : ∃ c ∈ bs, c.offset = x) (hxfl : x ∉ fl) :
    Repr (s.insertHead x) ⟨bs, x :: fl⟩ := by
  have hsep := H.nodesApart (L := x :: fl) (by simpa [hx] using hfl)
  have hx0 : x ≠ 0 := by
    obtain ⟨c, hc, rfl⟩ := hx; exact (H.valid c hc).offset_pos.ne'
  refine ⟨R.words.of_touches (SlabAllocator.touches_insertHead R.freeList hsep) H.words_lt
    fun c hc j hj hP => ?_, SlabAllocator.FreeList.insertHead R.freeList hsep hxfl hx0⟩
  rcases hP with hn | ⟨h0, hn⟩
  · obtain ⟨d, hd, rfl⟩ := hx
    exact H.node_not_inWords hc hd hn hj
  · obtain ⟨d, hd, hdo⟩ := hfl _ ((SlabAllocator.head_eq_zero_or_mem R.freeList).resolve_left h0)
    exact H.node_not_inWords hc hd (hdo ▸ hn) hj

theorem Repr.spliceNode (R : Repr s ⟨bs, fl⟩) (H : Layout first e bs)
    (hfl : ∀ x ∈ fl, ∃ c ∈ bs, c.offset = x) (hr : r ∈ fl) (hx : ∃ c ∈ bs, c.offset = x)
    (hxfl : x ∉ fl) :
    Repr (s.spliceNode r x) ⟨bs, fl.map (rename r x)⟩ := by
  have hsep := H.nodesApart (L := x :: fl) (by simpa [hx] using hfl)
  have hx0 : x ≠ 0 := by
    obtain ⟨c, hc, rfl⟩ := hx; exact (H.valid c hc).offset_pos.ne'
  refine ⟨R.words.of_touches (SlabAllocator.touches_spliceNode R.freeList hsep hr hxfl hx0)
    H.words_lt fun c hc j hj hP => ?_, SlabAllocator.FreeList.spliceNode R.freeList hsep hr hxfl hx0⟩
  rcases hP with hn | ⟨h0, hn⟩ | ⟨h0, hn⟩
  · obtain ⟨d, hd, rfl⟩ := hx
    exact H.node_not_inWords hc hd hn hj
  · obtain ⟨d, hd, hdo⟩ := hfl _ (prevIn_mem h0)
    exact H.node_not_inWords hc hd (hdo ▸ hn) hj
  · obtain ⟨d, hd, hdo⟩ := hfl _ (nextIn_mem h0)
    exact H.node_not_inWords hc hd (hdo ▸ hn) hj

end Ops

/-! ## The free-list operations as a whole -/

/-- What a free-list operation from `s` to `s'` does: `s'` threads `L'`, only the bytes `P` and
`m_free_list_head_offset` change, and the header and footer bytes of the blocks `bs` stay. -/
structure FreeListUpdate (s s' : SlabAllocator) (L' : List Nat) (P : Nat → Prop) (bs : List Block) :
    Prop where
  freeList : FreeList s'.mem s'.freeListHeadOffset L'
  touches : Mem.Touches s.mem s'.mem P
  others : { s' with mem := s.mem, freeListHeadOffset := s.freeListHeadOffset } = s
  words : ∀ c ∈ bs, ∀ j < 2 ^ 64, c.InWords j → s'.mem j = s.mem j

section Update
variable {s : SlabAllocator} {bs : List Block} {L : List Nat} {r x : Nat}

theorem removeFromFreeList_others (s : SlabAllocator) (r : Nat) :
    { s.removeFromFreeList r with mem := s.mem, freeListHeadOffset := s.freeListHeadOffset } = s := by
  dsimp only [SlabAllocator.removeFromFreeList]
  rw [SlabAllocator.setPrev_eq, SlabAllocator.setNextOrHead_eq]

theorem insertHead_others (s : SlabAllocator) (x : Nat) :
    { s.insertHead x with mem := s.mem, freeListHeadOffset := s.freeListHeadOffset } = s := by
  dsimp only [SlabAllocator.insertHead]
  rw [SlabAllocator.setPrev_eq]
  rfl

/-- On a well-formed list whose `FreeNode`s lie apart and meet no header or footer of `bs`,
`RemoveFromFreeList(r)` takes `r` out and writes only the nodes of its two neighbours, and
`InsertHead(x)` puts a fresh `x` in front and writes only the nodes of `x` and of the old head. -/
theorem free_list_ops_frame (H : FreeList s.mem s.freeListHeadOffset L) (hsep : NodesApart L)
    (hw : ∀ c ∈ bs, ∀ y ∈ L, ∀ j, c.InWords j → ¬InNode y j) :
    (∀ r ∈ L, FreeListUpdate s (s.removeFromFreeList r) (L.erase r)
      (fun j => (prevIn L r ≠ 0 ∧ InNode (prevIn L r) j) ∨ (nextIn L r ≠ 0 ∧ InNode (nextIn L r) j)) bs) ∧
    (∀ x, x ∉ L → x ≠ 0 → NodesApart (x :: L) → (∀ c ∈ bs, ∀ j, c.InWords j → ¬InNode x j) →
      FreeListUpdate s (s.insertHead x) (x :: L)
        (fun j => InNode x j ∨ (nextIn (x :: L) x ≠ 0 ∧ InNode (nextIn (x :: L) x) j)) bs) := by
  refine ⟨fun r hr => ?_, fun x hx hx0 hsep' hwx => ?_⟩
  · have ht := SlabAllocator.FreeList.touches_removeFromFreeList H hsep hr
    refine ⟨SlabAllocator.FreeList.removeFromFreeList H hsep hr, ht, removeFromFreeList_others s r,
      fun c hc j hj hjw => ht j hj ?_⟩
    rintro (⟨h0, hn⟩ | ⟨h0, hn⟩)
    · exact hw c hc _ (prevIn_mem h0) j hjw hn
    · exact hw c hc _ (nextIn_mem h0) j hjw hn
  · have ht := SlabAllocator.touches_insertHead H hsep'
    rw [H.head_eq, ← nextIn_cons_self x L] at ht
    have hmem : nextIn (x :: L) x ≠ 0 → nextIn (x :: L) x ∈ L := by
      rw [nextIn_cons_self, ← H.head_eq]; exact (SlabAllocator.head_eq_zero_or_mem H).resolve_left
    refine ⟨SlabAllocator.FreeList.insertHead H hsep' hx hx0, ht, insertHead_others s x,
      fun c hc j hj hjw => ht j hj ?_⟩
    rintro (hn | ⟨h0, hn⟩)
    · exact hwx c hc j hjw hn
    · exact hw c hc _ (hmem h0) j hjw hn

end Update

/-- Three free blocks of `192` bytes at `64`, `256` and `448`, linked in that order by four stores
into zeroed memory. Removing the middle one writes only the nodes of the outer two, and inserting
a fourth block at `640` only its own node and that of the old head `64`; neither writes a header
or footer word of the blocks. -/
theorem free_list_ops_frame_three_nodes :
    ∃ s : SlabAllocator, s = ⟨0, 0, 0, 64, 0,
        Mem.store (Mem.store (Mem.store (Mem.store (fun _ => 0) 128 256) 320 448) 328 64) 520 256⟩ ∧
      FreeList s.mem s.freeListHeadOffset [64, 256, 448] ∧ NodesApart [64, 256, 448] ∧
      FreeListUpdate s (s.removeFromFreeList 256) [64, 448] (fun j => InNode 64 j ∨ InNode 448 j)
        [⟨64, 192, true⟩, ⟨256, 192, true⟩, ⟨448, 192, true⟩] ∧
      FreeListUpdate s (s.insertHead 640) [640, 64, 256, 448] (fun j => InNode 640 j ∨ InNode 64 j)
        [⟨64, 192, true⟩, ⟨256, 192, true⟩, ⟨448, 192, true⟩] := by
  refine ⟨_, rfl, ?_⟩
  have H : FreeList (Mem.store (Mem.store (Mem.store (Mem.store (fun _ => 0) 128 256) 320 448)
      328 64) 520 256) 64 [64, 256, 448] := ⟨by decide, by decide, rfl, by decide, by decide⟩
  have hsep : NodesApart [64, 256, 448] := ⟨by decide, by decide⟩
  have hw : ∀ x ∈ [640, 64, 256, 448],
      ∀ c ∈ ([⟨64, 192, true⟩, ⟨256, 192, true⟩, ⟨448, 192, true⟩] : List Block),
        ∀ j, c.InWords j → ¬InNode x j := by
    intro x hx c hc j hj hn
    simp only [List.mem_cons, List.not_mem_nil, or_false] at hx hc
    unfold Block.InWords at hj; unfold InNode at hn
    rcases hc with rfl | rfl | rfl <;> dsimp only at hj <;> omega
  obtain ⟨hrem, hins⟩ := free_list_ops_frame (s := ⟨0, 0, 0, 64, 0, _⟩) H hsep
    fun c hc y hy => hw y (List.mem_cons_of_mem 640 hy) c hc
  have hr := hrem 256 (by decide)
  have hi := hins 640 (by decide) (by decide) ⟨by decide, by decide⟩
    (hw 640 (List.mem_cons_self _ _))
  exact ⟨H, hsep, ⟨hr.freeList, hr.touches.mono fun j _ hj => by simpa [prevIn, nextIn] using hj,
    hr.others, hr.words⟩, ⟨hi.freeList, hi.touches.mono fun j _ hj => by simpa [nextIn] using hj,
    hi.others, hi.words⟩⟩

end HyperionRuntime.Slab
