import HyperionRuntime.Slab.Correctness

/-!
# Sequences of calls

What a few `Allocate` and `Free` calls in a row do. On a state satisfying the heap invariant, a
`Free` right after a successful `Allocate` gives back the blocks there were, with the block at
the head of the free list (`allocate_free_restores`). Outside the invariant's reach the source's
unchecked arithmetic and its double-free check give way: a size near `2 ^ 64` rounds to a small
block (`allocate_huge`), and a second `Free` of a payload whose block was merged away and whose
old header word now lies in another block's `FreeNode` is not detected (`double_free_after_merge`).
-/

namespace HyperionRuntime.Slab
open BlockHeader Heap SlabAllocator

/-! ## Calls -/

/-- A call of the allocator's interface. -/
inductive Call where
  | allocate (n : Nat)
  | free (p : Nat)

/-- One call, with `fuel` for `Allocate`'s loop, and its reply: the payload offset `Allocate`
returns, `0` for `Free`. -/
def SlabAllocator.call (s : SlabAllocator) (fuel : Nat) : Call → Option (SlabAllocator × Nat)
  | .allocate n => s.allocate n fuel
  | .free p => some (s.free p, 0)

/-- The calls `cs` in order, with their replies. -/
def SlabAllocator.run (s : SlabAllocator) (fuel : Nat) : List Call → Option (SlabAllocator × List Nat)
  | [] => some (s, [])
  | c :: cs => (s.call fuel c).bind fun r => (r.1.run fuel cs).map fun t => (t.1, r.2 :: t.2)

/-! ## `Allocate` then `Free` -/

/-- Renaming `x` to `y` and then dropping `y` is dropping `x`, when `y` was not in the list. -/
theorem erase_map_rename {l : List Nat} {x y : Nat} (hnd : l.Nodup) (hx : x ∈ l) (hy : y ∉ l) :
    (l.map (rename x y)).erase y = l.erase x := by
  induction l with
  | nil => exact absurd hx (List.not_mem_nil _)
  | cons a l ih =>
    obtain ⟨ha, hnd⟩ := List.nodup_cons.1 hnd
    by_cases hax : a = x
    · subst hax
      rw [List.map_cons, rename, if_pos rfl, List.erase_cons_head, List.erase_cons_head]
      exact (List.map_congr_left fun b hb => if_neg fun h : b = a => ha (h ▸ hb)).trans (List.map_id l)
    · have hay : a ≠ y := fun h => hy (h ▸ List.mem_cons_self _ _)
      rw [List.map_cons, rename, if_neg hax, erase_cons_of_ne hay, erase_cons_of_ne hax,
        ih hnd ((List.mem_cons.1 hx).resolve_left (Ne.symm hax)) fun h => hy (List.mem_cons_of_mem _ h)]

section RoundTrip
variable {first e : Nat} {h : Heap}

/-- `Free` of the payload first fit returns gives back the blocks there were; the block goes to
the head of the free list, the other offsets keeping their order. -/
theorem Heap.Inv.free_allocateRequired (H : Inv first e h) {R : Nat} (hR : R % 64 = 0) (hR88 : 88 ≤ R)
    (hp : (h.allocateRequired R).2 ≠ 0) :
    (h.allocateRequired R).2 - 64 ∈ h.freeList ∧
    (h.allocateRequired R).1.free (h.allocateRequired R).2 =
      ⟨h.blocks, ((h.allocateRequired R).2 - 64) :: h.freeList.erase ((h.allocateRequired R).2 - 64)⟩ := by
  have H' := H.allocateRequired hR hR88
  obtain ⟨bs, fl⟩ := h
  unfold Heap.allocateRequired at hp H' ⊢
  dsimp only at hp H' ⊢
  cases hx : fl.find? fun x => R ≤ sizeAt ⟨bs, fl⟩ x with
  | none => simp only [hx] at hp; exact absurd rfl hp
  | some x =>
  simp only [hx] at hp H' ⊢
  obtain ⟨pre, c, post, rfl, rfl, hcf, hloc⟩ := H.mem_blocks (List.mem_of_find?_eq_some hx)
  have hfl : c.offset ∈ fl := List.mem_of_find?_eq_some hx
  have hpre := (neighbours_used H.coalesced hcf).1
  have hpost := (neighbours_used H.coalesced hcf).2
  have hc : (⟨c.offset, c.size, true⟩ : Block) = c := by rw [← hcf]
  simp only [hloc] at hp H' ⊢
  split_ifs at H' ⊢ with hsplit
  · have hnew : c.offset + R ∉ fl :=
      H.not_mem_freeList_of_inside (c := c) (by simp) (by omega) (by omega)
    have hloc' := H'.locate_eq
    refine ⟨by rwa [Nat.add_sub_cancel], ?_⟩
    simp only [Heap.free, Nat.add_sub_cancel, if_neg (by omega : c.offset + 64 ≠ 0), hloc',
      if_neg (Bool.false_ne_true), mergeRight, ↓reduceIte, mergeLeft_of_used hpre,
      Nat.add_sub_cancel' (by omega : R ≤ c.size), erase_map_rename H.nodup hfl hnew, hc]
  · have hloc' := H'.locate_eq
    refine ⟨by rwa [Nat.add_sub_cancel], ?_⟩
    have hm : mergeRight ⟨c.offset, c.size, false⟩ (fl.erase c.offset) post =
        (⟨c.offset, c.size, true⟩, post, fl.erase c.offset) := by
      cases post with
      | nil => rfl
      | cons r post => simp [mergeRight, hpost r (by simp)]
    simp only [Heap.free, Nat.add_sub_cancel, if_neg (by omega : c.offset + 64 ≠ 0), hloc',
      if_neg (Bool.false_ne_true), hm, mergeLeft_of_used hpre, hc]

end RoundTrip

/-! ## Fuel -/

/-- A first-fit walk that returns with some fuel returns the same with more. -/
theorem SlabAllocator.firstFit_of_le {s : SlabAllocator} {R fuel fuel' o x : Nat}
    (h : s.firstFit R fuel o = some x) (hle : fuel ≤ fuel') : s.firstFit R fuel' o = some x := by
  induction fuel generalizing fuel' o with
  | zero => exact absurd h (by simp [firstFit])
  | succ k ih =>
    obtain ⟨k', rfl⟩ : ∃ k', fuel' = k' + 1 := ⟨fuel' - 1, by omega⟩
    rw [firstFit] at h ⊢
    split_ifs at h ⊢
    all_goals first | exact h | exact ih h (by omega)

/-- An `Allocate` that returns with some fuel returns the same with more. -/
theorem SlabAllocator.allocate_of_le {s : SlabAllocator} {n fuel fuel' : Nat} {r : SlabAllocator × Nat}
    (h : s.allocate n fuel = some r) (hle : fuel ≤ fuel') : s.allocate n fuel' = some r := by
  unfold allocate at h ⊢
  dsimp only at h ⊢
  split_ifs at h ⊢ with hn
  · exact h
  cases hf : s.firstFit (requiredTotalSize n) fuel s.freeListHeadOffset with
  | none => simp [hf] at h
  | some x => rw [firstFit_of_le hf hle]; rw [hf] at h; exact h

/-! ## The byte-level round trip -/

/-- From every state satisfying the heap invariant, `Free` of the nonzero payload offset
`Allocate(n)` just returned, for a size below the wrap and whatever the fuel, leaves bytes that
hold the blocks there were, header and footer words included; the block was on the free list
and is back at its head, the other offsets keeping their order. -/
theorem allocate_free_restores {s t : SlabAllocator} {h : Heap} (hR : s.Region) (hs : Repr s h)
    (H : Heap.Inv s.firstBlockOffset s.heapEnd h) {n fuel p : Nat} (hn : n ≤ 2 ^ 64 - 192)
    (hal : s.allocate n fuel = some (t, p)) (hp : p ≠ 0) :
    p - 64 ∈ h.freeList ∧ Repr (t.free p) ⟨h.blocks, (p - 64) :: h.freeList.erase (p - 64)⟩ := by
  have hn0 : n ≠ 0 := by
    rintro rfl
    exact hp (Prod.mk.inj (Option.some.inj hal)).2.symm
  obtain ⟨t', hal', ht', -⟩ := allocate_refines hs H hn (Nat.lt_succ_self (fuel + h.freeList.length) |>.trans_le' (by omega))
  obtain ⟨rfl, rfl⟩ := Prod.mk.inj (Option.some.inj ((allocate_of_le hal (by omega)).symm.trans hal'))
  have ha : h.allocate n = h.allocateRequired (requiredTotalSize n) := if_neg hn0
  have hR' := requiredTotalSize_eq hn
  obtain ⟨hmem, hfree⟩ := H.free_allocateRequired (R := requiredTotalSize n) (by omega) (by omega)
    (ha ▸ hp)
  rcases H.allocate_payload n with h0 | ⟨c, hc, hcu, hpc, -⟩
  · exact absurd h0 hp
  have hB := (hR.bounds H.end_lt).of_region (region_of_allocate s hal')
  have R₁ := free_refines ht' (H.allocate hn) hB hc hcu
  rw [← hpc, ha, hfree] at R₁
  rw [ha]
  exact ⟨hmem, R₁⟩

theorem allocate_free_restores_example :
    ∃ t, (create 64 1024 64 0 fun _ => 0).allocate 1 2 = some (t, 128) ∧
      128 - 64 ∈ (initHeap 64 1024 64).freeList ∧
      Repr (t.free 128) ⟨(initHeap 64 1024 64).blocks,
        (128 - 64) :: (initHeap 64 1024 64).freeList.erase (128 - 64)⟩ := by
  obtain ⟨t, hal, -, -⟩ := allocate_refines create_example_repr create_example_heapInv.2
    (show 1 ≤ 2 ^ 64 - 192 by decide) (show (initHeap 64 1024 64).freeList.length < 2 by decide)
  rw [show ((initHeap 64 1024 64).allocate 1).2 = 128 by decide] at hal
  exact ⟨t, hal, allocate_free_restores create_example_heapInv.1.toRegion create_example_repr
    create_example_heapInv.2 (by decide) hal (by decide)⟩

/-! ## A size near the wrap -/

/-- `Allocate(2 ^ 64 - 1)`, with any fuel the free list allows, from the state `Init` leaves on a
1 KiB region at address `64`, which satisfies the heap invariant: `(size + 63) & ~63` wraps to
`0`, so the rounded block size is `128`, and the call returns `128`, the payload of a used block
of `128` bytes at `64`, far less than the `n + 72` bytes the request needs. The free block split
off starts at `192`, among the `n` bytes the caller may now write. -/
theorem allocate_huge :
    (create 64 1024 64 0 fun _ => 0).HeapInv ∧ requiredTotalSize (2 ^ 64 - 1) = 128 ∧
    ∃ t, (∀ fuel, 2 ≤ fuel → (create 64 1024 64 0 fun _ => 0).allocate (2 ^ 64 - 1) fuel = some (t, 128)) ∧
      t.load 64 = set 128 false ∧ getSize (t.load 64) < 2 ^ 64 - 1 + 72 ∧
      t.load 192 = set 896 true ∧ t.freeListHeadOffset = 192 := by
  have h : ((create 64 1024 64 0 fun _ => 0).allocate (2 ^ 64 - 1) 2).map
      (fun r => [r.2, r.1.load 64, r.1.load 192, r.1.freeListHeadOffset]) = some [128, 128, 897, 192] := by
    decide
  obtain ⟨⟨t, p⟩, ht, hf⟩ := Option.map_eq_some'.1 h
  simp only [List.cons.injEq, and_true] at hf
  obtain ⟨rfl, h64, h192, hhead⟩ := hf
  exact ⟨create_example_heapInv.1, by decide, t, fun _ hf => allocate_of_le ht hf, h64,
    by rw [h64]; decide, h192, hhead⟩

/-! ## A second `Free` after a merge -/

namespace SlabAllocator

theorem load_store_self (s : SlabAllocator) (a v : Nat) : (s.store a v).load a = v % 2 ^ 64 :=
  Mem.load_store_self s.mem a v

theorem load_store_of_disjoint (s : SlabAllocator) {a b : Nat} (v : Nat)
    (h : a + 8 ≤ b ∨ b + 8 ≤ a) (ha : a + 8 ≤ 2 ^ 64) (hb : b + 8 ≤ 2 ^ 64) :
    (s.store a v).load b = s.load b :=
  Mem.load_store_of_disjoint s.mem v h ha hb

theorem updateFooter_of_load {s : SlabAllocator} {o w : Nat} (h : s.load o = w) :
    s.updateFooter o = s.store (sub64 (o + getSize w) 8) w := by
  rw [updateFooter, getFooter, h]

/-- The size and state the coalesces of a block of size `0` with itself write back. -/
theorem set_zero_header : set (add64 (getSize 1) (getSize 1)) (isFree 1) = 1 := by
  rw [show getSize 1 = 0 from rfl, add64, Nat.zero_mod]; rfl

section ZeroHeader
variable {o : Nat} (h8 : 8 ≤ o) (hlt : o + 80 ≤ 2 ^ 64)
include h8 hlt

/-- What `Free` writes at a header of size `0` at `o`: the word `1` (free, size `0`) there and
at its footer, at `o - 8`. -/
theorem updateFooter_zero_header (t : SlabAllocator) :
    (t.store o 1).updateFooter o = (t.store o 1).store (o - 8) 1 := by
  rw [updateFooter_of_load (w := 1) (by rw [load_store_self]; rfl), show getSize 1 = 0 from rfl,
    Nat.add_zero, sub64_of_le h8 (by omega)]

theorem load_zero_header (t : SlabAllocator) : ((t.store o 1).store (o - 8) 1).load o = 1 := by
  rw [load_store_of_disjoint _ _ (by omega) (by omega) (by omega), load_store_self]; rfl

theorem load_zero_header_of_le (t : SlabAllocator) {k : Nat} (hk : o + 8 ≤ k) (hk' : k + 8 ≤ 2 ^ 64) :
    ((t.store o 1).store (o - 8) 1).load k = t.load k := by
  rw [load_store_of_disjoint _ _ (by omega) (by omega) hk', load_store_of_disjoint _ _ (by omega) (by omega) hk']

/-- The right coalesce of a block of size `0` finds the block itself as its right neighbour,
free, and takes it off the list through its `FreeNode`; with zero links that sets
`m_free_list_head_offset` to `0`. -/
theorem coalesceRight_zero_header {t : SlabAllocator} (h64 : t.load (o + 64) = 0) (h72 : t.load (o + 72) = 0)
    (hend : o < add64 t.totalSize t.baseOffset) (hptr : t.getPtr o ≠ 0) :
    ((t.store o 1).store (o - 8) 1).coalesceRight o o =
      (({ (t.store o 1).store (o - 8) 1 with freeListHeadOffset := 0 } : SlabAllocator).store o 1).store
        (o - 8) 1 := by
  have e : ∀ k, ({ (t.store o 1).store (o - 8) 1 with freeListHeadOffset := 0 } : SlabAllocator).load k =
      ((t.store o 1).store (o - 8) 1).load k := fun _ => rfl
  have hrm : ((t.store o 1).store (o - 8) 1).removeFromFreeList o =
      { (t.store o 1).store (o - 8) 1 with freeListHeadOffset := 0 } := by
    simp only [removeFromFreeList, e, load_zero_header_of_le h8 hlt t (by omega : o + 8 ≤ o + 64) (by omega),
      load_zero_header_of_le h8 hlt t (by omega : o + 8 ≤ o + 72) (by omega), h64, h72, setNextOrHead,
      setPrev, ne_eq, not_true_eq_false, if_false]
  unfold coalesceRight
  refine (if_pos ?_).trans ?_
  · exact ⟨hend, hptr, by rw [load_zero_header h8 hlt]; rfl⟩
  rw [hrm]
  dsimp only
  rw [e, load_zero_header h8 hlt, set_zero_header, updateFooter_zero_header h8 hlt]

/-- The left coalesce reads the footer at `o - 8`, free, and grows the block at `o - 0` by `0`. -/
theorem coalesceLeft_zero_header {t : SlabAllocator} (hfirst : t.firstBlockOffset < o) :
    ((t.store o 1).store (o - 8) 1).coalesceLeft o =
      ((((t.store o 1).store (o - 8) 1).store o 1).store (o - 8) 1) := by
  have hf : ((t.store o 1).store (o - 8) 1).load (sub64 o 8) = 1 := by
    rw [sub64_of_le h8 (by omega), load_store_self]; rfl
  unfold coalesceLeft
  refine (if_pos ?_).trans ?_
  · exact ⟨hfirst, by rw [hf]; rfl⟩
  dsimp only
  rw [hf, show sub64 o (getSize 1) = o from sub64_of_le (Nat.zero_le o) (by omega), load_zero_header h8 hlt,
    set_zero_header, updateFooter_zero_header h8 hlt]

/-- `Free(o + 64)` where the word at `o` reads `0`, a used header of size `0`, as do the two
words of the `FreeNode` after it: the double-free check passes, and the two coalesces leave the
header free with `m_free_list_head_offset` set to `0`. -/
theorem free_zero_header {s : SlabAllocator} (h0 : s.load o = 0) (h64 : s.load (o + 64) = 0)
    (h72 : s.load (o + 72) = 0) (hfirst : s.firstBlockOffset < o)
    (hend : o < add64 s.totalSize s.baseOffset) (hptr : s.getPtr o ≠ 0) :
    (s.free (o + 64)).freeListHeadOffset = 0 ∧ (s.free (o + 64)).load o = 1 := by
  have hself : add64 o (getSize (((s.store o 1).store (o - 8) 1).load o)) = o := by
    rw [load_zero_header h8 hlt, show getSize 1 = 0 from rfl, add64_of_lt (by omega), Nat.add_zero]
  rw [SlabAllocator.free, if_neg (by omega), sub64_of_le (by omega) (by omega), Nat.add_sub_cancel]
  dsimp only
  rw [h0, if_neg (by decide), show set 0 true = 1 from rfl, updateFooter_zero_header h8 hlt, hself,
    coalesceRight_zero_header h8 hlt h64 h72 hend hptr,
    coalesceLeft_zero_header h8 hlt (t := { (s.store o 1).store (o - 8) 1 with freeListHeadOffset := 0 }) hfirst]
  exact ⟨rfl, load_zero_header h8 hlt _⟩

end ZeroHeader

end SlabAllocator

set_option maxRecDepth 2000 in
/-- From the state `Init` leaves on a 1 KiB region at address `64`, which satisfies the heap
invariant: `Allocate(65)` returns `128` and `Allocate(1)` returns `384`; `Free(128)`, then
`Free(384)`, whose block merges with both free neighbours into one block at `64`; `Allocate(1)`
returns `128` again and splits that block, so that the free block at `256`, of `832` bytes and
alone on the list, has its `FreeNode.next_offset` (`0`) at `320`, where the header of `384`'s
block was. A second `Free(384)` reads that `0` as a used header and goes on: it sets
`m_free_list_head_offset` to `0`, losing the free block, and writes a free header at `320`. -/
theorem double_free_after_merge :
    (create 64 1024 64 0 fun _ => 0).HeapInv ∧
    ∃ s, (create 64 1024 64 0 fun _ => 0).run 2
        [.allocate 65, .allocate 1, .free 128, .free 384, .allocate 1] = some (s, [128, 384, 0, 0, 128]) ∧
      s.freeListHeadOffset = 256 ∧ s.load 256 = set 832 true ∧ s.load 320 = 0 ∧
      (s.free 384).freeListHeadOffset = 0 ∧ (s.free 384).load 320 = 1 := by
  have hrun : ((create 64 1024 64 0 fun _ => 0).run 2
      [.allocate 65, .allocate 1, .free 128, .free 384, .allocate 1]).map
        (fun r => (r.2, [r.1.load 320, r.1.load 384, r.1.load 392, r.1.load 256, r.1.freeListHeadOffset,
          r.1.firstBlockOffset, add64 r.1.totalSize r.1.baseOffset, r.1.getPtr 320])) =
      some ([128, 384, 0, 0, 128], [0, 0, 0, 833, 256, 64, 1088, 320]) := by decide
  obtain ⟨⟨s, rs⟩, hs, hfacts⟩ := Option.map_eq_some'.1 hrun
  simp only [Prod.mk.injEq, List.cons.injEq, and_true] at hfacts
  obtain ⟨rfl, h320, h384, h392, h256, hhead, hfirst, hend, hptr⟩ := hfacts
  exact ⟨create_example_heapInv.1, s, hs, hhead, h256, h320, free_zero_header (by decide) (by decide)
    h320 h384 h392 (by omega) (by omega) (by omega)⟩

end HyperionRuntime.Slab
