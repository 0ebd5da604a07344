import HyperionRuntime.Slab.Init

/-!
# The slab allocator is correct

`heapInv_allocate_free`: from every state satisfying the heap invariant, `Allocate` of every size
below the wrap returns with enough fuel, and `Free` of `0` or of a used block's payload, and both
keep the invariant. `slab_refines` is the simulation behind it: on such a state the bytes
follow the abstract first-fit heap of `Heap`.
-/

namespace HyperionRuntime.Slab
open BlockHeader Heap SlabAllocator

variable {s : SlabAllocator}

theorem free_zero (s : SlabAllocator) : s.free 0 = s := by simp [SlabAllocator.free]

/-- The state `Init` leaves on a 1 KiB region at address `64`. -/
theorem create_example_heapInv :
    (create 64 1024 64 0 fun _ => 0).HeapInv ∧
      Heap.Inv (create 64 1024 64 0 fun _ => 0).firstBlockOffset
        (create 64 1024 64 0 fun _ => 0).heapEnd (initHeap 64 1024 64) :=
  create_heapInv (by omega) (by omega) (by omega) (by omega) (by omega) (by omega)

theorem create_example_repr : Repr (create 64 1024 64 0 fun _ => 0) (initHeap 64 1024 64) :=
  create_repr (by omega) (by omega) (by omega) (by omega) (by omega)

/-- `Allocate` below the wrap, with more fuel than the free list is long, keeps the region and
leaves bytes that hold the abstract heap's allocation, which keeps `Heap.Inv`. -/
theorem allocate_heap {h : Heap} (hR : s.Region) (hs : Repr s h)
    (H : Heap.Inv s.firstBlockOffset s.heapEnd h) {n fuel : Nat} (hn : n ≤ 2 ^ 64 - 192)
    (hfuel : h.freeList.length < fuel) :
    ∃ t, s.allocate n fuel = some (t, (h.allocate n).2) ∧ t.Region ∧ Repr t (h.allocate n).1 ∧
      Heap.Inv t.firstBlockOffset t.heapEnd (h.allocate n).1 := by
  obtain ⟨t, hal, ht, -⟩ := allocate_refines hs H hn hfuel
  have hreg := region_of_allocate s hal
  refine ⟨t, hal, hR.of_region hreg, ht, ?_⟩
  rw [firstBlockOffset_of_region hreg, heapEnd_of_region hreg]
  exact H.allocate hn

/-- Two calls of `Allocate(1)`, each with fuel `2`, from the state `Init` leaves on a 1 KiB
region at address `64`: the first hands out the payload `128` of a used block of `192` bytes
at `64`, the second the payload `320` of one at `256`, and the rest of the region stays free. -/
theorem create_example_allocate_twice :
    ∃ t₁ t₂, (create 64 1024 64 0 fun _ => 0).allocate 1 2 = some (t₁, 128) ∧
      t₁.allocate 1 2 = some (t₂, 320) ∧ t₁.Region ∧
      Repr t₁ ⟨[⟨64, 192, false⟩, ⟨256, 832, true⟩], [256]⟩ ∧
      Heap.Inv t₁.firstBlockOffset t₁.heapEnd ⟨[⟨64, 192, false⟩, ⟨256, 832, true⟩], [256]⟩ ∧
      t₂.Region ∧ Repr t₂ ⟨[⟨64, 192, false⟩, ⟨256, 192, false⟩, ⟨448, 640, true⟩], [448]⟩ ∧
      Heap.Inv t₂.firstBlockOffset t₂.heapEnd
        ⟨[⟨64, 192, false⟩, ⟨256, 192, false⟩, ⟨448, 640, true⟩], [448]⟩ := by
  have h₁ : (initHeap 64 1024 64).allocate 1 =
      (⟨[⟨64, 192, false⟩, ⟨256, 832, true⟩], [256]⟩, 128) := by decide
  have h₂ : Heap.allocate ⟨[⟨64, 192, false⟩, ⟨256, 832, true⟩], [256]⟩ 1 =
      (⟨[⟨64, 192, false⟩, ⟨256, 192, false⟩, ⟨448, 640, true⟩], [448]⟩, 320) := by decide
  obtain ⟨t₁, hal₁, hR₁, hs₁, H₁⟩ := allocate_heap create_example_heapInv.1.toRegion
    create_example_repr create_example_heapInv.2 (show 1 ≤ 2 ^ 64 - 192 by decide)
    (show (initHeap 64 1024 64).freeList.length < 2 by decide)
  rw [h₁] at hal₁ hs₁ H₁
  obtain ⟨t₂, hal₂, hR₂, hs₂, H₂⟩ := allocate_heap hR₁ hs₁ H₁ (show 1 ≤ 2 ^ 64 - 192 by decide)
    (show [256].length < 2 by decide)
  rw [h₂] at hal₂ hs₂ H₂
  exact ⟨t₁, t₂, hal₁, hal₂, hR₁, hs₁, H₁, hR₂, hs₂, H₂⟩

/-- `Allocate` and `Free` keep the heap invariant, `Allocate` returns once the fuel exceeds the
length of the free list, and a nonzero payload offset it returns is that of a used block, at a
64-byte-aligned address. -/
theorem heapInv_allocate_free (I : s.HeapInv) :
    (∀ n, n ≤ 2 ^ 64 - 192 → ∃ N t p, (∀ fuel, N ≤ fuel → s.allocate n fuel = some (t, p)) ∧
      t.HeapInv ∧ (p = 0 ∨ t.UsedPayload p ∧ t.getPtr p % 64 = 0)) ∧
    ∀ p, (p = 0 ∨ s.UsedPayload p) → (s.free p).HeapInv := by
  obtain ⟨hR, h, hs, H⟩ := I
  refine ⟨fun n hn => ?_, ?_⟩
  · obtain ⟨t, hal, hRt, ht, Ht⟩ := allocate_heap hR hs H hn (Nat.lt_succ_self h.freeList.length)
    refine ⟨h.freeList.length + 1, t, (h.allocate n).2,
      fun fuel hf => (allocate_fuel hs.freeList n hf).trans hal, ⟨hRt, _, ht, Ht⟩, ?_⟩
    rcases H.allocate_payload n with h0 | ⟨c, hc, hcu, hp, -⟩
    · exact .inl h0
    · refine .inr ⟨⟨_, ht, Ht, c, hc, hcu, hp⟩, ?_⟩
      have hb := Ht.bounds hc
      have := (Ht.valid c hc).aligned
      have := (Ht.valid c hc).size_ge
      rw [hp]
      exact hRt.getPtr_aligned Ht.end_lt (by omega) (by omega) (by omega)
  · rintro p (rfl | ⟨h', hs', H', c, hc, hcu, rfl⟩)
    · rw [free_zero]; exact ⟨hR, h, hs, H⟩
    · have hreg := region_free s (c.offset + 64)
      refine ⟨hR.of_region hreg, _, free_refines hs' H' (hR.bounds H'.end_lt) hc hcu, ?_⟩
      rw [firstBlockOffset_of_region hreg, heapEnd_of_region hreg]
      exact H'.free _

theorem heapInv_allocate_free_example :
    ∃ t, (create 64 1024 64 0 fun _ => 0).allocate 1 2 = some (t, 128) ∧ t.HeapInv ∧
      t.UsedPayload 128 ∧ (t.free 128).HeapInv ∧
      ∃ N t' p, (∀ fuel, N ≤ fuel → t.allocate 1 fuel = some (t', p)) ∧ t'.HeapInv := by
  obtain ⟨t, -, hal, -, hR, hs, H, -⟩ := create_example_allocate_twice
  have I : t.HeapInv := ⟨hR, _, hs, H⟩
  have hu : t.UsedPayload 128 := ⟨_, hs, H, ⟨64, 192, false⟩, by simp, rfl, rfl⟩
  obtain ⟨N, t', p, hN, ht', -⟩ := (heapInv_allocate_free I).1 1 (by decide)
  exact ⟨t, hal, I, hu, (heapInv_allocate_free I).2 128 (.inr hu), N, t', p, hN, ht'⟩

/-- On a region whose bytes hold a heap satisfying `Heap.Inv`, the byte-level allocator follows
the abstract first-fit heap. `Allocate` of a positive size returns what `Heap.allocateRequired`
returns for the rounded size, leaves bytes that hold its heap, and returns `0` with the state
unchanged exactly when no block of the free list is large enough. `Free` of a used block's
payload leaves bytes that hold `Heap.free`. -/
theorem slab_refines {h : Heap} (hR : s.Region) (hs : Repr s h)
    (H : Heap.Inv s.firstBlockOffset s.heapEnd h) :
    (∀ fuel, s.allocate 0 fuel = some (s, 0)) ∧
    (∀ n, 0 < n → n ≤ 2 ^ 64 - 192 → ∃ t p,
      (∀ fuel, h.freeList.length < fuel → s.allocate n fuel = some (t, p)) ∧
      p = (h.allocateRequired (requiredTotalSize n)).2 ∧
      Repr t (h.allocateRequired (requiredTotalSize n)).1 ∧
      (p = 0 ∧ t = s ↔ ∀ x ∈ h.freeList, h.sizeAt x < requiredTotalSize n)) ∧
    ∀ b ∈ h.blocks, b.free = false → Repr (s.free (b.offset + 64)) (h.free (b.offset + 64)) := by
  refine ⟨fun _ => rfl, fun n hn0 hn => ?_,
    fun b hb hbu => free_refines hs H (hR.bounds H.end_lt) hb hbu⟩
  obtain ⟨t, hal, ht, hunch⟩ := allocate_refines hs H hn (Nat.lt_succ_self h.freeList.length)
  have ha : h.allocate n = h.allocateRequired (requiredTotalSize n) := if_neg hn0.ne'
  rw [ha] at hal ht hunch
  refine ⟨t, _, fun fuel hf => (allocate_fuel hs.freeList n hf).trans hal, rfl, ht, ?_⟩
  rw [← H.allocateRequired_snd_eq_zero]
  exact ⟨And.left, fun h0 => ⟨h0, hunch h0⟩⟩

theorem slab_refines_example :
    (create 64 1024 64 0 fun _ => 0).Region ∧
      Repr (create 64 1024 64 0 fun _ => 0) (initHeap 64 1024 64) ∧
      Heap.Inv (create 64 1024 64 0 fun _ => 0).firstBlockOffset
        (create 64 1024 64 0 fun _ => 0).heapEnd (initHeap 64 1024 64) ∧
      (∀ fuel, (create 64 1024 64 0 fun _ => 0).allocate 0 fuel =
        some ((create 64 1024 64 0 fun _ => 0), 0)) ∧
      (∀ n, 0 < n → n ≤ 2 ^ 64 - 192 → ∃ t p,
        (∀ fuel, (initHeap 64 1024 64).freeList.length < fuel →
          (create 64 1024 64 0 fun _ => 0).allocate n fuel = some (t, p)) ∧
        p = ((initHeap 64 1024 64).allocateRequired (requiredTotalSize n)).2 ∧
        Repr t ((initHeap 64 1024 64).allocateRequired (requiredTotalSize n)).1 ∧
        (p = 0 ∧ t = (create 64 1024 64 0 fun _ => 0) ↔
          ∀ x ∈ (initHeap 64 1024 64).freeList,
            (initHeap 64 1024 64).sizeAt x < requiredTotalSize n)) ∧
      ∀ b ∈ (initHeap 64 1024 64).blocks, b.free = false →
        Repr ((create 64 1024 64 0 fun _ => 0).free (b.offset + 64))
          ((initHeap 64 1024 64).free (b.offset + 64)) :=
  ⟨create_example_heapInv.1.toRegion, create_example_repr, create_example_heapInv.2,
    slab_refines create_example_heapInv.1.toRegion create_example_repr create_example_heapInv.2⟩

/-- `Allocate(0)` returns `0` and changes nothing although the free list holds a block of
`1024` bytes, more than the `128` bytes the rounded size asks for. -/
theorem allocate_zero_with_fitting_block :
    (create 64 1024 64 0 fun _ => 0).HeapInv ∧
      Repr (create 64 1024 64 0 fun _ => 0) (initHeap 64 1024 64) ∧
      (∃ x ∈ (initHeap 64 1024 64).freeList, requiredTotalSize 0 ≤ (initHeap 64 1024 64).sizeAt x) ∧
      ∀ fuel, (create 64 1024 64 0 fun _ => 0).allocate 0 fuel =
        some ((create 64 1024 64 0 fun _ => 0), 0) :=
  ⟨create_example_heapInv.1, create_example_repr,
    ⟨64, by simp [initHeap], by simp [requiredTotalSize_eq, initHeap, sizeAt, locate]⟩,
    fun _ => rfl⟩

theorem region_foldl_free (ps : List Nat) (s : SlabAllocator) :
    (ps.foldl SlabAllocator.free s).region = s.region := by
  induction ps generalizing s with
  | nil => rfl
  | cons p ps ih => exact (ih _).trans (region_free s p)

/-- Freeing a list of used payloads, each once, follows `Heap.free` step by step. -/
theorem foldl_free_refines {h : Heap} (hR : s.Region) (hs : Repr s h)
    (H : Heap.Inv s.firstBlockOffset s.heapEnd h) {ps : List Nat}
    (hps : ps.Perm (usedPayloads h.blocks)) :
    Repr (ps.foldl SlabAllocator.free s) (ps.foldl Heap.free h) ∧
      Heap.Inv s.firstBlockOffset s.heapEnd (ps.foldl Heap.free h) ∧
      usedPayloads (ps.foldl Heap.free h).blocks = [] := by
  induction ps generalizing s h with
  | nil => exact ⟨hs, H, List.perm_nil.1 hps.symm⟩
  | cons p ps ih =>
    obtain ⟨b, ⟨hb, hbu⟩, rfl⟩ : ∃ b, (b ∈ h.blocks ∧ b.free = false) ∧ b.offset + 64 = p := by
      simpa [usedPayloads] using hps.subset (List.mem_cons_self p ps)
    have hreg := region_free s (b.offset + 64)
    have H' : Heap.Inv (s.free (b.offset + 64)).firstBlockOffset (s.free (b.offset + 64)).heapEnd
        (h.free (b.offset + 64)) := by
      rw [firstBlockOffset_of_region hreg, heapEnd_of_region hreg]; exact H.free _
    have R := ih (hR.of_region hreg) (free_refines hs H (hR.bounds H.end_lt) hb hbu) H'
      ((List.perm_cons _).1 (hps.trans (H.usedPayloads_free hb hbu)))
    rw [firstBlockOffset_of_region hreg, heapEnd_of_region hreg] at R
    simpa only [List.foldl_cons] using R

/-- On a nonempty heap, freeing the payloads of all used blocks in any order leaves one free
block over the whole heap, alone on the free list. -/
theorem free_all_used {h : Heap} (hR : s.Region) (hs : Repr s h)
    (H : Heap.Inv s.firstBlockOffset s.heapEnd h) (hne : s.firstBlockOffset < s.heapEnd)
    {ps : List Nat} (hps : ps.Perm (usedPayloads h.blocks)) :
    (ps.foldl SlabAllocator.free s).region = s.region ∧
      Repr (ps.foldl SlabAllocator.free s)
        ⟨[⟨s.firstBlockOffset, s.heapEnd - s.firstBlockOffset, true⟩], [s.firstBlockOffset]⟩ := by
  obtain ⟨hr, Hf, hu⟩ := foldl_free_refines hR hs H hps
  exact ⟨region_foldl_free ps s, Hf.eq_single hne hu ▸ hr⟩

theorem free_all_used_example :
    ∃ t₁ t₂, (create 64 1024 64 0 fun _ => 0).allocate 1 2 = some (t₁, 128) ∧
      t₁.allocate 1 2 = some (t₂, 320) ∧
      ([128, 320].foldl SlabAllocator.free t₂).region = t₂.region ∧
      Repr ([128, 320].foldl SlabAllocator.free t₂) ⟨[⟨64, 1024, true⟩], [64]⟩ := by
  obtain ⟨t₁, t₂, hal₁, hal₂, -, -, -, hR, hs, H⟩ := create_example_allocate_twice
  have hreg := (region_of_allocate _ hal₂).trans (region_of_allocate _ hal₁)
  have hfirst : t₂.firstBlockOffset = 64 := firstBlockOffset_of_region hreg
  have hend : t₂.heapEnd = 1088 := heapEnd_of_region hreg
  have hps : [128, 320].Perm (usedPayloads [⟨64, 192, false⟩, ⟨256, 192, false⟩, ⟨448, 640, true⟩]) :=
    .of_eq (by decide)
  have := free_all_used hR hs H (by omega) hps
  rw [hfirst, hend] at this
  exact ⟨t₁, t₂, hal₁, hal₂, this⟩

/-- `Init` on a region of no bytes leaves a state that satisfies the heap invariant with no
block at all: no order of frees ends in one block, and the free list stays empty. -/
theorem empty_heap_has_no_block :
    (create 64 0 64 64 fun _ => 0).HeapInv ∧
      Repr (create 64 0 64 64 fun _ => 0) ⟨[], []⟩ ∧
      usedPayloads ([] : List Block) = [] ∧
      (create 64 0 64 64 fun _ => 0).freeListHeadOffset = 0 := by
  have hc : (create 64 0 64 64 fun _ => 0) = ⟨64, 0, 64, 0, 64, fun _ => 0⟩ := rfl
  have hs : Repr (create 64 0 64 64 fun _ => 0) ⟨[], []⟩ :=
    ⟨fun _ h => absurd h (List.not_mem_nil _), by rw [hc]; exact ⟨by simp, by simp, rfl, by simp, by simp⟩⟩
  have hinv : Heap.Inv (create 64 0 64 64 fun _ => 0).firstBlockOffset
      (create 64 0 64 64 fun _ => 0).heapEnd ⟨[], []⟩ := by
    rw [hc]; exact ⟨⟨rfl, by decide, by simp⟩, by simp, by simp, by simp⟩
  refine ⟨⟨⟨?_, ?_, ?_, ?_⟩, ⟨[], []⟩, hs, hinv⟩, hs, rfl, ?_⟩ <;> rw [hc] <;> decide

end HyperionRuntime.Slab
