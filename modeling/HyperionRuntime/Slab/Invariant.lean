import HyperionRuntime.Slab.Refinement

/-!
# The heap invariant

`SlabAllocator.HeapInv` is the invariant of the slab allocator over its byte region: the
region is a range of real addresses whose first block is 64-byte aligned (`Region`), and the
bytes hold an abstract heap that satisfies `Heap.Inv` over
`[m_first_block_offset, m_base_offset + m_total_size)`. The address of every block, and of
every payload, is then 64-byte aligned (`Region.getPtr_aligned`).
-/

namespace HyperionRuntime.Slab
open Heap

namespace SlabAllocator

/-- The backing region `[m_base, m_base + m_total_size)` is a range of nonzero addresses, the
heap starts at or after `m_base_offset`, and the first block's address is 64-byte aligned. -/
structure Region (s : SlabAllocator) : Prop where
  base_pos : 0 < s.base
  base_add_le : s.base + s.totalSize ≤ 2 ^ 64
  baseOffset_le : s.baseOffset ≤ s.firstBlockOffset
  first_aligned : s.getPtr s.firstBlockOffset % 64 = 0

/-- The end of the heap, `m_base_offset + m_total_size`. -/
def heapEnd (s : SlabAllocator) : Nat := s.baseOffset + s.totalSize

/-- The heap invariant: a region whose bytes hold an abstract heap that satisfies `Heap.Inv`. -/
structure HeapInv (s : SlabAllocator) extends Region s : Prop where
  heap : ∃ h, Repr s h ∧ Heap.Inv s.firstBlockOffset s.heapEnd h

/-- A payload offset of a used block of the heap that the bytes hold. -/
def UsedPayload (s : SlabAllocator) (p : Nat) : Prop :=
  ∃ h, Repr s h ∧ Heap.Inv s.firstBlockOffset s.heapEnd h ∧
    ∃ c ∈ h.blocks, c.free = false ∧ p = c.offset + 64

variable {s t : SlabAllocator}

theorem Region.of_region (hR : s.Region) (h : t.region = s.region) : t.Region := by
  simp only [region, Prod.mk.injEq] at h
  obtain ⟨h₁, h₂, h₃, h₄⟩ := h
  exact ⟨h₁ ▸ hR.base_pos, h₁ ▸ h₂ ▸ hR.base_add_le, h₃ ▸ h₄ ▸ hR.baseOffset_le,
    by simpa only [getPtr, h₁, h₃, h₄] using hR.first_aligned⟩

theorem heapEnd_of_region (h : t.region = s.region) : t.heapEnd = s.heapEnd := by
  simp only [region, Prod.mk.injEq] at h
  simp only [heapEnd, h.2.1, h.2.2.1]

theorem firstBlockOffset_of_region (h : t.region = s.region) :
    t.firstBlockOffset = s.firstBlockOffset := by
  simp only [region, Prod.mk.injEq] at h
  exact h.2.2.2

/-- Inside the heap, `GetPtr` does not wrap. -/
theorem Region.getPtr_eq (hR : s.Region) (he : s.heapEnd < 2 ^ 64) {o : Nat}
    (h₁ : s.firstBlockOffset ≤ o) (h₂ : o < s.heapEnd) :
    s.getPtr o = s.base + (o - s.baseOffset) := by
  have := hR.base_add_le; have := hR.baseOffset_le
  unfold heapEnd at h₂ he
  rw [getPtr, sub64_of_le (by omega) (by omega), add64_of_lt (by omega)]

theorem Region.bounds (hR : s.Region) (he : s.heapEnd < 2 ^ 64) :
    Bounds s s.firstBlockOffset s.heapEnd := by
  refine ⟨rfl, ?_, fun o h₁ h₂ => ?_⟩
  · unfold heapEnd at he ⊢; rw [add64_of_lt (by omega), Nat.add_comm]
  · rw [hR.getPtr_eq he h₁ h₂]; have := hR.base_pos; omega

/-- An offset of the heap congruent to the first block's modulo `64` has an aligned address. -/
theorem Region.getPtr_aligned (hR : s.Region) (he : s.heapEnd < 2 ^ 64) {o : Nat}
    (h₁ : s.firstBlockOffset ≤ o) (h₂ : o < s.heapEnd) (ho : o % 64 = s.firstBlockOffset % 64) :
    s.getPtr o % 64 = 0 := by
  have ha := hR.first_aligned
  have := hR.baseOffset_le
  rw [hR.getPtr_eq he le_rfl (by omega)] at ha
  rw [hR.getPtr_eq he h₁ h₂]
  omega

end SlabAllocator

end HyperionRuntime.Slab
