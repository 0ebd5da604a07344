import HyperionRuntime.Slab.Frame
import HyperionRuntime.Slab.Sequences

/-!
# A used block survives every run

A client keeps its data in the payload of a block `Allocate` gave it, and until the client frees
the block the allocator must not write there. `Heap.Keeps u h cs` says that the calls `cs` stay in
the allocator's contract from the abstract heap `h` and never free the used block `u`: each size
is below the wrap, and each `Free` is of `0` or of the payload of another used block. Such a run
returns, keeps the heap invariant, and leaves every byte of `u` as it was (`run_keeps_used`).
Each call's frame (`allocate_touches`, `free_touches`) is the step, and the abstract heap keeps
`u` used from call to call (`Heap.mem_allocate_of_used`, `Heap.Inv.mem_free_of_used`).
-/

namespace HyperionRuntime.Slab
open BlockHeader Heap SlabAllocator

/-! ## The abstract heap keeps a used block -/

section Used
variable {first e : Nat} {h : Heap} {b u : Block} {fl : List Nat} {pre post : List Block}

/-- `mergeRight` swallows a free block only. -/
theorem mem_mergeRight_of_used (hu : u ∈ post) (huf : u.free = false) : u ∈ (mergeRight b fl post).2.1 := by
  cases post with
  | nil => cases hu
  | cons r rest =>
    by_cases hrf : r.free
    · simp only [mergeRight, hrf, if_true]
      exact (List.mem_cons.1 hu).resolve_left fun h => by rw [h, hrf] at huf; cases huf
    · simpa [mergeRight, hrf] using hu

/-- `mergeLeft` grows a free block only. -/
theorem mem_mergeLeft_of_used (hu : u ∈ pre ∨ u ∈ post) (huf : u.free = false) :
    u ∈ (mergeLeft b post fl pre).blocks := by
  unfold mergeLeft
  split
  next l hl =>
    obtain ⟨pre, rfl⟩ := List.getLast?_eq_some_iff.1 hl
    split_ifs with hlf
    · simp only [List.dropLast_concat, List.mem_append, List.mem_cons]
      simp only [List.mem_append, List.mem_singleton] at hu
      rcases hu with (hu | rfl) | hu
      · exact .inl hu
      · simp [hlf] at huf
      · exact .inr (.inr hu)
    · simp only [List.mem_append, List.mem_singleton, List.mem_cons] at hu ⊢
      tauto
  next hl =>
    rw [List.getLast?_eq_none_iff.1 hl] at hu
    exact List.mem_cons_of_mem _ (hu.resolve_left (List.not_mem_nil _))

/-- `Free` of another block keeps a used block. -/
theorem Heap.Inv.mem_free_of_used (H : Inv first e h) {c : Block} (hc : c ∈ h.blocks) (hcu : c ≠ u)
    (hu : u ∈ h.blocks) (huf : u.free = false) : u ∈ (h.free (c.offset + 64)).blocks := by
  obtain ⟨bs, fl⟩ := h
  obtain ⟨pre, post, rfl⟩ := List.append_of_mem hc
  simp only [Heap.free, Nat.add_sub_cancel, H.locate_eq, if_neg (by omega : c.offset + 64 ≠ 0)]
  split_ifs; · exact hu
  rcases List.mem_append.1 ((mem_split_iff.1 hu).resolve_left (Ne.symm hcu)) with hu | hu
  · exact mem_mergeLeft_of_used (.inl hu) huf
  · exact mem_mergeLeft_of_used (.inr (mem_mergeRight_of_used hu huf)) huf

end Used

/-! ## Runs -/

/-- The calls `cs` stay in the allocator's contract from the abstract heap `h` and never free the
used block `u`: each size is below the wrap, and each `Free` is of `0` or of the payload of a used
block other than `u`. -/
def Heap.Keeps (u : Block) : Heap → List Call → Prop
  | _, [] => True
  | h, .allocate n :: cs => n ≤ 2 ^ 64 - 192 ∧ Keeps u (h.allocate n).1 cs
  | h, .free p :: cs =>
    (p = 0 ∨ ∃ c ∈ h.blocks, c.free = false ∧ c ≠ u ∧ p = c.offset + 64) ∧ Keeps u (h.free p) cs

theorem Heap.free_zero (h : Heap) : h.free 0 = h := if_pos rfl

/-- A used block survives every run that keeps it: from bytes that hold a heap satisfying the
invariant, with `2 ^ 64` fuel, the run returns, keeps the invariant, and leaves every byte of the
block, header, payload and footer, as it was. -/
theorem run_keeps_used {u : Block} {fuel : Nat} (hfuel : 2 ^ 64 ≤ fuel) :
    ∀ (cs : List Call) {s : SlabAllocator} {h : Heap}, s.Region → Repr s h →
      Heap.Inv s.firstBlockOffset s.heapEnd h → u ∈ h.blocks → u.free = false → Keeps u h cs →
      ∃ t rs, s.run fuel cs = some (t, rs) ∧ t.HeapInv ∧
        ∀ j, u.offset ≤ j → j < u.offset + u.size → t.mem j = s.mem j
  | [], s, h, hR, hs, H, _, _, _ => ⟨s, [], rfl, ⟨hR, h, hs, H⟩, fun _ _ _ => rfl⟩
  | .allocate n :: cs, s, h, hR, hs, H, hu, huf, ⟨hn, hk⟩ => by
    have hfuel' := Nat.lt_of_lt_of_le H.length_freeList_lt hfuel
    obtain ⟨s', hal, hs', -⟩ := allocate_refines hs H hn hfuel'
    have hreg := region_of_allocate s hal
    have H' : Inv s'.firstBlockOffset s'.heapEnd (h.allocate n).1 := by
      rw [firstBlockOffset_of_region hreg, heapEnd_of_region hreg]; exact H.allocate hn
    obtain ⟨t, rs, hrun, ht, hsame⟩ :=
      run_keeps_used hfuel cs (hR.of_region hreg) hs' H' (mem_allocate_of_used H n hu huf) huf hk
    have hal' := allocate_touches hs H hn hfuel' hal
    refine ⟨t, (h.allocate n).2 :: rs, by simp [SlabAllocator.run, SlabAllocator.call, hal, hrun], ht,
      fun j h₁ h₂ => (hsame j h₁ h₂).trans ?_⟩
    exact hal' j (by have := H.lt hu; omega) (H.not_inFree hu huf h₁ h₂)
  | .free p :: cs, s, h, hR, hs, H, hu, huf, ⟨hp, hk⟩ => by
    rcases hp with rfl | ⟨c, hc, hcf, hcu, rfl⟩
    · rw [Heap.free_zero] at hk
      obtain ⟨t, rs, hrun, ht, hsame⟩ := run_keeps_used hfuel cs hR hs H hu huf hk
      exact ⟨t, 0 :: rs, by simp [SlabAllocator.run, SlabAllocator.call, free_zero, hrun], ht, hsame⟩
    have hreg := region_free s (c.offset + 64)
    have H' : Inv (s.free (c.offset + 64)).firstBlockOffset (s.free (c.offset + 64)).heapEnd
        (h.free (c.offset + 64)) := by
      rw [firstBlockOffset_of_region hreg, heapEnd_of_region hreg]; exact H.free _
    obtain ⟨t, rs, hrun, ht, hsame⟩ := run_keeps_used hfuel cs (hR.of_region hreg)
      (free_refines hs H (hR.bounds H.end_lt) hc hcf) H' (H.mem_free_of_used hc hcu hu huf) huf hk
    have hft := free_touches hs H (hR.bounds H.end_lt) hc hcf
    refine ⟨t, 0 :: rs, by simp [SlabAllocator.run, SlabAllocator.call, hrun], ht,
      fun j h₁ h₂ => (hsame j h₁ h₂).trans (hft j (by have := H.lt hu; omega) ?_)⟩
    rintro (hj | hj)
    · have := H.disjoint hu hc (Ne.symm hcu); omega
    · exact H.not_inFree hu huf h₁ h₂ hj

theorem run_keeps_used_example :
    ∃ t, (SlabAllocator.create 64 1024 64 0 fun _ => 0).allocate 1 2 = some (t, 128) ∧
      ∃ t' rs, t.run (2 ^ 64) [.allocate 100, .free 320, .free 0] = some (t', rs) ∧ t'.HeapInv ∧
        ∀ j, 64 ≤ j → j < 64 + 192 → t'.mem j = t.mem j := by
  obtain ⟨t, -, hal, -, hR, ht, H, -⟩ := create_example_allocate_twice
  exact ⟨t, hal, run_keeps_used (u := ⟨64, 192, false⟩) le_rfl _ hR ht H (by decide) rfl
    ⟨by decide, .inr ⟨⟨256, 256, false⟩, by decide, rfl, by decide, rfl⟩, .inl rfl, trivial⟩⟩

end HyperionRuntime.Slab
