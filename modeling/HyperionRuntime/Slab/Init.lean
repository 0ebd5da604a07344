import HyperionRuntime.Slab.Invariant

/-!
# `Init`

On a region `[base, base + T)` with start offset `O`, `Init` aligns the start by
`adjustment = (64 - base % 64) % 64` and makes the rest one free block. When that block is even,
at least `88` bytes and not at offset `0`, and the region is a real address range, the result
satisfies the heap invariant (`create_heapInv`). Below the alignment the subtraction
`m_total_size - adjustment` wraps and the guard against small regions lets it through
(`create_of_lt_adjustment`).
-/

namespace HyperionRuntime.Slab
open BlockHeader Heap

namespace SlabAllocator

section Create
variable {base T O first : Nat} {mem : Mem}

theorem adjustment_eq (base : Nat) (hb : base + 63 < 2 ^ 64) :
    sub64 (alignDown (add64 base 63)) base = (64 - base % 64) % 64 := by
  rw [alignDown_add64]; unfold sub64 add64; omega

/-- The state `Init` leaves on a region that holds one block: header and footer words, a
`FreeNode` of zeros, and the block at the head of the list. -/
theorem create_eq (hbT : base + T ≤ 2 ^ 64) (hOT : O + T < 2 ^ 64)
    (h88 : 88 + (64 - base % 64) % 64 ≤ T) (heven : (T - (64 - base % 64) % 64) % 2 = 0) :
    create base T O first mem =
      let x := O + (64 - base % 64) % 64
      ⟨base, T, O, x, x, (((mem.store x (set (T - (64 - base % 64) % 64) true)).store (O + T - 8)
        (set (T - (64 - base % 64) % 64) true)).store (x + 64) 0).store (x + 72) 0⟩ := by
  have hw := Nat.mod_eq_of_lt (set_lt (by omega : T - (64 - base % 64) % 64 < 2 ^ 64) true)
  have hf : sub64 (O + (64 - base % 64) % 64 + getSize (set (T - (64 - base % 64) % 64) true)) 8 =
      O + T - 8 := by
    rw [getSize_set, heven, Nat.sub_zero, sub64_of_le (by omega) (by omega)]; omega
  simp only [create, init, adjustment_eq base (by omega),
    add64_of_lt (by omega : O + (64 - base % 64) % 64 < 2 ^ 64),
    sub64_of_le (by omega : (64 - base % 64) % 64 ≤ T) (by omega)]
  rw [if_neg (by omega)]
  simp only [getFooter, load, store, Mem.load_store_self, hw, hf]

/-- The abstract heap `Init` makes: one free block over `[O + adjustment, O + T)`. -/
def initHeap (base T O : Nat) : Heap :=
  ⟨[⟨O + (64 - base % 64) % 64, T - (64 - base % 64) % 64, true⟩], [O + (64 - base % 64) % 64]⟩

theorem create_repr (hbT : base + T ≤ 2 ^ 64) (hOT : O + T < 2 ^ 64)
    (h88 : 88 + (64 - base % 64) % 64 ≤ T) (heven : (T - (64 - base % 64) % 64) % 2 = 0)
    (hO : 0 < O + (64 - base % 64) % 64) :
    Repr (create base T O first mem) (initHeap base T O) := by
  rw [create_eq hbT hOT h88 heven]
  have hw := set_lt (by omega : T - (64 - base % 64) % 64 < 2 ^ 64) true
  refine ⟨fun c hc => ?_, ⟨List.nodup_singleton _, by simp [initHeap]; omega, rfl,
    fun x hx => ?_, fun x hx => ?_⟩⟩
  · obtain rfl := List.mem_singleton.1 hc
    simp only [load, Mem.load_store_self, Nat.zero_mod, Block.word]
    refine ⟨?_, ?_⟩
    · rw [Mem.load_store_of_disjoint _ _ (by omega) (by omega) (by omega),
        Mem.load_store_of_disjoint _ _ (by omega) (by omega) (by omega),
        Mem.load_store_of_disjoint _ _ (by omega) (by omega) (by omega), Mem.load_store_self,
        Nat.mod_eq_of_lt hw]
    · rw [Mem.load_store_of_disjoint _ _ (by omega) (by omega) (by omega),
        Mem.load_store_of_disjoint _ _ (by omega) (by omega) (by omega),
        show O + (64 - base % 64) % 64 + (T - (64 - base % 64) % 64) - 8 = O + T - 8 by omega,
        Mem.load_store_self, Nat.mod_eq_of_lt hw]
  · obtain rfl := List.mem_singleton.1 hx
    rw [Mem.load_store_of_disjoint _ _ (by omega) (by omega) (by omega), Mem.load_store_self]
    simp [nextIn]
  · obtain rfl := List.mem_singleton.1 hx
    rw [Mem.load_store_self]
    simp [prevIn, nextIn]

/-- `Init` on a region holding one block of an even size of at least `88` bytes, not at offset
`0`, establishes the heap invariant. -/
theorem create_heapInv (hb : 0 < base) (hbT : base + T ≤ 2 ^ 64) (hOT : O + T < 2 ^ 64)
    (h88 : 88 + (64 - base % 64) % 64 ≤ T) (heven : (T - (64 - base % 64) % 64) % 2 = 0)
    (hO : 0 < O + (64 - base % 64) % 64) :
    (create base T O first mem).HeapInv ∧
      Heap.Inv (create base T O first mem).firstBlockOffset (create base T O first mem).heapEnd
        (initHeap base T O) := by
  have hinv : Heap.Inv (create base T O first mem).firstBlockOffset
      (create base T O first mem).heapEnd (initHeap base T O) := by
    rw [create_eq hbT hOT h88 heven]
    refine ⟨⟨by simp [initHeap, heapEnd]; omega, show O + T < 2 ^ 64 from hOT, fun c hc => ?_⟩,
      List.nodup_singleton _, fun x => by simp [initHeap, @eq_comm _ x], List.chain'_singleton _⟩
    obtain rfl := List.mem_singleton.1 hc
    exact ⟨hO, by dsimp only; omega, heven, rfl⟩
  refine ⟨⟨⟨?_, ?_, ?_, ?_⟩, initHeap base T O, create_repr hbT hOT h88 heven hO, hinv⟩, hinv⟩ <;>
    rw [create_eq hbT hOT h88 heven]
  · exact hb
  · exact hbT
  · simp
  · simp only [getPtr, sub64_of_le (by omega : O ≤ O + (64 - base % 64) % 64) (by omega),
      add64_of_lt (by omega : base + (O + (64 - base % 64) % 64 - O) < 2 ^ 64)]
    omega

/-- Below the alignment, `effective_size = m_total_size - adjustment` wraps to at least
`2 ^ 64 - 63` and passes the guard: `Init` writes the header of a block of that size at
`O + adjustment`, whose address `base + adjustment` lies past the region. -/
theorem create_of_lt_adjustment (hb : base + 63 < 2 ^ 64) (hT : T < (64 - base % 64) % 64)
    (hO : O + (64 - base % 64) % 64 + 80 ≤ 2 ^ 64) (h9 : 9 ≤ O + T) :
    (create base T O first mem).freeListHeadOffset = O + (64 - base % 64) % 64 ∧
      (create base T O first mem).firstBlockOffset = O + (64 - base % 64) % 64 ∧
      (create base T O first mem).getPtr (O + (64 - base % 64) % 64) = base + (64 - base % 64) % 64 ∧
      (create base T O first mem).load (O + (64 - base % 64) % 64) =
        set (T + 2 ^ 64 - (64 - base % 64) % 64) true := by
  have ha : (64 - base % 64) % 64 < 64 := Nat.mod_lt _ (by decide)
  simp only [create, init, adjustment_eq base hb]
  generalize (64 - base % 64) % 64 = a at *
  have hw := Nat.mod_eq_of_lt (set_lt (by omega : T + 2 ^ 64 - a < 2 ^ 64) true)
  have hf : sub64 (O + a + getSize (set (T + 2 ^ 64 - a) true)) 8 = O + T - (T + 2 ^ 64 - a) % 2 - 8 := by
    rw [getSize_set]; unfold sub64; omega
  simp only [add64_of_lt (by omega : O + a < 2 ^ 64), show sub64 T a = T + 2 ^ 64 - a by unfold sub64; omega]
  rw [if_neg (by omega)]
  refine ⟨rfl, rfl, ?_, ?_⟩
  · show add64 base (sub64 (O + a) O) = _
    rw [sub64_of_le (by omega) (by omega), add64_of_lt (by omega)]; omega
  · simp only [getFooter, load, store, Mem.load_store_self, hw, hf]
    rw [Mem.load_store_of_disjoint _ _ (by omega) (by omega) (by omega),
      Mem.load_store_of_disjoint _ _ (by omega) (by omega) (by omega),
      Mem.load_store_of_disjoint _ _ (by omega) (by omega) (by omega), Mem.load_store_self, hw]

/-- A region of no bytes at address `1`: the guard is meant to leave the allocator empty, but
`Init` links a block at offset `4159`, address `64`, whose header claims `2 ^ 64 - 64` bytes. -/
theorem create_small_region_not_empty :
    (create 1 0 4096 0 fun _ => 0).freeListHeadOffset = 4159 ∧
      (create 1 0 4096 0 fun _ => 0).getPtr 4159 = 64 ∧
      getSize ((create 1 0 4096 0 fun _ => 0).load 4159) = 2 ^ 64 - 64 := by
  obtain ⟨h₁, -, h₃, h₄⟩ := @create_of_lt_adjustment 1 0 4096 0 (fun _ => 0) (by omega) (by omega)
    (by omega) (by omega)
  exact ⟨h₁, h₃, by rw [h₄]; simp⟩

end Create

end SlabAllocator

end HyperionRuntime.Slab
