import HyperionRuntime.Machine.Memory

/-!
# The slab allocator

`Cognitron::Core::SlabAllocator` (`include/memory/SlabAllocator.hpp`), method by method.
A block is a 64-byte `BlockHeader`, its payload and an 8-byte `BlockFooter`; header and
footer hold the word `size_and_state`, the size with bit 0 as the free bit. A free block
keeps a `FreeNode { next_offset, prev_offset }` at the start of its payload, that is at
`offset + 64` and `offset + 72`. Offset `0` is the null link.

The memory is indexed by the allocator's virtual offsets: the byte at offset `o` lives at
address `GetPtr(o) = m_base + (o - m_base_offset)`, and since that map is a bijection on
64-bit addresses nothing is lost. Pointer arithmetic on offsets that are only passed to
`load`/`store` is written with `+`, as `Mem` reduces addresses modulo `2 ^ 64` itself. The
spinlock only serializes calls; the model is the serialized allocator.

`Allocate`'s first-fit `while` loop follows `next_offset` links and need not stop on an
arbitrary memory, so it runs on `fuel`: `none` means the fuel ran out.
-/

namespace HyperionRuntime.Slab

/-! ## `BlockHeader` words -/

namespace BlockHeader

/-- `GetSize()`: `size_and_state & SIZE_MASK`, the word with bit 0 cleared. -/
def getSize (w : Nat) : Nat := w - w % 2

/-- `IsFree()`: `(size_and_state & FREE_MASK) != 0`. -/
def isFree (w : Nat) : Bool := w % 2 = 1

/-- `Set(size, free)`: `(size & SIZE_MASK) | (free ? FREE_MASK : 0)`. `SetFree(free)` on a word
`w` is `set w free`, and `SetSize(size)` is `set size (isFree w)`. -/
def set (size : Nat) (free : Bool) : Nat := size - size % 2 + if free then 1 else 0

@[simp] theorem getSize_set (size : Nat) (free : Bool) : getSize (set size free) = size - size % 2 := by
  cases free <;> simp [getSize, set] <;> omega

@[simp] theorem isFree_set (size : Nat) (free : Bool) : isFree (set size free) = free := by
  cases free <;> simp [isFree, set] <;> omega

theorem set_lt {size : Nat} (h : size < 2 ^ 64) (free : Bool) : set size free < 2 ^ 64 := by
  cases free <;> simp [set] <;> omega

end BlockHeader

open BlockHeader

/-- The fields of a `SlabAllocator` that its methods read, and the bytes of its region. -/
structure SlabAllocator where
  /-- `m_base`, the address of the backing region. -/
  base : Nat
  /-- `m_total_size`. -/
  totalSize : Nat
  /-- `m_base_offset`, the virtual offset of the region's first byte. -/
  baseOffset : Nat
  /-- `m_free_list_head_offset`. -/
  freeListHeadOffset : Nat
  /-- `m_first_block_offset`. -/
  firstBlockOffset : Nat
  /-- The bytes, indexed by virtual offset. -/
  mem : Mem

namespace SlabAllocator

/-! ## Private helpers -/

/-- `GetPtr<T>(offset)`: the address `m_base + (offset - m_base_offset)`. -/
def getPtr (s : SlabAllocator) (o : Nat) : Nat := add64 s.base (sub64 o s.baseOffset)

/-- The 64-bit word at offset `o`. -/
def load (s : SlabAllocator) (o : Nat) : Nat := s.mem.load o

/-- Writes the 64-bit word `v` at offset `o`. -/
def store (s : SlabAllocator) (o v : Nat) : SlabAllocator := { s with mem := s.mem.store o v }

/-- `GetFooter(header)`: `header + GetSize() - sizeof(BlockFooter)`. -/
def getFooter (s : SlabAllocator) (header : Nat) : Nat := sub64 (header + getSize (s.load header)) 8

/-- `UpdateFooter(header)`: copies the header word into the footer. -/
def updateFooter (s : SlabAllocator) (header : Nat) : SlabAllocator :=
  s.store (s.getFooter header) (s.load header)

/-- The link fix the source writes out three times: `if (prev != 0)
GetPayload<FreeNode>(GetPtr(prev))->next_offset = v; else m_free_list_head_offset = v;` -/
def setNextOrHead (s : SlabAllocator) (prev v : Nat) : SlabAllocator :=
  if prev ≠ 0 then s.store (prev + 64) v else { s with freeListHeadOffset := v }

/-- Its companion: `if (next != 0) GetPayload<FreeNode>(GetPtr(next))->prev_offset = v;` -/
def setPrev (s : SlabAllocator) (next v : Nat) : SlabAllocator :=
  if next ≠ 0 then s.store (next + 72) v else s

/-- `InsertHead(offset)`. -/
def insertHead (s : SlabAllocator) (offset : Nat) : SlabAllocator :=
  let s₁ := (s.store (offset + 64) s.freeListHeadOffset).store (offset + 72) 0
  { s₁.setPrev s₁.freeListHeadOffset offset with freeListHeadOffset := offset }

/-- `RemoveFromFreeList(offset)`. Each `node->next_offset` and `node->prev_offset` is read
again where the source reads it. -/
def removeFromFreeList (s : SlabAllocator) (offset : Nat) : SlabAllocator :=
  let s₁ := s.setNextOrHead (s.load (offset + 72)) (s.load (offset + 64))
  s₁.setPrev (s₁.load (offset + 64)) (s₁.load (offset + 72))

/-! ## `Init` -/

/-- `Init()`. The source also computes a `usable_size` that nothing reads. -/
def init (s : SlabAllocator) : SlabAllocator :=
  let alignedBase := alignDown (add64 s.base 63)
  let adjustment := sub64 alignedBase s.base
  let effectiveStart := add64 s.baseOffset adjustment
  let effectiveSize := sub64 s.totalSize adjustment
  if effectiveSize < 64 + 8 then s else
  let s₁ := { s with firstBlockOffset := effectiveStart }.store effectiveStart (set effectiveSize true)
  let s₂ := s₁.store (s₁.getFooter effectiveStart) (s₁.load effectiveStart)
  { (s₂.store (effectiveStart + 64) 0).store (effectiveStart + 72) 0 with
    freeListHeadOffset := effectiveStart }

/-- The constructor `SlabAllocator(base_addr, total_size, start_offset)`: the head starts at
`0`, `m_first_block_offset` is left uninitialized (`first`), and `Init()` runs. -/
def create (base totalSize startOffset first : Nat) (mem : Mem) : SlabAllocator :=
  init ⟨base, totalSize, startOffset, 0, first, mem⟩

/-! ## `Allocate` -/

/-- `(size + 63) & ~63` and then the rounded `sizeof(BlockHeader) + payload_size + footer_size`. -/
def requiredTotalSize (size : Nat) : Nat :=
  let payloadSize := alignDown (add64 size 63)
  alignDown (add64 (add64 (add64 64 payloadSize) 8) 63)

/-- Below the wrap, the rounded size is the payload rounded up to `64` plus header and footer
rounded up to `128`. -/
theorem requiredTotalSize_eq {n : Nat} (hn : n ≤ 2 ^ 64 - 192) :
    requiredTotalSize n = (n + 63) / 64 * 64 + 128 := by
  simp only [requiredTotalSize, alignDown_add64]; unfold add64; omega

/-- The first-fit loop `while (curr_offset != 0)`, one iteration per unit of `fuel`: `some 0`
when the list ends, `some curr` at the first block of size at least `required`, `none` when
the fuel runs out. -/
def firstFit (s : SlabAllocator) (required : Nat) : Nat → Nat → Option Nat
  | 0, _ => none
  | fuel + 1, curr =>
    if curr = 0 then some 0
    else if required ≤ getSize (s.load curr) then some curr
    else s.firstFit required fuel (s.load (curr + 64))

/-- The split path's "Insert New Block into Free List in place of current" and "Fix Links":
the node at `new` copies the links of the node at `old`, and its neighbours point to `new`. -/
def spliceNode (s : SlabAllocator) (old new : Nat) : SlabAllocator :=
  let s₁ := s.store (new + 72) (s.load (old + 72))
  let s₂ := s₁.store (new + 64) (s₁.load (old + 64))
  let s₃ := s₂.setNextOrHead (s₂.load (new + 72)) new
  s₃.setPrev (s₃.load (new + 64)) new

/-- The split path: shrink the block at `curr` to `required` and used, make the remainder a
free block, and put it in the list where `curr` was. -/
def split (s : SlabAllocator) (curr required remaining : Nat) : SlabAllocator :=
  let s₁ := (s.store curr (set required false)).updateFooter curr
  let newBlockOffset := add64 curr required
  ((s₁.store newBlockOffset (set remaining true)).updateFooter newBlockOffset).spliceNode curr
    newBlockOffset

/-- The whole-block path. The source marks the header with `header->SetUsed(false)`, which
`BlockHeader` does not declare; it is read as `SetFree(false)`, which the path repeats after
unlinking anyway. The unlinking is the body of `RemoveFromFreeList` written out in place. -/
def useWhole (s : SlabAllocator) (curr : Nat) : SlabAllocator :=
  let s₁ := (s.store curr (set (s.load curr) false)).removeFromFreeList curr
  (s₁.store curr (set (s₁.load curr) false)).updateFooter curr

/-- `Allocate(size)`: the new state and the returned payload offset (`0` on failure). -/
def allocate (s : SlabAllocator) (size fuel : Nat) : Option (SlabAllocator × Nat) :=
  if size = 0 then some (s, 0) else
  let required := requiredTotalSize size
  match s.firstFit required fuel s.freeListHeadOffset with
  | none => none
  | some curr =>
    if curr = 0 then some (s, 0) else
    let remaining := getSize (s.load curr) - required
    if 64 + 64 + 8 ≤ remaining then some (s.split curr required remaining, add64 curr 64)
    else some (s.useWhole curr, add64 curr 64)

/-! ## `Free` -/

/-- The right-coalesce step of `Free`: merge the next block into the block at `blockOffset`
when it is below `m_total_size + m_base_offset`, its address is not null, and it is free. -/
def coalesceRight (s : SlabAllocator) (blockOffset nextBlockOffset : Nat) : SlabAllocator :=
  if nextBlockOffset < add64 s.totalSize s.baseOffset ∧ s.getPtr nextBlockOffset ≠ 0 ∧
      isFree (s.load nextBlockOffset) then
    let s₁ := s.removeFromFreeList nextBlockOffset
    let newSize := add64 (getSize (s₁.load blockOffset)) (getSize (s₁.load nextBlockOffset))
    (s₁.store blockOffset (set newSize (isFree (s₁.load blockOffset)))).updateFooter blockOffset
  else s

/-- The left-coalesce step of `Free` and the final `InsertHead`: when the footer before
`blockOffset` says free, grow that block over this one; otherwise put this block at the
head of the list. -/
def coalesceLeft (s : SlabAllocator) (blockOffset : Nat) : SlabAllocator :=
  if s.firstBlockOffset < blockOffset ∧ isFree (s.load (sub64 blockOffset 8)) then
    let prevOffset := sub64 blockOffset (getSize (s.load (sub64 blockOffset 8)))
    let newSize := add64 (getSize (s.load prevOffset)) (getSize (s.load blockOffset))
    (s.store prevOffset (set newSize (isFree (s.load prevOffset)))).updateFooter prevOffset
  else s.insertHead blockOffset

/-- `Free(payload_offset)`. A free header makes it return at once (the double-free check). -/
def free (s : SlabAllocator) (payloadOffset : Nat) : SlabAllocator :=
  if payloadOffset = 0 then s else
  let blockOffset := sub64 payloadOffset 64
  if isFree (s.load blockOffset) then s else
  let s₁ := (s.store blockOffset (set (s.load blockOffset) true)).updateFooter blockOffset
  (s₁.coalesceRight blockOffset (add64 blockOffset (getSize (s₁.load blockOffset)))).coalesceLeft
    blockOffset

end SlabAllocator

end HyperionRuntime.Slab
