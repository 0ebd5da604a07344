import HyperionRuntime.Slab.FreeList
import Mathlib.Data.List.Chain

/-!
# The abstract heap

What the slab allocator is for, stated without bytes. A heap is the address-ordered list of
blocks `(offset, size, free)` together with the free list as a list of offsets.
`Heap.allocate` is first fit over the free list with the source's split rule, and
`Heap.free` marks a block free, merges a free right neighbour into it and then merges it into
a free left neighbour, putting it at the head of the free list only when it was not merged
left.

`Heap.Inv` is the heap invariant without its memory part: the blocks tile `[first, e)`, each
is aligned and at least `88` bytes (header, `FreeNode`, footer), the free list holds each free
block once and nothing else, and no two neighbours are both free. `Heap.Inv.allocate` and
`Heap.Inv.free` show that both operations keep it.
-/

namespace HyperionRuntime.Slab

/-- A block as the heap's address-ordered view sees it. -/
structure Block where
  offset : Nat
  size : Nat
  free : Bool
deriving DecidableEq, Repr

/-- The word a block keeps in its header and in its footer. -/
def Block.word (b : Block) : Nat := BlockHeader.set b.size b.free

/-- What each block satisfies, for offsets `ρ` modulo `64`: it is not at the null offset, it
has room for header, `FreeNode` and footer, its size survives `SIZE_MASK`, and it is aligned. -/
structure Block.Valid (ρ : Nat) (c : Block) : Prop where
  offset_pos : 0 < c.offset
  size_ge : 88 ≤ c.size
  size_even : c.size % 2 = 0
  aligned : c.offset % 64 = ρ

/-- Two neighbours that are not both free. -/
def Block.Apart (c d : Block) : Prop := ¬(c.free = true ∧ d.free = true)

/-- The blocks `bs` lie end to end from `a` to `e`, each header at the previous offset plus
`GetSize()`. -/
def Tiles : Nat → List Block → Nat → Prop
  | a, [], e => a = e
  | a, b :: bs, e => b.offset = a ∧ Tiles (a + b.size) bs e

/-- The abstract state of the allocator. -/
structure Heap where
  blocks : List Block
  freeList : List Nat
deriving DecidableEq, Repr

/-! ## Tiling -/

theorem mem_split_iff {pre post : List Block} {c d : Block} :
    d ∈ pre ++ c :: post ↔ d = c ∨ d ∈ pre ++ post := by
  simp only [List.mem_append, List.mem_cons]; tauto

section Tiling
variable {a e : Nat} {bs pre post : List Block} {c : Block}

@[simp] theorem tiles_nil : Tiles a [] e ↔ a = e := Iff.rfl

@[simp] theorem tiles_cons : Tiles a (c :: bs) e ↔ c.offset = a ∧ Tiles (a + c.size) bs e := Iff.rfl

theorem tiles_append {xs ys : List Block} :
    Tiles a (xs ++ ys) e ↔ ∃ m, Tiles a xs m ∧ Tiles m ys e := by
  induction xs generalizing a with
  | nil => simp
  | cons b xs ih => simp [ih, and_assoc]

/-- Tiling around one block: what lies before it ends at its offset, and what lies after it
starts at its end. -/
theorem tiles_middle : Tiles a (pre ++ c :: post) e ↔
    Tiles a pre c.offset ∧ Tiles (c.offset + c.size) post e := by
  rw [tiles_append]
  constructor
  · rintro ⟨m, h₁, h₂, h₃⟩
    exact ⟨h₂ ▸ h₁, h₂ ▸ h₃⟩
  · rintro ⟨h₁, h₂⟩
    exact ⟨c.offset, h₁, rfl, h₂⟩

theorem Tiles.le (h : Tiles a bs e) : a ≤ e := by
  induction bs generalizing a with
  | nil => exact Nat.le_of_eq h
  | cons b bs ih => exact (Nat.le_add_right a b.size).trans (ih h.2)

theorem Tiles.bounds (h : Tiles a bs e) (hc : c ∈ bs) : a ≤ c.offset ∧ c.offset + c.size ≤ e := by
  induction bs generalizing a with
  | nil => simp at hc
  | cons b bs ih =>
    obtain ⟨rfl, h⟩ := h
    rcases List.mem_cons.1 hc with rfl | hc
    · exact ⟨le_rfl, h.le⟩
    · have := ih h hc; omega

/-- In a tiling of blocks of positive size, a block ends before any later block starts. -/
theorem Tiles.before (h : Tiles a (pre ++ c :: post) e) {d : Block} (hd : d ∈ pre) :
    d.offset + d.size ≤ c.offset := ((tiles_middle.1 h).1.bounds hd).2

theorem Tiles.after (h : Tiles a (pre ++ c :: post) e) {d : Block} (hd : d ∈ post) :
    c.offset + c.size ≤ d.offset := ((tiles_middle.1 h).2.bounds hd).1

/-- A segment of a tiling spans from its first offset to its first offset plus its total size. -/
theorem tiles_sum : ∀ {bs : List Block} {a e : Nat}, Tiles a bs e → e = a + (bs.map Block.size).sum
  | [], _, _, h => h.symm.trans (Nat.add_zero _).symm
  | b :: bs, a, e, ⟨_, h⟩ => by rw [tiles_sum h]; simp [Nat.add_assoc]

end Tiling

/-! ## Layout -/

/-- The blocks tile `[first, e)` below `2 ^ 64`, and each is valid with the first block's
alignment. -/
structure Layout (first e : Nat) (bs : List Block) : Prop where
  tiles : Tiles first bs e
  end_lt : e < 2 ^ 64
  valid : ∀ c ∈ bs, c.Valid (first % 64)

section Layout
variable {first e : Nat} {bs pre post : List Block} {c d : Block}

theorem Layout.size_pos (H : Layout first e bs) (hc : c ∈ bs) : 0 < c.size := by
  have := (H.valid c hc).size_ge; omega

theorem Layout.bounds (H : Layout first e bs) (hc : c ∈ bs) :
    first ≤ c.offset ∧ c.offset + c.size ≤ e := H.tiles.bounds hc

/-- Blocks before `c` start below it and blocks after it start above it. -/
theorem Layout.offset_lt (H : Layout first e (pre ++ c :: post)) :
    (∀ d ∈ pre, d.offset < c.offset) ∧ ∀ d ∈ post, c.offset < d.offset := by
  refine ⟨fun d hd => ?_, fun d hd => ?_⟩
  · have := H.tiles.before hd; have := H.size_pos (c := d) (by simp [hd]); omega
  · have := H.tiles.after hd; have := H.size_pos (c := c) (by simp); omega

/-- Two blocks of a layout do not overlap. -/
theorem Layout.disjoint (H : Layout first e bs) (hc : c ∈ bs) (hd : d ∈ bs) (hcd : c ≠ d) :
    c.offset + c.size ≤ d.offset ∨ d.offset + d.size ≤ c.offset := by
  obtain ⟨pre, post, rfl⟩ := List.append_of_mem hc
  simp only [List.mem_append, List.mem_cons] at hd
  rcases hd with hd | rfl | hd
  · exact .inr (H.tiles.before hd)
  · exact absurd rfl hcd
  · exact .inl (H.tiles.after hd)

/-- Replacing a run `seg` by a run `mid` of valid blocks over the same bytes keeps a layout. -/
theorem Layout.replace {seg mid : List Block} (H : Layout first e (pre ++ seg ++ post))
    (htiles : ∀ m₁ m₂, Tiles m₁ seg m₂ → Tiles m₁ mid m₂) (hvalid : ∀ d ∈ mid, d.Valid (first % 64)) :
    Layout first e (pre ++ mid ++ post) := by
  obtain ⟨m₂, ⟨m₁, hpre_t, hseg_t⟩, hpost_t⟩ := by simpa only [tiles_append] using H.tiles
  refine ⟨tiles_append.2 ⟨m₂, tiles_append.2 ⟨m₁, hpre_t, htiles m₁ m₂ hseg_t⟩, hpost_t⟩, H.end_lt, ?_⟩
  intro d hd
  simp only [List.mem_append] at hd
  rcases hd with (hd | hd) | hd
  exacts [H.valid d (by simp [hd]), hvalid d hd, H.valid d (by simp [hd])]

end Layout

namespace Heap

/-! ## The operations -/

/-- The block at offset `x` with the blocks before and after it. -/
def locate (x : Nat) : List Block → Option (List Block × Block × List Block)
  | [] => none
  | b :: bs => if b.offset = x then some ([], b, bs)
    else (locate x bs).map fun r => (b :: r.1, r.2.1, r.2.2)

/-- The size of the block at `x`; `0` when no block starts there. -/
def sizeAt (h : Heap) (x : Nat) : Nat := ((locate x h.blocks).map (·.2.1.size)).getD 0

/-- First fit for a block of `required` bytes (already rounded): the first offset of the free
list whose block is large enough is split when at least `64 + 64 + 8` bytes would remain, the
remainder taking its place in the free list, and is used whole and unlinked otherwise. The
second component is the payload offset, `0` when nothing fits. -/
def allocateRequired (h : Heap) (required : Nat) : Heap × Nat :=
  match h.freeList.find? fun x => required ≤ h.sizeAt x with
  | none => (h, 0)
  | some x =>
    match locate x h.blocks with
    | none => (h, 0)
    | some (pre, c, post) =>
      if 64 + 64 + 8 ≤ c.size - required then
        (⟨pre ++ ⟨x, required, false⟩ :: ⟨x + required, c.size - required, true⟩ :: post,
          h.freeList.map (rename x (x + required))⟩, x + 64)
      else (⟨pre ++ ⟨x, c.size, false⟩ :: post, h.freeList.erase x⟩, x + 64)

/-- `Allocate(n)`: nothing for `n = 0`, first fit for the rounded size otherwise. -/
def allocate (h : Heap) (n : Nat) : Heap × Nat :=
  if n = 0 then (h, 0) else h.allocateRequired (SlabAllocator.requiredTotalSize n)

/-- The freed block `b`, merged with the block after it when that one is free (which then
leaves the free list). -/
def mergeRight (b : Block) (fl : List Nat) : List Block → Block × List Block × List Nat
  | r :: post =>
    if r.free then (⟨b.offset, b.size + r.size, true⟩, post, fl.erase r.offset)
    else (⟨b.offset, b.size, true⟩, r :: post, fl)
  | [] => (⟨b.offset, b.size, true⟩, [], fl)

/-- The freed block `b` merged into the block before it when that one is free (which keeps its
place in the free list), and put at the head of the free list otherwise. -/
def mergeLeft (b : Block) (post : List Block) (fl : List Nat) (pre : List Block) : Heap :=
  match pre.getLast? with
  | some l =>
    if l.free then ⟨pre.dropLast ++ ⟨l.offset, l.size + b.size, true⟩ :: post, fl⟩
    else ⟨pre ++ b :: post, b.offset :: fl⟩
  | none => ⟨b :: post, b.offset :: fl⟩

/-- `Free(p)` for the block whose payload starts at `p`; nothing for `p = 0`, for an offset
that is no block's payload, and for a block that is already free. -/
def free (h : Heap) (p : Nat) : Heap :=
  if p = 0 then h else
  match locate (p - 64) h.blocks with
  | none => h
  | some (pre, b, post) =>
    if b.free then h else
    let m := mergeRight b h.freeList post
    mergeLeft m.1 m.2.1 m.2.2 pre

/-! ## The invariant -/

/-- The heap invariant on the abstract state: the layout, the free list holds each free block
once and nothing else, and no two neighbours are both free. -/
structure Inv (first e : Nat) (h : Heap) extends Layout first e h.blocks : Prop where
  nodup : h.freeList.Nodup
  mem_freeList : ∀ x, x ∈ h.freeList ↔ ∃ c ∈ h.blocks, c.offset = x ∧ c.free = true
  coalesced : h.blocks.Chain' Block.Apart

section Locate
variable {a e x : Nat} {bs pre post : List Block} {c : Block}

theorem locate_eq_some : ∀ {bs : List Block} {pre post : List Block} {c : Block},
    locate x bs = some (pre, c, post) → bs = pre ++ c :: post ∧ c.offset = x
  | [], _, _, _, h => by simp [locate] at h
  | b :: bs, pre, post, c, h => by
    unfold locate at h
    split_ifs at h with hb
    · obtain ⟨rfl, rfl, rfl⟩ := by simpa using h
      exact ⟨rfl, hb⟩
    · obtain ⟨⟨pre', c', post'⟩, hr, heq⟩ := Option.map_eq_some'.1 h
      obtain ⟨rfl, rfl, rfl⟩ := by simpa using heq.symm
      obtain ⟨rfl, rfl⟩ := locate_eq_some hr
      exact ⟨rfl, rfl⟩

/-- In a tiling of blocks of positive size, `locate` finds every block at its offset. -/
theorem locate_of_tiles (h : Tiles a (pre ++ c :: post) e) (hpos : ∀ d ∈ pre, 0 < d.size) :
    locate c.offset (pre ++ c :: post) = some (pre, c, post) := by
  induction pre generalizing a with
  | nil => simp [locate]
  | cons d pre ih =>
    have hd := h.before (List.mem_cons_self d pre)
    have := hpos d (List.mem_cons_self d pre)
    rw [List.cons_append, locate, if_neg (by omega), ih h.2 fun d hd => hpos d (List.mem_cons_of_mem _ hd)]
    rfl

end Locate

/-! ## The invariant is kept -/

section Chain
variable {pre mid post : List Block} {c : Block}

theorem chain'_middle : (pre ++ c :: post).Chain' Block.Apart ↔
    pre.Chain' Block.Apart ∧ (c :: post).Chain' Block.Apart ∧ ∀ l ∈ pre.getLast?, l.Apart c := by
  rw [List.chain'_append]; simp

/-- Replacing the middle of a chain keeps it a chain when the new middle is one and fits
its neighbours. -/
theorem chain'_replace {seg : List Block} (h : (pre ++ seg ++ post).Chain' Block.Apart)
    (hmid : mid.Chain' Block.Apart) (hne : mid ≠ [])
    (hl : ∀ l ∈ pre.getLast?, ∀ m ∈ mid.head?, l.Apart m)
    (hr : ∀ m ∈ mid.getLast?, ∀ r ∈ post.head?, m.Apart r) :
    (pre ++ mid ++ post).Chain' Block.Apart := by
  rw [List.chain'_append, List.chain'_append]
  refine ⟨⟨h.left_of_append.left_of_append, hmid, hl⟩, h.right_of_append, fun m hm r hr' => hr m ?_ r hr'⟩
  rwa [List.getLast?_append_of_ne_nil _ hne] at hm

theorem Block.apart_used_left {d : Block} (hc : c.free = false) : c.Apart d := by simp [Block.Apart, hc]

theorem Block.apart_used_right {d : Block} (hd : d.free = false) : c.Apart d := by simp [Block.Apart, hd]

/-- A free block's neighbours in a coalesced chain are used. -/
theorem neighbours_used (h : (pre ++ c :: post).Chain' Block.Apart) (hc : c.free = true) :
    (∀ l ∈ pre.getLast?, l.free = false) ∧ ∀ r ∈ post.head?, r.free = false := by
  rw [chain'_middle, List.chain'_cons'] at h
  exact ⟨fun l hl => by simpa [Block.Apart, hc] using h.2.2 l hl,
    fun r hr => by simpa [Block.Apart, hc] using h.2.1.1 r hr⟩

end Chain

section Preserve
variable {first e : Nat} {h : Heap} {pre post seg mid : List Block} {b c : Block} {fl fl' : List Nat}

theorem sum_size_even : ∀ {bs : List Block}, (∀ d ∈ bs, d.size % 2 = 0) → (bs.map Block.size).sum % 2 = 0
  | [], _ => rfl
  | d :: bs, h => by
    have := sum_size_even fun d hd => h d (List.mem_cons_of_mem _ hd)
    have := h d (List.mem_cons_self _ _)
    simp only [List.map_cons, List.sum_cons]; omega

/-- No offset inside a block is on the free list. -/
theorem Inv.not_mem_freeList_of_inside (H : Inv first e h) (hc : c ∈ h.blocks) {x : Nat}
    (h₁ : c.offset < x) (h₂ : x < c.offset + c.size) : x ∉ h.freeList := fun hx => by
  obtain ⟨d, hd, rfl, -⟩ := (H.mem_freeList _).1 hx
  have := H.disjoint hd hc (by rintro rfl; omega); omega

/-- A used block's offset is not on the free list. -/
theorem Inv.not_mem_freeList (H : Inv first e ⟨pre ++ c :: post, fl⟩) (hc : c.free = false) :
    c.offset ∉ fl := by
  rw [H.mem_freeList]
  rintro ⟨d, hd, hdo, hdf⟩
  have hlt := H.offset_lt
  simp only [List.mem_append, List.mem_cons] at hd
  rcases hd with hd | rfl | hd
  · exact absurd hdo (hlt.1 d hd).ne
  · simp [hc] at hdf
  · exact absurd hdo (hlt.2 d hd).ne'

theorem Inv.mem_blocks (H : Inv first e h) {x : Nat} (hx : x ∈ h.freeList) :
    ∃ pre c post, h.blocks = pre ++ c :: post ∧ c.offset = x ∧ c.free = true ∧
      locate x h.blocks = some (pre, c, post) := by
  obtain ⟨c, hc, rfl, hcf⟩ := (H.mem_freeList x).1 hx
  obtain ⟨pre, post, hbs⟩ := List.append_of_mem hc
  have ht := H.tiles
  rw [hbs] at ht ⊢
  exact ⟨pre, c, post, rfl, rfl, hcf, locate_of_tiles ht fun d hd => H.size_pos (by simp [hbs, hd])⟩

/-- The step every operation is made of: the run `seg` is replaced by a run `mid` over the same
bytes. The invariant is kept when `mid`'s blocks are valid and fit their neighbours, and the
new free list holds `mid`'s free blocks and the old free blocks outside `seg`. -/
theorem Inv.replace (H : Inv first e ⟨pre ++ seg ++ post, fl⟩)
    (htiles : ∀ m₁ m₂, Tiles m₁ seg m₂ → Tiles m₁ mid m₂)
    (hvalid : ∀ d ∈ mid, d.Valid (first % 64)) (hne : mid ≠ []) (hch : mid.Chain' Block.Apart)
    (hl : ∀ l ∈ pre.getLast?, ∀ m ∈ mid.head?, l.Apart m)
    (hr : ∀ m ∈ mid.getLast?, ∀ r ∈ post.head?, m.Apart r) (hnd : fl'.Nodup)
    (hfl : ∀ x, x ∈ fl' ↔ (∃ d ∈ mid, d.offset = x ∧ d.free = true) ∨
      (x ∈ fl ∧ ∀ d ∈ seg, d.offset ≠ x)) :
    Inv first e ⟨pre ++ mid ++ post, fl'⟩ := by
  obtain ⟨m₂, ⟨m₁, hpre_t, hseg_t⟩, hpost_t⟩ := by simpa only [tiles_append] using H.tiles
  have hpos := fun d hd => H.size_pos (c := d) hd
  refine ⟨H.toLayout.replace htiles hvalid, hnd, ?_, chain'_replace H.coalesced hch hne hl hr⟩
  · intro x
    rw [hfl, H.mem_freeList]
    constructor
    · rintro (⟨d, hd, rfl, hdf⟩ | ⟨⟨d, hd, rfl, hdf⟩, hns⟩)
      · exact ⟨d, by simp [hd], rfl, hdf⟩
      · simp only [List.mem_append] at hd
        rcases hd with (hd | hd) | hd
        · exact ⟨d, by simp [hd], rfl, hdf⟩
        · exact absurd rfl (hns d hd)
        · exact ⟨d, by simp [hd], rfl, hdf⟩
    · rintro ⟨d, hd, rfl, hdf⟩
      simp only [List.mem_append] at hd
      rcases hd with (hd | hd) | hd
      · refine .inr ⟨⟨d, by simp [hd], rfl, hdf⟩, fun s hs => ?_⟩
        have := hpre_t.bounds hd; have := hseg_t.bounds hs; have := hpos d (by simp [hd]); omega
      · exact .inl ⟨d, hd, rfl, hdf⟩
      · refine .inr ⟨⟨d, by simp [hd], rfl, hdf⟩, fun s hs => ?_⟩
        have := hpost_t.bounds hd; have := hseg_t.bounds hs; have := hpos s (by simp [hs]); omega

/-- `Free`'s merge: a run `seg` becomes one free block at its first offset. -/
theorem Inv.merge (H : Inv first e ⟨pre ++ seg ++ post, fl⟩) (ho : seg.head? = some c)
    (hpre : ∀ l ∈ pre.getLast?, l.free = false) (hpost : ∀ r ∈ post.head?, r.free = false)
    (hnd : fl'.Nodup) (hfl : ∀ x, x ∈ fl' ↔ x = c.offset ∨ (x ∈ fl ∧ ∀ d ∈ seg, d.offset ≠ x)) :
    Inv first e ⟨pre ++ [⟨c.offset, (seg.map Block.size).sum, true⟩] ++ post, fl'⟩ := by
  rcases seg with _ | ⟨c', seg'⟩; · simp at ho
  simp only [List.head?_cons, Option.some.injEq] at ho
  subst c'
  have hc := H.valid c (by simp)
  refine H.replace (fun m₁ m₂ ht => ?_) ?_ (List.cons_ne_nil _ _) (List.chain'_singleton _)
    (fun l hl _ _ => Block.apart_used_left (hpre l hl))
    (fun _ _ r hr => Block.apart_used_right (hpost r hr)) hnd
    fun x => (hfl x).trans (by simp [@eq_comm _ x])
  · exact ⟨ht.1, (tiles_sum ht).symm⟩
  · simp only [List.mem_singleton, forall_eq]
    have := hc.size_ge
    exact ⟨hc.offset_pos, by simp; omega, sum_size_even fun d hd =>
      (H.valid d (List.mem_append_left _ (List.mem_append_right _ hd))).size_even,
      hc.aligned⟩

/-- `Allocate`'s split: the free block `c` becomes a used block of `R` bytes and a free
remainder at `c.offset + R`, which takes `c`'s place in the free list. -/
theorem Inv.split (H : Inv first e ⟨pre ++ c :: post, fl⟩) (hc : c.free = true) {R : Nat}
    (hR : R % 64 = 0) (hR88 : 88 ≤ R) (hrem : 64 + 64 + 8 ≤ c.size - R) :
    Inv first e ⟨pre ++ ⟨c.offset, R, false⟩ :: ⟨c.offset + R, c.size - R, true⟩ :: post,
      fl.map (rename c.offset (c.offset + R))⟩ := by
  have hv := H.valid c (by simp)
  have hpost := (neighbours_used H.coalesced hc).2
  have hold : c.offset ∈ fl := (H.mem_freeList _).2 ⟨c, by simp, rfl, hc⟩
  have hnew : c.offset + R ∉ fl := H.not_mem_freeList_of_inside (c := c) (by simp) (by omega) (by omega)
  rw [List.append_cons] at H
  rw [show ∀ b₁ b₂ : Block, pre ++ b₁ :: b₂ :: post = pre ++ [b₁, b₂] ++ post by simp]
  refine H.replace (fun m₁ m₂ ht => ?_) ?_ (List.cons_ne_nil _ _) (by simp [Block.Apart])
    (fun _ _ m hm => ?_) (fun m hm r hr => ?_) (H.nodup.map_on (rename_injOn hnew)) fun x => ?_
  · simp only [tiles_cons, tiles_nil] at ht ⊢; omega
  · have := hv.aligned; have := hv.size_even; have := hv.offset_pos
    simp only [List.mem_cons, List.mem_singleton, forall_eq_or_imp, forall_eq, List.not_mem_nil,
      false_imp_iff, implies_true, and_true]
    refine ⟨⟨hv.offset_pos, hR88, ?_, hv.aligned⟩, ⟨?_, ?_, ?_, ?_⟩⟩ <;> dsimp only <;> omega
  · obtain rfl : m = _ := Option.some.inj hm.symm
    exact Block.apart_used_right rfl
  · obtain rfl : m = _ := Option.some.inj hm.symm
    exact Block.apart_used_right (hpost r hr)
  · simp only [List.mem_map]
    constructor
    · rintro ⟨y, hy, rfl⟩
      by_cases hyo : y = c.offset
      · exact .inl ⟨⟨c.offset + R, c.size - R, true⟩, by simp, by simp [rename, hyo], rfl⟩
      · exact .inr ⟨by simpa [rename, hyo] using hy, by simp [rename, hyo, Ne.symm hyo]⟩
    · rintro (⟨d, hd, rfl, hdf⟩ | ⟨hx, hxo⟩)
      · simp only [List.mem_cons, List.mem_singleton, List.not_mem_nil, or_false] at hd
        rcases hd with rfl | rfl
        · simp at hdf
        · exact ⟨c.offset, hold, by simp [rename]⟩
      · exact ⟨x, hx, by simp [rename, Ne.symm (hxo c (by simp))]⟩

/-- `Allocate`'s whole-block path: the free block `c` becomes used and leaves the free list. -/
theorem Inv.useWhole (H : Inv first e ⟨pre ++ c :: post, fl⟩) :
    Inv first e ⟨pre ++ ⟨c.offset, c.size, false⟩ :: post, fl.erase c.offset⟩ := by
  have hv := H.valid c (by simp)
  rw [List.append_cons] at H
  rw [List.append_cons]
  refine H.replace (fun _ _ ht => ht) (by simpa using ⟨hv.offset_pos, hv.size_ge, hv.size_even, hv.aligned⟩)
    (List.cons_ne_nil _ _) (List.chain'_singleton _) (fun _ _ m hm => ?_)
    (fun m hm _ _ => ?_) (H.nodup.erase _) fun x => ?_
  · obtain rfl : m = _ := Option.some.inj hm.symm
    exact Block.apart_used_right rfl
  · obtain rfl : m = _ := Option.some.inj hm.symm
    exact Block.apart_used_left rfl
  · rw [H.nodup.mem_erase_iff]
    simp [and_comm, ne_comm]

theorem Inv.allocateRequired (H : Inv first e h) {R : Nat} (hR : R % 64 = 0) (hR88 : 88 ≤ R) :
    Inv first e (h.allocateRequired R).1 := by
  obtain ⟨bs, fl⟩ := h
  unfold Heap.allocateRequired
  split
  · exact H
  · rename_i x hx
    obtain ⟨pre, c, post, rfl, rfl, hcf, hloc⟩ := H.mem_blocks (List.mem_of_find?_eq_some hx)
    simp only [hloc]
    split_ifs with hsplit
    · exact H.split hcf hR hR88 hsplit
    · exact H.useWhole

/-- `Allocate` keeps the invariant for every size below the wrap. -/
theorem Inv.allocate (H : Inv first e h) {n : Nat} (hn : n ≤ 2 ^ 64 - 192) :
    Inv first e (h.allocate n).1 := by
  unfold Heap.allocate
  split_ifs
  · exact H
  · have := SlabAllocator.requiredTotalSize_eq hn
    exact H.allocateRequired (by omega) (by omega)

/-- A nonzero payload offset of `Allocate` is `64` past the header of a used block of at least
the rounded size. -/
theorem Inv.allocate_payload (H : Inv first e h) (n : Nat) :
    (h.allocate n).2 = 0 ∨ ∃ c ∈ (h.allocate n).1.blocks, c.free = false ∧
      (h.allocate n).2 = c.offset + 64 ∧ SlabAllocator.requiredTotalSize n ≤ c.size := by
  obtain ⟨bs, fl⟩ := h
  unfold Heap.allocate Heap.allocateRequired
  split_ifs; · exact .inl rfl
  split; · exact .inl rfl
  next x hx =>
  obtain ⟨pre, c, post, rfl, rfl, -, hloc⟩ := H.mem_blocks (List.mem_of_find?_eq_some hx)
  have hfit := List.find?_some hx
  simp only [sizeAt, hloc, Option.map_some', Option.getD_some, decide_eq_true_eq] at hfit
  simp only [hloc]
  split_ifs
  · exact .inr ⟨⟨c.offset, SlabAllocator.requiredTotalSize n, false⟩, by simp, rfl, rfl, le_rfl⟩
  · exact .inr ⟨⟨c.offset, c.size, false⟩, by simp, rfl, rfl, hfit⟩

/-- First fit finds nothing exactly when no block of the free list is large enough. -/
theorem Inv.allocateRequired_snd_eq_zero (H : Inv first e h) (R : Nat) :
    (h.allocateRequired R).2 = 0 ↔ ∀ x ∈ h.freeList, h.sizeAt x < R := by
  unfold Heap.allocateRequired
  split
  next hx =>
    simp only [true_iff]
    intro x hx'
    simpa using List.find?_eq_none.1 hx x hx'
  next x hx =>
    obtain ⟨pre, c, post, -, rfl, -, hloc⟩ := H.mem_blocks (List.mem_of_find?_eq_some hx)
    have hfit : R ≤ h.sizeAt c.offset := by simpa using List.find?_some hx
    simp only [hloc]
    refine iff_of_false (by split_ifs <;> simp) fun hall => ?_
    exact absurd (hall _ (List.mem_of_find?_eq_some hx)) (Nat.not_lt.2 hfit)

/-- What `mergeRight` takes from the blocks after the freed one: a run `segR`, empty or one
free block, after which comes a used block or nothing. -/
theorem mergeRight_spec (hch : post.Chain' Block.Apart) (hnd : fl.Nodup) :
    ∃ segR post' fl', post = segR ++ post' ∧
      mergeRight b fl post = (⟨b.offset, b.size + (segR.map Block.size).sum, true⟩, post', fl') ∧
      (∀ r ∈ post'.head?, r.free = false) ∧ fl'.Nodup ∧
      ∀ x, x ∈ fl' ↔ x ∈ fl ∧ ∀ d ∈ segR, d.offset ≠ x := by
  match post, hch with
  | [], _ => exact ⟨[], [], fl, rfl, rfl, by simp, hnd, by simp⟩
  | r :: rest, hch =>
    cases hr : r.free
    · exact ⟨[], r :: rest, fl, rfl, by simp [mergeRight, hr], by simp [hr], hnd, by simp⟩
    · refine ⟨[r], rest, fl.erase r.offset, rfl, by simp [mergeRight, hr], fun r' hr' => ?_,
        hnd.erase _, fun x => ?_⟩
      · simpa [Block.Apart, hr] using (List.chain'_cons'.1 hch).1 r' hr'
      · rw [hnd.mem_erase_iff]; simp [and_comm, ne_comm]

@[simp] theorem mergeRight_fst_offset (b : Block) (fl : List Nat) (post : List Block) :
    (mergeRight b fl post).1.offset = b.offset := by
  cases post with
  | nil => rfl
  | cons r post => by_cases hr : r.free <;> simp [mergeRight, hr]

theorem mergeLeft_of_used {post : List Block} (h : ∀ l ∈ pre.getLast?, l.free = false) :
    mergeLeft b post fl pre = ⟨pre ++ b :: post, b.offset :: fl⟩ := by
  unfold mergeLeft
  split
  · next l hl => simp [h l hl]
  · next hl => simp [List.getLast?_eq_none_iff.1 hl]

theorem mergeLeft_of_free {post : List Block} {l : Block} (hl : l.free = true) :
    mergeLeft b post fl (pre ++ [l]) = ⟨pre ++ ⟨l.offset, l.size + b.size, true⟩ :: post, fl⟩ := by
  simp [mergeLeft, hl]

/-- `Free` keeps the invariant, for every argument. -/
theorem Inv.free (H : Inv first e h) (p : Nat) : Inv first e (h.free p) := by
  obtain ⟨bs, fl⟩ := h
  unfold Heap.free
  split_ifs with hp; · exact H
  split; · exact H
  next pre b post hloc =>
  split_ifs with hb; · exact H
  obtain ⟨rfl, -⟩ := locate_eq_some hloc
  have hbu : b.offset ∉ fl := H.not_mem_freeList (by simpa using hb)
  have hlt := H.offset_lt
  have hch : post.Chain' Block.Apart := (chain'_middle.1 H.coalesced).2.1.tail
  obtain ⟨segR, post', fl', rfl, hm, hpost', hnd', hfl'⟩ := mergeRight_spec (b := b) hch H.nodup
  dsimp only
  rw [hm]
  by_cases hl : ∃ l ∈ pre.getLast?, l.free = true
  · obtain ⟨l, hl, hlf⟩ := hl
    obtain ⟨pre, rfl⟩ := List.getLast?_eq_some_iff.1 hl
    have H' : Inv first e ⟨pre ++ (l :: b :: segR) ++ post', fl⟩ := by simpa using H
    have hch : (pre ++ l :: b :: (segR ++ post')).Chain' Block.Apart := by
      simpa only [List.append_assoc, List.singleton_append] using H.coalesced
    have hpre := (neighbours_used hch hlf).1
    have hl_in : l.offset ∈ fl := (H.mem_freeList _).2 ⟨l, by simp, rfl, hlf⟩
    rw [mergeLeft_of_free hlf]
    simpa [Nat.add_assoc] using H'.merge rfl hpre hpost' hnd' fun x => by
      rw [hfl']
      by_cases hx : x = l.offset
      · subst hx
        have := hlt.1 l (by simp)
        exact iff_of_true ⟨hl_in, fun d hd => by have := hlt.2 d (List.mem_append_left _ hd); omega⟩
          (.inl rfl)
      · simp only [hx, false_or, List.mem_cons, forall_eq_or_imp]
        exact ⟨fun h => ⟨h.1, Ne.symm hx, fun hbx => hbu (hbx ▸ h.1), h.2⟩,
          fun h => ⟨h.1, h.2.2.2⟩⟩
  · push_neg at hl
    have hpre : ∀ l ∈ pre.getLast?, l.free = false := fun l hl' => by simpa using hl l hl'
    rw [mergeLeft_of_used hpre]
    have H' : Inv first e ⟨pre ++ (b :: segR) ++ post', fl⟩ := by simpa using H
    simpa using H'.merge rfl hpre hpost' (hnd'.cons fun h => hbu ((hfl' _).1 h).1) fun x => by
      rw [List.mem_cons, hfl']
      by_cases hx : x = b.offset
      · simp [hx]
      · simp [hx, Ne.symm hx]

end Preserve

/-! ## Freeing every used block -/

section Used
variable {first e : Nat} {h : Heap} {pre post : List Block} {b : Block} {fl : List Nat}

/-- The payload offsets of the used blocks, in address order. -/
def usedPayloads (bs : List Block) : List Nat := (bs.filter fun b => !b.free).map (·.offset + 64)

theorem mergeRight_used (b : Block) (fl : List Nat) (post : List Block) :
    (mergeRight b fl post).1.free = true ∧
      usedPayloads (mergeRight b fl post).2.1 = usedPayloads post := by
  cases post with
  | nil => simp [mergeRight]
  | cons r post => by_cases hr : r.free <;> simp [mergeRight, usedPayloads, hr]

theorem usedPayloads_mergeLeft (hb : b.free = true) :
    usedPayloads (mergeLeft b post fl pre).blocks = usedPayloads pre ++ usedPayloads post := by
  unfold mergeLeft
  split
  next l hl =>
    obtain ⟨pre, rfl⟩ := List.getLast?_eq_some_iff.1 hl
    by_cases hlf : l.free <;> simp [usedPayloads, hlf, hb]
  next hl => simp [List.getLast?_eq_none_iff.1 hl, usedPayloads, hb]

/-- Freeing a used block takes exactly its payload out of the used ones. -/
theorem Inv.usedPayloads_free (H : Inv first e h) (hb : b ∈ h.blocks) (hbu : b.free = false) :
    (usedPayloads h.blocks).Perm ((b.offset + 64) :: usedPayloads (h.free (b.offset + 64)).blocks) := by
  obtain ⟨pre, post, hbs⟩ := List.append_of_mem hb
  have hloc : locate b.offset h.blocks = some (pre, b, post) := by
    have ht := H.tiles
    rw [hbs] at ht ⊢
    exact locate_of_tiles ht fun d hd => H.size_pos (by simp [hbs, hd])
  have hm := mergeRight_used b h.freeList post
  simp only [Heap.free, Nat.add_sub_cancel, hloc, hbu, if_neg (Nat.add_pos_right _ (by omega : 0 < 64)).ne',
    Bool.false_eq_true, if_false]
  rw [usedPayloads_mergeLeft hm.1, hm.2, hbs]
  simp [usedPayloads, hbu, List.perm_middle]

/-- A heap over a nonempty range with no used block is one free block over the whole range,
alone on the free list. -/
theorem Inv.eq_single (H : Inv first e h) (hne : first < e) (hu : usedPayloads h.blocks = []) :
    h = ⟨[⟨first, e - first, true⟩], [first]⟩ := by
  have hfree : ∀ c ∈ h.blocks, c.free = true := by simpa [usedPayloads] using hu
  obtain ⟨bs, fl⟩ := h
  have hbs : bs = [⟨first, e - first, true⟩] := by
    match bs, H.tiles, H.coalesced with
    | [], ht, _ => exact absurd ht hne.ne
    | [c], ⟨hc, ht⟩, _ =>
      have := hfree c (by simp)
      simp only [tiles_nil] at ht
      cases c; simp_all; omega
    | c :: d :: _, _, hch => exact absurd ⟨hfree c (by simp), hfree d (by simp)⟩ (List.chain'_cons.1 hch).1
  subst hbs
  have hfl : fl.Perm [first] := (List.perm_ext_iff_of_nodup H.nodup (List.nodup_singleton _)).2
    fun x => by simp [H.mem_freeList, @eq_comm _ x]
  rw [List.perm_singleton.1 hfl]

end Used

end Heap

end HyperionRuntime.Slab
