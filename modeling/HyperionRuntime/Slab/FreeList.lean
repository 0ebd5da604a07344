import HyperionRuntime.Slab.Allocator
import Mathlib.Data.List.Nodup

/-!
# The intrusive free list

The allocator threads its free list through the `FreeNode`s of the free blocks. The list is a
`List Nat` of block offsets; `nextIn` and `prevIn` read off the link each node must hold, and
`FreeList m head L` says that the memory holds exactly those links (`0` at both ends).

Each list operation of the source gets a normal form and a spec: `removeFromFreeList`
takes an offset out (`FreeList.removeFromFreeList`), `insertHead` puts one in front
(`FreeList.insertHead`), the split path's `spliceNode` renames one in place
(`FreeList.spliceNode`), and each writes only the `FreeNode`s of the offset and of its two
neighbours (the `touches_*` lemmas). `firstFit_eq` runs `Allocate`'s loop over a well-formed
list. All of them assume only that the nodes do not overlap (`NodesApart`).
-/

namespace HyperionRuntime.Slab

/-! ## Links of a list of offsets -/

/-- The offset after `x` in `l`; `0` when `x` is last or absent. -/
def nextIn : List Nat → Nat → Nat
  | [], _ => 0
  | a :: l, x => if a = x then l.headD 0 else nextIn l x

/-- The offset before `x` in `l`; `0` when `x` is first or absent. -/
def prevIn (l : List Nat) (x : Nat) : Nat := nextIn l.reverse x

section Links
variable {l : List Nat} {x y r : Nat}

@[simp] theorem nextIn_cons_self (a : Nat) (l : List Nat) : nextIn (a :: l) a = l.headD 0 := by
  simp [nextIn]

theorem nextIn_cons_of_ne {a : Nat} (h : a ≠ x) (l : List Nat) : nextIn (a :: l) x = nextIn l x := by
  simp [nextIn, h]

theorem nextIn_mem (h : nextIn l x ≠ 0) : nextIn l x ∈ l := by
  induction l with
  | nil => exact absurd rfl h
  | cons a l ih =>
    by_cases hax : a = x
    · subst hax
      cases l with
      | nil => simp at h
      | cons b l => simp
    · rw [nextIn_cons_of_ne hax] at h ⊢
      exact List.mem_cons_of_mem _ (ih h)

/-- For a list without repeats, `y ≠ 0` follows `x` exactly when `[x, y]` is a contiguous
part of it. -/
theorem nextIn_eq_iff_adjacent (hl : l.Nodup) (hy : y ≠ 0) : nextIn l x = y ↔ [x, y] <:+: l := by
  induction l with
  | nil => simp [nextIn, Ne.symm hy]
  | cons a l ih =>
    rw [List.nodup_cons] at hl
    rw [List.infix_cons_iff, List.cons_prefix_cons]
    by_cases hax : a = x
    · subst hax
      have : ¬ [a, y] <:+: l := fun h => hl.1 (h.subset (by simp))
      cases l <;> simp [this, eq_comm, hy]
    · rw [nextIn_cons_of_ne hax, ih hl.2]
      simp [Ne.symm hax]

theorem prevIn_eq_iff_adjacent (hl : l.Nodup) (hx : x ≠ 0) : prevIn l y = x ↔ [x, y] <:+: l := by
  rw [prevIn, nextIn_eq_iff_adjacent (List.nodup_reverse.2 hl) hx, ← List.reverse_infix]
  simp

theorem nextIn_eq_iff_prevIn_eq (hl : l.Nodup) (hx : x ≠ 0) (hy : y ≠ 0) :
    nextIn l x = y ↔ prevIn l y = x := by
  rw [nextIn_eq_iff_adjacent hl hy, prevIn_eq_iff_adjacent hl hx]

theorem nextIn_ne_self (hl : l.Nodup) (hx : x ≠ 0) : nextIn l x ≠ x := fun h =>
  by simpa using ((nextIn_eq_iff_adjacent hl hx).1 h).sublist.nodup hl

theorem prevIn_mem (h : prevIn l x ≠ 0) : prevIn l x ∈ l := List.mem_reverse.1 (nextIn_mem h)

theorem prevIn_ne_self (hl : l.Nodup) (hx : x ≠ 0) : prevIn l x ≠ x :=
  nextIn_ne_self (List.nodup_reverse.2 hl) hx

theorem head?_eq_of_prevIn_eq_zero (hl : l.Nodup) (h0 : 0 ∉ l) (hr : r ∈ l) (h : prevIn l r = 0) :
    l.head? = some r := by
  obtain ⟨A, B, rfl⟩ := List.append_of_mem hr
  rcases List.eq_nil_or_concat A with rfl | ⟨A, z, rfl⟩
  · rfl
  · have hz : z ≠ 0 := fun hz => h0 (by simp [hz])
    have hadj : prevIn (A.concat z ++ r :: B) r = z := (prevIn_eq_iff_adjacent hl hz).2 ⟨A, B, by simp⟩
    exact absurd (hadj.symm.trans h) hz

theorem erase_cons_of_ne {a : Nat} (h : a ≠ r) (l : List Nat) : (a :: l).erase r = a :: l.erase r :=
  List.erase_cons_tail (by simpa using h)

theorem nextIn_erase (hl : l.Nodup) (hr : r ∈ l) (hr0 : r ≠ 0) (hy : y ≠ r) :
    nextIn (l.erase r) y = if nextIn l y = r then nextIn l r else nextIn l y := by
  induction l with
  | nil => simp at hr
  | cons a l ih =>
    rw [List.nodup_cons] at hl
    by_cases har : a = r
    · subst har
      have hne : nextIn l y ≠ a := fun h => hl.1 (h ▸ nextIn_mem (h ▸ hr0))
      simp [nextIn_cons_of_ne (Ne.symm hy), hne]
    · have hr' : r ∈ l := (List.mem_cons.1 hr).resolve_left (Ne.symm har)
      rw [erase_cons_of_ne har, nextIn_cons_of_ne har]
      by_cases hay : a = y
      · subst hay
        obtain ⟨b, t, rfl⟩ := List.exists_cons_of_ne_nil (List.ne_nil_of_mem hr')
        by_cases hbr : b = r
        · subst hbr; simp
        · simp [erase_cons_of_ne hbr, hbr, nextIn_cons_of_ne hbr]
      · rw [nextIn_cons_of_ne hay, nextIn_cons_of_ne hay, ih hl.2 hr']

theorem reverse_erase (hl : l.Nodup) (r : Nat) : (l.erase r).reverse = l.reverse.erase r := by
  rw [hl.erase_eq_filter, (List.nodup_reverse.2 hl).erase_eq_filter, List.filter_reverse]

theorem prevIn_erase (hl : l.Nodup) (hr : r ∈ l) (hr0 : r ≠ 0) (hy : y ≠ r) :
    prevIn (l.erase r) y = if prevIn l y = r then prevIn l r else prevIn l y := by
  rw [prevIn, reverse_erase hl, nextIn_erase (List.nodup_reverse.2 hl) (List.mem_reverse.2 hr) hr0 hy]
  rfl

theorem nextIn_append_singleton_self (hx : x ∉ l) : nextIn (l ++ [x]) x = 0 := by
  induction l with
  | nil => simp
  | cons a l ih =>
    rw [List.mem_cons, not_or] at hx
    rw [List.cons_append, nextIn_cons_of_ne (Ne.symm hx.1), ih hx.2]

theorem nextIn_append_singleton (hl : l.Nodup) (hy : y ∈ l) :
    nextIn (l ++ [x]) y = if l.getLast? = some y then x else nextIn l y := by
  induction l with
  | nil => simp at hy
  | cons a l ih =>
    rw [List.nodup_cons] at hl
    rw [List.cons_append]
    by_cases hay : a = y
    · subst hay
      cases l with
      | nil => simp
      | cons b t =>
        have : (b :: t).getLast? ≠ some a := fun h => hl.1 (List.mem_of_getLast?_eq_some h)
        simp [List.getLast?_cons_cons, this]
    · have hy' : y ∈ l := (List.mem_cons.1 hy).resolve_left (Ne.symm hay)
      obtain ⟨b, t, rfl⟩ := List.exists_cons_of_ne_nil (List.ne_nil_of_mem hy')
      rw [nextIn_cons_of_ne hay, nextIn_cons_of_ne hay, ih hl.2 hy', List.getLast?_cons_cons]

theorem prevIn_cons_self (hx : x ∉ l) : prevIn (x :: l) x = 0 := by
  rw [prevIn, List.reverse_cons, nextIn_append_singleton_self (by simpa using hx)]

theorem prevIn_cons (hl : l.Nodup) (hy : y ∈ l) :
    prevIn (x :: l) y = if l.head? = some y then x else prevIn l y := by
  rw [prevIn, List.reverse_cons, nextIn_append_singleton (List.nodup_reverse.2 hl)
    (List.mem_reverse.2 hy), List.getLast?_reverse]
  rfl

theorem nextIn_map {f : Nat → Nat} (hf : ∀ a ∈ l, ∀ b ∈ l, f a = f b → a = b) (hf0 : f 0 = 0)
    (hy : y ∈ l) : nextIn (l.map f) (f y) = f (nextIn l y) := by
  induction l with
  | nil => simp at hy
  | cons a l ih =>
    by_cases hay : a = y
    · subst hay; cases l <;> simp [hf0]
    · have hy' : y ∈ l := (List.mem_cons.1 hy).resolve_left (Ne.symm hay)
      have hfa : f a ≠ f y := fun h => hay (hf a (by simp) y hy h)
      rw [List.map_cons, nextIn_cons_of_ne hfa, nextIn_cons_of_ne hay,
        ih (fun a ha b hb => hf a (by simp [ha]) b (by simp [hb])) hy']

theorem prevIn_map {f : Nat → Nat} (hf : ∀ a ∈ l, ∀ b ∈ l, f a = f b → a = b) (hf0 : f 0 = 0)
    (hy : y ∈ l) : prevIn (l.map f) (f y) = f (prevIn l y) := by
  rw [prevIn, ← List.map_reverse, nextIn_map (by simpa using hf) hf0 (List.mem_reverse.2 hy)]
  rfl

/-- The offset `old` renamed to `new`. -/
def rename (old new y : Nat) : Nat := if y = old then new else y

theorem rename_injOn {L : List Nat} {old new : Nat} (hnew : new ∉ L) :
    ∀ a ∈ L, ∀ b ∈ L, rename old new a = rename old new b → a = b := by
  intro a ha b hb h
  unfold rename at h
  by_cases hao : a = old <;> by_cases hbo : b = old <;> simp only [hao, hbo, if_true, if_false] at h
  · exact hao.trans hbo.symm
  · exact absurd (h ▸ hb) hnew
  · exact absurd (h ▸ ha) hnew
  · exact h

@[simp] theorem rename_zero {old new : Nat} (hold : old ≠ 0) : rename old new 0 = 0 := if_neg (Ne.symm hold)

end Links

/-! ## The free list in memory -/

/-- The sixteen bytes of the `FreeNode` of the block at `x`. -/
def InNode (x j : Nat) : Prop := x + 64 ≤ j ∧ j < x + 80

/-- The `FreeNode`s at the offsets of `L` lie below `2 ^ 64` and do not overlap. -/
structure NodesApart (L : List Nat) : Prop where
  lt : ∀ x ∈ L, x + 80 ≤ 2 ^ 64
  apart : ∀ x ∈ L, ∀ y ∈ L, x ≠ y → x + 16 ≤ y ∨ y + 16 ≤ x

/-- The list `L` as the memory `m` holds it from `head`: following `next_offset` visits `L`
in order and then reads `0`, each `prev_offset` names the offset before, the head's is `0`,
and no offset repeats. -/
structure FreeList (m : Mem) (head : Nat) (L : List Nat) : Prop where
  nodup : L.Nodup
  zero_not_mem : 0 ∉ L
  head_eq : head = L.headD 0
  next_eq : ∀ x ∈ L, m.load (x + 64) = nextIn L x
  prev_eq : ∀ x ∈ L, m.load (x + 72) = prevIn L x

section Nodes
variable {L : List Nat} {x y z i k v : Nat}

theorem NodesApart.load_store (H : NodesApart L) (m : Mem) (hy : y ∈ L) (hz : z ∈ L)
    (hi : i = 64 ∨ i = 72) (hk : k = 64 ∨ k = 72) (v : Nat) :
    (m.store (z + i) v).load (y + k) = if y = z ∧ k = i then v % 2 ^ 64 else m.load (y + k) := by
  have hzl := H.lt z hz
  have hyl := H.lt y hy
  split_ifs with h
  · obtain ⟨rfl, rfl⟩ := h
    exact Mem.load_store_self ..
  · refine Mem.load_store_of_disjoint m v ?_ (by omega) (by omega)
    by_cases hyz : y = z
    · subst hyz; omega
    · have := H.apart y hy z hz hyz; omega

theorem NodesApart.lt_of_mem (H : NodesApart L) (hx : x ∈ L) : x < 2 ^ 64 := by
  have := H.lt x hx; omega

theorem FreeList.nextIn_lt {m : Mem} {h : Nat} (H : FreeList m h L) (hx : x ∈ L) :
    nextIn L x < 2 ^ 64 := by
  rw [← H.next_eq x hx]; exact Mem.load_lt ..

theorem FreeList.prevIn_lt {m : Mem} {h : Nat} (H : FreeList m h L) (hx : x ∈ L) :
    prevIn L x < 2 ^ 64 := by
  rw [← H.prev_eq x hx]; exact Mem.load_lt ..

end Nodes

namespace SlabAllocator
open BlockHeader

section Links
variable {s : SlabAllocator} {L : List Nat} {x y z k v : Nat}

@[simp] theorem store_mem (s : SlabAllocator) (o v : Nat) : (s.store o v).mem = s.mem.store o v := rfl

@[simp] theorem store_freeListHeadOffset (s : SlabAllocator) (o v : Nat) :
    (s.store o v).freeListHeadOffset = s.freeListHeadOffset := rfl

theorem setNextOrHead_eq (s : SlabAllocator) (z v : Nat) :
    s.setNextOrHead z v = { s with
      mem := if z ≠ 0 then s.mem.store (z + 64) v else s.mem
      freeListHeadOffset := if z ≠ 0 then s.freeListHeadOffset else v } := by
  unfold setNextOrHead store; split <;> rfl

theorem setPrev_eq (s : SlabAllocator) (z v : Nat) :
    s.setPrev z v = { s with mem := if z ≠ 0 then s.mem.store (z + 72) v else s.mem } := by
  unfold setPrev store; split <;> rfl

theorem load_setNextOrHead (H : NodesApart L) (h0 : 0 ∉ L) (hy : y ∈ L) (hz : z = 0 ∨ z ∈ L)
    (hk : k = 64 ∨ k = 72) :
    (s.setNextOrHead z v).load (y + k) = if y = z ∧ k = 64 then v % 2 ^ 64 else s.load (y + k) := by
  rw [setNextOrHead_eq, load]
  split_ifs with hz0 hyz hyz
  · exact H.load_store s.mem hy (hz.resolve_left hz0) (.inl rfl) hk v |>.trans (if_pos hyz)
  · exact H.load_store s.mem hy (hz.resolve_left hz0) (.inl rfl) hk v |>.trans (if_neg hyz)
  · exact absurd (hyz.1 ▸ hy) (not_not.1 hz0 ▸ h0)
  · rfl

theorem load_setPrev (H : NodesApart L) (h0 : 0 ∉ L) (hy : y ∈ L) (hz : z = 0 ∨ z ∈ L)
    (hk : k = 64 ∨ k = 72) :
    (s.setPrev z v).load (y + k) = if y = z ∧ k = 72 then v % 2 ^ 64 else s.load (y + k) := by
  rw [setPrev_eq, load]
  split_ifs with hz0 hyz hyz
  · exact H.load_store s.mem hy (hz.resolve_left hz0) (.inr rfl) hk v |>.trans (if_pos hyz)
  · exact H.load_store s.mem hy (hz.resolve_left hz0) (.inr rfl) hk v |>.trans (if_neg hyz)
  · exact absurd (hyz.1 ▸ hy) (not_not.1 hz0 ▸ h0)
  · rfl

theorem touches_setNextOrHead (s : SlabAllocator) (hz : z + 80 ≤ 2 ^ 64) (v : Nat) :
    Mem.Touches s.mem (s.setNextOrHead z v).mem fun j => z ≠ 0 ∧ InNode z j := by
  rw [setNextOrHead_eq]
  split_ifs with hz0
  · exact (Mem.touches_store _ v (by omega)).mono fun j _ hj => ⟨hz0, by unfold InNode; omega⟩
  · exact Mem.Touches.refl _ _

theorem touches_setPrev (s : SlabAllocator) (hz : z + 80 ≤ 2 ^ 64) (v : Nat) :
    Mem.Touches s.mem (s.setPrev z v).mem fun j => z ≠ 0 ∧ InNode z j := by
  rw [setPrev_eq]
  split_ifs with hz0
  · exact (Mem.touches_store _ v (by omega)).mono fun j _ hj => ⟨hz0, by unfold InNode; omega⟩
  · exact Mem.Touches.refl _ _

end Links

section Remove
variable {s : SlabAllocator} {L : List Nat} {r : Nat}

/-- `RemoveFromFreeList(r)` on a well-formed list: the two link fixes at the neighbours. -/
theorem removeFromFreeList_eq (H : FreeList s.mem s.freeListHeadOffset L) (hsep : NodesApart L)
    (hr : r ∈ L) :
    s.removeFromFreeList r = (s.setNextOrHead (prevIn L r) (nextIn L r)).setPrev (nextIn L r) (prevIn L r) := by
  have h0 := H.zero_not_mem
  have hr0 : r ≠ 0 := fun h => h0 (h ▸ hr)
  have hp : prevIn L r = 0 ∨ prevIn L r ∈ L := or_iff_not_imp_left.2 prevIn_mem
  have hpr : r ≠ prevIn L r := Ne.symm (prevIn_ne_self H.nodup hr0)
  have e₁ : (s.setNextOrHead (prevIn L r) (nextIn L r)).load (r + 64) = nextIn L r := by
    rw [load_setNextOrHead hsep h0 hr hp (.inl rfl), if_neg fun h => hpr h.1]
    exact H.next_eq r hr
  have e₂ : (s.setNextOrHead (prevIn L r) (nextIn L r)).load (r + 72) = prevIn L r := by
    rw [load_setNextOrHead hsep h0 hr hp (.inr rfl), if_neg fun h => absurd h.2 (by decide)]
    exact H.prev_eq r hr
  have e₃ : s.load (r + 72) = prevIn L r := H.prev_eq r hr
  have e₄ : s.load (r + 64) = nextIn L r := H.next_eq r hr
  simp only [removeFromFreeList, e₃, e₄, e₁, e₂]

/-- `RemoveFromFreeList(r)` takes `r` out of a well-formed list. -/
theorem FreeList.removeFromFreeList (H : FreeList s.mem s.freeListHeadOffset L)
    (hsep : NodesApart L) (hr : r ∈ L) :
    FreeList (s.removeFromFreeList r).mem (s.removeFromFreeList r).freeListHeadOffset (L.erase r) := by
  have h0 := H.zero_not_mem
  have ne0 : ∀ y ∈ L, y ≠ 0 := fun y hy h => h0 (h ▸ hy)
  have hr0 := ne0 r hr
  have hp : prevIn L r = 0 ∨ prevIn L r ∈ L := or_iff_not_imp_left.2 prevIn_mem
  have hn : nextIn L r = 0 ∨ nextIn L r ∈ L := or_iff_not_imp_left.2 nextIn_mem
  rw [removeFromFreeList_eq H hsep hr]
  refine ⟨H.nodup.erase r, fun h => h0 (List.mem_of_mem_erase h), ?_, fun y hy => ?_, fun y hy => ?_⟩
  · simp only [setPrev_eq, setNextOrHead_eq, ne_eq, ite_not]
    split_ifs with hp0
    · obtain ⟨t, rfl⟩ : ∃ t, L = r :: t := by
        have := head?_eq_of_prevIn_eq_zero H.nodup h0 hr hp0
        cases L <;> simp_all
      simp
    · obtain ⟨a, t, rfl⟩ := List.exists_cons_of_ne_nil (List.ne_nil_of_mem hr)
      have har : a ≠ r := by rintro rfl; exact hp0 (prevIn_cons_self (List.nodup_cons.1 H.nodup).1)
      simp [H.head_eq, erase_cons_of_ne har]
  · obtain ⟨hyr, hyL⟩ := H.nodup.mem_erase_iff.1 hy
    have hpn : nextIn L y = r ↔ y = prevIn L r :=
      (nextIn_eq_iff_prevIn_eq H.nodup (ne0 y hyL) hr0).trans eq_comm
    show load _ (y + 64) = _
    rw [load_setPrev hsep h0 hyL hn (.inl rfl), load_setNextOrHead hsep h0 hyL hp (.inl rfl),
      nextIn_erase H.nodup hr hr0 hyr, load, H.next_eq y hyL]
    simp only [Nat.reduceEqDiff, and_true, and_false, if_false]
    by_cases hyp : y = prevIn L r
    · rw [if_pos hyp, if_pos (hpn.2 hyp), Nat.mod_eq_of_lt (H.nextIn_lt hr)]
    · rw [if_neg hyp, if_neg fun h => hyp (hpn.1 h)]
  · obtain ⟨hyr, hyL⟩ := H.nodup.mem_erase_iff.1 hy
    have hnp : prevIn L y = r ↔ y = nextIn L r :=
      (nextIn_eq_iff_prevIn_eq H.nodup hr0 (ne0 y hyL)).symm.trans eq_comm
    show load _ (y + 72) = _
    rw [load_setPrev hsep h0 hyL hn (.inr rfl), load_setNextOrHead hsep h0 hyL hp (.inr rfl),
      prevIn_erase H.nodup hr hr0 hyr, load, H.prev_eq y hyL]
    simp only [Nat.reduceEqDiff, and_true, and_false, if_false]
    by_cases hyn : y = nextIn L r
    · rw [if_pos hyn, if_pos (hnp.2 hyn), Nat.mod_eq_of_lt (H.prevIn_lt hr)]
    · rw [if_neg hyn, if_neg fun h => hyn (hnp.1 h)]

/-- `RemoveFromFreeList(r)` writes only the `FreeNode`s of the neighbours of `r`. -/
theorem FreeList.touches_removeFromFreeList (H : FreeList s.mem s.freeListHeadOffset L)
    (hsep : NodesApart L) (hr : r ∈ L) :
    Mem.Touches s.mem (s.removeFromFreeList r).mem fun j =>
      (prevIn L r ≠ 0 ∧ InNode (prevIn L r) j) ∨ (nextIn L r ≠ 0 ∧ InNode (nextIn L r) j) := by
  have hlt : ∀ z, z = 0 ∨ z ∈ L → z + 80 ≤ 2 ^ 64 := fun z hz => hz.elim (by omega) (hsep.lt z)
  rw [removeFromFreeList_eq H hsep hr]
  exact (touches_setNextOrHead s (hlt _ (or_iff_not_imp_left.2 prevIn_mem)) _).trans
    (touches_setPrev _ (hlt _ (or_iff_not_imp_left.2 nextIn_mem)) _)

end Remove

section Insert
variable {s : SlabAllocator} {L : List Nat} {x y : Nat}

theorem head_eq_zero_or_mem (H : FreeList s.mem s.freeListHeadOffset L) :
    s.freeListHeadOffset = 0 ∨ s.freeListHeadOffset ∈ L := by
  rw [H.head_eq]; cases L <;> simp

/-- `InsertHead(x)` puts a new offset in front of a well-formed list. -/
theorem FreeList.insertHead (H : FreeList s.mem s.freeListHeadOffset L)
    (hsep : NodesApart (x :: L)) (hx : x ∉ L) (hx0 : x ≠ 0) :
    FreeList (s.insertHead x).mem (s.insertHead x).freeListHeadOffset (x :: L) := by
  have h0 : 0 ∉ x :: L := by simp [Ne.symm hx0, H.zero_not_mem]
  have hh := (head_eq_zero_or_mem H).imp_right (List.mem_cons_of_mem x)
  have hhlt : s.freeListHeadOffset < 2 ^ 64 := by
    rcases head_eq_zero_or_mem H with h | h
    · omega
    · exact hsep.lt_of_mem (List.mem_cons_of_mem x h)
  have hxh : x ≠ s.freeListHeadOffset := by
    rintro rfl; exact (head_eq_zero_or_mem H).elim hx0 hx
  have hxm := List.mem_cons_self x L
  refine ⟨List.nodup_cons.2 ⟨hx, H.nodup⟩, h0, rfl, fun y hy => ?_, fun y hy => ?_⟩
  · show load (((s.store (x + 64) s.freeListHeadOffset).store (x + 72) 0).setPrev
      s.freeListHeadOffset x) (y + 64) = _
    rw [load_setPrev hsep h0 hy hh (.inl rfl)]
    simp only [Nat.reduceEqDiff, and_false, if_false, load, store_mem,
      hsep.load_store _ hy hxm (.inr rfl) (.inl rfl), hsep.load_store _ hy hxm (.inl rfl) (.inl rfl),
      and_true]
    by_cases hyx : y = x
    · subst hyx; rw [if_pos rfl, Nat.mod_eq_of_lt hhlt, H.head_eq, nextIn_cons_self]
    · rw [if_neg hyx, nextIn_cons_of_ne (Ne.symm hyx),
        H.next_eq y ((List.mem_cons.1 hy).resolve_left hyx)]
  · show load (((s.store (x + 64) s.freeListHeadOffset).store (x + 72) 0).setPrev
      s.freeListHeadOffset x) (y + 72) = _
    rw [load_setPrev hsep h0 hy hh (.inr rfl)]
    simp only [Nat.reduceEqDiff, and_false, if_false, load, store_mem, and_true,
      hsep.load_store _ hy hxm (.inr rfl) (.inr rfl), hsep.load_store _ hy hxm (.inl rfl) (.inr rfl)]
    by_cases hyx : y = x
    · subst hyx; rw [if_neg hxh, if_pos rfl, prevIn_cons_self hx, Nat.zero_mod]
    · have hyL := (List.mem_cons.1 hy).resolve_left hyx
      have hyh : y = s.freeListHeadOffset ↔ L.head? = some y := by
        rw [H.head_eq]; cases L <;> simp_all [eq_comm]
      rw [if_neg hyx, prevIn_cons H.nodup hyL, H.prev_eq y hyL]
      by_cases hy' : y = s.freeListHeadOffset
      · rw [if_pos hy', if_pos (hyh.1 hy'), Nat.mod_eq_of_lt (hsep.lt_of_mem hxm)]
      · rw [if_neg hy', if_neg fun h => hy' (hyh.2 h)]

theorem touches_insertHead (H : FreeList s.mem s.freeListHeadOffset L) (hsep : NodesApart (x :: L)) :
    Mem.Touches s.mem (s.insertHead x).mem fun j =>
      InNode x j ∨ (s.freeListHeadOffset ≠ 0 ∧ InNode s.freeListHeadOffset j) := by
  have hx := hsep.lt x (List.mem_cons_self x L)
  have hh : s.freeListHeadOffset + 80 ≤ 2 ^ 64 := (head_eq_zero_or_mem H).elim (by omega)
    fun h => hsep.lt _ (List.mem_cons_of_mem x h)
  refine (((Mem.touches_store s.mem _ (by omega)).trans (Mem.touches_store _ 0 (by omega))).trans
    (touches_setPrev _ hh x)).mono fun j _ hj => ?_
  unfold InNode at hj ⊢
  rcases hj with (hj | hj) | hj
  · exact .inl (by omega)
  · exact .inl (by omega)
  · exact .inr hj

end Insert

section Splice
variable {s : SlabAllocator} {L : List Nat} {old new : Nat}

/-- The split path's relinking on a well-formed list: the two node copies and the two link
fixes at the neighbours of `old`. -/
theorem spliceNode_eq (H : FreeList s.mem s.freeListHeadOffset L) (hsep : NodesApart (new :: L))
    (hold : old ∈ L) (hnew : new ∉ L) (hnew0 : new ≠ 0) :
    s.spliceNode old new = (((s.store (new + 72) (prevIn L old)).store (new + 64)
      (nextIn L old)).setNextOrHead (prevIn L old) new).setPrev (nextIn L old) new := by
  have h0 : 0 ∉ new :: L := by simp [Ne.symm hnew0, H.zero_not_mem]
  have hn' : new ∈ new :: L := List.mem_cons_self _ _
  have ho' : old ∈ new :: L := List.mem_cons_of_mem _ hold
  have hon : old ≠ new := fun h => hnew (h ▸ hold)
  have hpL : prevIn L old = 0 ∨ prevIn L old ∈ L := or_iff_not_imp_left.2 prevIn_mem
  have hpn : new ≠ prevIn L old := by
    rintro h; rcases hpL with h' | h'
    · exact hnew0 (h.trans h')
    · exact hnew (h ▸ h')
  have e₁ : (s.store (new + 72) (prevIn L old)).load (old + 64) = nextIn L old := by
    rw [load, store_mem, hsep.load_store _ ho' hn' (.inr rfl) (.inl rfl), if_neg fun h => hon h.1]
    exact H.next_eq old hold
  have e₂ : ((s.store (new + 72) (prevIn L old)).store (new + 64) (nextIn L old)).load (new + 72) =
      prevIn L old := by
    rw [load, store_mem, store_mem, hsep.load_store _ hn' hn' (.inl rfl) (.inr rfl),
      if_neg fun h => absurd h.2 (by decide), hsep.load_store _ hn' hn' (.inr rfl) (.inr rfl),
      if_pos ⟨rfl, rfl⟩, Nat.mod_eq_of_lt (H.prevIn_lt hold)]
  have e₃ : (((s.store (new + 72) (prevIn L old)).store (new + 64) (nextIn L old)).setNextOrHead
      (prevIn L old) new).load (new + 64) = nextIn L old := by
    rw [load_setNextOrHead hsep h0 hn' (hpL.imp_right (List.mem_cons_of_mem _)) (.inl rfl),
      if_neg fun h => hpn h.1, load, store_mem, hsep.load_store _ hn' hn' (.inl rfl) (.inl rfl),
      if_pos ⟨rfl, rfl⟩, Nat.mod_eq_of_lt (H.nextIn_lt hold)]
  have e₄ : s.load (old + 72) = prevIn L old := H.prev_eq old hold
  simp only [spliceNode, e₄, e₁, e₂, e₃]

/-- The split path's relinking renames `old` to `new` in a well-formed list. -/
theorem FreeList.spliceNode (H : FreeList s.mem s.freeListHeadOffset L)
    (hsep : NodesApart (new :: L)) (hold : old ∈ L) (hnew : new ∉ L) (hnew0 : new ≠ 0) :
    FreeList (s.spliceNode old new).mem (s.spliceNode old new).freeListHeadOffset
      (L.map (rename old new)) := by
  have h0 : 0 ∉ new :: L := by simp [Ne.symm hnew0, H.zero_not_mem]
  have ne0 : ∀ y ∈ L, y ≠ 0 := fun y hy h => H.zero_not_mem (h ▸ hy)
  have hold0 := ne0 old hold
  have hn' : new ∈ new :: L := List.mem_cons_self _ _
  have hpL : prevIn L old = 0 ∨ prevIn L old ∈ L := or_iff_not_imp_left.2 prevIn_mem
  have hnL : nextIn L old = 0 ∨ nextIn L old ∈ L := or_iff_not_imp_left.2 nextIn_mem
  have hp' := hpL.imp_right (List.mem_cons_of_mem new)
  have hn'' := hnL.imp_right (List.mem_cons_of_mem new)
  have hfresh : ∀ z, z = 0 ∨ z ∈ L → new ≠ z := by
    rintro z (rfl | hz) rfl
    exacts [hnew0 rfl, hnew hz]
  have hinj : ∀ a ∈ L, ∀ b ∈ L, rename old new a = rename old new b → a = b := rename_injOn hnew
  rw [spliceNode_eq H hsep hold hnew hnew0]
  refine ⟨H.nodup.map_on hinj, ?_, ?_, fun y hy => ?_, fun y hy => ?_⟩
  · simp only [List.mem_map, not_exists, not_and]
    intro z hz h
    unfold rename at h
    split_ifs at h
    exacts [hnew0 h, ne0 z hz h]
  · simp only [setPrev_eq, setNextOrHead_eq, store_freeListHeadOffset, ne_eq, ite_not]
    split_ifs with hp0
    · obtain ⟨t, rfl⟩ :=
        List.head?_eq_some_iff.1 (head?_eq_of_prevIn_eq_zero H.nodup H.zero_not_mem hold hp0)
      simp [rename]
    · obtain ⟨a, t, rfl⟩ := List.exists_cons_of_ne_nil (List.ne_nil_of_mem hold)
      have hao : a ≠ old := by rintro rfl; exact hp0 (prevIn_cons_self (List.nodup_cons.1 H.nodup).1)
      simp [H.head_eq, rename, hao]
  · obtain ⟨z, hz, rfl⟩ := List.mem_map.1 hy
    have hz' := List.mem_cons_of_mem new hz
    have hzn : z ≠ new := Ne.symm (hfresh z (.inr hz))
    show load _ (rename old new z + 64) = _
    rw [nextIn_map hinj (rename_zero hold0) hz, load_setPrev hsep h0 (by unfold rename; split <;>
      assumption) hn'' (.inl rfl), load_setNextOrHead hsep h0 (by unfold rename; split <;> assumption)
      hp' (.inl rfl)]
    by_cases hzo : z = old
    · simp only [rename, hzo, if_true, Nat.reduceEqDiff, and_false, and_true, if_false,
        hfresh _ hpL, load, store_mem, hsep.load_store _ hn' hn' (.inl rfl) (.inl rfl),
        hsep.load_store _ hn' hn' (.inr rfl) (.inl rfl), Nat.mod_eq_of_lt (H.nextIn_lt hold),
        nextIn_ne_self H.nodup hold0]
    · have hpz : nextIn L z = old ↔ z = prevIn L old :=
        (nextIn_eq_iff_prevIn_eq H.nodup (ne0 z hz) hold0).trans eq_comm
      simp only [rename, hzo, if_false, Nat.reduceEqDiff, and_false, and_true,
        load, store_mem, hsep.load_store _ hz' hn' (.inl rfl) (.inl rfl),
        hsep.load_store _ hz' hn' (.inr rfl) (.inl rfl), hzn, H.next_eq z hz, hpz,
        Nat.mod_eq_of_lt (hsep.lt_of_mem hn')]
  · obtain ⟨z, hz, rfl⟩ := List.mem_map.1 hy
    have hz' := List.mem_cons_of_mem new hz
    have hzn : z ≠ new := Ne.symm (hfresh z (.inr hz))
    show load _ (rename old new z + 72) = _
    rw [prevIn_map hinj (rename_zero hold0) hz, load_setPrev hsep h0 (by unfold rename; split <;>
      assumption) hn'' (.inr rfl), load_setNextOrHead hsep h0 (by unfold rename; split <;> assumption)
      hp' (.inr rfl)]
    by_cases hzo : z = old
    · simp only [rename, hzo, if_true, Nat.reduceEqDiff, and_false, and_true, if_false,
        hfresh _ hnL, load, store_mem, hsep.load_store _ hn' hn' (.inl rfl) (.inr rfl),
        hsep.load_store _ hn' hn' (.inr rfl) (.inr rfl), Nat.mod_eq_of_lt (H.prevIn_lt hold),
        prevIn_ne_self H.nodup hold0]
    · have hnz : prevIn L z = old ↔ z = nextIn L old :=
        (nextIn_eq_iff_prevIn_eq H.nodup hold0 (ne0 z hz)).symm.trans eq_comm
      simp only [rename, hzo, if_false, Nat.reduceEqDiff, and_false, and_true,
        load, store_mem, hsep.load_store _ hz' hn' (.inl rfl) (.inr rfl),
        hsep.load_store _ hz' hn' (.inr rfl) (.inr rfl), hzn, H.prev_eq z hz, hnz,
        Nat.mod_eq_of_lt (hsep.lt_of_mem hn')]

theorem touches_spliceNode (H : FreeList s.mem s.freeListHeadOffset L) (hsep : NodesApart (new :: L))
    (hold : old ∈ L) (hnew : new ∉ L) (hnew0 : new ≠ 0) :
    Mem.Touches s.mem (s.spliceNode old new).mem fun j =>
      InNode new j ∨ (prevIn L old ≠ 0 ∧ InNode (prevIn L old) j) ∨
        (nextIn L old ≠ 0 ∧ InNode (nextIn L old) j) := by
  have hlt : ∀ z, z = 0 ∨ z ∈ L → z + 80 ≤ 2 ^ 64 :=
    fun z hz => hz.elim (by omega) fun h => hsep.lt z (List.mem_cons_of_mem _ h)
  have hn := hsep.lt new (List.mem_cons_self _ _)
  rw [spliceNode_eq H hsep hold hnew hnew0]
  refine ((((Mem.touches_store s.mem _ (by omega)).trans (Mem.touches_store _ _ (by omega))).trans
    (touches_setNextOrHead _ (hlt _ (or_iff_not_imp_left.2 prevIn_mem)) _)).trans
    (touches_setPrev _ (hlt _ (or_iff_not_imp_left.2 nextIn_mem)) _)).mono fun j _ hj => ?_
  unfold InNode at hj ⊢
  rcases hj with ((hj | hj) | hj) | hj
  · exact .inl (by omega)
  · exact .inl (by omega)
  · exact .inr (.inl hj)
  · exact .inr (.inr hj)

end Splice

section Walk
variable {s : SlabAllocator} {L : List Nat}

/-- The first-fit loop walks a well-formed list: with more fuel than the list is long it
returns the first listed block of size at least `required`, or `0`. -/
theorem firstFit_eq (required : Nat) (hnd : L.Nodup) (h0 : 0 ∉ L)
    (hnext : ∀ x ∈ L, s.load (x + 64) = nextIn L x) {fuel : Nat} (hfuel : L.length < fuel) :
    s.firstFit required fuel (L.headD 0) =
      some ((L.find? fun x => required ≤ getSize (s.load x)).getD 0) := by
  induction L generalizing fuel with
  | nil =>
    obtain ⟨k, rfl⟩ : ∃ k, fuel = k + 1 := ⟨fuel - 1, by simp at hfuel; omega⟩
    simp [firstFit]
  | cons x t ih =>
    obtain ⟨k, rfl⟩ : ∃ k, fuel = k + 1 := ⟨fuel - 1, by simp at hfuel; omega⟩
    rw [List.nodup_cons] at hnd
    have hx0 : x ≠ 0 := fun h => h0 (h ▸ List.mem_cons_self _ _)
    rw [List.headD_cons, firstFit, if_neg hx0]
    by_cases hx : required ≤ getSize (s.load x)
    · simp [hx]
    · rw [if_neg hx, hnext x (List.mem_cons_self _ _), nextIn_cons_self,
        ih hnd.2 (fun h => h0 (List.mem_cons_of_mem _ h)) (fun y hy => ?_) (by simp at hfuel; omega)]
      · simp [hx]
      · rw [hnext y (List.mem_cons_of_mem _ hy), nextIn_cons_of_ne fun h => hnd.1 (by rw [h]; exact hy)]

end Walk

end SlabAllocator

end HyperionRuntime.Slab
