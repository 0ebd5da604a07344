import HyperionRuntime.Machine.Memory

/-!
# Tagged pointers

`TaggedPtr<T>` keeps a 48-bit address and three metadata fields in the one 64-bit word
`m_value`: the access count in bits 48 to 59, the quantization level in bits 60 to 62 and the
dirty bit 63. The masks and accessors below are those of `TaggedPtr.hpp`, on `BitVec 64`; the
setters' `uint8_t` and `uint16_t` arguments are `BitVec 8` and `BitVec 16`. The two getters and
the two setters that share a shape are one `getField` and one `setField` with the member's mask,
shift and argument mask, so `getLsbD_setField` is proved once for both.

`fields` reads a word as the record the layout comment describes. It is injective
(`fields_injective`), and every mutator is an update of one field of that record
(`fields_setQuantizationLevel`, `fields_setAccessCount`, `fields_setDirty`,
`fields_incrementAccess`): a setter changes no bit outside its own field.
-/

namespace HyperionRuntime.Core

/-- `TaggedPtr<T>`: the word `m_value`. The pointee type `T` plays no part. -/
structure TaggedPtr where
  value : BitVec 64
deriving DecidableEq, Repr

namespace TaggedPtr

/-- `ADDR_MASK`: the 48 address bits. -/
def addrMask : BitVec 64 := 0x0000FFFFFFFFFFFF#64
/-- `DIRTY_BIT_MASK = 1ULL << 63`. -/
def dirtyBitMask : BitVec 64 := 1#64 <<< 63
/-- `QUANT_SHIFT`. -/
def quantShift : Nat := 60
/-- `QUANT_MASK = 0x7ULL << QUANT_SHIFT`. -/
def quantMask : BitVec 64 := 0x7#64 <<< quantShift
/-- `ACCESS_SHIFT`. -/
def accessShift : Nat := 48
/-- `ACCESS_MASK = 0xFFFULL << ACCESS_SHIFT`. -/
def accessMask : BitVec 64 := 0xFFF#64 <<< accessShift

/-- The constructor `TaggedPtr(T* ptr)`: `m_value = raw & ADDR_MASK`. -/
def ofPtr (ptr : BitVec 64) : TaggedPtr := ⟨ptr &&& addrMask⟩

/-- `get()`: `m_value & ADDR_MASK`. -/
def get (p : TaggedPtr) : BitVec 64 := p.value &&& addrMask

/-- `is_dirty()`. -/
def isDirty (p : TaggedPtr) : Bool := (p.value &&& dirtyBitMask) != 0#64

/-- `set_dirty(dirty)`: set or clear bit 63. -/
def setDirty (p : TaggedPtr) (dirty : Bool) : TaggedPtr :=
  if dirty then ⟨p.value ||| dirtyBitMask⟩ else ⟨p.value &&& ~~~dirtyBitMask⟩

/-- A field getter: `(m_value & MASK) >> SHIFT`, narrowed to the getter's `w`-bit result. -/
def getField (w : Nat) (mask : BitVec 64) (shift : Nat) (p : TaggedPtr) : BitVec w :=
  ((p.value &&& mask) >>> shift).setWidth w

/-- A field setter: `arg &= max; m_value &= ~MASK; m_value |= (uintptr_t)arg << SHIFT`. -/
def setField {w : Nat} (max : BitVec w) (mask : BitVec 64) (shift : Nat) (p : TaggedPtr)
    (arg : BitVec w) : TaggedPtr :=
  ⟨(p.value &&& ~~~mask) ||| ((arg &&& max).setWidth 64 <<< shift)⟩

/-- `get_quantization_level()`. -/
def getQuantizationLevel (p : TaggedPtr) : BitVec 8 := getField 8 quantMask quantShift p

/-- `set_quantization_level(level)`, with `level &= 0x7`. -/
def setQuantizationLevel (p : TaggedPtr) (level : BitVec 8) : TaggedPtr :=
  setField 0x7#8 quantMask quantShift p level

/-- `get_access_count()`. -/
def getAccessCount (p : TaggedPtr) : BitVec 16 := getField 16 accessMask accessShift p

/-- `set_access_count(count)`, with `count &= 0xFFF`. -/
def setAccessCount (p : TaggedPtr) (count : BitVec 16) : TaggedPtr :=
  setField 0xFFF#16 accessMask accessShift p count

/-- `increment_access()`: one more access, unless the count is already `0xFFF`. -/
def incrementAccess (p : TaggedPtr) : TaggedPtr :=
  let current := p.getAccessCount
  if current < 0xFFF#16 then p.setAccessCount (current + 1) else p

/-! ## The masks, bit by bit -/

theorem getLsbD_lowMask {w : Nat} (k i : Nat) (hk : k ≤ w) :
    (BitVec.ofNat w (2 ^ k - 1)).getLsbD i = decide (i < k) := by
  rw [BitVec.getLsbD_ofNat, Nat.testBit_two_pow_sub_one]
  by_cases h : i < k
  · simp [h, Nat.lt_of_lt_of_le h hk]
  · simp [h]

theorem getLsbD_shiftLeft_lowMask (s k i : Nat) (hk : s + k ≤ 64) :
    (BitVec.ofNat 64 (2 ^ k - 1) <<< s).getLsbD i = decide (s ≤ i ∧ i < s + k) := by
  rw [BitVec.getLsbD_shiftLeft, getLsbD_lowMask k _ (by omega)]
  by_cases h : s ≤ i ∧ i < s + k
  · simp [h, show i < 64 by omega, show i - s < k by omega, Nat.not_lt.2 h.1]
  · rw [decide_eq_false h]
    simp only [Bool.and_eq_false_iff, Bool.not_eq_false', decide_eq_false_iff_not, decide_eq_true_eq]
    omega

theorem getLsbD_addrMask (i : Nat) : addrMask.getLsbD i = decide (i < 48) :=
  getLsbD_lowMask 48 i (by decide)

theorem getLsbD_dirtyBitMask (i : Nat) : dirtyBitMask.getLsbD i = decide (63 ≤ i ∧ i < 63 + 1) :=
  getLsbD_shiftLeft_lowMask 63 1 i (by decide)

theorem getLsbD_quantMask (i : Nat) : quantMask.getLsbD i = decide (60 ≤ i ∧ i < 60 + 3) :=
  getLsbD_shiftLeft_lowMask 60 3 i (by decide)

theorem getLsbD_accessMask (i : Nat) : accessMask.getLsbD i = decide (48 ≤ i ∧ i < 48 + 12) :=
  getLsbD_shiftLeft_lowMask 48 12 i (by decide)

/-- Masking with `2 ^ k - 1` keeps the low `k` bits. -/
theorem and_lowMask {w : Nat} (x : BitVec w) {k : Nat} (hk : k ≤ w) :
    x &&& BitVec.ofNat w (2 ^ k - 1) = (x.setWidth k).setWidth w := by
  apply BitVec.eq_of_getLsbD_eq
  intro ⟨j, hj⟩
  simp only [BitVec.getLsbD_and, getLsbD_lowMask k j hk, BitVec.getLsbD_setWidth, hj]
  by_cases h : j < k <;> simp [h]

/-! ## The setters, bit by bit -/

section Field
variable {w s n : Nat} {max : BitVec w} {mask : BitVec 64}

/-- A field setter writes the low bits of its argument into bits `[s, s + n)` and keeps the
others, whatever the argument's higher bits. -/
theorem getLsbD_setField (hmask : ∀ i, mask.getLsbD i = decide (s ≤ i ∧ i < s + n))
    (hmax : ∀ j, max.getLsbD j = decide (j < n)) (p : TaggedPtr) (arg : BitVec w) {i : Nat}
    (hi : i < 64) :
    (setField max mask s p arg).value.getLsbD i =
      if s ≤ i ∧ i < s + n then arg.getLsbD (i - s) else p.value.getLsbD i := by
  simp only [setField, BitVec.getLsbD_or, BitVec.getLsbD_and, BitVec.getLsbD_not,
    BitVec.getLsbD_shiftLeft, BitVec.getLsbD_setWidth, hmask, hmax, hi]
  rcases Nat.lt_or_ge i s with h | h
  · simp [h, Nat.not_le.2 h]
  rcases Nat.lt_or_ge i (s + n) with h' | h'
  · simp [h, h', show i - s < n by omega, show i - s < 64 by omega, Nat.not_lt.2 h]
  · simp [h, h', show ¬ i - s < n by omega, Nat.not_lt.2 h, Nat.not_lt.2 h']

/-- The field a setter writes reads back as the low `n` bits of its argument. -/
theorem extractLsb'_setField (hmask : ∀ i, mask.getLsbD i = decide (s ≤ i ∧ i < s + n))
    (hmax : ∀ j, max.getLsbD j = decide (j < n)) (hsn : s + n ≤ 64) (p : TaggedPtr) (arg : BitVec w) :
    (setField max mask s p arg).value.extractLsb' s n = arg.setWidth n := by
  apply BitVec.eq_of_getLsbD_eq
  intro ⟨j, hj⟩
  simp only [BitVec.getLsbD_extractLsb', BitVec.getLsbD_setWidth, hj, decide_True, Bool.true_and]
  rw [getLsbD_setField hmask hmax p arg (by omega), if_pos (by omega), Nat.add_sub_cancel_left]

/-- A field getter reads bits `[s, s + n)`. -/
theorem getField_eq (hmask : ∀ i, mask.getLsbD i = decide (s ≤ i ∧ i < s + n)) (p : TaggedPtr) :
    getField w mask s p = (p.value.extractLsb' s n).setWidth w := by
  apply BitVec.eq_of_getLsbD_eq
  intro ⟨j, hj⟩
  simp only [getField, BitVec.getLsbD_setWidth, BitVec.getLsbD_ushiftRight, BitVec.getLsbD_and,
    hmask, BitVec.getLsbD_extractLsb']
  by_cases h : j < n <;> simp [h, hj]

end Field

theorem getLsbD_setQuantizationLevel (p : TaggedPtr) (l : BitVec 8) {i : Nat} (hi : i < 64) :
    (p.setQuantizationLevel l).value.getLsbD i =
      if 60 ≤ i ∧ i < 60 + 3 then l.getLsbD (i - 60) else p.value.getLsbD i :=
  getLsbD_setField getLsbD_quantMask (getLsbD_lowMask 3 · (by decide)) p l hi

theorem getLsbD_setAccessCount (p : TaggedPtr) (c : BitVec 16) {i : Nat} (hi : i < 64) :
    (p.setAccessCount c).value.getLsbD i =
      if 48 ≤ i ∧ i < 48 + 12 then c.getLsbD (i - 48) else p.value.getLsbD i :=
  getLsbD_setField getLsbD_accessMask (getLsbD_lowMask 12 · (by decide)) p c hi

theorem getLsbD_setDirty (p : TaggedPtr) (d : Bool) {i : Nat} (hi : i < 64) :
    (p.setDirty d).value.getLsbD i = if i = 63 then d else p.value.getLsbD i := by
  by_cases h : i = 63 <;> cases d <;> simp [setDirty, getLsbD_dirtyBitMask, h, hi] <;> omega

/-! ## The fields of a word -/

/-- What a tagged pointer holds, as the layout comment of `TaggedPtr.hpp` lists it. -/
structure Fields where
  address : BitVec 48
  accessCount : BitVec 12
  quantizationLevel : BitVec 3
  dirty : Bool
deriving DecidableEq, Repr

/-- The fields of `m_value`: bits 0 to 47, 48 to 59, 60 to 62, and 63. -/
def fields (p : TaggedPtr) : Fields :=
  ⟨p.value.extractLsb' 0 48, p.value.extractLsb' 48 12, p.value.extractLsb' 60 3,
    p.value.getLsbD 63⟩

section Extract
variable {x y : BitVec 64} {s n i : Nat}

theorem extractLsb'_congr (h : ∀ i, s ≤ i → i < s + n → x.getLsbD i = y.getLsbD i) :
    x.extractLsb' s n = y.extractLsb' s n := by
  apply BitVec.eq_of_getLsbD_eq
  intro ⟨j, hj⟩
  simp only [BitVec.getLsbD_extractLsb', hj, decide_True, Bool.true_and]
  exact h _ (by omega) (by omega)

theorem getLsbD_of_extractLsb'_eq (h : x.extractLsb' s n = y.extractLsb' s n) (h₁ : s ≤ i)
    (h₂ : i < s + n) : x.getLsbD i = y.getLsbD i := by
  simpa [show i - s < n by omega, show s + (i - s) = i by omega] using
    congrArg (BitVec.getLsbD · (i - s)) h

end Extract

/-- The four fields cover the word: a word is determined by its fields. -/
theorem fields_injective : Function.Injective fields := by
  intro ⟨x⟩ ⟨y⟩ h
  simp only [fields, Fields.mk.injEq] at h
  obtain ⟨ha, hc, hq, hd⟩ := h
  congr
  apply BitVec.eq_of_getLsbD_eq
  intro ⟨i, hi⟩
  rcases (by omega : i < 48 ∨ 48 ≤ i ∧ i < 60 ∨ 60 ≤ i ∧ i < 63 ∨ i = 63) with h | h | h | rfl
  · exact getLsbD_of_extractLsb'_eq ha (Nat.zero_le i) h
  · exact getLsbD_of_extractLsb'_eq hc h.1 h.2
  · exact getLsbD_of_extractLsb'_eq hq h.1 h.2
  · exact hd

theorem get_fields (p : TaggedPtr) : p.get = (fields p).address.setWidth 64 := by
  apply BitVec.eq_of_getLsbD_eq
  intro ⟨j, hj⟩
  by_cases h : j < 48 <;> simp [get, fields, getLsbD_addrMask, h, hj]

theorem isDirty_fields (p : TaggedPtr) : p.isDirty = (fields p).dirty := by
  have e : p.value &&& dirtyBitMask = if p.value.getLsbD 63 then dirtyBitMask else 0#64 := by
    apply BitVec.eq_of_getLsbD_eq
    intro ⟨i, hi⟩
    by_cases h : i = 63
    · subst h; split_ifs with h <;> simp [h, getLsbD_dirtyBitMask]
    · split_ifs <;> simp [getLsbD_dirtyBitMask, h] <;> omega
  show _ = p.value.getLsbD 63
  rw [isDirty, e]
  split_ifs with h
  · rw [h]; decide
  · simpa using h

theorem getQuantizationLevel_fields (p : TaggedPtr) :
    p.getQuantizationLevel = (fields p).quantizationLevel.setWidth 8 :=
  getField_eq getLsbD_quantMask p

theorem getAccessCount_fields (p : TaggedPtr) :
    p.getAccessCount = (fields p).accessCount.setWidth 16 :=
  getField_eq getLsbD_accessMask p

/-! ## Every mutator updates one field -/

theorem fields_setQuantizationLevel (p : TaggedPtr) (l : BitVec 8) :
    fields (p.setQuantizationLevel l) = { fields p with quantizationLevel := l.setWidth 3 } := by
  have hb := fun i => getLsbD_setQuantizationLevel p l (i := i)
  simp only [fields, Fields.mk.injEq]
  refine ⟨extractLsb'_congr fun i _ h => ?_, extractLsb'_congr fun i _ h => ?_,
    extractLsb'_setField getLsbD_quantMask (getLsbD_lowMask 3 · (by decide)) (by decide) p l, ?_⟩
  · rw [hb i (by omega), if_neg (by omega)]
  · rw [hb i (by omega), if_neg (by omega)]
  · rw [hb 63 (by omega), if_neg (by omega)]

theorem fields_setAccessCount (p : TaggedPtr) (c : BitVec 16) :
    fields (p.setAccessCount c) = { fields p with accessCount := c.setWidth 12 } := by
  have hb := fun i => getLsbD_setAccessCount p c (i := i)
  simp only [fields, Fields.mk.injEq]
  refine ⟨extractLsb'_congr fun i _ h => ?_,
    extractLsb'_setField getLsbD_accessMask (getLsbD_lowMask 12 · (by decide)) (by decide) p c,
    extractLsb'_congr fun i _ h => ?_, ?_⟩
  · rw [hb i (by omega), if_neg (by omega)]
  · rw [hb i (by omega), if_neg (by omega)]
  · rw [hb 63 (by omega), if_neg (by omega)]

theorem fields_setDirty (p : TaggedPtr) (d : Bool) :
    fields (p.setDirty d) = { fields p with dirty := d } := by
  have hb := fun i => getLsbD_setDirty p d (i := i)
  simp only [fields, Fields.mk.injEq]
  refine ⟨extractLsb'_congr fun i _ h => ?_, extractLsb'_congr fun i _ h => ?_,
    extractLsb'_congr fun i _ h => ?_, ?_⟩
  · rw [hb i (by omega), if_neg (by omega)]
  · rw [hb i (by omega), if_neg (by omega)]
  · rw [hb i (by omega), if_neg (by omega)]
  · rw [hb 63 (by omega), if_pos rfl]

theorem fields_ofPtr (ptr : BitVec 64) :
    fields (ofPtr ptr) = ⟨ptr.setWidth 48, 0#12, 0#3, false⟩ := by
  have hb (i : Nat) : (ofPtr ptr).value.getLsbD i = (ptr.getLsbD i && decide (i < 48)) := by
    simp [ofPtr, getLsbD_addrMask]
  simp only [fields, Fields.mk.injEq]
  refine ⟨?_, ?_, ?_, by simp [hb]⟩ <;> apply BitVec.eq_of_getLsbD_eq <;> intro ⟨j, hj⟩
  · simp [hb, hj]
  · simp [hb, hj]
  · simpa [hb, hj] using fun _ => by omega

theorem fields_incrementAccess (p : TaggedPtr) :
    fields p.incrementAccess = if (fields p).accessCount < 0xFFF#12 then
      { fields p with accessCount := (fields p).accessCount + 1 } else fields p := by
  have ha := (fields p).accessCount.isLt
  have hlt : p.getAccessCount < 0xFFF#16 ↔ (fields p).accessCount < 0xFFF#12 := by
    simp only [getAccessCount_fields, BitVec.lt_def, BitVec.toNat_setWidth]
    rw [Nat.mod_eq_of_lt (by omega)]
    rfl
  simp only [incrementAccess, hlt]
  split_ifs
  · have e : ((fields p).accessCount.setWidth 16 + 1).setWidth 12 = (fields p).accessCount + 1 := by
      apply BitVec.eq_of_toNat_eq
      simp [BitVec.toNat_add]
      omega
    rw [fields_setAccessCount, getAccessCount_fields, e]
  · rfl

/-! ## What the getters read back -/

theorem getQuantizationLevel_setQuantizationLevel (p : TaggedPtr) (l : BitVec 8) :
    (p.setQuantizationLevel l).getQuantizationLevel = l &&& 0x7#8 := by
  rw [getQuantizationLevel_fields, fields_setQuantizationLevel]
  exact (and_lowMask l (k := 3) (by decide)).symm

theorem getAccessCount_setAccessCount (p : TaggedPtr) (c : BitVec 16) :
    (p.setAccessCount c).getAccessCount = c &&& 0xFFF#16 := by
  rw [getAccessCount_fields, fields_setAccessCount]
  exact (and_lowMask c (k := 12) (by decide)).symm

theorem isDirty_setDirty (p : TaggedPtr) (d : Bool) : (p.setDirty d).isDirty = d := by
  rw [isDirty_fields, fields_setDirty]

theorem get_ofPtr {ptr : BitVec 64} (h : ptr.toNat < 2 ^ 48) : (ofPtr ptr).get = ptr := by
  rw [get_fields, fields_ofPtr]
  apply BitVec.eq_of_toNat_eq
  simp only [BitVec.toNat_setWidth]
  rw [Nat.mod_eq_of_lt h, Nat.mod_eq_of_lt (by omega)]

/-- `increment_access` stops at `0xFFF`: the count never wraps to `0`. -/
theorem toNat_getAccessCount_incrementAccess (p : TaggedPtr) :
    p.incrementAccess.getAccessCount.toNat = min (p.getAccessCount.toNat + 1) 4095 := by
  have ha := (fields p).accessCount.isLt
  simp only [getAccessCount_fields, fields_incrementAccess, BitVec.toNat_setWidth]
  split_ifs with h <;> rw [BitVec.lt_def] at h
  · simp [BitVec.toNat_add]
    omega
  · simp at h
    omega

theorem tagged_ptr_field_laws (p : TaggedPtr) (l : BitVec 8) (c : BitVec 16) (d : Bool) :
    ((p.setQuantizationLevel l).getQuantizationLevel = l &&& 0x7#8 ∧
      (p.setQuantizationLevel l).get = p.get ∧ (p.setQuantizationLevel l).isDirty = p.isDirty ∧
      (p.setQuantizationLevel l).getAccessCount = p.getAccessCount ∧
      fields (p.setQuantizationLevel l) = { fields p with quantizationLevel := l.setWidth 3 }) ∧
    ((p.setAccessCount c).getAccessCount = c &&& 0xFFF#16 ∧
      (p.setAccessCount c).get = p.get ∧ (p.setAccessCount c).isDirty = p.isDirty ∧
      (p.setAccessCount c).getQuantizationLevel = p.getQuantizationLevel ∧
      fields (p.setAccessCount c) = { fields p with accessCount := c.setWidth 12 }) ∧
    ((p.setDirty d).isDirty = d ∧
      (p.setDirty d).get = p.get ∧ (p.setDirty d).getQuantizationLevel = p.getQuantizationLevel ∧
      (p.setDirty d).getAccessCount = p.getAccessCount ∧
      fields (p.setDirty d) = { fields p with dirty := d }) ∧
    (∀ ptr : BitVec 64, ptr.toNat < 2 ^ 48 → (ofPtr ptr).get = ptr) ∧
    (p.incrementAccess.getAccessCount.toNat = min (p.getAccessCount.toNat + 1) 4095 ∧
      fields p.incrementAccess = if (fields p).accessCount < 0xFFF#12 then
        { fields p with accessCount := (fields p).accessCount + 1 } else fields p) := by
  refine ⟨⟨getQuantizationLevel_setQuantizationLevel p l, ?_, ?_, ?_, fields_setQuantizationLevel p l⟩,
    ⟨getAccessCount_setAccessCount p c, ?_, ?_, ?_, fields_setAccessCount p c⟩,
    ⟨isDirty_setDirty p d, ?_, ?_, ?_, fields_setDirty p d⟩, fun _ => get_ofPtr,
    toNat_getAccessCount_incrementAccess p, fields_incrementAccess p⟩ <;>
  simp only [getQuantizationLevel_fields, getAccessCount_fields, get_fields, isDirty_fields,
    fields_setQuantizationLevel, fields_setAccessCount, fields_setDirty]

theorem get_ofPtr_user_address :
    (0x7FFF12345678#64).toNat < 2 ^ 48 ∧ (ofPtr 0x7FFF12345678#64).get = 0x7FFF12345678#64 :=
  ⟨by decide, (tagged_ptr_field_laws ⟨0#64⟩ 0#8 0#16 false).2.2.2.1 _ (by decide)⟩

end TaggedPtr
end HyperionRuntime.Core
