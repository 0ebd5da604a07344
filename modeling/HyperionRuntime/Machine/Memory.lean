import Mathlib.Data.Nat.Defs
import Mathlib.Algebra.Order.Ring.Nat

/-!
# Byte memory and 64-bit words

The stores of the runtime (the slab allocator's backing region, fiber stacks, the ghost
arena) are byte addressed. A `Mem` maps each address to its byte; addresses are taken
modulo `2 ^ 64`, as a `uintptr_t` is, and words are little-endian. Values of `uint64_t` and
`size_t` are natural numbers below `2 ^ 64`; where the source's arithmetic can wrap, the model
writes the `% 2 ^ 64` out.

Later files use only `load_store_self`, `load_store_of_disjoint`, `load_lt` and
`store_apply_of_disjoint` of the byte encoding.
-/

namespace HyperionRuntime

/-- A byte memory: the byte at each address. -/
def Mem := Nat → UInt8

namespace Mem

/-- The memory with the byte at `a` replaced by `b`. -/
def set (m : Mem) (a : Nat) (b : UInt8) : Mem := fun j => if j = a then b else m j

/-- The `n` bytes at `a`, read little-endian. -/
def loadLE (m : Mem) (a : Nat) : Nat → Nat
  | 0 => 0
  | n + 1 => (m (a % 2 ^ 64)).toNat + 256 * loadLE m (a + 1) n

/-- The low `n` bytes of `v`, written little-endian at `a`. -/
def storeLE (m : Mem) (a : Nat) : Nat → Nat → Mem
  | 0, _ => m
  | n + 1, v => storeLE (m.set (a % 2 ^ 64) (UInt8.ofNat v)) (a + 1) n (v / 256)

/-- `*(uint64_t*)a`. -/
def load (m : Mem) (a : Nat) : Nat := loadLE m a 8

/-- `*(uint64_t*)a = v`. -/
def store (m : Mem) (a v : Nat) : Mem := storeLE m a 8 v

theorem storeLE_apply_of_forall_ne {m : Mem} {a j : Nat} :
    ∀ {n v}, (∀ i < n, (a + i) % 2 ^ 64 ≠ j) → storeLE m a n v j = m j := by
  intro n
  induction n generalizing m a with
  | zero => intro _ _; rfl
  | succ n ih =>
    intro v h
    rw [storeLE, ih fun i hi => by simpa [Nat.add_assoc, Nat.add_comm 1] using h (i + 1) (by omega)]
    simp only [set, ite_eq_right_iff]
    exact fun hj => absurd hj.symm (by simpa using h 0 (by omega))

theorem loadLE_lt (m : Mem) : ∀ (a n : Nat), loadLE m a n < 256 ^ n
  | _, 0 => by simp [loadLE]
  | a, n + 1 => by
    have h₁ := (m (a % 2 ^ 64)).toBitVec.isLt
    have h₂ := loadLE_lt m (a + 1) n
    rw [loadLE, Nat.pow_succ]
    simp only [UInt8.toNat] at h₁ ⊢
    omega

theorem loadLE_storeLE_self {m : Mem} {a : Nat} :
    ∀ {n v}, n ≤ 2 ^ 64 → loadLE (storeLE m a n v) a n = v % 256 ^ n := by
  intro n
  induction n generalizing m a with
  | zero => intro v _; simp [loadLE, Nat.mod_one]
  | succ n ih =>
    intro v hn
    have hbyte : storeLE (m.set (a % 2 ^ 64) (UInt8.ofNat v)) (a + 1) n (v / 256) (a % 2 ^ 64) =
        UInt8.ofNat v :=
      (storeLE_apply_of_forall_ne fun i hi => by omega).trans (by simp [set])
    rw [storeLE, loadLE, hbyte, ih (by omega), Nat.pow_succ, Nat.mul_comm _ 256, Nat.mod_mul]
    simp [UInt8.toNat, UInt8.ofNat]

theorem loadLE_storeLE_of_disjoint {m : Mem} {a k v : Nat} :
    ∀ {b n}, (∀ i < k, ∀ j < n, (a + i) % 2 ^ 64 ≠ (b + j) % 2 ^ 64) →
      loadLE (storeLE m a k v) b n = loadLE m b n := by
  intro b n
  induction n generalizing b with
  | zero => intro _; rfl
  | succ n ih =>
    intro h
    rw [loadLE, loadLE, storeLE_apply_of_forall_ne fun i hi => by simpa using h i hi 0 (by omega),
      ih fun i hi j hj => by simpa [Nat.add_assoc, Nat.add_comm 1] using h i hi (j + 1) (by omega)]

theorem load_lt (m : Mem) (a : Nat) : m.load a < 2 ^ 64 := loadLE_lt m a 8

@[simp] theorem load_mod (m : Mem) (a : Nat) : m.load a % 2 ^ 64 = m.load a :=
  Nat.mod_eq_of_lt (load_lt m a)

theorem load_store_self (m : Mem) (a v : Nat) : (m.store a v).load a = v % 2 ^ 64 :=
  loadLE_storeLE_self (by omega)

/-- A word stored at `a` leaves the word at `b` alone when the two do not overlap. -/
theorem load_store_of_disjoint (m : Mem) {a b : Nat} (v : Nat)
    (h : a + 8 ≤ b ∨ b + 8 ≤ a) (ha : a + 8 ≤ 2 ^ 64) (hb : b + 8 ≤ 2 ^ 64) :
    (m.store a v).load b = m.load b :=
  loadLE_storeLE_of_disjoint fun i hi j hj => by omega

/-- A word stored at `a` leaves every byte outside `[a, a + 8)` alone. -/
theorem store_apply_of_disjoint (m : Mem) {a j : Nat} (v : Nat)
    (h : j < a ∨ a + 8 ≤ j) (ha : a + 8 ≤ 2 ^ 64) : m.store a v j = m j :=
  storeLE_apply_of_forall_ne fun i hi => by omega

/-! ### Frames -/

/-- `m'` differs from `m` at most at the addresses below `2 ^ 64` that satisfy `P`. -/
def Touches (m m' : Mem) (P : Nat → Prop) : Prop := ∀ j < 2 ^ 64, ¬ P j → m' j = m j

theorem Touches.refl (m : Mem) (P : Nat → Prop) : Touches m m P := fun _ _ _ => rfl

theorem Touches.trans {m₁ m₂ m₃ : Mem} {P Q : Nat → Prop} (h₁ : Touches m₁ m₂ P)
    (h₂ : Touches m₂ m₃ Q) : Touches m₁ m₃ fun j => P j ∨ Q j := fun j hj hn =>
  (h₂ j hj fun h => hn (.inr h)).trans (h₁ j hj fun h => hn (.inl h))

theorem Touches.mono {m m' : Mem} {P Q : Nat → Prop} (h : Touches m m' P)
    (hPQ : ∀ j < 2 ^ 64, P j → Q j) : Touches m m' Q := fun j hj hn =>
  h j hj fun hp => hn (hPQ j hj hp)

theorem touches_store (m : Mem) {a : Nat} (v : Nat) (ha : a + 8 ≤ 2 ^ 64) :
    Touches m (m.store a v) fun j => a ≤ j ∧ j < a + 8 := fun _ _ hn =>
  store_apply_of_disjoint m v (by omega) ha

/-- A word none of whose bytes is touched reads the same. -/
theorem Touches.load_eq {m m' : Mem} {P : Nat → Prop} (h : Touches m m' P) {a : Nat}
    (ha : a + 8 ≤ 2 ^ 64) (hP : ∀ j, a ≤ j → j < a + 8 → ¬ P j) : m'.load a = m.load a := by
  suffices ∀ n ≤ 8, ∀ b, a ≤ b → b + n ≤ a + 8 → loadLE m' b n = loadLE m b n from this 8 le_rfl a le_rfl le_rfl
  intro n
  induction n with
  | zero => intros; rfl
  | succ n ih =>
    intro hn b hb hbn
    rw [loadLE, loadLE, ih (by omega) (b + 1) (by omega) (by omega), Nat.mod_eq_of_lt (by omega),
      h b (by omega) (hP b hb (by omega))]

theorem touches_storeLE (m : Mem) {a n : Nat} (v : Nat) (ha : a + n ≤ 2 ^ 64) :
    Touches m (m.storeLE a n v) fun j => a ≤ j ∧ j < a + n := fun _ _ hn =>
  storeLE_apply_of_forall_ne fun i hi => by omega

/-- `n` bytes none of which is touched read the same. -/
theorem Touches.loadLE_eq {m m' : Mem} {P : Nat → Prop} (h : Touches m m' P) :
    ∀ {n a : Nat}, a + n ≤ 2 ^ 64 → (∀ j, a ≤ j → j < a + n → ¬ P j) → m'.loadLE a n = m.loadLE a n
  | 0, _, _, _ => rfl
  | n + 1, a, ha, hP => by
    rw [loadLE, loadLE, h.loadLE_eq (by omega) fun j h₁ h₂ => hP j (by omega) (by omega),
      Nat.mod_eq_of_lt (by omega), h a (by omega) (hP a le_rfl (by omega))]

/-- A word of zero bytes reads `0`. -/
theorem load_eq_zero {m : Mem} {a : Nat} (h : ∀ j, a ≤ j → j < a + 8 → m j = 0) (ha : a + 8 ≤ 2 ^ 64) :
    m.load a = 0 := by
  suffices ∀ n ≤ 8, ∀ b, a ≤ b → b + n ≤ a + 8 → loadLE m b n = 0 from this 8 le_rfl a le_rfl le_rfl
  intro n
  induction n with
  | zero => intros; rfl
  | succ n ih =>
    intro hn b hb hbn
    rw [loadLE, ih (by omega) (b + 1) (by omega) (by omega), Nat.mod_eq_of_lt (by omega),
      h b hb (by omega)]
    rfl

/-! ### Byte strings -/

/-- The bytes `bs` written at `a`, `a + 1`, ... -/
def setBytes (m : Mem) (a : Nat) : List UInt8 → Mem
  | [] => m
  | b :: bs => setBytes (m.set a b) (a + 1) bs

theorem setBytes_apply_of_lt {m : Mem} {a j : Nat} :
    ∀ {bs : List UInt8}, (j < a ∨ a + bs.length ≤ j) → m.setBytes a bs j = m j
  | [], _ => rfl
  | b :: bs, h => by
    rw [setBytes, setBytes_apply_of_lt (by simp only [List.length_cons] at h; omega), set,
      if_neg (by simp only [List.length_cons] at h; omega)]

theorem setBytes_apply {m : Mem} {a : Nat} :
    ∀ {bs : List UInt8} {i : Nat} {b : UInt8}, bs[i]? = some b → m.setBytes a bs (a + i) = b
  | [], _, _, h => by simp at h
  | c :: bs, 0, b, h => by
    simp only [List.getElem?_cons_zero, Option.some_inj] at h
    rw [setBytes, setBytes_apply_of_lt (by omega), Nat.add_zero, set, if_pos rfl, h]
  | c :: bs, i + 1, b, h => by
    rw [setBytes, show a + (i + 1) = a + 1 + i by omega]
    exact setBytes_apply (by simpa using h)

theorem touches_setBytes (m : Mem) (a : Nat) (bs : List UInt8) :
    Touches m (m.setBytes a bs) fun j => a ≤ j ∧ j < a + bs.length := fun _ _ hn =>
  setBytes_apply_of_lt (by omega)

end Mem

/-- An entry of a list with one more element at its end. -/
theorem getElem?_concat_eq_some {α : Type} {l : List α} {x y : α} {i : Nat}
    (h : (l ++ [x])[i]? = some y) : l[i]? = some y ∨ i = l.length ∧ y = x := by
  rcases Nat.lt_or_ge i l.length with hi | hi
  · exact .inl (by rwa [List.getElem?_append_left hi] at h)
  · rw [List.getElem?_append_right hi] at h
    have hlt := (List.getElem?_eq_some_iff.1 h).1
    simp only [List.length_singleton] at hlt
    obtain rfl : i = l.length := by omega
    simp only [Nat.sub_self, List.getElem?_cons_zero, Option.some_inj] at h
    exact .inr ⟨rfl, h.symm⟩

/-- An entry of a list with one entry replaced. -/
theorem getElem?_set_eq_some {α : Type} {l : List α} {j i : Nat} {x y : α} (hj : j < l.length)
    (h : (l.set j x)[i]? = some y) : i = j ∧ y = x ∨ i ≠ j ∧ l[i]? = some y := by
  by_cases hij : i = j
  · subst hij
    rw [List.getElem?_set_self hj, Option.some_inj] at h
    exact .inl ⟨rfl, h.symm⟩
  · rw [List.getElem?_set_ne (Ne.symm hij)] at h
    exact .inr ⟨hij, h⟩

/-! ## Unsigned 64-bit arithmetic -/

/-- `a + b` on `uint64_t`, `size_t` or `uintptr_t`. -/
def add64 (a b : Nat) : Nat := (a + b) % 2 ^ 64

/-- `a - b` on `uint64_t`, `size_t` or `uintptr_t` (for `b < 2 ^ 64`). -/
def sub64 (a b : Nat) : Nat := (a + 2 ^ 64 - b) % 2 ^ 64

/-- `x & ~m` on 64-bit words. -/
def andNot (x m : Nat) : Nat := x &&& (2 ^ 64 - 1 - m)

/-- `x & ~(64 - 1)`: `x` with its low six bits cleared. -/
def alignDown (x : Nat) : Nat := andNot x (64 - 1)

theorem add64_of_lt {a b : Nat} (h : a + b < 2 ^ 64) : add64 a b = a + b := Nat.mod_eq_of_lt h

theorem sub64_of_le {a b : Nat} (h : b ≤ a) (ha : a < 2 ^ 64) : sub64 a b = a - b := by
  unfold sub64; omega

theorem add64_lt (a b : Nat) : add64 a b < 2 ^ 64 := Nat.mod_lt _ (by decide)

/-- Clearing the low `k` bits of a word rounds it down to a multiple of `2 ^ k`. -/
theorem andNot_two_pow_sub_one {x : Nat} (k : Nat) (hx : x < 2 ^ 64) (hk : k ≤ 64) :
    andNot x (2 ^ k - 1) = x - x % 2 ^ k := by
  have h₁ : 2 ^ 64 - 1 - (2 ^ k - 1) = 2 ^ k * (2 ^ (64 - k) - 1) := by
    have : 2 ^ 64 = 2 ^ k * 2 ^ (64 - k) := by rw [← Nat.pow_add]; congr 1; omega
    rw [Nat.mul_sub_one, ← this]
    have := Nat.one_le_two_pow (n := k)
    omega
  have h₂ : x - x % 2 ^ k = 2 ^ k * (x / 2 ^ k) := by
    have := Nat.div_add_mod x (2 ^ k); omega
  rw [andNot, h₁, h₂]
  apply Nat.eq_of_testBit_eq
  intro i
  rw [Nat.testBit_and, Nat.testBit_mul_pow_two, Nat.testBit_mul_pow_two, Nat.testBit_two_pow_sub_one,
    ← Nat.shiftRight_eq_div_pow, Nat.testBit_shiftRight]
  by_cases hki : k ≤ i
  · by_cases hi : i < 64
    · simp [hki, show i - k < 64 - k by omega, Nat.add_sub_cancel' hki]
    · have : x.testBit i = false :=
        Nat.testBit_lt_two_pow (lt_of_lt_of_le hx (Nat.pow_le_pow_right (by omega) (by omega)))
      simp [hki, show ¬ i - k < 64 - k by omega, Nat.add_sub_cancel' hki, this]
  · simp [hki]

@[simp] theorem alignDown_add64 (a b : Nat) : alignDown (add64 a b) = add64 a b - add64 a b % 64 :=
  andNot_two_pow_sub_one 6 (add64_lt a b) (by decide)

end HyperionRuntime
