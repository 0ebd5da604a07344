import HyperionRuntime.Machine.Memory
import Mathlib.Algebra.BigOperators.Fin
import Mathlib.Tactic.Linarith

/-!
# The int8 dot products

`Hyperion::Math::SIMD_Dot_Int8` and `Cognitron::Math::SIMD::DotProductInt8` compute
`Σ_{i < count} a[i] * b[i]` over arrays of `int8_t`: blocks of 16 bytes on NEON lanes, with
`vdotq_s32` where the target has `__ARM_FEATURE_DOTPROD` and with `vmull_s8`, `vpaddlq_s16` and
`vaddq_s32` where it has not, and then a scalar loop over the tail. Without `__aarch64__`,
`SIMD_Dot_Int8` runs the scalar loop alone.

An `int8_t` is a `BitVec 8` read by `BitVec.toInt`, an array the function from indices to its
elements, and a lane of `int16_t` or `int32_t` the integer it holds. The vector instructions
wrap to 32 bits (`wrap32`) where they do; an `int32_t` addition of the scalar loop that
overflows is undefined behaviour (`none`).

Each product lies in `[-16384, 16384]`, so after `m` blocks every lane lies in
`[-65536 m, 65536 m]` and the lanes add up to the dot product of the first `16 m` elements
(`LaneInv.block`, carried over the loop by `neonLoop_spec`). For `count ≤ 131071` no lane,
no horizontal sum and no scalar sum leaves `int32_t` (`scalarLoop_eq`), and both functions
return the dot product on every path.
-/

namespace HyperionRuntime.Math

open Finset

/-! ## Integers of the machine -/

/-- The `int32_t` that holds the low 32 bits of `x`. -/
def wrap32 (x : Int) : Int := (x + 2 ^ 31) % 2 ^ 32 - 2 ^ 31

theorem wrap32_of_bounds {x : Int} (h₁ : -2 ^ 31 ≤ x) (h₂ : x < 2 ^ 31) : wrap32 x = x := by
  unfold wrap32; omega

/-- `x + y` on `int32_t`: `none` when the sum overflows, which is undefined behaviour. -/
def add32 (x y : Int) : Option Int :=
  if -2 ^ 31 ≤ x + y ∧ x + y < 2 ^ 31 then some (x + y) else none

theorem toInt_bounds (x : BitVec 8) : -128 ≤ x.toInt ∧ x.toInt ≤ 127 := by
  rw [BitVec.toInt_eq_toNat_cond]
  have := x.isLt
  split <;> omega

/-- The product of two `int8_t`s lies in `[-16384, 16384]`; `-128 * -128` reaches the top. -/
theorem mul_toInt_bounds (x y : BitVec 8) :
    -16384 ≤ x.toInt * y.toInt ∧ x.toInt * y.toInt ≤ 16384 := by
  obtain ⟨hx₁, hx₂⟩ := toInt_bounds x
  obtain ⟨hy₁, hy₂⟩ := toInt_bounds y
  constructor <;> nlinarith

/-! ## NEON -/

/-- An `int8x16_t`. -/
abbrev Int8x16 := Fin 16 → BitVec 8

/-- An `int8x8_t`. -/
abbrev Int8x8 := Fin 8 → BitVec 8

/-- An `int16x8_t`, by the values of its lanes. -/
abbrev Int16x8 := Fin 8 → Int

/-- An `int32x4_t`, by the values of its lanes. -/
abbrev Int32x4 := Fin 4 → Int

/-- `vld1q_s8(p + i)`. -/
def vld1qS8 (p : Nat → BitVec 8) (i : Nat) : Int8x16 := fun k => p (i + k)

/-- `vdupq_n_s32(v)`. -/
def vdupqNS32 (v : Int) : Int32x4 := fun _ => v

/-- `vaddq_s32(x, y)`: lane by lane, wrapping. -/
def vaddqS32 (x y : Int32x4) : Int32x4 := fun j => wrap32 (x j + y j)

/-- `vdotq_s32(acc, x, y)`: lane `j` adds the four products of the bytes `4 j` to `4 j + 3`,
wrapping. -/
def vdotqS32 (acc : Int32x4) (x y : Int8x16) : Int32x4 := fun j =>
  wrap32 (acc j + ∑ k : Fin 4, (x ⟨4 * j + k, by omega⟩).toInt * (y ⟨4 * j + k, by omega⟩).toInt)

/-- `vget_low_s8(x)`. -/
def vgetLowS8 (x : Int8x16) : Int8x8 := fun k => x ⟨k, by omega⟩

/-- `vget_high_s8(x)`. -/
def vgetHighS8 (x : Int8x16) : Int8x8 := fun k => x ⟨8 + k, by omega⟩

/-- `vmull_s8(x, y)`: the products, which fit in `int16_t`. -/
def vmullS8 (x y : Int8x8) : Int16x8 := fun k => (x k).toInt * (y k).toInt

/-- `vpaddlq_s16(p)`: the sums of adjacent lanes, widened to `int32_t`. -/
def vpaddlqS16 (p : Int16x8) : Int32x4 := fun j => p ⟨2 * j, by omega⟩ + p ⟨2 * j + 1, by omega⟩

/-- `vaddvq_s32(x)`: the sum of the lanes, wrapping. -/
def vaddvqS32 (x : Int32x4) : Int := wrap32 (∑ j, x j)

/-- One block of the NEON loop: `vdotq_s32` with `__ARM_FEATURE_DOTPROD`, and the widening
fallback without. -/
def neonBlock (dotprod : Bool) (acc : Int32x4) (va vb : Int8x16) : Int32x4 :=
  if dotprod then vdotqS32 acc va vb
  else
    let mulLo := vmullS8 (vgetLowS8 va) (vgetLowS8 vb)
    let mulHi := vmullS8 (vgetHighS8 va) (vgetHighS8 vb)
    let sumLo := vpaddlqS16 mulLo
    let sumHi := vpaddlqS16 mulHi
    vaddqS32 acc (vaddqS32 sumLo sumHi)

/-! ## The two functions -/

section Loops
variable (a b : Nat → BitVec 8)

/-- The NEON loop `for (; cond(i); i += 16)`, with fuel: the index it stops at and the lanes. -/
def neonLoop (dotprod : Bool) (cond : Nat → Bool) : Nat → Nat → Int32x4 → Option (Nat × Int32x4)
  | 0, _, _ => none
  | fuel + 1, i, acc =>
    if cond i then neonLoop dotprod cond fuel (i + 16) (neonBlock dotprod acc (vld1qS8 a i) (vld1qS8 b i))
    else some (i, acc)

/-- The scalar loop `for (; i < count; ++i) accumulator += a[i] * b[i];`, with fuel. -/
def scalarLoop (count : Nat) : Nat → Nat → Int → Option Int
  | 0, _, _ => none
  | fuel + 1, i, acc =>
    if i < count then (add32 acc ((a i).toInt * (b i).toInt)).bind (scalarLoop count fuel (i + 1))
    else some acc

/-- `Hyperion::Math::SIMD_Dot_Int8(a, b, count)` on a target with `__aarch64__` or without, and
with `__ARM_FEATURE_DOTPROD` or without. -/
def simdDotInt8 (aarch64 dotprod : Bool) (count : Nat) : Option Int :=
  if aarch64 then
    let loopEnd := andNot count 15
    (neonLoop a b dotprod (fun i => decide (i < loopEnd)) (count + 1) 0 (vdupqNS32 0)).bind
      fun (i, vecAcc) => scalarLoop a b count (count + 1) i (vaddvqS32 vecAcc)
  else scalarLoop a b count (count + 1) 0 0

/-- `Cognitron::Math::SIMD::DotProductInt8(a, b, count)`, with `__ARM_FEATURE_DOTPROD` or
without. -/
def dotProductInt8 (dotprod : Bool) (count : Nat) : Option Int :=
  (neonLoop a b dotprod (fun i => decide (i + 15 < count)) (count + 1) 0 (vdupqNS32 0)).bind
    fun (i, sumVec) => scalarLoop a b count (count + 1) i (vaddvqS32 sumVec)

/-- `Σ_{i < n} a[i] * b[i]` over the integers. -/
def dot : Nat → Int
  | 0 => 0
  | n + 1 => dot n + (a n).toInt * (b n).toInt

/-! ## The scalar loop -/

@[simp] theorem dot_zero : dot a b 0 = 0 := rfl

theorem dot_succ (n : Nat) : dot a b (n + 1) = dot a b n + (a n).toInt * (b n).toInt := rfl

theorem dot_bounds (n : Nat) : -(16384 * n) ≤ dot a b n ∧ dot a b n ≤ 16384 * n := by
  induction n with
  | zero => simp
  | succ n ih =>
    have := mul_toInt_bounds (a n) (b n)
    rw [dot_succ]; push_cast; omega

/-- From `i` on, with `accumulator` the dot product so far and enough fuel, the scalar loop
returns the dot product of the first `count` elements: below `count = 131072` no partial sum
leaves `int32_t`. -/
theorem scalarLoop_eq {count : Nat} (hcount : count ≤ 131071) :
    ∀ fuel i, i ≤ count → count < i + fuel →
      scalarLoop a b count fuel i (dot a b i) = some (dot a b count) := by
  intro fuel
  induction fuel with
  | zero => intro i h₁ h₂; omega
  | succ fuel ih =>
    intro i h₁ h₂
    rw [scalarLoop]
    split_ifs with hi
    · have hb := dot_bounds a b (i + 1)
      have hadd : add32 (dot a b i) ((a i).toInt * (b i).toInt) = some (dot a b (i + 1)) := by
        rw [add32, dot_succ, if_pos (by rw [← dot_succ]; omega)]
      rw [hadd, Option.some_bind, ih (i + 1) (by omega) (by omega)]
    · rw [show i = count by omega]

/-! ## The NEON loop -/

/-- The lanes after `m` blocks: they add up to `s`, and each lies in `[-65536 m, 65536 m]`. -/
structure LaneInv (acc : Int32x4) (m : Nat) (s : Int) : Prop where
  sum_eq : ∑ j, acc j = s
  bounds : ∀ j, -(65536 * m) ≤ acc j ∧ acc j ≤ 65536 * m

theorem LaneInv.dup : LaneInv (vdupqNS32 0) 0 (dot a b 0) :=
  ⟨by simp [vdupqNS32], fun _ => by simp [vdupqNS32]⟩

/-- Adding to each lane at most `65536` in absolute value, below `32767` blocks, wraps nothing. -/
theorem LaneInv.add {acc c : Int32x4} {m : Nat} {s : Int} (H : LaneInv acc m s)
    (hc : ∀ j, -65536 ≤ c j ∧ c j ≤ 65536) (hm : m + 1 ≤ 32767) :
    LaneInv (fun j => wrap32 (acc j + c j)) (m + 1) (s + ∑ j, c j) := by
  have hw : ∀ j, wrap32 (acc j + c j) = acc j + c j := fun j => by
    have := H.bounds j; have := hc j
    exact wrap32_of_bounds (by push_cast at *; omega) (by push_cast at *; omega)
  refine ⟨by simp only [hw, sum_add_distrib, H.sum_eq], fun j => ?_⟩
  have := H.bounds j; have := hc j
  rw [hw]; push_cast at *; omega

/-- The sixteen products of the block at `i`, by lanes of four. -/
theorem sum_quads (p : Nat → Int) (i : Nat) :
    ∑ j : Fin 4, ∑ k : Fin 4, p (i + (4 * j + k)) = ∑ k ∈ range 16, p (i + k) := by
  simp [Fin.sum_univ_four, Finset.sum_range_succ, show ((3 : Fin 4) : Nat) = 3 from rfl]
  omega

theorem dot_add (i n : Nat) :
    dot a b (i + n) = dot a b i + ∑ k ∈ range n, (a (i + k)).toInt * (b (i + k)).toInt := by
  induction n with
  | zero => simp
  | succ n ih => rw [← Nat.add_assoc, dot_succ, ih, sum_range_succ, Int.add_assoc]

/-- One block keeps the lane invariant, on both paths: `vdotq_s32` adds to lane `j` the
products of the bytes `4 j` to `4 j + 3`, the widening path those of the bytes `2 j`, `2 j + 1`,
`8 + 2 j` and `9 + 2 j`. -/
theorem LaneInv.block {acc : Int32x4} {m : Nat} (dotprod : Bool)
    (H : LaneInv acc m (dot a b (16 * m))) (hm : m + 1 ≤ 32767) :
    LaneInv (neonBlock dotprod acc (vld1qS8 a (16 * m)) (vld1qS8 b (16 * m))) (m + 1)
      (dot a b (16 * (m + 1))) := by
  set i := 16 * m
  set p : Nat → Int := fun k => (a k).toInt * (b k).toInt with hp
  have hpb : ∀ k, -16384 ≤ p k ∧ p k ≤ 16384 := fun k => mul_toInt_bounds (a k) (b k)
  have hdot : dot a b (16 * (m + 1)) = dot a b i + ∑ k ∈ range 16, p (i + k) := by
    rw [show 16 * (m + 1) = i + 16 by omega, dot_add]
  rw [hdot]
  cases dotprod with
  | true =>
    have hc : ∀ j : Fin 4, -65536 ≤ ∑ k : Fin 4, p (i + (4 * j + k)) ∧
        ∑ k : Fin 4, p (i + (4 * j + k)) ≤ 65536 := fun j => by
      have := hpb (i + 4 * j); have := hpb (i + (4 * j + 1)); have := hpb (i + (4 * j + 2))
      have := hpb (i + (4 * j + 3))
      simp only [Fin.sum_univ_four, show ((3 : Fin 4) : Nat) = 3 from rfl, Fin.val_zero, Fin.val_one,
        Fin.val_two, Nat.add_zero]
      omega
    rw [← sum_quads]
    exact H.add hc hm
  | false =>
    have hc : ∀ j : Fin 4, wrap32 ((p (i + 2 * j) + p (i + (2 * j + 1))) + (p (i + (8 + 2 * j)) +
        p (i + (8 + (2 * j + 1))))) = (p (i + 2 * j) + p (i + (2 * j + 1))) + (p (i + (8 + 2 * j)) +
        p (i + (8 + (2 * j + 1)))) := fun j => by
      have := hpb (i + 2 * j); have := hpb (i + (2 * j + 1)); have := hpb (i + (8 + 2 * j))
      have := hpb (i + (8 + (2 * j + 1)))
      exact wrap32_of_bounds (by omega) (by omega)
    have hsum : ∑ j : Fin 4, ((p (i + 2 * j) + p (i + (2 * j + 1))) + (p (i + (8 + 2 * j)) +
        p (i + (8 + (2 * j + 1))))) = ∑ k ∈ range 16, p (i + k) := by
      simp [Fin.sum_univ_four, Finset.sum_range_succ, show ((3 : Fin 4) : Nat) = 3 from rfl]
      omega
    have hblk : neonBlock false acc (vld1qS8 a i) (vld1qS8 b i) = fun j => wrap32 (acc j +
        ((p (i + 2 * j) + p (i + (2 * j + 1))) + (p (i + (8 + 2 * j)) + p (i + (8 + (2 * j + 1)))))) :=
      funext fun j => by
        show wrap32 (acc j + wrap32 ((p (i + 2 * j) + p (i + (2 * j + 1))) +
          (p (i + (8 + 2 * j)) + p (i + (8 + (2 * j + 1)))))) = _
        rw [hc j]
    rw [hblk, ← hsum]
    refine H.add (fun j => ?_) hm
    have := hpb (i + 2 * j); have := hpb (i + (2 * j + 1)); have := hpb (i + (8 + 2 * j))
    have := hpb (i + (8 + (2 * j + 1)))
    omega

/-- The NEON loop, from block `m` on with the lane invariant and enough fuel, stops at a block
boundary below `count` with the invariant, when its condition admits only blocks inside
`count`. -/
theorem neonLoop_spec (dotprod : Bool) (cond : Nat → Bool) {count : Nat} (hcount : count ≤ 131071)
    (hcond : ∀ i, i % 16 = 0 → cond i = true → i + 16 ≤ count) :
    ∀ fuel m acc, 16 * m ≤ count → count < 16 * m + fuel → LaneInv acc m (dot a b (16 * m)) →
      ∃ m' acc', neonLoop a b dotprod cond fuel (16 * m) acc = some (16 * m', acc') ∧
        16 * m' ≤ count ∧ LaneInv acc' m' (dot a b (16 * m')) := by
  intro fuel
  induction fuel with
  | zero => intro m acc h₁ h₂; omega
  | succ fuel ih =>
    intro m acc h₁ h₂ H
    rw [neonLoop]
    split_ifs with hc
    · have hle := hcond (16 * m) (by omega) hc
      rw [show 16 * m + 16 = 16 * (m + 1) by omega]
      exact ih (m + 1) _ (by omega) (by omega) (H.block a b dotprod (by omega))
    · exact ⟨m, acc, rfl, h₁, H⟩

/-- The NEON loop from `vdupq_n_s32(0)`, `vaddvq_s32`, and the scalar loop over the tail. -/
theorem neon_then_scalar_eq (dotprod : Bool) (cond : Nat → Bool) {count : Nat}
    (hcount : count ≤ 131071) (hcond : ∀ i, i % 16 = 0 → cond i = true → i + 16 ≤ count) :
    (neonLoop a b dotprod cond (count + 1) 0 (vdupqNS32 0)).bind
      (fun r => scalarLoop a b count (count + 1) r.1 (vaddvqS32 r.2)) = some (dot a b count) := by
  obtain ⟨m, acc, hloop, hle, H⟩ := neonLoop_spec a b dotprod cond hcount hcond (count + 1) 0 _
    (by omega) (by omega) (LaneInv.dup a b)
  have hv : vaddvqS32 acc = dot a b (16 * m) := by
    have := dot_bounds a b (16 * m)
    rw [vaddvqS32, H.sum_eq]
    exact wrap32_of_bounds (by push_cast at *; omega) (by push_cast at *; omega)
  rw [hloop, Option.some_bind, hv, scalarLoop_eq a b hcount _ _ hle (by omega)]

end Loops

/-- For every `count ≤ 131071` and all arrays, both functions return `Σ_{i < count} a[i] * b[i]`
over the integers, on every target: the scalar loop alone, and the NEON loop with `vdotq_s32` or
with the widening fallback, followed by the scalar tail. -/
theorem dot_products_eq_dot (a b : Nat → BitVec 8) (count : Nat) (hcount : count ≤ 131071) :
    (∀ aarch64 dotprod, simdDotInt8 a b aarch64 dotprod count = some (dot a b count)) ∧
    ∀ dotprod, dotProductInt8 a b dotprod count = some (dot a b count) := by
  refine ⟨fun aarch64 dotprod => ?_, fun dotprod => neon_then_scalar_eq a b dotprod _ hcount
    fun i _ h => by simp only [decide_eq_true_eq] at h; omega⟩
  cases aarch64
  · exact scalarLoop_eq a b hcount _ 0 (Nat.zero_le _) (by omega)
  · have hend : andNot count 15 = count - count % 16 := andNot_two_pow_sub_one 4 (by omega) (by omega)
    exact neon_then_scalar_eq a b dotprod _ hcount fun i hi h => by
      simp only [hend, decide_eq_true_eq] at h; omega

theorem dot_products_eq_dot_extremes :
    17 ≤ 131071 ∧
    (∀ aarch64 dotprod, simdDotInt8 (fun _ => 0x80) (fun _ => 0x80) aarch64 dotprod 17 =
      some (dot (fun _ => 0x80) (fun _ => 0x80) 17)) ∧
    ∀ dotprod, dotProductInt8 (fun _ => 0x80) (fun _ => 0x80) dotprod 17 =
      some (dot (fun _ => 0x80) (fun _ => 0x80) 17) :=
  ⟨by decide, dot_products_eq_dot (fun _ => 0x80) (fun _ => 0x80) 17 (by decide)⟩

/-- One block of `-128 * -128` products on the widening path and a tail of one. -/
example : dotProductInt8 (fun _ => 0x80) (fun _ => 0x80) false 17 = some (17 * 16384) := by decide

end HyperionRuntime.Math
