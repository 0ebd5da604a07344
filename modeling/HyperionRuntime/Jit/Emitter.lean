import HyperionRuntime.Machine.Memory
import Mathlib.Logic.Function.Basic

/-!
# The machine-code emitter

`JITEmitter` appends the encoding of each call to `m_code`: `emit_mov_reg_imm64(r, v)`,
`emit_add_reg_reg(d, s)` and `emit_ret()`, on x86-64 or on AArch64 (`Target`). On AArch64 the
immediate is built by a `MOVZ` of its low 16 bits and a `MOVK` for each higher 16-bit chunk
that the source does not skip; a skipped chunk is one whose bits, and all above them, are zero.

Against it stand the two instruction sets, each with a reference decoder for the emitted forms
and their execution (`X86`, `Arm`), and the calls' own meaning on a register file: `r := v`,
`d := d + s` modulo `2 ^ 64`, and return (`Call.run`). On x86-64 the register file comes with
the memory the stack is in, and `RET` pops its target off the stack at `RSP`, which is `R4`; the
flags `ADD` sets are left out. The emitted bytes decode, and the decoded instructions compute
`Call.run` (`emitted_code_refines`), on x86-64 with the return through the stack
(`Call.runX86`) as long as no call writes `R4`: per call the decoder reads back what the encoder
wrote (`X86.decodeOne_call`, `Arm.decode_call`), and the `MOVZ`/`MOVK` sequence leaves `v` in the
register whichever `MOVK`s it skips (`Arm.exec_movSeq`). A call that writes `R4` moves the stack,
and the `RET` after it returns elsewhere (`mov_rsp_ret_returns_elsewhere`).
-/

namespace HyperionRuntime.Jit.Emitter

/-- The targets the emitter has code for: `__x86_64__` and `__aarch64__`. -/
inductive Target where
  | x86_64
  | aarch64

/-- `enum class Reg : uint8_t`, `R0` to `R7`, by the hardware index each names. -/
abbrev Reg := Fin 8

/-! ## The emitter -/

/-- The `size` low bytes of `value`, lowest first: what `emit_bytes(&value, size)` copies on a
little-endian machine. -/
def leBytes (value : Nat) : Nat → List UInt8
  | 0 => []
  | size + 1 => (value % 256).toUInt8 :: leBytes (value / 256) size

/-- `emit_bytes(&value, size)`. -/
def emitBytes (code : List UInt8) (value size : Nat) : List UInt8 := code ++ leBytes value size

/-- The move-wide instruction `emit_arm_movz` and `emit_arm_movk` build on `base`:
`instr |= (shift_block << 21); instr |= (imm << 5); instr |= reg;`. -/
def emitArmMoveWide (base : Nat) (code : List UInt8) (reg : Reg) (imm shiftBlock : Nat) :
    List UInt8 :=
  let instr := base ||| (shiftBlock <<< 21) ||| (imm <<< 5) ||| reg.val
  emitBytes code instr 4

/-- `emit_arm_movz(reg, imm, shift_block)`. -/
def emitArmMovz (code : List UInt8) (reg : Reg) (imm shiftBlock : Nat) : List UInt8 :=
  emitArmMoveWide 0xD2800000 code reg imm shiftBlock

/-- `emit_arm_movk(reg, imm, shift_block)`. -/
def emitArmMovk (code : List UInt8) (reg : Reg) (imm shiftBlock : Nat) : List UInt8 :=
  emitArmMoveWide 0xF2800000 code reg imm shiftBlock

/-- `emit_mov_reg_imm64(reg, imm)`. -/
def emitMovRegImm64 : Target → List UInt8 → Reg → BitVec 64 → List UInt8
  | .x86_64, code, reg, imm =>
    let rex : UInt8 := 0x48
    let opcode : UInt8 := (0xB8 + reg.val).toUInt8
    emitBytes (code ++ [rex, opcode]) imm.toNat 8
  | .aarch64, code, reg, imm =>
    let imm0 := imm.toNat &&& 0xFFFF
    let code := emitArmMovz code reg imm0 0
    let imm1 := (imm.toNat >>> 16) &&& 0xFFFF
    let code := if imm1 ≠ 0 ∨ imm.toNat >>> 16 ≠ 0 then emitArmMovk code reg imm1 1 else code
    let imm2 := (imm.toNat >>> 32) &&& 0xFFFF
    let code := if imm2 ≠ 0 ∨ imm.toNat >>> 32 ≠ 0 then emitArmMovk code reg imm2 2 else code
    let imm3 := (imm.toNat >>> 48) &&& 0xFFFF
    if imm3 ≠ 0 then emitArmMovk code reg imm3 3 else code

/-- `emit_add_reg_reg(dst, src)`. -/
def emitAddRegReg : Target → List UInt8 → Reg → Reg → List UInt8
  | .x86_64, code, dst, src =>
    let modrm := 0xC0 ||| (src.val <<< 3) ||| dst.val
    code ++ [0x48, 0x01, modrm.toUInt8]
  | .aarch64, code, dst, src =>
    let instr := 0x8B000000 ||| (src.val <<< 16) ||| (dst.val <<< 5) ||| dst.val
    emitBytes code instr 4

/-- `emit_ret()`. -/
def emitRet : Target → List UInt8 → List UInt8
  | .x86_64, code => code ++ [0xC3]
  | .aarch64, code => emitBytes code 0xD65F03C0 4

/-- A call of the emitter. -/
inductive Call where
  | movRegImm64 (reg : Reg) (imm : BitVec 64)
  | addRegReg (dst src : Reg)
  | ret

/-- One call, on `m_code`. -/
def Call.emit (t : Target) (code : List UInt8) : Call → List UInt8
  | .movRegImm64 reg imm => emitMovRegImm64 t code reg imm
  | .addRegReg dst src => emitAddRegReg t code dst src
  | .ret => emitRet t code

/-- `get_code()` after the calls, from `JITEmitter()`. -/
def getCode (t : Target) (calls : List Call) : List UInt8 := calls.foldl (Call.emit t) []

/-! ## What the calls mean -/

/-- The calls on a register file whose first eight registers are `R0` to `R7`: `r := v`,
`d := d + s` modulo `2 ^ 64`, and return, after which nothing runs. The flag says whether the
calls returned. -/
def Call.run {n : Nat} (h : 8 ≤ n) : List Call → (Fin n → BitVec 64) → (Fin n → BitVec 64) × Bool
  | [], x => (x, false)
  | .movRegImm64 r v :: calls, x => Call.run h calls (Function.update x (r.castLE h) v)
  | .addRegReg d s :: calls, x =>
    Call.run h calls (Function.update x (d.castLE h) (x (d.castLE h) + x (s.castLE h)))
  | .ret :: _, x => (x, true)

/-- The register a call writes, if any. -/
def Call.dst : Call → Option Reg
  | .movRegImm64 r _ => some r
  | .addRegReg d _ => some d
  | .ret => none

/-- A register that no call writes keeps its value. -/
theorem Call.run_frame {n : Nat} (h : 8 ≤ n) (calls : List Call) (x : Fin n → BitVec 64) {i : Fin n}
    (hi : ∀ c ∈ calls, ∀ r ∈ c.dst, r.castLE h ≠ i) : (Call.run h calls x).1 i = x i := by
  induction calls generalizing x with
  | nil => rfl
  | cons c calls ih =>
    have hc := hi c (List.mem_cons_self _ _)
    have hcs := fun c' hc' => hi c' (List.mem_cons_of_mem _ hc')
    cases c with
    | movRegImm64 r v => rw [Call.run, ih _ hcs, Function.update_noteq (hc r rfl).symm]
    | addRegReg d s => rw [Call.run, ih _ hcs, Function.update_noteq (hc d rfl).symm]
    | ret => rfl

/-! ## Little-endian words -/

/-- The value of bytes read lowest first. -/
def leValue : List UInt8 → Nat
  | [] => 0
  | b :: bs => b.toNat + 256 * leValue bs

@[simp] theorem length_leBytes (value n : Nat) : (leBytes value n).length = n := by
  induction n generalizing value with
  | zero => rfl
  | succ n ih => simp [leBytes, ih]

theorem leValue_leBytes (value n : Nat) : leValue (leBytes value n) = value % 256 ^ n := by
  induction n generalizing value with
  | zero => simp [leBytes, leValue, Nat.mod_one]
  | succ n ih =>
    rw [leBytes, leValue, ih, UInt8.toNat_ofNat_of_lt (Nat.mod_lt _ (by decide)), Nat.pow_succ,
      Nat.mul_comm (256 ^ n), Nat.mod_mul]

/-- Setting bits of `a` that are all zero is adding. -/
theorem lor_eq_add {a b k : Nat} (ha : a % 2 ^ k = 0) (hb : b < 2 ^ k) : a ||| b = a + b := by
  have h := Nat.mul_add_lt_is_or hb (a / 2 ^ k)
  rwa [Nat.mul_div_cancel' (Nat.dvd_of_mod_eq_zero ha), eq_comm] at h

/-! ## x86-64 -/

namespace X86

/-- The sixteen general-purpose registers, `RAX` to `R15`. -/
abbrev Regs := Fin 16 → BitVec 64

/-- `RSP`, the stack pointer. -/
def rsp : Fin 16 := 4

/-- The registers and the memory the stack is in. `RFLAGS`, which `ADD` sets, is left out. -/
structure State where
  regs : Regs
  mem : Mem

/-- The emitted forms: `MOV r64, imm64`, `ADD r/m64, r64` on registers, and `RET`. -/
inductive Instr where
  | movImm (r : Fin 16) (imm : BitVec 64)
  | add (dst src : Fin 16)
  | ret

/-- A `REX` prefix with `REX.W` set: `0100 1RXB`. -/
def isRexW (b : UInt8) : Bool := b.toNat / 8 = 9

/-- The reference decoding of one instruction of the emitted forms, and the bytes after it:
`REX.W B8+rd io`, where the register is `rd` extended by `REX.B`; `REX.W 01 /r` with
`mod = 11`, which adds the register in `reg` (extended by `REX.R`) to the one in `r/m`
(extended by `REX.B`); and `C3`. Anything else is not one of them. -/
def decodeOne : List UInt8 → Option (Instr × List UInt8)
  | [] => none
  | b :: bs =>
    if b = 0xC3 then some (.ret, bs) else
    if isRexW b then
      match bs with
      | op :: rest =>
        if op = 0x01 then
          match rest with
          | modrm :: rest' =>
            if modrm.toNat / 64 = 3 then
              some (.add ⟨modrm.toNat % 8 + 8 * (b.toNat % 2), by omega⟩
                ⟨modrm.toNat / 8 % 8 + 8 * (b.toNat / 4 % 2), by omega⟩, rest')
            else none
          | [] => none
        else if op.toNat / 8 = 0x17 ∧ 8 ≤ rest.length then
          some (.movImm ⟨op.toNat % 8 + 8 * (b.toNat % 2), by omega⟩
            (BitVec.ofNat 64 (leValue (rest.take 8))), rest.drop 8)
        else none
      | [] => none
    else none

theorem decodeOne_length {bs rest : List UInt8} {i : Instr} (h : decodeOne bs = some (i, rest)) :
    rest.length < bs.length := by
  match bs, h with
  | b :: bs, h =>
    simp only [decodeOne] at h
    split_ifs at h
    · cases h; simp
    · split at h
      · split_ifs at h
        · split at h
          · split_ifs at h; cases h; simp only [List.length_cons]; omega
          · cases h
        · cases h; simp only [List.length_cons, List.length_drop]; omega
      · cases h

/-- The instructions, one after the other, or `none` if one is not of the emitted forms. -/
def decode (bs : List UInt8) : Option (List Instr) :=
  if bs = [] then some [] else
  match _h : decodeOne bs with
  | none => none
  | some (i, rest) => (decode rest).map (i :: ·)
termination_by bs.length
decreasing_by exact decodeOne_length _h

/-- One instruction other than `RET`, on the registers. -/
def step (x : Regs) : Instr → Regs
  | .movImm r imm => Function.update x r imm
  | .add dst src => Function.update x dst (x dst + x src)
  | .ret => x

/-- The instructions in order, up to the first `RET`, which pops the return address off the
stack: it reads the word at `RSP` and adds `8` to `RSP`. The second component is the address
returned to, or `none` when the instructions run out first. -/
def exec : List Instr → State → State × Option Nat
  | [], σ => (σ, none)
  | .ret :: _, σ =>
    (⟨Function.update σ.regs rsp (σ.regs rsp + 8), σ.mem⟩, some (σ.mem.load (σ.regs rsp).toNat))
  | i :: is, σ => exec is ⟨step σ.regs i, σ.mem⟩

end X86

/-! ## AArch64 -/

namespace Arm

/-- The registers `X0` to `X30`; the register number `31` of the emitted forms is `XZR`. -/
abbrev Regs := Fin 31 → BitVec 64

/-- `X[n]`, with `XZR` reading `0`. -/
def read (x : Regs) (n : Nat) : BitVec 64 := if h : n < 31 then x ⟨n, h⟩ else 0

/-- `X[n] = v`, a write to `XZR` being discarded. -/
def write (x : Regs) (n : Nat) (v : BitVec 64) : Regs :=
  if h : n < 31 then Function.update x ⟨n, h⟩ v else x

/-- The emitted forms: `MOVZ`, `MOVK` (64-bit), `ADD` (shifted register, 64-bit, no shift),
`RET`. -/
inductive Instr where
  | movz (rd imm16 hw : Nat)
  | movk (rd imm16 hw : Nat)
  | add (rd rn rm : Nat)
  | ret (rn : Nat)

/-- The reference decoding of one instruction word: the fixed bits of each form and its
fields. -/
def decodeWord (w : Nat) : Option Instr :=
  if w / 1024 = 0x3597C0 ∧ w % 32 = 0 then some (.ret (w / 32 % 32))
  else if w / 2 ^ 23 = 0x1A5 then some (.movz (w % 32) (w / 32 % 2 ^ 16) (w / 2 ^ 21 % 4))
  else if w / 2 ^ 23 = 0x1E5 then some (.movk (w % 32) (w / 32 % 2 ^ 16) (w / 2 ^ 21 % 4))
  else if w / 2 ^ 24 = 0x8B ∧ w / 2 ^ 21 % 8 = 0 ∧ w / 1024 % 64 = 0 then
    some (.add (w % 32) (w / 32 % 32) (w / 2 ^ 16 % 32))
  else none

/-- The instruction words, four little-endian bytes each. -/
def decode : List UInt8 → Option (List Instr)
  | [] => some []
  | b₀ :: b₁ :: b₂ :: b₃ :: rest =>
    (decodeWord (leValue [b₀, b₁, b₂, b₃])).bind fun i => (decode rest).map (i :: ·)
  | _ => none

/-- `v` with its bits `16 hw` to `16 hw + 15` replaced by `imm16`. -/
def insertChunk (v imm16 hw : Nat) : Nat :=
  v / 2 ^ (16 * hw + 16) * 2 ^ (16 * hw + 16) + imm16 * 2 ^ (16 * hw) + v % 2 ^ (16 * hw)

/-- One instruction other than `RET`. -/
def step (x : Regs) : Instr → Regs
  | .movz rd imm16 hw => write x rd (BitVec.ofNat 64 (imm16 * 2 ^ (16 * hw)))
  | .movk rd imm16 hw => write x rd (BitVec.ofNat 64 (insertChunk (read x rd).toNat imm16 hw))
  | .add rd rn rm => write x rd (read x rn + read x rm)
  | .ret _ => x

/-- The instructions in order, up to the first `RET`; the flag says whether one returned. -/
def exec : List Instr → Regs → Regs × Bool
  | [], x => (x, false)
  | .ret _ :: _, x => (x, true)
  | i :: is, x => exec is (step x i)

end Arm

/-! ## `m_code` after the calls -/

/-- Each call appends its encoding to `m_code`. -/
theorem Call.emit_eq (t : Target) (code : List UInt8) (c : Call) :
    c.emit t code = code ++ c.emit t [] := by
  cases t <;> cases c <;>
    simp only [Call.emit, emitMovRegImm64, emitAddRegReg, emitRet, emitArmMovz, emitArmMovk,
      emitArmMoveWide, emitBytes, List.nil_append, List.append_assoc]
  -- what is left is `emit_mov_reg_imm64` on AArch64, with its three optional `MOVK`s
  split_ifs <;> simp

theorem foldl_emit (t : Target) (calls : List Call) (code : List UInt8) :
    calls.foldl (Call.emit t) code = code ++ getCode t calls := by
  induction calls generalizing code with
  | nil => simp [getCode]
  | cons c calls ih =>
    simp only [getCode, List.foldl_cons]
    rw [ih, ih, Call.emit_eq t code, List.append_assoc]

theorem getCode_cons (t : Target) (c : Call) (calls : List Call) :
    getCode t (c :: calls) = c.emit t [] ++ getCode t calls := by
  rw [getCode, List.foldl_cons, foldl_emit]

/-! ## x86-64: decoding and execution -/

/-- The instruction a call should decode to on x86-64. -/
def Call.toX86 : Call → X86.Instr
  | .movRegImm64 r v => .movImm (r.castLE (by decide)) v
  | .addRegReg d s => .add (d.castLE (by decide)) (s.castLE (by decide))
  | .ret => .ret

theorem X86.decode_of_decodeOne {bs rest : List UInt8} {i : X86.Instr}
    (h : X86.decodeOne bs = some (i, rest)) : X86.decode bs = (X86.decode rest).map (i :: ·) := by
  have hne : bs ≠ [] := by rintro rfl; simp [X86.decodeOne] at h
  rw [X86.decode, if_neg hne]
  split
  · simp_all
  · rename_i heq; rw [h] at heq; cases heq; rfl

theorem BitVec.ofNat_leValue_leBytes (v : BitVec 64) : BitVec.ofNat 64 (leValue (leBytes v.toNat 8)) = v :=
  BitVec.eq_of_toNat_eq (by rw [BitVec.toNat_ofNat, leValue_leBytes, Nat.mod_mod_of_dvd _ (by decide),
    Nat.mod_eq_of_lt v.isLt])

/-- The decoder reads back the instruction of each call, and the bytes after it. -/
theorem X86.decodeOne_call (c : Call) (rest : List UInt8) :
    X86.decodeOne (c.emit .x86_64 [] ++ rest) = some (c.toX86, rest) := by
  cases c with
  | movRegImm64 r v =>
    have hop : ((0xB8 + r.val).toUInt8).toNat = 0xB8 + r.val :=
      UInt8.toNat_ofNat_of_lt (show _ < 256 by omega)
    have hop1 : (0xB8 + r.val).toUInt8 ≠ 0x01 := fun h => by
      rw [h, show (0x01 : UInt8).toNat = 1 from rfl] at hop; omega
    show X86.decodeOne (0x48 :: (0xB8 + r.val).toUInt8 :: (leBytes v.toNat 8 ++ rest)) = _
    simp only [X86.decodeOne, if_neg (by decide : (0x48 : UInt8) ≠ 0xC3), if_pos (by decide : X86.isRexW 0x48 = true),
      if_neg hop1, hop, List.length_append, length_leBytes, List.take_left' (length_leBytes _ _),
      List.drop_left' (length_leBytes _ _), BitVec.ofNat_leValue_leBytes]
    rw [if_pos ⟨by omega, by omega⟩]
    exact congrArg (some ∘ (·, rest)) (congrArg (X86.Instr.movImm · v) (Fin.ext (by
      show (184 + r.val) % 8 + 8 * (72 % 2) = r.val; omega)))
  | addRegReg d s =>
    have hm : (0xC0 ||| (s.val <<< 3) ||| d.val).toUInt8.toNat = 0xC0 + s.val * 8 + d.val := by
      rw [lor_eq_add (a := 0xC0) (k := 6) (by decide) (by rw [Nat.shiftLeft_eq]; omega),
        Nat.shiftLeft_eq, lor_eq_add (k := 3) (by omega) (by omega)]
      exact UInt8.toNat_ofNat_of_lt (show _ < 256 by omega)
    show X86.decodeOne (0x48 :: 0x01 :: (0xC0 ||| (s.val <<< 3) ||| d.val).toUInt8 :: rest) = _
    simp only [X86.decodeOne, if_neg (by decide : (0x48 : UInt8) ≠ 0xC3),
      if_pos (by decide : X86.isRexW 0x48 = true), if_true, hm]
    rw [if_pos (by omega)]
    exact congrArg (some ∘ (·, rest)) (congrArg₂ X86.Instr.add (Fin.ext (by
      show (0xC0 + s.val * 8 + d.val) % 8 + 8 * (72 % 2) = d.val; omega)) (Fin.ext (by
      show (0xC0 + s.val * 8 + d.val) / 8 % 8 + 8 * (72 / 4 % 2) = s.val; omega)))
  | ret => simp [Call.emit, emitRet, X86.decodeOne, Call.toX86]

theorem X86.decode_getCode (calls : List Call) :
    X86.decode (getCode .x86_64 calls) = some (calls.map Call.toX86) := by
  induction calls with
  | nil => rw [getCode, List.foldl_nil, X86.decode, if_pos rfl, List.map_nil]
  | cons c calls ih =>
    rw [getCode_cons, X86.decode_of_decodeOne (X86.decodeOne_call c _), ih, List.map_cons]; rfl

/-- The calls on x86-64, where `R4` is `RSP`: the registers as `Call.run` leaves them and, when
the calls return, the return address the caller left at `[RSP]`, with `RSP` moved past it. -/
def Call.runX86 (calls : List Call) (σ : X86.State) : X86.State × Option Nat :=
  if (Call.run (by decide) calls σ.regs).2 then
    (⟨Function.update (Call.run (by decide) calls σ.regs).1 X86.rsp (σ.regs X86.rsp + 8), σ.mem⟩,
      some (σ.mem.load (σ.regs X86.rsp).toNat))
  else (⟨(Call.run (by decide) calls σ.regs).1, σ.mem⟩, none)

/-- A register of `R0` to `R7` other than `R4` is not `RSP`. -/
theorem rsp_ne_castLE {r : Reg} (hr : r ≠ 4) : X86.rsp ≠ r.castLE (by decide) := fun h =>
  hr (Fin.ext (by simpa [X86.rsp, Fin.ext_iff] using h.symm))

/-- With no call writing `R4`, the decoded instructions do what the calls mean, from every
register file and memory. -/
theorem X86.exec_map_toX86 (calls : List Call) (hsp : ∀ c ∈ calls, ∀ r ∈ c.dst, r ≠ 4)
    (σ : X86.State) : X86.exec (calls.map Call.toX86) σ = Call.runX86 calls σ := by
  induction calls generalizing σ with
  | nil => rfl
  | cons c calls ih =>
    have hc := hsp c (List.mem_cons_self _ _)
    have ih' := ih fun c' h => hsp c' (List.mem_cons_of_mem _ h)
    cases c with
    | movRegImm64 r _ | addRegReg r _ =>
      simp only [List.map_cons, Call.toX86, X86.exec, X86.step, ih', Call.runX86, Call.run,
        Function.update_noteq (rsp_ne_castLE (hc r rfl))]
    | ret => rfl

/-! ## AArch64: decoding and execution -/

/-- The instructions `emit_mov_reg_imm64(r, v)` should decode to on AArch64: a `MOVZ` of the low
chunk and a `MOVK` for each chunk the source does not skip. -/
def Arm.movSeq (r v : Nat) : List Arm.Instr :=
  [.movz r (v % 2 ^ 16) 0] ++
  (if v / 2 ^ 16 % 2 ^ 16 ≠ 0 ∨ v / 2 ^ 16 ≠ 0 then [.movk r (v / 2 ^ 16 % 2 ^ 16) 1] else []) ++
  (if v / 2 ^ 32 % 2 ^ 16 ≠ 0 ∨ v / 2 ^ 32 ≠ 0 then [.movk r (v / 2 ^ 32 % 2 ^ 16) 2] else []) ++
  (if v / 2 ^ 48 % 2 ^ 16 ≠ 0 then [.movk r (v / 2 ^ 48 % 2 ^ 16) 3] else [])

/-- The instructions a call should decode to on AArch64. -/
def Call.toArm : Call → List Arm.Instr
  | .movRegImm64 r v => Arm.movSeq r.val v.toNat
  | .addRegReg d s => [.add d.val d.val s.val]
  | .ret => [.ret 30]

theorem Arm.decode_word (w : Nat) (rest : List UInt8) :
    Arm.decode (leBytes w 4 ++ rest) =
      (Arm.decodeWord (w % 2 ^ 32)).bind fun i => (Arm.decode rest).map (i :: ·) := by
  obtain ⟨b₀, b₁, b₂, b₃, hb⟩ : ∃ b₀ b₁ b₂ b₃, leBytes w 4 = [b₀, b₁, b₂, b₃] := ⟨_, _, _, _, rfl⟩
  have hv : leValue [b₀, b₁, b₂, b₃] = w % 2 ^ 32 := by rw [← hb, leValue_leBytes]; rfl
  rw [hb]
  show Arm.decode (b₀ :: b₁ :: b₂ :: b₃ :: rest) = _
  rw [Arm.decode, hv]

/-- A move-wide word is the sum of its fields. -/
theorem moveWide_eq {base hw imm r : Nat} (hb : base % 2 ^ 23 = 0) (hhw : hw < 4) (himm : imm < 2 ^ 16)
    (hr : r < 32) : base ||| (hw <<< 21) ||| (imm <<< 5) ||| r = base + hw * 2 ^ 21 + imm * 2 ^ 5 + r := by
  simp only [Nat.shiftLeft_eq]
  rw [lor_eq_add (a := base) (k := 23) hb (by omega),
    lor_eq_add (a := base + hw * 2 ^ 21) (k := 21) (by omega) (by omega),
    lor_eq_add (a := base + hw * 2 ^ 21 + imm * 2 ^ 5) (k := 5) (by omega) hr]

/-- The fields a move-wide word is read back as. -/
theorem moveWide_fields {base hw imm r : Nat} (hb : base % 2 ^ 23 = 0) (hhw : hw < 4)
    (himm : imm < 2 ^ 16) (hr : r < 32) :
    (base + hw * 2 ^ 21 + imm * 2 ^ 5 + r) % 32 = r ∧
    (base + hw * 2 ^ 21 + imm * 2 ^ 5 + r) / 32 % 2 ^ 16 = imm ∧
    (base + hw * 2 ^ 21 + imm * 2 ^ 5 + r) / 2 ^ 21 % 4 = hw := by
  omega

theorem Arm.decode_movz {hw imm r : Nat} (hhw : hw < 4) (himm : imm < 2 ^ 16) (hr : r < 32)
    (rest : List UInt8) :
    Arm.decode (leBytes (0xD2800000 ||| (hw <<< 21) ||| (imm <<< 5) ||| r) 4 ++ rest) =
      (Arm.decode rest).map (.movz r imm hw :: ·) := by
  rw [Arm.decode_word, moveWide_eq (by decide) hhw himm hr, Nat.mod_eq_of_lt (by omega), Arm.decodeWord,
    if_neg (by omega), if_pos (by omega), Option.some_bind]
  obtain ⟨h₁, h₂, h₃⟩ := moveWide_fields (show (0xD2800000 : Nat) % 2 ^ 23 = 0 by decide) hhw himm hr
  rw [h₁, h₂, h₃]

theorem Arm.decode_movk {hw imm r : Nat} (hhw : hw < 4) (himm : imm < 2 ^ 16) (hr : r < 32)
    (rest : List UInt8) :
    Arm.decode (leBytes (0xF2800000 ||| (hw <<< 21) ||| (imm <<< 5) ||| r) 4 ++ rest) =
      (Arm.decode rest).map (.movk r imm hw :: ·) := by
  rw [Arm.decode_word, moveWide_eq (by decide) hhw himm hr, Nat.mod_eq_of_lt (by omega), Arm.decodeWord,
    if_neg (by omega), if_neg (by omega), if_pos (by omega), Option.some_bind]
  obtain ⟨h₁, h₂, h₃⟩ := moveWide_fields (show (0xF2800000 : Nat) % 2 ^ 23 = 0 by decide) hhw himm hr
  rw [h₁, h₂, h₃]

/-- The fields of an `ADD (shifted register)` word with no shift, read apart. `Rn` and `Rd` are
kept apart here: with one variable for both, `omega` does not find the proof. -/
theorem add_fields {s n d : Nat} (hs : s < 32) (hn : n < 32) (hd : d < 32) :
    (0x8B000000 + s * 2 ^ 16 + n * 2 ^ 5 + d) % 32 = d ∧
    (0x8B000000 + s * 2 ^ 16 + n * 2 ^ 5 + d) / 32 % 32 = n ∧
    (0x8B000000 + s * 2 ^ 16 + n * 2 ^ 5 + d) / 2 ^ 16 % 32 = s ∧
    (0x8B000000 + s * 2 ^ 16 + n * 2 ^ 5 + d) / 2 ^ 24 = 0x8B ∧
    (0x8B000000 + s * 2 ^ 16 + n * 2 ^ 5 + d) / 2 ^ 21 % 8 = 0 ∧
    (0x8B000000 + s * 2 ^ 16 + n * 2 ^ 5 + d) / 1024 % 64 = 0 := by
  omega

theorem Arm.decode_add {d s : Nat} (hd : d < 32) (hs : s < 32) (rest : List UInt8) :
    Arm.decode (leBytes (0x8B000000 ||| (s <<< 16) ||| (d <<< 5) ||| d) 4 ++ rest) =
      (Arm.decode rest).map (.add d d s :: ·) := by
  have hw : 0x8B000000 ||| (s <<< 16) ||| (d <<< 5) ||| d = 0x8B000000 + s * 2 ^ 16 + d * 2 ^ 5 + d := by
    simp only [Nat.shiftLeft_eq]
    rw [lor_eq_add (a := 0x8B000000) (k := 21) (by decide) (by omega),
      lor_eq_add (a := 0x8B000000 + s * 2 ^ 16) (k := 10) (by omega) (by omega),
      lor_eq_add (a := 0x8B000000 + s * 2 ^ 16 + d * 2 ^ 5) (k := 5) (by omega) hd]
  obtain ⟨h₁, h₂, h₃, h₄, h₅, h₆⟩ := add_fields hs hd hd
  rw [Arm.decode_word, hw, Nat.mod_eq_of_lt (by omega), Arm.decodeWord, if_neg (by omega), if_neg (by omega),
    if_neg (by omega), if_pos ⟨h₄, h₅, h₆⟩, Option.some_bind, h₁, h₂, h₃]

theorem Arm.decode_ret (rest : List UInt8) :
    Arm.decode (leBytes 0xD65F03C0 4 ++ rest) = (Arm.decode rest).map (.ret 30 :: ·) := by
  rw [Arm.decode_word]; rfl

/-- The decoder reads back the instructions of each call. -/
theorem Arm.decode_call (c : Call) (rest : List UInt8) :
    Arm.decode (c.emit .aarch64 [] ++ rest) = (Arm.decode rest).map (c.toArm ++ ·) := by
  cases c with
  | movRegImm64 r v =>
    have hr : r.val < 32 := by omega
    simp only [Call.emit, emitMovRegImm64, emitArmMovz, emitArmMovk, emitArmMoveWide, emitBytes,
      Nat.shiftRight_eq_div_pow, show (0xFFFF : Nat) = 2 ^ 16 - 1 from rfl,
      Nat.and_pow_two_sub_one_eq_mod, Call.toArm, Arm.movSeq, List.nil_append]
    split_ifs <;>
      simp (disch := omega) only [List.append_assoc, List.singleton_append, List.nil_append,
        List.append_nil, Arm.decode_movz, Arm.decode_movk, Option.map_map] <;> rfl
  | addRegReg d s =>
    simp only [Call.emit, emitAddRegReg, emitBytes, List.nil_append, Call.toArm]
    rw [Arm.decode_add (by omega) (by omega)]; rfl
  | ret =>
    simp only [Call.emit, emitRet, emitBytes, List.nil_append, Call.toArm]
    rw [Arm.decode_ret]; rfl

theorem Arm.decode_getCode (calls : List Call) :
    Arm.decode (getCode .aarch64 calls) = some (calls.flatMap Call.toArm) := by
  induction calls with
  | nil => rfl
  | cons c calls ih =>
    rw [getCode_cons, Arm.decode_call, ih, Option.map_some', List.flatMap_cons]

namespace Arm

theorem read_write_self {x : Regs} {n : Nat} (h : n < 31) (v : BitVec 64) : read (write x n v) n = v := by
  rw [read, dif_pos h, write, dif_pos h, Function.update_same]

theorem write_write_self (x : Regs) (n : Nat) (v w : BitVec 64) : write (write x n v) n w = write x n w := by
  by_cases h : n < 31
  · rw [write, dif_pos h, write, dif_pos h, write, dif_pos h, Function.update_idem]
  · rw [write, dif_neg h, write, dif_neg h, write, dif_neg h]

/-- On the registers `R0` to `R7` name, `read` and `write` are the register file's own. -/
theorem read_castLE (x : Regs) (r : Reg) : read x r.val = x (r.castLE (by decide)) :=
  dif_pos (by omega)

theorem write_castLE (x : Regs) (r : Reg) (v : BitVec 64) :
    write x r.val v = Function.update x (r.castLE (by decide)) v :=
  dif_pos (by omega)

/-- Bits `16 hw` to `16 hw + 15` of `v` put above its lower bits give its bits below
`16 hw + 16`. -/
theorem insertChunk_mod (v hw : Nat) :
    insertChunk (v % 2 ^ (16 * hw)) (v / 2 ^ (16 * hw) % 2 ^ 16) hw = v % 2 ^ (16 * hw + 16) := by
  have hlt : v % 2 ^ (16 * hw) < 2 ^ (16 * hw + 16) :=
    (Nat.mod_lt _ (Nat.two_pow_pos _)).trans_le (Nat.pow_le_pow_right (by decide) (by omega))
  rw [insertChunk, Nat.div_eq_of_lt hlt, Nat.zero_mul, Nat.zero_add, Nat.mod_mod, Nat.pow_add,
    Nat.mod_mul, Nat.add_comm, Nat.mul_comm (v / _ % _)]

/-- A `MOVK` of chunk `hw`, or its omission when `v` has no bits from `16 hw` up, takes a register
holding the bits of `v` below `16 hw` to one holding those below `16 hw + 16`. -/
theorem exec_chunk {r v : Nat} (hw : Nat) (hr : r < 31) (hhw : hw < 4) {c : Prop} [Decidable c]
    (hc : ¬c → v / 2 ^ (16 * hw) = 0) (is : List Instr) (x : Regs) :
    exec ((if c then [Instr.movk r (v / 2 ^ (16 * hw) % 2 ^ 16) hw] else []) ++ is)
        (write x r (BitVec.ofNat 64 (v % 2 ^ (16 * hw)))) =
      exec is (write x r (BitVec.ofNat 64 (v % 2 ^ (16 * hw + 16)))) := by
  by_cases h : c
  · have hlt : v % 2 ^ (16 * hw) < 2 ^ 64 :=
      (Nat.mod_lt _ (Nat.two_pow_pos _)).trans_le (Nat.pow_le_pow_right (by decide) (by omega))
    rw [if_pos h, List.singleton_append]
    show exec is (step _ _) = _
    rw [step, read_write_self hr, write_write_self, BitVec.toNat_ofNat, Nat.mod_eq_of_lt hlt,
      insertChunk_mod]
  · have hv : v < 2 ^ (16 * hw) := (Nat.div_eq_zero_iff (Nat.two_pow_pos _)).1 (hc h)
    rw [if_neg h, List.nil_append, Nat.mod_eq_of_lt hv,
      Nat.mod_eq_of_lt (hv.trans_le (Nat.pow_le_pow_right (by decide) (by omega)))]

/-- The `MOVZ`/`MOVK` sequence for `v` leaves `v` in the register, whichever `MOVK`s it omits. -/
theorem exec_movSeq {r v : Nat} (hr : r < 31) (hv : v < 2 ^ 64) (is : List Instr) (x : Regs) :
    exec (movSeq r v ++ is) x = exec is (write x r (BitVec.ofNat 64 v)) := by
  have h₀ : step x (.movz r (v % 2 ^ 16) 0) = write x r (BitVec.ofNat 64 (v % 2 ^ (16 * 1))) := by
    rw [step, Nat.mul_zero, Nat.pow_zero, Nat.mul_one]
  rw [movSeq, List.append_assoc, List.append_assoc, List.append_assoc, List.singleton_append]
  show exec _ (step x _) = _
  rw [h₀]
  refine (exec_chunk (c := v / 2 ^ 16 % 2 ^ 16 ≠ 0 ∨ v / 2 ^ 16 ≠ 0) 1 hr (by decide)
    (fun h => show v / 2 ^ 16 = 0 by omega) _ _).trans ?_
  refine (exec_chunk (c := v / 2 ^ 32 % 2 ^ 16 ≠ 0 ∨ v / 2 ^ 32 ≠ 0) 2 hr (by decide)
    (fun h => show v / 2 ^ 32 = 0 by omega) _ _).trans ?_
  refine (exec_chunk (c := v / 2 ^ 48 % 2 ^ 16 ≠ 0) 3 hr (by decide)
    (fun h => show v / 2 ^ 48 = 0 by omega) _ _).trans ?_
  rw [Nat.mod_eq_of_lt hv]

end Arm

/-- The decoded instructions do what the calls mean, from every register file. -/
theorem Arm.exec_flatMap_toArm (calls : List Call) (x : Arm.Regs) :
    Arm.exec (calls.flatMap Call.toArm) x = Call.run (by decide) calls x := by
  induction calls generalizing x with
  | nil => rfl
  | cons c calls ih =>
    cases c with
    | movRegImm64 r v =>
      rw [List.flatMap_cons, Call.toArm, Arm.exec_movSeq (by omega) v.isLt, Arm.write_castLE,
        BitVec.ofNat_toNat, BitVec.setWidth_eq, ih]; rfl
    | addRegReg d s =>
      rw [List.flatMap_cons, Call.toArm, List.singleton_append]
      show Arm.exec _ (Arm.write x d.val (Arm.read x d.val + Arm.read x s.val)) = _
      rw [Arm.read_castLE, Arm.read_castLE, Arm.write_castLE, ih]; rfl
    | ret => rfl

/-! ## The emitted code -/

/-- For every sequence of calls, `get_code()` decodes on each target, and from every register
file the decoded instructions compute what the calls mean: `r := v`, `d := d + s` modulo
`2 ^ 64`, and return, leaving every register that no call writes as it was. On x86-64 this holds
when no call writes `R4`, which is `RSP`, and the return pops the caller's return address off the
stack (`Call.runX86`); the flags `ADD` sets are not modelled. -/
theorem emitted_code_refines (calls : List Call) :
    (∃ is, X86.decode (getCode .x86_64 calls) = some is ∧
      ((∀ c ∈ calls, ∀ r ∈ c.dst, r ≠ 4) → ∀ σ, X86.exec is σ = Call.runX86 calls σ)) ∧
    (∃ is, Arm.decode (getCode .aarch64 calls) = some is ∧
      ∀ x, Arm.exec is x = Call.run (by decide) calls x) ∧
    ∀ {n} (h : 8 ≤ n) (x : Fin n → BitVec 64) (i : Fin n),
      (∀ c ∈ calls, ∀ r ∈ c.dst, r.castLE h ≠ i) → (Call.run h calls x).1 i = x i :=
  ⟨⟨_, X86.decode_getCode calls, X86.exec_map_toX86 calls⟩,
    ⟨_, Arm.decode_getCode calls, Arm.exec_flatMap_toArm calls⟩,
    fun h x _ hi => Call.run_frame h calls x hi⟩

/-- `emit_mov_reg_imm64(R4, 0x2000)` then `emit_ret()`: on x86-64 `R4` is `RSP`, so the `RET`
pops the word at `0x2000` and returns to `0xBB`, not to the return address `0xAA` that the caller
left at `[RSP] = 0x1000`, which is where the calls' meaning returns. -/
theorem mov_rsp_ret_returns_elsewhere :
    X86.decode (getCode .x86_64 [.movRegImm64 4 0x2000, .ret]) = some [.movImm 4 0x2000, .ret] ∧
      (X86.exec [.movImm 4 0x2000, .ret] ⟨Function.update (fun _ => 0) X86.rsp 0x1000,
        Mem.store (Mem.store (fun _ => 0) 0x1000 0xAA) 0x2000 0xBB⟩).2 = some 0xBB ∧
      (Call.runX86 [.movRegImm64 4 0x2000, .ret] ⟨Function.update (fun _ => 0) X86.rsp 0x1000,
        Mem.store (Mem.store (fun _ => 0) 0x1000 0xAA) 0x2000 0xBB⟩).2 = some 0xAA :=
  ⟨X86.decode_getCode _, by decide, by decide⟩

end HyperionRuntime.Jit.Emitter
