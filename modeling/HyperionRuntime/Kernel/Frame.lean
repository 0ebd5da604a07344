import HyperionRuntime.Kernel.Scheduler

/-!
# The frame `Spawn` forges, and the first resume into it

`Spawn` pushes the words `switch_context` restores when it first resumes the fiber: with
`Push<T>`, each a word stored eight bytes below the stack pointer. `switch_context` is not in the
source; its restore sequence is the one the comments of `Spawn` describe: `pop r15`, ..., `pop rbx`
and `ret` on x86-64, and `ldp x29, x30`, ..., `ldp x19, x20` and `ret` through `x30` on AArch64.
`spawn_frame` follows both from the stack `Fiber` maps: the frame lies inside the stack, the
resume loads each pushed word into its register and enters `S_Entry` with the stack pointer back
at the 16-aligned top of the stack.
-/

namespace HyperionRuntime.Kernel

/-- The callee-saved registers the restore sequences load. -/
inductive Reg where
  | rbx | rbp | r12 | r13 | r14 | r15
  | x19 | x20 | x21 | x22 | x23 | x24 | x25 | x26 | x27 | x28 | x29 | x30
  deriving DecidableEq

/-- The words `Spawn` pushes, in push order, for `S_Entry` at `entry` and `task_ptr = task`. -/
def Arch.frame (entry task : Nat) : Arch → List Nat
  | .x86_64 => [entry, 0, 0, task, 0, 0, 0]
  | .aarch64 => [0, task, 0, 0, 0, 0, 0, 0, 0, 0, entry, 0]

theorem Arch.length_frame (arch : Arch) (entry task : Nat) :
    (arch.frame entry task).length = arch.frameWords := by
  cases arch <;> rfl

/-- `Push<T>(sp, val)` for an eight-byte `T`, on the memory and the stack pointer. -/
def pushWord (s : Mem × Nat) (val : Nat) : Mem × Nat :=
  let addr := sub64 s.2 8
  (s.1.store addr val, addr)

/-- The pushes of `Spawn` from the fiber's stack pointer `sp`. -/
def Arch.forge (arch : Arch) (entry task : Nat) (mem : Mem) (sp : Nat) : Mem × Nat :=
  (arch.frame entry task).foldl pushWord (mem, sp)

/-- The registers the restore sequence loads, in the order it loads them: one `pop` each on
x86-64, and the two words of each `ldp` on AArch64. -/
def Arch.restoreOrder : Arch → List Reg
  | .x86_64 => [.r15, .r14, .r13, .r12, .rbp, .rbx]
  | .aarch64 => [.x29, .x30, .x27, .x28, .x25, .x26, .x23, .x24, .x21, .x22, .x19, .x20]

/-- The register `S_Entry` reads the closure pointer from. -/
def Arch.taskReg : Arch → Reg
  | .x86_64 => .r12
  | .aarch64 => .x19

/-- The register file, the stack pointer and the program counter. -/
structure Cpu where
  regs : Reg → Nat
  sp : Nat
  pc : Nat

/-- Load the word at the stack pointer into `r` and move past it. -/
def Cpu.pop (mem : Mem) (c : Cpu) (r : Reg) : Cpu :=
  { c with regs := Function.update c.regs r (mem.load c.sp), sp := add64 c.sp 8 }

/-- The restore sequence from the stack pointer `switch_context` is handed, then `ret`: a pop of
the return address on x86-64, a jump to `x30` on AArch64. -/
def Arch.resume (arch : Arch) (mem : Mem) (c : Cpu) : Cpu :=
  let c' := arch.restoreOrder.foldl (Cpu.pop mem) c
  match arch with
  | .x86_64 => { c' with pc := mem.load c'.sp, sp := add64 c'.sp 8 }
  | .aarch64 => { c' with pc := c'.regs .x30 }

theorem Arch.resume_regs (arch : Arch) (mem : Mem) (c : Cpu) :
    (arch.resume mem c).regs = (arch.restoreOrder.foldl (Cpu.pop mem) c).regs := by
  cases arch <;> rfl

theorem Arch.resume_x86_64 (mem : Mem) (c : Cpu) :
    (Arch.x86_64.resume mem c).pc = mem.load (Arch.x86_64.restoreOrder.foldl (Cpu.pop mem) c).sp ∧
    (Arch.x86_64.resume mem c).sp = add64 (Arch.x86_64.restoreOrder.foldl (Cpu.pop mem) c).sp 8 :=
  ⟨rfl, rfl⟩

theorem Arch.resume_aarch64 (mem : Mem) (c : Cpu) :
    (Arch.aarch64.resume mem c).pc = (Arch.aarch64.restoreOrder.foldl (Cpu.pop mem) c).regs .x30 ∧
    (Arch.aarch64.resume mem c).sp = (Arch.aarch64.restoreOrder.foldl (Cpu.pop mem) c).sp :=
  ⟨rfl, rfl⟩

/-- What the frame puts in each restored register: the closure pointer in the task register, the
entry in `x30`, and `0` elsewhere. -/
def Arch.forgedReg (arch : Arch) (entry task : Nat) (r : Reg) : Nat :=
  if r = arch.taskReg then task else if r = .x30 then entry else 0

/-! ## Pushes and pops -/

theorem sub64_mod_of_le {T : Nat} (h : 8 ≤ T) (hT : T ≤ 2 ^ 64) : sub64 (T % 2 ^ 64) 8 = T - 8 := by
  unfold sub64; omega

theorem foldl_pushWord_sp (mem : Mem) (vals : List Nat) (sp : Nat) :
    (vals.foldl pushWord (mem, sp)).2 = push^[vals.length] sp := by
  induction vals generalizing mem sp with
  | nil => rfl
  | cons v vals ih => rw [List.foldl_cons, ih, List.length_cons, Function.iterate_succ_apply]; rfl

/-- Pushing the words `vals` from the stack pointer `T mod 2 ^ 64`: the stack pointer ends eight
bytes per word lower, only the bytes pushed change, and the `k`-th word pushed is at
`T - 8 (k + 1)`. -/
theorem foldl_pushWord (mem : Mem) (vals : List Nat) {T : Nat} (hT : 8 * vals.length ≤ T)
    (hT' : T ≤ 2 ^ 64) :
    (vals.foldl pushWord (mem, T % 2 ^ 64)).2 = (T - 8 * vals.length) % 2 ^ 64 ∧
    Mem.Touches mem (vals.foldl pushWord (mem, T % 2 ^ 64)).1
      (fun j => T - 8 * vals.length ≤ j ∧ j < T) ∧
    ∀ k v, vals[k]? = some v →
      (vals.foldl pushWord (mem, T % 2 ^ 64)).1.load (T - 8 * (k + 1)) = v % 2 ^ 64 := by
  induction vals generalizing mem T with
  | nil => exact ⟨rfl, Mem.Touches.refl _ _, fun k v h => nomatch h⟩
  | cons v vals ih =>
    rw [List.length_cons] at hT
    have hpush : pushWord (mem, T % 2 ^ 64) v = (mem.store (T - 8) v, (T - 8) % 2 ^ 64) := by
      rw [pushWord]; dsimp only
      rw [sub64_mod_of_le (by omega) hT', Nat.mod_eq_of_lt (a := T - 8) (by omega)]
    obtain ⟨h₁, h₂, h₃⟩ := ih (mem.store (T - 8) v) (T := T - 8) (by omega) (by omega)
    have hm := (Mem.touches_store mem v (show T - 8 + 8 ≤ 2 ^ 64 by omega)).trans h₂
    rw [List.foldl_cons, hpush, List.length_cons]
    refine ⟨by rw [h₁, show T - 8 - 8 * vals.length = T - 8 * (vals.length + 1) by omega],
      hm.mono fun j _ hj => by omega, fun k w hw => ?_⟩
    cases k with
    | zero =>
      rw [List.getElem?_cons_zero, Option.some_inj] at hw
      subst hw
      rw [h₂.load_eq (by omega) fun j hj hj' hP => by omega, Mem.load_store_self]
    | succ k =>
      rw [List.getElem?_cons_succ] at hw
      rw [← h₃ k w hw, show T - 8 * (k + 1 + 1) = T - 8 - 8 * (k + 1) by omega]

/-- Popping the registers `rs` from the stack pointer `s mod 2 ^ 64`: the stack pointer ends
eight bytes per register higher, the `i`-th register gets the word at `s + 8 i`, and the others
keep their values. -/
theorem foldl_pop (mem : Mem) (rs : List Reg) (hrs : rs.Nodup) {c : Cpu} {s : Nat}
    (hsp : c.sp = s % 2 ^ 64) (hs : s + 8 * rs.length ≤ 2 ^ 64) :
    (rs.foldl (Cpu.pop mem) c).sp = (s + 8 * rs.length) % 2 ^ 64 ∧
    (∀ i (h : i < rs.length), (rs.foldl (Cpu.pop mem) c).regs rs[i] = mem.load (s + 8 * i)) ∧
    ∀ r, r ∉ rs → (rs.foldl (Cpu.pop mem) c).regs r = c.regs r := by
  induction rs generalizing c s with
  | nil => exact ⟨hsp, fun i h => absurd h (Nat.not_lt_zero _), fun _ _ => rfl⟩
  | cons r rs ih =>
    rw [List.length_cons] at hs
    obtain ⟨hr, hnd⟩ := List.nodup_cons.1 hrs
    have hload : mem.load c.sp = mem.load s := by rw [hsp, Nat.mod_eq_of_lt (by omega)]
    obtain ⟨h₁, h₂, h₃⟩ := ih hnd (c := c.pop mem r) (s := s + 8)
      (by rw [Cpu.pop, add64, hsp, Nat.mod_add_mod]) (by omega)
    rw [List.foldl_cons]
    refine ⟨by rw [h₁, List.length_cons, show s + 8 + 8 * rs.length = s + 8 * (rs.length + 1) by omega],
      fun i hi => ?_, fun r' hr' => ?_⟩
    · cases i with
      | zero =>
        rw [List.getElem_cons_zero, h₃ r hr]
        show Function.update c.regs r (mem.load c.sp) r = _
        rw [Function.update_same, hload, Nat.mul_zero, Nat.add_zero]
      | succ i =>
        rw [List.getElem_cons_succ, h₂ i (by simpa using hi), show s + 8 + 8 * i = s + 8 * (i + 1) by omega]
    · obtain ⟨hne, hr'⟩ := not_or.1 (List.mem_cons.not.1 hr')
      rw [h₃ r' hr']
      exact Function.update_noteq hne _ _

theorem Arch.restoreOrder_nodup (arch : Arch) : arch.restoreOrder.Nodup := by
  cases arch <;> decide

/-- The frame read from the stack pointer up: the word of each register in restore order, then,
on x86-64, the return address. -/
theorem Arch.frame_reverse_x86_64 (entry task : Nat) : (Arch.x86_64.frame entry task).reverse =
    Arch.x86_64.restoreOrder.map (Arch.x86_64.forgedReg entry task) ++ [entry] := by
  simp [Arch.frame, Arch.restoreOrder, Arch.forgedReg, Arch.taskReg]

theorem Arch.frame_reverse_aarch64 (entry task : Nat) : (Arch.aarch64.frame entry task).reverse =
    Arch.aarch64.restoreOrder.map (Arch.aarch64.forgedReg entry task) := by
  simp [Arch.frame, Arch.restoreOrder, Arch.forgedReg, Arch.taskReg]

/-! ## The fiber's stack -/

/-- The stack pointer `Fiber` starts with is a multiple of 16 at most 15 bytes below the end of
the stack, taken modulo `2 ^ 64`. -/
theorem Fiber.create_stackPtr (id : Nat) (name : String) {base size : Nat} (hsize : 0 < size)
    (hend : base + size ≤ 2 ^ 64) :
    ∃ T, (Fiber.create id name size base).stackPtr = T % 2 ^ 64 ∧ T % 16 = 0 ∧
      base + size - 15 ≤ T ∧ T ≤ base + size := by
  simp only [Fiber.create, if_neg (Nat.pos_iff_ne_zero.1 hsize)]
  rcases Nat.lt_or_ge (base + size) (2 ^ 64) with hlt | hge
  · refine ⟨base + size - (base + size) % 16, ?_, ?_, ?_, Nat.sub_le _ _⟩
    · rw [add64_of_lt hlt, show (0xF : Nat) = 2 ^ 4 - 1 from rfl,
        andNot_two_pow_sub_one 4 hlt (by decide)]
      exact (Nat.mod_eq_of_lt (by omega)).symm
    · exact Nat.sub_mod_eq_zero_of_mod_eq (Nat.mod_mod _ _).symm
    · have := Nat.mod_lt (base + size) (show 0 < 16 by decide); omega
  · have h : base + size = 2 ^ 64 := by omega
    refine ⟨2 ^ 64, ?_, rfl, by omega, h.ge⟩
    rw [add64, h, Nat.mod_self, andNot, Nat.zero_and]

/-! ## The first resume -/

theorem Arch.forgedReg_lt (arch : Arch) {entry task : Nat} (hentry : entry < 2 ^ 64)
    (htask : task < 2 ^ 64) (r : Reg) : arch.forgedReg entry task r < 2 ^ 64 := by
  unfold Arch.forgedReg; split_ifs <;> omega

/-- The `i`-th register restored gets the word pushed `frameWords - 1 - i`-th. -/
theorem Arch.getElem?_frame (arch : Arch) (entry task : Nat) {i : Nat}
    (hi : i < arch.restoreOrder.length) :
    (arch.frame entry task)[arch.frameWords - 1 - i]? =
      some (arch.forgedReg entry task arch.restoreOrder[i]) := by
  have hlen := arch.length_frame entry task
  have hrev : (arch.frame entry task).reverse[i]? =
      some (arch.forgedReg entry task arch.restoreOrder[i]) := by
    cases arch
    · rw [Arch.frame_reverse_x86_64, List.getElem?_append_left (by simpa using hi),
        List.getElem?_map, List.getElem?_eq_getElem hi]; rfl
    · rw [Arch.frame_reverse_aarch64, List.getElem?_map, List.getElem?_eq_getElem hi]; rfl
  have hw : arch.restoreOrder.length ≤ arch.frameWords := by cases arch <;> decide
  rw [List.getElem?_reverse (by omega), hlen] at hrev
  exact hrev

/-- Resuming from the frame pushed below `T`: each restored register gets the word the frame gives
it, the others keep theirs, and the stack pointer is back at `T` when `S_Entry` is entered. -/
theorem Arch.resume_frame (arch : Arch) {entry task : Nat} (hentry : entry < 2 ^ 64)
    (htask : task < 2 ^ 64) {mem : Mem} {T : Nat} (hT : 8 * arch.frameWords ≤ T) (hT' : T ≤ 2 ^ 64)
    (hload : ∀ k v, (arch.frame entry task)[k]? = some v → mem.load (T - 8 * (k + 1)) = v % 2 ^ 64)
    (c : Cpu) :
    (arch.resume mem { c with sp := T - 8 * arch.frameWords }).pc = entry ∧
    (arch.resume mem { c with sp := T - 8 * arch.frameWords }).sp = T % 2 ^ 64 ∧
    (∀ r ∈ arch.restoreOrder,
      (arch.resume mem { c with sp := T - 8 * arch.frameWords }).regs r = arch.forgedReg entry task r) ∧
    (∀ r, r ∉ arch.restoreOrder →
      (arch.resume mem { c with sp := T - 8 * arch.frameWords }).regs r = c.regs r) := by
  have hw : arch.restoreOrder.length ≤ arch.frameWords := by cases arch <;> decide
  obtain ⟨h₁, h₂, h₃⟩ := foldl_pop mem arch.restoreOrder arch.restoreOrder_nodup
    (c := { c with sp := T - 8 * arch.frameWords }) (s := T - 8 * arch.frameWords)
    (Nat.mod_eq_of_lt (show T - 8 * arch.frameWords < 2 ^ 64 by
      have := arch.frameWords_mem; omega)).symm (by omega)
  have hreg : ∀ i (hi : i < arch.restoreOrder.length),
      (arch.restoreOrder.foldl (Cpu.pop mem) { c with sp := T - 8 * arch.frameWords }).regs
        arch.restoreOrder[i] = arch.forgedReg entry task arch.restoreOrder[i] := fun i hi => by
    rw [h₂ i hi, show T - 8 * arch.frameWords + 8 * i = T - 8 * (arch.frameWords - 1 - i + 1) by omega,
      hload _ _ (arch.getElem?_frame entry task hi),
      Nat.mod_eq_of_lt (arch.forgedReg_lt hentry htask _)]
  have hmem : ∀ r ∈ arch.restoreOrder,
      (arch.restoreOrder.foldl (Cpu.pop mem) { c with sp := T - 8 * arch.frameWords }).regs r =
        arch.forgedReg entry task r := fun r hr => by
    obtain ⟨i, hi, rfl⟩ := List.getElem_of_mem hr
    exact hreg i hi
  rw [Arch.resume_regs]
  cases arch
  · have hT7 : 8 * 7 ≤ T := hT
    have h₁' : (Arch.x86_64.restoreOrder.foldl (Cpu.pop mem)
        { c with sp := T - 8 * Arch.x86_64.frameWords }).sp = T - 8 := by
      rw [h₁, show T - 8 * Arch.x86_64.frameWords + 8 * Arch.x86_64.restoreOrder.length = T - 8 from
        by rw [show Arch.x86_64.frameWords = 7 from rfl] at hT ⊢; show T - 8 * 7 + 8 * 6 = T - 8; omega]
      exact Nat.mod_eq_of_lt (by omega)
    rw [(Arch.resume_x86_64 _ _).1, (Arch.resume_x86_64 _ _).2, h₁', add64, Nat.sub_add_cancel (by omega)]
    exact ⟨(hload 0 entry rfl).trans (Nat.mod_eq_of_lt hentry), rfl, hmem, h₃⟩
  · have hT12 : 8 * 12 ≤ T := hT
    have hx30 := hreg 1 (by decide)
    rw [show Arch.aarch64.restoreOrder[1] = .x30 from rfl,
      show Arch.aarch64.forgedReg entry task .x30 = entry from rfl] at hx30
    rw [(Arch.resume_aarch64 _ _).1, (Arch.resume_aarch64 _ _).2, h₁,
      show T - 8 * Arch.aarch64.frameWords + 8 * Arch.aarch64.restoreOrder.length = T from
        by show T - 8 * 12 + 8 * 12 = T; omega]
    exact ⟨hx30, rfl, hmem, h₃⟩

/-- For every stack of at least 128 bytes that `Fiber` is built on, at any base: the frame
`Spawn` pushes, leaving the stack pointer `forgeFrame` gives, lies inside the stack; resuming
from it loads each register with the word the frame gives it (the closure pointer in `r12` or
`x19`, the entry in `x30`, `0` in the others), leaves the other registers alone, and enters
`S_Entry` with the stack pointer at the top of the stack, a multiple of 16. -/
theorem spawn_frame (arch : Arch) {entry task : Nat} (hentry : entry < 2 ^ 64)
    (htask : task < 2 ^ 64) (mem : Mem) (id : Nat) (name : String) {base size : Nat}
    (hsize : 128 ≤ size) (hend : base + size ≤ 2 ^ 64) (c : Cpu) :
    (arch.forge entry task mem (Fiber.create id name size base).stackPtr).2 =
      forgeFrame arch (Fiber.create id name size base).stackPtr ∧
    base ≤ (arch.forge entry task mem (Fiber.create id name size base).stackPtr).2 ∧
    (arch.forge entry task mem (Fiber.create id name size base).stackPtr).2 + 8 * arch.frameWords
      ≤ base + size ∧
    Mem.Touches mem (arch.forge entry task mem (Fiber.create id name size base).stackPtr).1
      (fun j => (arch.forge entry task mem (Fiber.create id name size base).stackPtr).2 ≤ j ∧
        j < (arch.forge entry task mem (Fiber.create id name size base).stackPtr).2 +
          8 * arch.frameWords) ∧
    (arch.resume (arch.forge entry task mem (Fiber.create id name size base).stackPtr).1
      { c with sp := (arch.forge entry task mem (Fiber.create id name size base).stackPtr).2 }).pc =
      entry ∧
    (arch.resume (arch.forge entry task mem (Fiber.create id name size base).stackPtr).1
      { c with sp := (arch.forge entry task mem (Fiber.create id name size base).stackPtr).2 }).sp
      % 16 = 0 ∧
    (∀ r ∈ arch.restoreOrder,
      (arch.resume (arch.forge entry task mem (Fiber.create id name size base).stackPtr).1
        { c with sp := (arch.forge entry task mem (Fiber.create id name size base).stackPtr).2 }).regs r =
        arch.forgedReg entry task r) ∧
    (∀ r, r ∉ arch.restoreOrder →
      (arch.resume (arch.forge entry task mem (Fiber.create id name size base).stackPtr).1
        { c with sp := (arch.forge entry task mem (Fiber.create id name size base).stackPtr).2 }).regs r =
        c.regs r) := by
  obtain ⟨T, hT, h16, hlo, hhi⟩ := Fiber.create_stackPtr id name (by omega : 0 < size) hend
  have hw := arch.frameWords_mem
  have hT8 : T - 8 * arch.frameWords < 2 ^ 64 := by omega
  obtain ⟨hsp, htouch, hload⟩ := foldl_pushWord mem (arch.frame entry task) (T := T)
    (by rw [arch.length_frame]; omega) (by omega)
  rw [arch.length_frame, Nat.mod_eq_of_lt hT8] at hsp
  rw [arch.length_frame] at htouch
  have hfr : (arch.forge entry task mem (Fiber.create id name size base).stackPtr).2 =
      forgeFrame arch (Fiber.create id name size base).stackPtr := by
    rw [Arch.forge, foldl_pushWord_sp, arch.length_frame]; rfl
  obtain ⟨hpc, hsp', hregs, hother⟩ := arch.resume_frame hentry htask (by omega) (by omega) hload c
  refine ⟨hfr, ?_⟩
  rw [Arch.forge, hT, hsp]
  refine ⟨by omega, by omega, htouch.mono fun j _ hj => by omega, hpc, ?_, hregs, hother⟩
  rw [hsp', Nat.mod_mod_of_dvd _ (by decide : 16 ∣ 2 ^ 64), h16]

/-- On x86-64 the first resume enters `S_Entry` with `rsp` a multiple of 16, where a function
is entered with `rsp ≡ 8 (mod 16)`: here for the fiber whose one-megabyte stack `mmap` placed at
`0x7f0000000000`, with `S_Entry` at `0x401000` and the closure at `0x500000`. -/
theorem spawn_frame_x86_64_misaligned :
    (Arch.x86_64.resume (Arch.x86_64.forge 0x401000 0x500000 (fun _ => 0)
        (Fiber.create 1 "worker" spawnStackSize 0x7f0000000000).stackPtr).1
      ⟨fun _ => 0, (Arch.x86_64.forge 0x401000 0x500000 (fun _ => 0)
        (Fiber.create 1 "worker" spawnStackSize 0x7f0000000000).stackPtr).2, 0⟩).pc = 0x401000 ∧
    (Arch.x86_64.resume (Arch.x86_64.forge 0x401000 0x500000 (fun _ => 0)
        (Fiber.create 1 "worker" spawnStackSize 0x7f0000000000).stackPtr).1
      ⟨fun _ => 0, (Arch.x86_64.forge 0x401000 0x500000 (fun _ => 0)
        (Fiber.create 1 "worker" spawnStackSize 0x7f0000000000).stackPtr).2, 0⟩).regs .r12 = 0x500000 ∧
    (Arch.x86_64.resume (Arch.x86_64.forge 0x401000 0x500000 (fun _ => 0)
        (Fiber.create 1 "worker" spawnStackSize 0x7f0000000000).stackPtr).1
      ⟨fun _ => 0, (Arch.x86_64.forge 0x401000 0x500000 (fun _ => 0)
        (Fiber.create 1 "worker" spawnStackSize 0x7f0000000000).stackPtr).2, 0⟩).sp % 16 = 0 := by
  obtain ⟨-, -, -, -, hpc, hsp, hregs, -⟩ := spawn_frame .x86_64
    (show (0x401000 : Nat) < 2 ^ 64 by decide) (show (0x500000 : Nat) < 2 ^ 64 by decide)
    (fun _ => 0) 1 "worker" (show 128 ≤ spawnStackSize by decide)
    (show 0x7f0000000000 + spawnStackSize ≤ 2 ^ 64 by decide) ⟨fun _ => 0, 0, 0⟩
  exact ⟨hpc, hregs .r12 (by decide), hsp⟩

end HyperionRuntime.Kernel
