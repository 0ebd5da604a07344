import HyperionRuntime.Machine.Memory
import Mathlib.Logic.Function.Iterate

/-!
# The fiber scheduler

`Scheduler::Init`, `Spawn` and `Yield` over the objects that `new Fiber` makes. A pointer to a
fiber is the index of its object in the order `new` made them, and `none` is `nullptr`.
`switch_context(&prev->stack_ptr, current_fiber->stack_ptr)` is modelled as storing the stack
pointer that the outgoing code runs on into `prev->stack_ptr`. `Yield` fails (`none`) at each of
its undefined behaviours: a remainder modulo `fibers.size() = 0`, an index past the vector, a
null or dangling `prev`, and a null stack pointer handed to `switch_context`.

A run is `Init` followed by any sequence of `Spawn` and `Yield` (`Sys.run`). Besides the
scheduler, the state holds a ghost map from each fiber to the stack pointer saved at its last
switch-out. `Sys.Inv` holds after `Init` and is kept by both calls, and on a state satisfying it
`Yield` does not fail (`Sys.Inv.step`). `scheduler_safe` states what this gives over every run.
-/

namespace HyperionRuntime.Kernel

/-- The architecture whose frame `Spawn` forges (the source's `#if`). -/
inductive Arch where
  | x86_64
  | aarch64

/-- The words `Spawn` pushes: the return address and six callee-saved registers on x86-64, and
six register pairs on AArch64. -/
def Arch.frameWords : Arch → Nat
  | .x86_64 => 7
  | .aarch64 => 12

theorem Arch.frameWords_mem (a : Arch) : 7 ≤ a.frameWords ∧ a.frameWords ≤ 12 := by
  cases a <;> decide

/-- The fields of `Fiber`. -/
structure Fiber where
  id : Nat
  stackPtr : Nat
  stackBase : Nat
  stackSize : Nat
  name : String
  isCompleted : Bool

/-- `Fiber(id, name, stack_size)`, where `base` is the address `mmap` returned, read only when
`stack_size ≠ 0`: the stack pointer starts at the end of the stack, `& ~0xF`. -/
def Fiber.create (id : Nat) (name : String) (stackSize base : Nat) : Fiber :=
  if stackSize = 0 then ⟨id, 0, 0, stackSize, name, false⟩
  else
    let spAddr := add64 base stackSize
    ⟨id, andNot spAddr 0xF, base, stackSize, name, false⟩

/-- `Push<T>(sp, val)` for an eight-byte `T`: the stack pointer moves down one word. The word
it writes is left out: nothing modelled reads the forged frame. -/
def push (sp : Nat) : Nat := sub64 sp 8

/-- The stack pointer after `Spawn` has forged the frame that `switch_context` restores. -/
def forgeFrame (arch : Arch) (sp : Nat) : Nat := Nat.iterate push arch.frameWords sp

/-- `1024 * 1024`, the stack size of a spawned fiber. -/
def spawnStackSize : Nat := 1024 * 1024

/-- The fields of `Scheduler`, with the objects that `new Fiber` has made. -/
structure Scheduler where
  objects : List Fiber
  fibers : List Nat
  currentFiber : Option Nat
  mainFiber : Option Nat
  currentIdx : Nat

/-- The scheduler before `Init`, by its default member initializers. -/
def Scheduler.empty : Scheduler := ⟨[], [], none, none, 0⟩

/-- `Init()`: the main thread becomes fiber `0`, with no stack of its own. -/
def Scheduler.init (s : Scheduler) : Scheduler :=
  let mainFiber := s.objects.length
  { s with objects := s.objects ++ [{ Fiber.create 0 "Main" 0 0 with stackBase := 0 }],
           mainFiber := some mainFiber, currentFiber := some mainFiber,
           fibers := s.fibers ++ [mainFiber] }

/-- A mapping `mmap` returned for a spawned stack: not `MAP_FAILED` (on which `Spawn` exits), at a
nonzero address and below the top of the address space. -/
structure StackMapping where
  base : Nat
  base_pos : 0 < base
  end_lt : base + spawnStackSize < 2 ^ 64

/-- `Spawn(name, entry)` for a non-null `entry`, whose stack `mmap` placed at `m`. -/
def Scheduler.spawn (arch : Arch) (s : Scheduler) (name : String) (m : StackMapping) : Scheduler :=
  let f := Fiber.create s.fibers.length name spawnStackSize m.base
  { s with objects := s.objects ++ [{ f with stackPtr := forgeFrame arch f.stackPtr }],
           fibers := s.fibers ++ [s.objects.length] }

/-- `Yield()`, where `sp` is the stack pointer the calling code runs on; `none` at an undefined
behaviour. -/
def Scheduler.yield (s : Scheduler) (sp : Nat) : Option Scheduler :=
  if s.fibers.length = 0 then none else
  let currentIdx := (s.currentIdx + 1) % s.fibers.length
  match s.fibers[currentIdx]? with
  | none => none
  | some currentFiber =>
    let s' := { s with currentIdx := currentIdx, currentFiber := some currentFiber }
    if s.currentFiber = some currentFiber then some s' else
    match s.currentFiber.bind (s.objects[·]?), s.objects[currentFiber]? with
    | some prev, some next =>
      if next.stackPtr = 0 then none
      else some { s' with objects := s.objects.set s.currentFiber.get! { prev with stackPtr := sp } }
    | _, _ => none

/-- The stack pointer of running code, which is never null. -/
structure RunningSp where
  val : Nat
  pos : 0 < val

/-- A call the running fiber makes after `Init`. -/
inductive Action where
  | spawn (name : String) (m : StackMapping)
  | yield (sp : RunningSp)

/-- The scheduler and, as ghost state, the stack pointer each fiber saved at its last
switch-out. -/
structure Sys where
  sched : Scheduler
  lastSaved : Nat → Option Nat

/-- The state right after `Init`. -/
def Sys.boot : Sys := ⟨Scheduler.empty.init, fun _ => none⟩

/-- One call; a `Yield` that switches away from `p` records the stack pointer it saved. -/
def Sys.step (arch : Arch) (σ : Sys) : Action → Option Sys
  | .spawn name m => some { σ with sched := σ.sched.spawn arch name m }
  | .yield sp => (σ.sched.yield sp.val).map fun s =>
    ⟨s, match σ.sched.currentFiber with
      | some p => if s.currentFiber = some p then σ.lastSaved
        else Function.update σ.lastSaved p (some sp.val)
      | none => σ.lastSaved⟩

/-- The state after the calls `acts`, or `none` if one of them failed. -/
def Sys.run (arch : Arch) (σ : Sys) (acts : List Action) : Option Sys := acts.foldlM (Sys.step arch) σ

/-! ## The invariant -/

/-- A fiber that is not running can be resumed: it never ran and its stack pointer is inside its
stack (the forged frame), or its stack pointer is the nonzero one it saved at its last
switch-out. -/
def Fiber.Resumable (f : Fiber) : Option Nat → Prop
  | none => 0 < f.stackBase ∧ f.stackBase ≤ f.stackPtr ∧ f.stackPtr < f.stackBase + f.stackSize
  | some sp => 0 < sp ∧ f.stackPtr = sp

theorem Fiber.Resumable.stackPtr_ne_zero {f : Fiber} {o : Option Nat} (h : f.Resumable o) :
    f.stackPtr ≠ 0 := by
  cases o with
  | none => have := h.1; have := h.2.1; omega
  | some sp => rw [h.2]; exact Nat.pos_iff_ne_zero.1 h.1

/-- The invariant of every run: fiber `i` is the `i`-th object and has id `i`, the current fiber
is the one at `current_idx`, and every other fiber can be resumed. -/
structure Sys.Inv (σ : Sys) : Prop where
  fibers_eq : σ.sched.fibers = List.range σ.sched.objects.length
  id_eq : ∀ i (f : Fiber), σ.sched.objects[i]? = some f → f.id = i
  idx_lt : σ.sched.currentIdx < σ.sched.objects.length
  current_eq : σ.sched.currentFiber = some σ.sched.currentIdx
  fresh : ∀ i, σ.sched.objects.length ≤ i → σ.lastSaved i = none
  resumable : ∀ i (f : Fiber), σ.sched.objects[i]? = some f → i ≠ σ.sched.currentIdx →
    f.Resumable (σ.lastSaved i)

section Lemmas

/-- Pushing the frame moves the stack pointer down by its words. -/
theorem iterate_push {w sp : Nat} (h : 8 * w ≤ sp) (hsp : sp < 2 ^ 64) :
    push^[w] sp = sp - 8 * w := by
  induction w with
  | zero => rfl
  | succ w ih =>
    rw [Function.iterate_succ_apply', ih (by omega), push, sub64_of_le (by omega) (by omega)]
    omega

/-- The frame `Spawn` forges lies inside the fiber's stack. -/
theorem spawn_resumable (arch : Arch) (n : Nat) (name : String) (m : StackMapping) :
    Fiber.Resumable { Fiber.create n name spawnStackSize m.base with
      stackPtr := forgeFrame arch (Fiber.create n name spawnStackSize m.base).stackPtr } none := by
  have h₁ := m.base_pos
  have h₂ := m.end_lt
  have h₃ := arch.frameWords_mem
  simp only [spawnStackSize] at *
  simp only [Fiber.Resumable, Fiber.create, forgeFrame, if_neg (by decide : 1024 * 1024 ≠ 0),
    add64_of_lt h₂]
  rw [show (0xF : Nat) = 2 ^ 4 - 1 from rfl, andNot_two_pow_sub_one 4 (by omega) (by decide)]
  rw [iterate_push (by omega) (by omega)]
  omega

end Lemmas

/-! ## Every call keeps the invariant -/

section Steps
variable {σ : Sys}

theorem Sys.Inv.boot : Sys.boot.Inv := by
  have hlen : Sys.boot.sched.objects.length = 1 := rfl
  refine ⟨rfl, fun i f h => ?_, by rw [hlen]; decide, rfl, fun _ _ => rfl, fun i f h hi => ?_⟩ <;>
    obtain ⟨hi', rfl⟩ := List.getElem?_eq_some_iff.1 h
  · obtain rfl : i = 0 := by omega
    rfl
  · exact absurd (by omega : i = 0) hi

theorem Sys.Inv.spawn (H : σ.Inv) (arch : Arch) (name : String) (m : StackMapping) :
    Sys.Inv { σ with sched := σ.sched.spawn arch name m } := by
  obtain ⟨hf, hid, hidx, hcur, hfresh, hres⟩ := H
  refine ⟨?_, fun i f h => ?_, ?_, hcur, fun i hi => hfresh i ?_, fun i f h hi => ?_⟩
  · simp only [Scheduler.spawn, hf, List.length_append, List.length_singleton, List.length_range]
    exact (List.range_succ _).symm
  · rcases getElem?_concat_eq_some h with h | ⟨rfl, rfl⟩
    · exact hid i f h
    · simp [Fiber.create, hf]; split_ifs <;> rfl
  · simp only [Scheduler.spawn, List.length_append]; omega
  · simp only [Scheduler.spawn, List.length_append, List.length_singleton] at hi; omega
  · rcases getElem?_concat_eq_some h with h | ⟨rfl, rfl⟩
    · exact hres i f h hi
    · rw [hfresh _ le_rfl]
      exact spawn_resumable arch _ name m

/-- The next index, modulo the fiber count, is the current one only when there is one fiber. -/
theorem succ_mod_eq_self_iff {i n : Nat} (hi : i < n) : (i + 1) % n = i ↔ n = 1 := by
  rcases Nat.lt_or_ge (i + 1) n with h | h
  · rw [Nat.mod_eq_of_lt h]; omega
  · obtain rfl : n = i + 1 := by omega
    rw [Nat.mod_self]; omega

/-- What `Yield` does on a state satisfying the invariant: it moves `current_idx` to the next
index modulo the fiber count; with one fiber that is the current one and nothing changes, and
otherwise `switch_context` saves `sp` in the outgoing fiber. -/
theorem Sys.Inv.yield (H : σ.Inv) (arch : Arch) (sp : RunningSp) :
    ∃ σ', σ.step arch (.yield sp) = some σ' ∧ σ'.Inv ∧ σ'.sched.fibers = σ.sched.fibers ∧
      σ'.sched.currentIdx = (σ.sched.currentIdx + 1) % σ.sched.fibers.length ∧
      (σ.sched.fibers.length = 1 → σ' = σ) ∧
      (σ.sched.fibers.length ≠ 1 → σ'.lastSaved σ.sched.currentIdx = some sp.val ∧
        (σ'.sched.objects[σ.sched.currentIdx]?).map Fiber.stackPtr = some sp.val) := by
  obtain ⟨hf, hid, hidx, hcur, hfresh, hres⟩ := H
  have hlen : σ.sched.fibers.length = σ.sched.objects.length := by rw [hf, List.length_range]
  have hnext : (σ.sched.currentIdx + 1) % σ.sched.objects.length < σ.sched.objects.length :=
    Nat.mod_lt _ (by omega)
  have hget : σ.sched.fibers[(σ.sched.currentIdx + 1) % σ.sched.objects.length]? =
      some ((σ.sched.currentIdx + 1) % σ.sched.objects.length) := by
    rw [hf, List.getElem?_range hnext]
  obtain ⟨prev, hprev⟩ : ∃ f, σ.sched.objects[σ.sched.currentIdx]? = some f :=
    ⟨_, List.getElem?_eq_getElem hidx⟩
  obtain ⟨next, hnx⟩ : ∃ f, σ.sched.objects[(σ.sched.currentIdx + 1) % σ.sched.objects.length]? =
      some f := ⟨_, List.getElem?_eq_getElem hnext⟩
  rw [hlen]
  simp only [Sys.step, Scheduler.yield, hlen, if_neg (by omega : σ.sched.objects.length ≠ 0), hget,
    hcur, Option.some_inj, Option.some_bind, hprev, hnx]
  split_ifs with hsame hsp
  · have hn := (succ_mod_eq_self_iff hidx).1 hsame.symm
    simp only [Option.map_some', Option.some_inj, exists_eq_left', ← hsame, if_true]
    refine ⟨⟨hf, hid, hidx, rfl, hfresh, hres⟩, trivial, trivial, fun _ => ?_, fun h => absurd hn h⟩
    obtain ⟨⟨objects, fibers, currentFiber, mainFiber, currentIdx⟩, lastSaved⟩ := σ
    simp only at hcur
    rw [hcur]
  · exact absurd hsp (hres _ next hnx (Ne.symm hsame)).stackPtr_ne_zero
  · have hne : (σ.sched.currentIdx + 1) % σ.sched.objects.length ≠ σ.sched.currentIdx :=
      fun h => hsame h.symm
    simp only [Option.map_some', Option.some_inj, exists_eq_left', Option.get!_some, if_neg hne]
    refine ⟨⟨by simpa using hf, fun i f h => ?_, by simpa using hnext, rfl,
      fun i hi => ?_, fun i f h hi => ?_⟩, trivial, trivial,
      fun h => absurd ((succ_mod_eq_self_iff hidx).2 h) hne,
      fun _ => ⟨Function.update_same _ _ _, ?_⟩⟩
    · rcases getElem?_set_eq_some hidx h with ⟨rfl, rfl⟩ | ⟨-, h⟩
      · exact hid _ prev hprev
      · exact hid i f h
    · simp only [List.length_set] at hi
      show Function.update σ.lastSaved σ.sched.currentIdx (some sp.val) i = none
      rw [Function.update_noteq (by omega)]; exact hfresh i hi
    · show Fiber.Resumable _ (Function.update σ.lastSaved σ.sched.currentIdx (some sp.val) _)
      rcases getElem?_set_eq_some hidx h with ⟨rfl, rfl⟩ | ⟨hic, h⟩
      · rw [Function.update_same]
        exact ⟨sp.pos, rfl⟩
      · rw [Function.update_noteq hic]
        exact hres i f h hic
    · rw [List.getElem?_set_self hidx]; rfl

theorem Sys.Inv.step (H : σ.Inv) (arch : Arch) (a : Action) :
    ∃ σ', σ.step arch a = some σ' ∧ σ'.Inv := by
  cases a with
  | spawn name m => exact ⟨_, rfl, H.spawn arch name m⟩
  | yield sp =>
    obtain ⟨σ', h, H', -⟩ := H.yield arch sp
    exact ⟨σ', h, H'⟩

theorem Sys.Inv.run (H : σ.Inv) (arch : Arch) (acts : List Action) :
    ∃ σ', σ.run arch acts = some σ' ∧ σ'.Inv := by
  induction acts generalizing σ with
  | nil => exact ⟨σ, rfl, H⟩
  | cons a acts ih =>
    obtain ⟨σ₁, h₁, H₁⟩ := H.step arch a
    obtain ⟨σ₂, h₂, H₂⟩ := ih H₁
    exact ⟨σ₂, by simp only [Sys.run, List.foldlM_cons, h₁, Option.bind_eq_bind, Option.some_bind]; exact h₂, H₂⟩

end Steps

/-- After `Init` and any sequence of `Spawn` and `Yield` calls, no call has failed, and: the
fiber at index `i` has id `i`; `current_idx` is in range and `current_fiber` is the fiber there;
and every other fiber has a nonzero stack pointer, inside its stack if it never ran and the one
saved at its last switch-out otherwise. So the next `Yield` neither divides by zero nor hands
`switch_context` a null stack pointer. -/
theorem scheduler_safe (arch : Arch) (acts : List Action) :
    ∃ σ, Sys.boot.run arch acts = some σ ∧
      0 < σ.sched.fibers.length ∧
      σ.sched.currentIdx < σ.sched.fibers.length ∧
      σ.sched.currentFiber = σ.sched.fibers[σ.sched.currentIdx]? ∧
      ∀ i p, σ.sched.fibers[i]? = some p → ∃ f, σ.sched.objects[p]? = some f ∧ f.id = i ∧
        (σ.sched.currentFiber ≠ some p → f.stackPtr ≠ 0 ∧ f.Resumable (σ.lastSaved p)) := by
  obtain ⟨σ, hrun, H⟩ := Sys.Inv.boot.run arch acts
  have hlen : σ.sched.fibers.length = σ.sched.objects.length := by
    rw [H.fibers_eq, List.length_range]
  refine ⟨σ, hrun, by have := H.idx_lt; omega, by have := H.idx_lt; omega, ?_, fun i p hp => ?_⟩
  · rw [H.current_eq, H.fibers_eq, List.getElem?_range H.idx_lt]
  · rw [H.fibers_eq] at hp
    obtain ⟨hi, rfl⟩ := List.getElem?_eq_some_iff.1 hp
    simp only [List.getElem_range]
    simp only [List.length_range] at hi
    refine ⟨_, List.getElem?_eq_getElem hi, H.id_eq i _ (List.getElem?_eq_getElem hi), fun hne => ?_⟩
    have hres := H.resumable i _ (List.getElem?_eq_getElem hi) fun h => hne (by rw [H.current_eq, h])
    exact ⟨hres.stackPtr_ne_zero, hres⟩

end HyperionRuntime.Kernel
