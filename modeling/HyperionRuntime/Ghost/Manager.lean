import HyperionRuntime.Ghost.Arena

/-!
# The manager's life cycle

`MemoryManager::initialize`, `shutdown` and `get_ghost_ptr`, where each `mmap` and `sigaction`
call may fail: what one `initialize()` gets back from the system is an `Env`. `initialize`
returns `none` only if an access of `initialize_header` kills the process.

`initialize` keeps its reservation when `install_signal_handlers` fails, `shutdown` does nothing
unless `m_running` is set, and neither clears `m_base_addr`
(`initialize_error_keeps_reservation`). So a failed `initialize()` leaves its reservation mapped,
a retry maps a second one, `shutdown()` unmaps neither, and `get_ghost_ptr` still hands out
pointers into them.
-/

namespace HyperionRuntime.Ghost

/-- `RuntimeError`. -/
inductive RuntimeError where
  | none
  | initializationFailed
  | portAllocationFailed
  | threadSpawnFailed
  | memoryReservationFailed
  | invalidAccess
  | operatingSystemError
deriving DecidableEq, Repr

/-- `GHOST_MAGIC`. -/
def ghostMagic : Nat := 0xC06DFEEDDEADBEEF

/-- `MAP_FAILED`, that is `(void*)-1`. -/
def mapFailed : Nat := 2 ^ 64 - 1

/-- `sizeof(MemoryHeader)`: the words `magic`, `vector_count` and `head_offset`. -/
def headerSize : Nat := 24

/-- Where a successful `mmap` of the arena puts it: at a nonzero page boundary, below the top of
the address space. -/
structure Placement (ps : PageSize) where
  base : Nat
  base_pos : 0 < base
  aligned : base % ps.val = 0
  end_lt : base + ghostSpaceSize < 2 ^ 64

/-- What the system calls of one `initialize()` return: where `mmap` placed the arena, or its
failure, and whether each `sigaction` succeeds. -/
structure Env (ps : PageSize) where
  mmap : Option (Placement ps)
  sigbusOk : Bool
  sigsegvOk : Bool

/-- A new reservation at `r`: its bytes are zero and none of its pages is committed. -/
def Os.map (os : Os) (r : Nat) : Os :=
  { os with mem := fun a => if r ≤ a ∧ a < r + ghostSpaceSize then 0 else os.mem a,
            committed := os.committed.filter fun p => ¬(r ≤ p ∧ p < r + ghostSpaceSize),
            reservations := os.reservations ++ [r] }

/-- `munmap(r, GHOST_SPACE_SIZE)`. -/
def Os.unmap (os : Os) (r : Nat) : Os :=
  { os with committed := os.committed.filter fun p => ¬(r ≤ p ∧ p < r + ghostSpaceSize),
            reservations := os.reservations.erase r }

variable (ps : PageSize)

/-- `reserve_address_space()`, given what `mmap` returns. -/
def reserveAddressSpace (σ : Sys) : Option (Placement ps) → Sys × Except RuntimeError Unit
  | none => ({ σ with mm := { σ.mm with baseAddr := mapFailed } }, .error .memoryReservationFailed)
  | some p => ({ mm := { σ.mm with baseAddr := p.base }, os := σ.os.map p.base }, .ok ())

/-- `install_signal_handlers()`: `sigaction` for `SIGBUS`, then for `SIGSEGV`. -/
def installSignalHandlers (σ : Sys) (sigbusOk sigsegvOk : Bool) : Sys × Except RuntimeError Unit :=
  if !sigbusOk then (σ, .error .initializationFailed) else
  let σ := { σ with os := { σ.os with disposition := Function.update σ.os.disposition .bus .ghost } }
  if !sigsegvOk then (σ, .error .initializationFailed) else
  ({ σ with os := { σ.os with disposition := Function.update σ.os.disposition .segv .ghost } }, .ok ())

/-- `get_ghost_ptr(offset)`. -/
def getGhostPtr (σ : Sys) (offset : Nat) : Except RuntimeError Nat :=
  if offset ≥ ghostSpaceSize then .error .invalidAccess
  else if σ.mm.baseAddr = 0 then .error .initializationFailed
  else .ok (add64 σ.mm.baseAddr offset)

/-- `initialize_header()`: a header without `GHOST_MAGIC` is written afresh. -/
def initializeHeader (σ : Sys) : Option Sys :=
  match getGhostPtr σ 0 with
  | .error _ => some σ
  | .ok header =>
    (readWord ps σ header).bind fun (σ, magic) =>
      if magic ≠ ghostMagic then
        (writeWord ps σ header ghostMagic).bind fun σ =>
          (writeWord ps σ (header + 8) 0).bind fun σ => writeWord ps σ (header + 16) headerSize
      else some σ

/-- `initialize()` (the name is a keyword of Lean). -/
def initializeManager (σ : Sys) (env : Env ps) : Option (Sys × Except RuntimeError Unit) :=
  if σ.mm.running then some (σ, .ok ()) else
  match reserveAddressSpace ps σ env.mmap with
  | (σ, .error e) => some (σ, .error e)
  | (σ, .ok ()) =>
    match installSignalHandlers σ env.sigbusOk env.sigsegvOk with
    | (σ, .error e) => some (σ, .error e)
    | (σ, .ok ()) =>
      (initializeHeader ps { σ with mm := { σ.mm with running := true } }).map fun σ => (σ, .ok ())

/-- `shutdown()`. -/
def shutdown (σ : Sys) : Sys :=
  if !σ.mm.running then σ else
  let σ := { σ with mm := { σ.mm with running := false } }
  if σ.mm.baseAddr ≠ mapFailed ∧ σ.mm.baseAddr ≠ 0 then { σ with os := σ.os.unmap σ.mm.baseAddr }
  else σ

/-- The process before the first `initialize()`, over a kernel that grants `mprotect` as `grants`
says: no reservation, the manager's initializers, and default dispositions. -/
def Sys.start (mem : Mem) (grants : Finset Nat → Nat → Bool) : Sys :=
  ⟨⟨0, false, 0, 0⟩, ⟨mem, ∅, [], fun _ => .dfl, grants⟩⟩

/-- An `initialize()` whose `mmap` succeeds at `2 ^ 40 * k` and whose first `sigaction` fails. -/
def sigbusFails (k : Nat) (hk : 0 < k ∧ k < 2 ^ 23) : Env PageSize.four :=
  ⟨some ⟨2 ^ 40 * k, by omega, by simp [PageSize.four, PageSize.val, Nat.mul_mod_right]; omega,
    by rw [ghostSpaceSize_eq]; omega⟩, false, true⟩

/-- Two `initialize()` calls whose `sigaction(SIGBUS)` fails both return an error, and leave both
reservations mapped; `shutdown()` unmaps neither, and `get_ghost_ptr(0)` returns a pointer into
the second although the arena was never initialized. -/
theorem initialize_error_keeps_reservation :
    ∃ σ₁ σ₂, initializeManager PageSize.four (Sys.start (fun _ => 0) fun _ _ => true) (sigbusFails 1 (by decide)) =
        some (σ₁, .error .initializationFailed) ∧ σ₁.os.reservations = [2 ^ 40] ∧
      initializeManager PageSize.four σ₁ (sigbusFails 2 (by decide)) =
        some (σ₂, .error .initializationFailed) ∧ σ₂.os.reservations = [2 ^ 40, 2 ^ 41] ∧
      (shutdown σ₂).os.reservations = [2 ^ 40, 2 ^ 41] ∧
      getGhostPtr (shutdown σ₂) 0 = .ok (2 ^ 41) :=
  ⟨_, _, rfl, rfl, rfl, rfl, rfl, rfl⟩

end HyperionRuntime.Ghost
