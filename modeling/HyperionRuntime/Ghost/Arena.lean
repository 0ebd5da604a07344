import HyperionRuntime.Machine.Memory
import Mathlib.Data.Finset.Card

/-!
# The ghost arena

`MemoryManager` reserves `GHOST_SPACE_SIZE` bytes of address space with no access rights and
commits its pages lazily. An access to a page that is not committed raises `SIGSEGV`;
`ghost_signal_handler` makes the page readable and writable (`handle_fault`) when the address is
inside the arena, and the access is then retried. Outside the arena it restores `SIG_DFL`, and the
retried access kills the process (`none`).

The state holds the manager's fields and what the operating system keeps for the process: its
bytes, the committed pages, the live reservations, the dispositions of `SIGSEGV` and `SIGBUS`, and
the pages on which the kernel grants `mprotect`. `mprotect` succeeds on a page inside a live
reservation that the kernel grants: it may refuse with `ENOMEM`, and then the access kills the
process (`access_of_refused`). Memory outside the reservations is not modelled: an access there is
a fault that the handler does not take.

`Arena.Reserved` says that the reservation at `m_base_addr` is live and the handler installed, and
`Arena.Ready` that the kernel also grants `mprotect` on the arena's pages. On such a state every
access inside the arena succeeds, commits its page and changes no byte (`Arena.Ready.access`).
Over a run of byte reads and writes at arena offsets, the arena behaves as a zero-initialised byte
array, and the committed pages and both counters are the pages touched (`Arena.Ready.runOps`).
-/

namespace HyperionRuntime.Ghost

/-- `GHOST_SPACE_SIZE`: 1 TiB. -/
def ghostSpaceSize : Nat := 1099511627776

theorem ghostSpaceSize_eq : ghostSpaceSize = 2 ^ 40 := rfl

/-- The page size `sysconf(_SC_PAGESIZE)`: a power of two, which divides the arena's size. -/
structure PageSize where
  shift : Nat
  shift_le : shift ≤ 40

/-- The page size in bytes. -/
def PageSize.val (ps : PageSize) : Nat := 2 ^ ps.shift

/-- `addr & ~(page_size - 1)`: the address of the page holding `addr`. -/
def pageOf (ps : PageSize) (addr : Nat) : Nat := andNot addr (ps.val - 1)

/-- The signals `ghost_signal_handler` tells apart. -/
inductive Signal where
  | segv
  | bus
  | other
deriving DecidableEq

/-- What a signal does: `SIG_DFL`, or `ghost_signal_handler`. -/
inductive Disposition where
  | dfl
  | ghost
deriving DecidableEq

/-- The fields of `MemoryManager`. -/
structure MemoryManager where
  baseAddr : Nat
  running : Bool
  faultCount : Nat
  residentPages : Nat

/-- What the operating system keeps for the process. -/
structure Os where
  mem : Mem
  /-- The pages made readable and writable, by address. -/
  committed : Finset Nat
  /-- The bases of the live reservations of `GHOST_SPACE_SIZE` bytes. -/
  reservations : List Nat
  disposition : Signal → Disposition
  /-- Whether the kernel grants `mprotect(PROT_READ | PROT_WRITE)` on a page while the pages of
  the set are committed; it may refuse with `ENOMEM`, past the commit limit or the limit on the
  number of mappings. -/
  grants : Finset Nat → Nat → Bool

/-- The manager and the operating system. -/
structure Sys where
  mm : MemoryManager
  os : Os

variable (ps : PageSize)

/-- Whether `mprotect(page, page_size, PROT_READ | PROT_WRITE)` succeeds: the page lies inside a
live reservation, and the kernel grants it. -/
def Os.mprotectOk (os : Os) (page : Nat) : Bool :=
  (os.reservations.any fun r => decide (r ≤ page ∧ page + ps.val ≤ r + ghostSpaceSize)) &&
    os.grants os.committed page

/-- The page at `page` made readable and writable, and `m_fault_count` and `m_resident_pages`
incremented. -/
def Sys.commitPage (σ : Sys) (page : Nat) : Sys :=
  { mm := { σ.mm with faultCount := σ.mm.faultCount + 1, residentPages := σ.mm.residentPages + 1 },
    os := { σ.os with committed := insert page σ.os.committed } }

/-- `handle_fault(fault_addr)`: commit the page and count it. -/
def handleFault (σ : Sys) (faultAddr : Nat) : Sys × Bool :=
  let pageAddr := pageOf ps faultAddr
  if σ.os.mprotectOk ps pageAddr then (σ.commitPage pageAddr, true) else (σ, false)

/-- `signal(sig, SIG_DFL)`. -/
def Sys.restoreDefault (σ : Sys) (sig : Signal) : Sys :=
  { σ with os := { σ.os with disposition := Function.update σ.os.disposition sig .dfl } }

/-- `ghost_signal_handler(sig, info, ctx)` for a fault at `faultAddr`. -/
def ghostSignalHandler (σ : Sys) (sig : Signal) (faultAddr : Nat) : Sys :=
  if sig = .other then σ else
  let base := σ.mm.baseAddr
  let endVal := add64 base ghostSpaceSize
  let handled := if base ≠ 0 ∧ base ≤ faultAddr ∧ faultAddr < endVal then handleFault ps σ faultAddr
    else (σ, false)
  if handled.2 then handled.1 else handled.1.restoreDefault sig

/-- An access to the byte at `addr`: a fault on a page that is not committed, the handler, and the
retry; `none` when the process is killed. -/
def access (σ : Sys) (addr : Nat) : Option Sys :=
  if pageOf ps addr ∈ σ.os.committed then some σ else
  if σ.os.disposition .segv = .dfl then none else
  let σ' := ghostSignalHandler ps σ .segv addr
  if pageOf ps addr ∈ σ'.os.committed then some σ' else none

/-- A byte read. -/
def readByte (σ : Sys) (addr : Nat) : Option (Sys × UInt8) :=
  (access ps σ addr).map fun σ => (σ, σ.os.mem addr)

/-- A byte write. -/
def writeByte (σ : Sys) (addr : Nat) (v : UInt8) : Option Sys :=
  (access ps σ addr).map fun σ => { σ with os := { σ.os with mem := σ.os.mem.set addr v } }

/-- Accesses to the `n` bytes at `addr`, as one multi-byte access makes them. -/
def touch (σ : Sys) (addr : Nat) : Nat → Option Sys
  | 0 => some σ
  | n + 1 => (access ps σ addr).bind fun σ => touch σ (addr + 1) n

/-- A `uint64_t` read. -/
def readWord (σ : Sys) (addr : Nat) : Option (Sys × Nat) :=
  (touch ps σ addr 8).map fun σ => (σ, σ.os.mem.load addr)

/-- A `uint64_t` write. -/
def writeWord (σ : Sys) (addr v : Nat) : Option Sys :=
  (touch ps σ addr 8).map fun σ => { σ with os := { σ.os with mem := σ.os.mem.store addr v } }

/-- Byte writes at `addr`, `addr + 1`, ... -/
def writeBytes (σ : Sys) (addr : Nat) : List UInt8 → Option Sys
  | [] => some σ
  | b :: bs => (writeByte ps σ addr b).bind fun σ => writeBytes σ (addr + 1) bs

/-! ## Pages -/

section Pages
variable {ps}

theorem PageSize.pos : 0 < ps.val := Nat.two_pow_pos _

theorem ghostSpaceSize_mod : ghostSpaceSize % ps.val = 0 :=
  Nat.mod_eq_zero_of_dvd (Nat.pow_dvd_pow 2 ps.shift_le)

theorem pageOf_eq {a : Nat} (ha : a < 2 ^ 64) : pageOf ps a = a - a % ps.val :=
  andNot_two_pow_sub_one _ ha (by have := ps.shift_le; omega)

/-- The page of an address between two page boundaries lies between them. -/
theorem page_bounds {lo hi a : Nat} (hlo : lo % ps.val = 0) (hhi : hi % ps.val = 0)
    (h₁ : lo ≤ a) (h₂ : a < hi) : lo ≤ a - a % ps.val ∧ a - a % ps.val + ps.val ≤ hi := by
  have hp := ps.pos
  obtain ⟨l, rfl⟩ := Nat.dvd_of_mod_eq_zero hlo
  obtain ⟨u, rfl⟩ := Nat.dvd_of_mod_eq_zero hhi
  have ha := Nat.div_add_mod a ps.val
  have hr := Nat.mod_lt a hp
  have hl : l ≤ a / ps.val := by
    by_contra h
    have := Nat.mul_le_mul_left ps.val (Nat.succ_le_of_lt (Nat.lt_of_not_le h))
    rw [Nat.mul_succ] at this
    omega
  have hu : a / ps.val + 1 ≤ u := by
    by_contra h
    have := Nat.mul_le_mul_left ps.val (Nat.le_of_not_lt fun h' => h (Nat.succ_le_of_lt h'))
    omega
  have h₃ := Nat.mul_le_mul_left ps.val hl
  have h₄ := Nat.mul_le_mul_left ps.val hu
  rw [Nat.mul_succ] at h₄
  omega

end Pages

/-! ## A ready arena -/

/-- The reservation at `m_base_addr = B` is live and the handler is installed for `SIGSEGV`; `B`
is a nonzero page boundary and the arena lies below the top of the address space. -/
structure Arena.Reserved (B : Nat) (σ : Sys) : Prop where
  base_eq : σ.mm.baseAddr = B
  base_pos : 0 < B
  aligned : B % ps.val = 0
  end_lt : B + ghostSpaceSize < 2 ^ 64
  reserved : B ∈ σ.os.reservations
  handler : σ.os.disposition .segv = .ghost

/-- The kernel grants `mprotect` on every page of the arena at `B`, whatever is committed. -/
def Os.Grants (os : Os) (B : Nat) : Prop :=
  ∀ C p, B ≤ p → p < B + ghostSpaceSize → os.grants C p = true

/-- A reserved arena on whose pages the kernel grants `mprotect`. -/
structure Arena.Ready (B : Nat) (σ : Sys) extends Arena.Reserved ps B σ : Prop where
  granted : σ.os.Grants B

section Ready
variable {ps} {B : Nat} {σ : Sys}

/-- The page of an arena address lies inside the arena. -/
theorem Arena.Ready.page_mem (H : Arena.Ready ps B σ) {a : Nat} (h₁ : B ≤ a)
    (h₂ : a < B + ghostSpaceSize) :
    pageOf ps a ≤ a ∧ a < pageOf ps a + ps.val ∧ B ≤ pageOf ps a ∧
      pageOf ps a + ps.val ≤ B + ghostSpaceSize := by
  have := H.end_lt
  have hb := page_bounds H.aligned (by simp [Nat.add_mod, H.aligned, ghostSpaceSize_mod]) h₁ h₂
  have hr := Nat.mod_lt a ps.pos
  rw [pageOf_eq (by omega)]
  omega

theorem Arena.Ready.mprotectOk (H : Arena.Ready ps B σ) {a : Nat} (h₁ : B ≤ a)
    (h₂ : a < B + ghostSpaceSize) : σ.os.mprotectOk ps (pageOf ps a) = true := by
  obtain ⟨-, -, hlo, hhi⟩ := H.page_mem h₁ h₂
  have := ps.pos
  rw [Os.mprotectOk, Bool.and_eq_true]
  exact ⟨List.any_eq_true.2 ⟨B, H.reserved, decide_eq_true ⟨hlo, hhi⟩⟩, H.granted _ _ hlo (by omega)⟩

/-- Inside the arena, `handle_fault` makes exactly the page of the address readable and
writable and counts it. -/
theorem Arena.Ready.handleFault (H : Arena.Ready ps B σ) {a : Nat} (h₁ : B ≤ a)
    (h₂ : a < B + ghostSpaceSize) : Ghost.handleFault ps σ a = (σ.commitPage (pageOf ps a), true) := by
  rw [Ghost.handleFault, if_pos (H.mprotectOk h₁ h₂)]

/-- `ghost_signal_handler` calls `handle_fault` exactly for the addresses of the arena; for the
others it restores `SIG_DFL`. -/
theorem Arena.Ready.ghostSignalHandler (H : Arena.Ready ps B σ) {sig : Signal} (hsig : sig ≠ .other)
    (a : Nat) : Ghost.ghostSignalHandler ps σ sig a =
      if B ≤ a ∧ a < B + ghostSpaceSize then σ.commitPage (pageOf ps a) else σ.restoreDefault sig := by
  have := H.end_lt
  have hB := H.base_pos
  simp only [Ghost.ghostSignalHandler, if_neg hsig, H.base_eq, add64_of_lt this]
  by_cases ha : B ≤ a ∧ a < B + ghostSpaceSize
  · simp only [if_pos (⟨hB.ne', ha⟩ : B ≠ 0 ∧ _), if_pos ha, H.handleFault ha.1 ha.2, if_true]
  · simp only [ha, and_false, if_false, Bool.false_eq_true]

theorem Arena.Ready.commitPage (H : Arena.Ready ps B σ) (p : Nat) : Arena.Ready ps B (σ.commitPage p) :=
  ⟨⟨H.base_eq, H.base_pos, H.aligned, H.end_lt, H.reserved, H.handler⟩, H.granted⟩

/-- Writing bytes keeps an arena ready. -/
theorem Arena.Ready.setMem (H : Arena.Ready ps B σ) (m : Mem) :
    Arena.Ready ps B { σ with os := { σ.os with mem := m } } :=
  ⟨⟨H.base_eq, H.base_pos, H.aligned, H.end_lt, H.reserved, H.handler⟩, H.granted⟩

/-- Inside the arena every access succeeds and commits the page, counting it when it was not
committed. -/
theorem Arena.Ready.access (H : Arena.Ready ps B σ) {a : Nat} (h₁ : B ≤ a)
    (h₂ : a < B + ghostSpaceSize) :
    Ghost.access ps σ a =
      some (if pageOf ps a ∈ σ.os.committed then σ else σ.commitPage (pageOf ps a)) := by
  unfold Ghost.access
  by_cases hc : pageOf ps a ∈ σ.os.committed
  · rw [if_pos hc, if_pos hc]
  · have hd : σ.os.disposition .segv ≠ .dfl := by rw [H.handler]; decide
    rw [if_neg hc, if_neg hc, if_neg hd]
    simp only [H.ghostSignalHandler (by decide : Signal.segv ≠ .other), if_pos (And.intro h₁ h₂)]
    exact if_pos (Finset.mem_insert_self _ _)

/-- An access inside the arena leaves the bytes alone and a ready arena ready; it commits the
page, and counts it exactly when it was not committed. -/
theorem Arena.Ready.access_spec (H : Arena.Ready ps B σ) {a : Nat} (h₁ : B ≤ a)
    (h₂ : a < B + ghostSpaceSize) :
    ∃ σ', Ghost.access ps σ a = some σ' ∧ Arena.Ready ps B σ' ∧ σ'.os.mem = σ.os.mem ∧
      σ'.mm.running = σ.mm.running ∧ σ'.os.committed = insert (pageOf ps a) σ.os.committed ∧
      σ'.mm.faultCount + σ.os.committed.card = σ.mm.faultCount + σ'.os.committed.card ∧
      σ'.mm.residentPages + σ.os.committed.card = σ.mm.residentPages + σ'.os.committed.card := by
  rw [H.access h₁ h₂]
  by_cases hc : pageOf ps a ∈ σ.os.committed
  · rw [if_pos hc, Finset.insert_eq_of_mem hc]
    exact ⟨σ, rfl, H, rfl, rfl, rfl, rfl, rfl⟩
  · rw [if_neg hc]
    refine ⟨_, rfl, H.commitPage _, rfl, rfl, rfl, ?_, ?_⟩ <;>
      simp only [Sys.commitPage, Finset.card_insert_of_not_mem hc] <;> omega

/-- Every committed page lies below the end of the arena. -/
def Arena.Below (B : Nat) (σ : Sys) : Prop := ∀ p ∈ σ.os.committed, p < B + ghostSpaceSize

theorem Arena.Ready.below_access {σ' : Sys} (H : Arena.Ready ps B σ) (hb : Arena.Below B σ) {a : Nat}
    (h₁ : B ≤ a) (h₂ : a < B + ghostSpaceSize)
    (hc : σ'.os.committed = insert (pageOf ps a) σ.os.committed) : Arena.Below B σ' := by
  intro p hp
  rw [hc, Finset.mem_insert] at hp
  rcases hp with rfl | hp
  · have := H.page_mem h₁ h₂; omega
  · exact hb p hp

/-- The bytes `[a, a + n)` of the arena accessed one after the other. -/
theorem Arena.Ready.touch (H : Arena.Ready ps B σ) (hb : Arena.Below B σ) {a n : Nat}
    (h₁ : B ≤ a) (h₂ : a + n ≤ B + ghostSpaceSize) :
    ∃ σ', Ghost.touch ps σ a n = some σ' ∧ Arena.Ready ps B σ' ∧ Arena.Below B σ' ∧
      σ'.os.mem = σ.os.mem ∧ σ'.mm.running = σ.mm.running := by
  induction n generalizing σ a with
  | zero => exact ⟨σ, rfl, H, hb, rfl, rfl⟩
  | succ n ih =>
    obtain ⟨σ₁, hacc, H₁, hm₁, hr₁, hc₁, -⟩ := H.access_spec h₁ (by omega)
    obtain ⟨σ', ht, H', hb', hm', hr'⟩ := ih H₁ (H.below_access hb h₁ (by omega) hc₁) (a := a + 1)
      (by omega) (by omega)
    exact ⟨σ', by rw [Ghost.touch, hacc, Option.some_bind, ht], H', hb', hm'.trans hm₁, hr'.trans hr₁⟩

theorem Arena.Ready.readWord (H : Arena.Ready ps B σ) (hb : Arena.Below B σ) {a : Nat}
    (h₁ : B ≤ a) (h₂ : a + 8 ≤ B + ghostSpaceSize) :
    ∃ σ', Ghost.readWord ps σ a = some (σ', σ.os.mem.load a) ∧ Arena.Ready ps B σ' ∧
      Arena.Below B σ' ∧ σ'.os.mem = σ.os.mem ∧ σ'.mm.running = σ.mm.running := by
  obtain ⟨σ', ht, H', hb', hm, hr⟩ := H.touch hb h₁ h₂
  exact ⟨σ', by rw [Ghost.readWord, ht, Option.map_some', hm], H', hb', hm, hr⟩

theorem Arena.Ready.writeWord (H : Arena.Ready ps B σ) (hb : Arena.Below B σ) {a : Nat} (v : Nat)
    (h₁ : B ≤ a) (h₂ : a + 8 ≤ B + ghostSpaceSize) :
    ∃ σ', Ghost.writeWord ps σ a v = some σ' ∧ Arena.Ready ps B σ' ∧ Arena.Below B σ' ∧
      σ'.os.mem = σ.os.mem.store a v ∧ σ'.mm.running = σ.mm.running := by
  obtain ⟨σ', ht, H', hb', hm, hr⟩ := H.touch hb h₁ h₂
  refine ⟨{ σ' with os := { σ'.os with mem := σ'.os.mem.store a v } },
    by rw [Ghost.writeWord, ht, Option.map_some'], H'.setMem _, hb', by simp only [hm], hr⟩

theorem Arena.Ready.writeBytes (H : Arena.Ready ps B σ) (hb : Arena.Below B σ) {a : Nat}
    {bs : List UInt8} (h₁ : B ≤ a) (h₂ : a + bs.length ≤ B + ghostSpaceSize) :
    ∃ σ', Ghost.writeBytes ps σ a bs = some σ' ∧ Arena.Ready ps B σ' ∧ Arena.Below B σ' ∧
      σ'.os.mem = σ.os.mem.setBytes a bs ∧ σ'.mm.running = σ.mm.running := by
  induction bs generalizing σ a with
  | nil => exact ⟨σ, rfl, H, hb, rfl, rfl⟩
  | cons c bs ih =>
    simp only [List.length_cons] at h₂
    obtain ⟨σ₁, hacc, H₁, hm₁, hr₁, hc₁, -⟩ := H.access_spec h₁ (by omega)
    obtain ⟨σ', hw, H', hb', hm', hr'⟩ :=
      ih (H₁.setMem (σ₁.os.mem.set a c)) (H.below_access hb h₁ (by omega) hc₁) (a := a + 1)
        (by omega) (by omega)
    refine ⟨σ', ?_, H', hb', ?_, hr'.trans hr₁⟩
    · rw [Ghost.writeBytes, writeByte, hacc, Option.map_some', Option.some_bind, hw]
    · rw [hm', Mem.setBytes]; simp only [hm₁]

/-- An access at or past the end of the arena kills the process: its page is not committed,
and the handler restores `SIG_DFL`. -/
theorem Arena.Ready.access_past_end (H : Arena.Ready ps B σ) (hb : Arena.Below B σ) {a : Nat}
    (h₁ : B + ghostSpaceSize ≤ a) (h₂ : a < 2 ^ 64) : Ghost.access ps σ a = none := by
  have hpage : B + ghostSpaceSize ≤ pageOf ps a := by
    rw [pageOf_eq h₂]
    exact (page_bounds (by simp [Nat.add_mod, H.aligned, ghostSpaceSize_mod])
      (Nat.mod_eq_zero_of_dvd (Nat.pow_dvd_pow 2 (by have := ps.shift_le; omega))) h₁ h₂).1
  have hc : pageOf ps a ∉ σ.os.committed := fun h => by have := hb _ h; omega
  have hd : σ.os.disposition .segv ≠ .dfl := by rw [H.handler]; decide
  unfold Ghost.access
  rw [if_neg hc, if_neg hd, H.ghostSignalHandler (by decide),
    if_neg (show ¬(B ≤ a ∧ a < B + ghostSpaceSize) by omega)]
  exact if_neg hc

/-- An access inside the arena to a page that is not committed, and on which the kernel refuses
`mprotect`, kills the process: `handle_fault` fails and the handler restores `SIG_DFL`. -/
theorem Arena.Reserved.access_of_refused (H : Arena.Reserved ps B σ) {a : Nat} (h₁ : B ≤ a)
    (h₂ : a < B + ghostSpaceSize) (hc : pageOf ps a ∉ σ.os.committed)
    (hr : σ.os.grants σ.os.committed (pageOf ps a) = false) : Ghost.access ps σ a = none := by
  have hd : σ.os.disposition .segv ≠ .dfl := by rw [H.handler]; decide
  have hf : Ghost.handleFault ps σ a = (σ, false) := by
    rw [Ghost.handleFault, Os.mprotectOk, hr, Bool.and_false]; rfl
  unfold Ghost.access
  rw [if_neg hc, if_neg hd]
  simp only [Ghost.ghostSignalHandler, H.base_eq, add64_of_lt H.end_lt, reduceCtorEq, if_false,
    if_pos (⟨H.base_pos.ne', h₁, h₂⟩ : B ≠ 0 ∧ B ≤ a ∧ a < B + ghostSpaceSize), hf,
    Bool.false_eq_true]
  exact if_neg hc

/-- A byte string that runs past the end of the arena kills the process at its first byte
there. -/
theorem Arena.Ready.writeBytes_past_end (H : Arena.Ready ps B σ) (hb : Arena.Below B σ) {a : Nat}
    {bs : List UInt8} (h₁ : B ≤ a) (h₂ : a ≤ B + ghostSpaceSize)
    (h₃ : B + ghostSpaceSize < a + bs.length) : Ghost.writeBytes ps σ a bs = none := by
  induction bs generalizing σ a with
  | nil => simp at h₃; omega
  | cons c bs ih =>
    simp only [List.length_cons] at h₃
    rcases Nat.lt_or_ge a (B + ghostSpaceSize) with ha | ha
    · obtain ⟨σ₁, hacc, H₁, hm₁, -, hc₁, -⟩ := H.access_spec h₁ ha
      rw [Ghost.writeBytes, writeByte, hacc, Option.map_some', Option.some_bind]
      exact ih (H₁.setMem (σ₁.os.mem.set a c)) (H.below_access hb h₁ ha hc₁) (by omega)
        (by omega) (by omega)
    · rw [Ghost.writeBytes, writeByte, H.access_past_end hb ha (by have := H.end_lt; omega)]
      rfl

end Ready

/-! ## Runs of byte accesses -/

/-- A byte access at an arena offset. -/
inductive Op where
  | read (off : Nat)
  | write (off : Nat) (v : UInt8)

/-- The offset an access is at. -/
def Op.offset : Op → Nat
  | .read off | .write off _ => off

/-- Accesses at `get_ghost_ptr(off)`, that is `B + off`, in order, with the bytes the reads
return. -/
def runOps (B : Nat) (σ : Sys) : List Op → Option (Sys × List UInt8)
  | [] => some (σ, [])
  | .read off :: ops => (readByte ps σ (add64 B off)).bind fun r =>
    (runOps B r.1 ops).map fun t => (t.1, r.2 :: t.2)
  | .write off v :: ops => (writeByte ps σ (add64 B off) v).bind fun σ => runOps B σ ops

/-- The same accesses on a plain byte array indexed by offset. -/
def absRun (m : Nat → UInt8) : List Op → (Nat → UInt8) × List UInt8
  | [] => (m, [])
  | .read off :: ops => ((absRun m ops).1, m off :: (absRun m ops).2)
  | .write off v :: ops => absRun (Function.update m off v) ops

/-- The pages a run touches. -/
def touched (B : Nat) (ops : List Op) : Finset Nat :=
  (ops.map fun o => pageOf ps (add64 B o.offset)).toFinset

section Runs
variable {ps} {B : Nat}

/-- Over a ready arena, a run at arena offsets returns what the plain array returns, leaves the
bytes the plain array holds, and commits and counts the pages it touches. -/
theorem Arena.Ready.runOps {σ : Sys} (H : Arena.Ready ps B σ) (ops : List Op)
    (hops : ∀ o ∈ ops, o.offset < ghostSpaceSize) {m : Nat → UInt8}
    (hm : ∀ off < ghostSpaceSize, σ.os.mem (B + off) = m off) :
    ∃ σ' outs, Ghost.runOps ps B σ ops = some (σ', outs) ∧ Arena.Ready ps B σ' ∧
      outs = (absRun m ops).2 ∧
      (∀ off < ghostSpaceSize, σ'.os.mem (B + off) = (absRun m ops).1 off) ∧
      σ'.os.committed = σ.os.committed ∪ touched ps B ops ∧
      σ'.mm.faultCount + σ.os.committed.card = σ.mm.faultCount + σ'.os.committed.card ∧
      σ'.mm.residentPages + σ.os.committed.card = σ.mm.residentPages + σ'.os.committed.card := by
  induction ops generalizing σ m with
  | nil => exact ⟨σ, [], rfl, H, rfl, hm, by simp [touched], rfl, rfl⟩
  | cons o ops ih =>
    have hlt := H.end_lt
    have ho := hops o (List.mem_cons_self _ _)
    have hops' := fun o' h => hops o' (List.mem_cons_of_mem o h)
    obtain ⟨σ₁, hacc, H₁, hmem, -, hcom, hf, hr⟩ :=
      H.access_spec (a := add64 B o.offset) (by rw [add64_of_lt (by omega)]; omega)
        (by rw [add64_of_lt (by omega)]; omega)
    have htouch : touched ps B (o :: ops) = insert (pageOf ps (add64 B o.offset)) (touched ps B ops) := by
      simp [touched]
    cases o with
    | read off =>
      simp only [Op.offset] at hacc hcom htouch ho
      obtain ⟨σ', outs, hrun, H', hout, hm', hcom', hf', hr'⟩ :=
        ih H₁ hops' (m := m) fun off' h => hmem ▸ hm off' h
      refine ⟨σ', σ₁.os.mem (add64 B off) :: outs, ?_, H', ?_, hm', ?_, ?_, ?_⟩
      · simp only [Ghost.runOps, readByte, hacc, Option.map_some', Option.some_bind, hrun]
      · rw [hout, hmem, add64_of_lt (by omega), hm off ho]; rfl
      · rw [hcom', hcom, htouch, Finset.insert_union, Finset.union_insert]
      · omega
      · omega
    | write off v =>
      simp only [Op.offset] at hacc hcom htouch ho
      have ho' : off < ghostSpaceSize := ho
      obtain ⟨σ', outs, hrun, H', hout, hm', hcom', hf', hr'⟩ :=
        ih (H₁.setMem (σ₁.os.mem.set (add64 B off) v)) hops'
          (m := Function.update m off v) fun off' h => by
            simp only [Mem.set, add64_of_lt (by omega : B + off < 2 ^ 64), hmem, Function.update_apply,
              Nat.add_left_cancel_iff]
            split_ifs
            · rfl
            · exact hm off' h
      refine ⟨σ', outs, ?_, H', hout, hm', ?_, ?_, ?_⟩
      · simp only [Ghost.runOps, writeByte, hacc, Option.map_some', Option.some_bind, hrun]
      · rw [hcom']
        show σ₁.os.committed ∪ _ = _
        rw [hcom, htouch, Finset.insert_union, Finset.union_insert]
      · simp only at hf' hr' ⊢; omega
      · simp only at hf' hr' ⊢; omega

end Runs

/-- For a reserved arena on whose pages the kernel grants `mprotect`: `ghost_signal_handler`
calls `handle_fault` exactly for the addresses of the arena, and restores `SIG_DFL` for the
others; `handle_fault` makes exactly the page `A & ~(page_size - 1)` readable and writable, a page
that holds `A` and lies inside the arena. From a fresh reservation, any run of byte reads and
writes at arena offsets returns what a zero-initialised byte array returns, and commits, and
counts in both counters, exactly the pages it touches. -/
theorem ghost_arena {ps : PageSize} {B : Nat} {σ : Sys} (hres : Arena.Reserved ps B σ)
    (hgrant : σ.os.Grants B) (hfresh : σ.os.committed = ∅) (hf : σ.mm.faultCount = 0) (hr : σ.mm.residentPages = 0)
    (hzero : ∀ off < ghostSpaceSize, σ.os.mem (B + off) = 0) :
    (∀ sig, sig ≠ .other → ∀ a, ghostSignalHandler ps σ sig a =
      if B ≤ a ∧ a < B + ghostSpaceSize then σ.commitPage (pageOf ps a) else σ.restoreDefault sig) ∧
    (∀ a, B ≤ a → a < B + ghostSpaceSize → handleFault ps σ a = (σ.commitPage (pageOf ps a), true) ∧
      pageOf ps a ≤ a ∧ a < pageOf ps a + ps.val ∧ B ≤ pageOf ps a ∧
      pageOf ps a + ps.val ≤ B + ghostSpaceSize) ∧
    ∀ ops, (∀ o ∈ ops, o.offset < ghostSpaceSize) → ∃ σ' outs, runOps ps B σ ops = some (σ', outs) ∧
      outs = (absRun (fun _ => 0) ops).2 ∧ σ'.os.committed = touched ps B ops ∧
      σ'.mm.faultCount = (touched ps B ops).card ∧ σ'.mm.residentPages = (touched ps B ops).card := by
  have H : Arena.Ready ps B σ := ⟨hres, hgrant⟩
  refine ⟨fun sig hsig a => H.ghostSignalHandler hsig a,
    fun a h₁ h₂ => ⟨H.handleFault h₁ h₂, H.page_mem h₁ h₂⟩, fun ops hops => ?_⟩
  obtain ⟨σ', outs, hrun, -, hout, -, hcom, hf', hr'⟩ := H.runOps ops hops hzero
  rw [hfresh, Finset.empty_union] at hcom
  rw [hfresh, Finset.card_empty, hcom] at hf' hr'
  rw [hf] at hf'
  rw [hr] at hr'
  exact ⟨σ', outs, hrun, hout, hcom, by omega, by omega⟩

/-- 4 KiB pages. -/
def PageSize.four : PageSize := ⟨12, by decide⟩

/-- A fresh reservation at `2 ^ 40` with the handler installed, no page committed, and a kernel
that grants every `mprotect`. -/
def freshArena : Sys := ⟨⟨2 ^ 40, true, 0, 0⟩, ⟨fun _ => 0, ∅, [2 ^ 40], fun _ => .ghost, fun _ _ => true⟩⟩

theorem freshArena_reserved : Arena.Reserved PageSize.four (2 ^ 40) freshArena :=
  ⟨rfl, by decide, by decide, by decide, List.mem_singleton_self _, rfl⟩

theorem ghost_arena_fresh :
    Arena.Reserved PageSize.four (2 ^ 40) freshArena ∧ freshArena.os.Grants (2 ^ 40) ∧
      freshArena.os.committed = ∅ ∧
      freshArena.mm.faultCount = 0 ∧ freshArena.mm.residentPages = 0 ∧
      (∀ off < ghostSpaceSize, freshArena.os.mem (2 ^ 40 + off) = 0) ∧
      (∀ sig, sig ≠ .other → ∀ a, ghostSignalHandler PageSize.four freshArena sig a =
        if 2 ^ 40 ≤ a ∧ a < 2 ^ 40 + ghostSpaceSize then freshArena.commitPage (pageOf PageSize.four a)
        else freshArena.restoreDefault sig) ∧
      (∀ a, 2 ^ 40 ≤ a → a < 2 ^ 40 + ghostSpaceSize →
        handleFault PageSize.four freshArena a = (freshArena.commitPage (pageOf PageSize.four a), true) ∧
        pageOf PageSize.four a ≤ a ∧ a < pageOf PageSize.four a + PageSize.four.val ∧
        2 ^ 40 ≤ pageOf PageSize.four a ∧ pageOf PageSize.four a + PageSize.four.val ≤ 2 ^ 40 + ghostSpaceSize) ∧
      ∀ ops, (∀ o ∈ ops, o.offset < ghostSpaceSize) → ∃ σ' outs,
        runOps PageSize.four (2 ^ 40) freshArena ops = some (σ', outs) ∧
        outs = (absRun (fun _ => 0) ops).2 ∧ σ'.os.committed = touched PageSize.four (2 ^ 40) ops ∧
        σ'.mm.faultCount = (touched PageSize.four (2 ^ 40) ops).card ∧
        σ'.mm.residentPages = (touched PageSize.four (2 ^ 40) ops).card :=
  ⟨freshArena_reserved, fun _ _ _ _ => rfl, rfl, rfl, rfl, fun _ _ => rfl,
    ghost_arena freshArena_reserved (fun _ _ _ _ => rfl) rfl rfl rfl fun _ _ => rfl⟩

end HyperionRuntime.Ghost
