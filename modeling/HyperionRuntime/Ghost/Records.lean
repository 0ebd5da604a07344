import HyperionRuntime.Ghost.Manager

/-!
# The record log

`ProcessingUnit::ProcessDocument` appends one record of `4 + 4 + VECTOR_DIM` bytes at
`head_offset`, then advances `head_offset` and increments `vector_count`. The tokenizer and the
float arithmetic that make a record are left out: a call is given the record it writes, or
`none` when its tokenization is empty.

`Log B recs σ` is the state of the arena at `B` after the records `recs` were appended: the
header holds `GHOST_MAGIC`, `recs.length` and `24 + 264 * recs.length`, and record `k` lies at
`[24 + 264 k, 24 + 264 (k + 1))`. The first `initialize()` establishes it with no record
(`Log.boot`); a call that writes no record leaves the whole state alone, and one that writes a
record extends the log while it fits in the arena and kills the process when it does not
(`Log.step`). `Log.runCalls` follows from these over every sequence of calls.
-/

namespace HyperionRuntime.Ghost

/-- `VECTOR_DIM`. -/
def vectorDim : Nat := 256

/-- `entry_size = sizeof(float) + sizeof(float) + VECTOR_DIM`. -/
def entrySize : Nat := 4 + 4 + vectorDim

/-- A record as `ProcessDocument` stores it: the bits of `scale` and `bias`, then the quantized
lanes. -/
structure Record where
  scale : UInt32
  bias : UInt32
  lanes : List UInt8
  lanes_length : lanes.length = vectorDim

/-- The bytes `memcpy` copies out of a `float`, on a little-endian machine. -/
def bytesLE (x : UInt32) : List UInt8 :=
  [x.toUInt8, (x >>> 8).toUInt8, (x >>> 16).toUInt8, (x >>> 24).toUInt8]

/-- The record's bytes in the arena: `scale`, `bias`, then `q_dest[0 .. VECTOR_DIM)`. -/
def Record.bytes (r : Record) : List UInt8 := bytesLE r.scale ++ bytesLE r.bias ++ r.lanes

@[simp] theorem Record.length_bytes (r : Record) : r.bytes.length = entrySize := by
  simp only [Record.bytes, bytesLE, List.length_append, List.length_cons, List.length_nil,
    r.lanes_length, entrySize]

variable (ps : PageSize)

/-- `ProcessDocument(content)`, given the record it computes, or `none` when
`term_counts.empty()`. -/
def processDocument (σ : Sys) : Option Record → Option Sys
  | none => some σ
  | some r =>
    let base := σ.mm.baseAddr
    if base = 0 then some σ else
    (readWord ps σ (base + 16)).bind fun (σ, currentOffset) =>
    (writeBytes ps σ (add64 base currentOffset) r.bytes).bind fun σ =>
    (readWord ps σ (base + 16)).bind fun (σ, head) =>
    (writeWord ps σ (base + 16) (add64 head entrySize)).bind fun σ =>
    (readWord ps σ (base + 8)).bind fun (σ, count) =>
    writeWord ps σ (base + 8) (add64 count 1)

/-- What the process asks of the arena: another `initialize()`, or a `ProcessDocument` call of
the worker. -/
inductive Call where
  | init (env : Env ps)
  | document (doc : Option Record)

/-- A call; `none` when it kills the process. -/
def Call.step (σ : Sys) : Call ps → Option Sys
  | .init env => (initializeManager ps σ env).map (·.1)
  | .document doc => processDocument ps σ doc

/-- The calls one after the other. -/
def runCalls (σ : Sys) (calls : List (Call ps)) : Option Sys :=
  calls.foldlM (Call.step ps) σ

/-- The header and the records fit in the arena. -/
def Fits (recs : List Record) : Prop := headerSize + entrySize * recs.length ≤ ghostSpaceSize

instance : DecidablePred Fits := fun _ => Nat.decLe _ _

theorem Fits.of_append {recs recs' : List Record} (h : Fits (recs ++ recs')) : Fits recs := by
  unfold Fits at *
  rw [List.length_append, Nat.mul_add] at h
  omega

/-- The arena at `B` after the records `recs` were appended, in a running manager. -/
structure Log (B : Nat) (recs : List Record) (σ : Sys) : Prop where
  ready : Arena.Ready ps B σ
  below : Arena.Below B σ
  running : σ.mm.running = true
  magic : σ.os.mem.load B = ghostMagic
  count : σ.os.mem.load (B + 8) = recs.length
  head : σ.os.mem.load (B + 16) = headerSize + entrySize * recs.length
  fits : Fits recs
  records : ∀ k r, recs[k]? = some r → ∀ i b, r.bytes[i]? = some b →
    σ.os.mem (B + (headerSize + entrySize * k) + i) = b

variable {ps}

/-- The records the calls write, in order. -/
def written : List (Call ps) → List Record
  | [] => []
  | .document (some r) :: calls => r :: written calls
  | _ :: calls => written calls

@[simp] theorem written_nil : written ([] : List (Call ps)) = [] := rfl

@[simp] theorem written_init_cons (env : Env ps) (calls : List (Call ps)) :
    written (.init env :: calls) = written calls := rfl

@[simp] theorem written_none_cons (calls : List (Call ps)) :
    written (.document none :: calls) = written calls := rfl

@[simp] theorem written_some_cons (r : Record) (calls : List (Call ps)) :
    written (.document (some r) :: calls) = r :: written calls := rfl

/-! ## The first `initialize()` -/

section Boot
variable {σ : Sys}

theorem reserveAddressSpace_some (P : Placement ps) :
    reserveAddressSpace ps σ (some P) =
      ({ mm := { σ.mm with baseAddr := P.base }, os := σ.os.map P.base }, .ok ()) := rfl

theorem installSignalHandlers_ok :
    installSignalHandlers σ true true =
      ({ σ with os := { σ.os with disposition := Function.update (Function.update
          σ.os.disposition .bus .ghost) .segv .ghost } }, .ok ()) := rfl

/-- The state in which `initialize()` calls `initialize_header`, after `mmap` placed the arena
at `P` and both handlers were installed. -/
def Sys.mapped (σ : Sys) (P : Placement ps) : Sys :=
  { mm := { σ.mm with baseAddr := P.base, running := true },
    os := { σ.os.map P.base with disposition := Function.update (Function.update
      σ.os.disposition .bus .ghost) .segv .ghost } }

theorem Sys.mapped_ready (P : Placement ps) (hg : σ.os.Grants P.base) :
    Arena.Ready ps P.base (σ.mapped P) :=
  ⟨⟨rfl, P.base_pos, P.aligned, P.end_lt, List.mem_append_right _ (List.mem_singleton_self _),
    by simp only [Sys.mapped, Function.update_same]⟩, hg⟩

theorem Sys.mapped_below (P : Placement ps) (hb : Arena.Below P.base σ) :
    Arena.Below P.base (σ.mapped P) := fun p hp => by
  simp only [Sys.mapped, Os.map, Finset.mem_filter] at hp
  exact hb p hp.1

theorem initializeManager_mapped (P : Placement ps) (hrun : σ.mm.running = false) :
    initializeManager ps σ ⟨some P, true, true⟩ =
      (initializeHeader ps (σ.mapped P)).map fun σ => (σ, .ok ()) := by
  simp only [initializeManager, hrun, reserveAddressSpace_some, installSignalHandlers_ok]
  rfl

/-- `initialize_header` in a fresh reservation: its header is zero, so it writes the magic, a
zero count and `head_offset = sizeof(MemoryHeader)`. -/
theorem Log.initializeHeader (P : Placement ps) (hg : σ.os.Grants P.base)
    (hb : Arena.Below P.base σ) :
    ∃ σ₀, Ghost.initializeHeader ps (σ.mapped P) = some σ₀ ∧ Log ps P.base [] σ₀ := by
  have hpos := P.base_pos
  have hend := P.end_lt
  have hS : 24 ≤ ghostSpaceSize := by rw [ghostSpaceSize_eq]; omega
  have H := Sys.mapped_ready P hg
  have hzero : (σ.mapped P).os.mem.load P.base = 0 :=
    Mem.load_eq_zero (fun j h₁ h₂ => if_pos ⟨h₁, by omega⟩) (by omega)
  obtain ⟨σ₁, hr₁, H₁, hb₁, hm₁, hrun₁⟩ := H.readWord (Sys.mapped_below P hb) le_rfl (by omega)
  obtain ⟨σ₂, hw₂, H₂, hb₂, hm₂, hrun₂⟩ := H₁.writeWord hb₁ ghostMagic le_rfl (by omega)
  obtain ⟨σ₃, hw₃, H₃, hb₃, hm₃, hrun₃⟩ := H₂.writeWord hb₂ 0 (a := P.base + 8) (by omega) (by omega)
  obtain ⟨σ₄, hw₄, H₄, hb₄, hm₄, hrun₄⟩ :=
    H₃.writeWord hb₃ headerSize (a := P.base + 16) (by omega) (by omega)
  have hget : getGhostPtr (σ.mapped P) 0 = .ok P.base := by
    simp only [getGhostPtr, Sys.mapped, if_neg (show ¬(0 ≥ ghostSpaceSize) by omega),
      if_neg hpos.ne', add64_of_lt (show P.base + 0 < 2 ^ 64 by omega), Nat.add_zero]
  refine ⟨σ₄, ?_, ⟨H₄, hb₄, ?_, ?_, ?_, ?_, ?_, fun k r h => by simp at h⟩⟩
  · rw [Ghost.initializeHeader, hget]
    simp only [hr₁, hzero, Option.some_bind, if_pos (show (0 : Nat) ≠ ghostMagic by decide), hw₂,
      hw₃, hw₄]
  · rw [hrun₄, hrun₃, hrun₂, hrun₁]; rfl
  · rw [hm₄, Mem.load_store_of_disjoint _ _ (.inr (by omega)) (by omega) (by omega), hm₃,
      Mem.load_store_of_disjoint _ _ (.inr (by omega)) (by omega) (by omega), hm₂,
      Mem.load_store_self]
    rfl
  · rw [hm₄, Mem.load_store_of_disjoint _ _ (.inr (by omega)) (by omega) (by omega), hm₃,
      Mem.load_store_self]
    rfl
  · rw [hm₄, Mem.load_store_self]; rfl
  · exact hS

/-- The first `initialize()`, with `mmap` and both `sigaction` calls succeeding, sets up an empty
log. -/
theorem Log.boot (P : Placement ps) (hrun : σ.mm.running = false) (hg : σ.os.Grants P.base)
    (hb : Arena.Below P.base σ) :
    ∃ σ₀, initializeManager ps σ ⟨some P, true, true⟩ = some (σ₀, .ok ()) ∧
      Log ps P.base [] σ₀ := by
  obtain ⟨σ₀, h, L⟩ := Log.initializeHeader P hg hb
  exact ⟨σ₀, by rw [initializeManager_mapped P hrun, h]; rfl, L⟩

end Boot

/-! ## One call -/

section Step
variable {B : Nat} {recs : List Record} {σ : Sys}

/-- With the manager running, `initialize()` returns at once. -/
theorem Log.init (L : Log ps B recs σ) (env : Env ps) : Call.step ps σ (.init env) = some σ := by
  simp only [Call.step, initializeManager, L.running, if_true, Option.map_some']

/-- An append whose record fits writes its bytes at `head_offset`, then stores the advanced
`head_offset` and the incremented `vector_count`, and keeps the arena ready. -/
theorem Log.processDocument_spec (L : Log ps B recs σ) (r : Record) (hfit : Fits (recs ++ [r])) :
    ∃ σ', processDocument ps σ (some r) = some σ' ∧ Arena.Ready ps B σ' ∧ Arena.Below B σ' ∧
      σ'.mm.running = true ∧
      σ'.os.mem = ((σ.os.mem.setBytes (B + (headerSize + entrySize * recs.length)) r.bytes).store
        (B + 16) (headerSize + entrySize * recs.length + entrySize)).store (B + 8)
        (recs.length + 1) := by
  have H := L.ready
  have hpos := H.base_pos
  have hend := H.end_lt
  unfold Fits at hfit
  simp only [List.length_append, List.length_singleton, Nat.mul_add, Nat.mul_one] at hfit
  have hE : entrySize = 264 := rfl
  have hH : headerSize = 24 := rfl
  have hX : entrySize * recs.length = 264 * recs.length := rfl
  set cur := headerSize + entrySize * recs.length with hcur
  have hfr := Mem.touches_setBytes σ.os.mem (B + cur) r.bytes
  obtain ⟨σ₁, hr₁, H₁, hb₁, hm₁, hrun₁⟩ := H.readWord L.below (a := B + 16) (by omega) (by omega)
  obtain ⟨σ₂, hw₂, H₂, hb₂, hm₂, hrun₂⟩ :=
    H₁.writeBytes hb₁ (by omega) (show B + cur + r.bytes.length ≤ B + ghostSpaceSize by simp; omega)
  rw [hm₁] at hm₂
  obtain ⟨σ₃, hr₃, H₃, hb₃, hm₃, hrun₃⟩ := H₂.readWord hb₂ (a := B + 16) (by omega) (by omega)
  obtain ⟨σ₄, hw₄, H₄, hb₄, hm₄, hrun₄⟩ :=
    H₃.writeWord hb₃ (cur + entrySize) (a := B + 16) (by omega) (by omega)
  obtain ⟨σ₅, hr₅, H₅, hb₅, hm₅, hrun₅⟩ := H₄.readWord hb₄ (a := B + 8) (by omega) (by omega)
  obtain ⟨σ₆, hw₆, H₆, hb₆, hm₆, hrun₆⟩ :=
    H₅.writeWord hb₅ (recs.length + 1) (a := B + 8) (by omega) (by omega)
  have hhead : σ₂.os.mem.load (B + 16) = cur := by
    rw [hm₂, hfr.load_eq (by omega) fun j _ _ => by omega, L.head]
  have hcount : σ₄.os.mem.load (B + 8) = recs.length := by
    rw [hm₄, Mem.load_store_of_disjoint _ _ (.inr (by omega)) (by omega) (by omega), hm₃, hm₂,
      hfr.load_eq (by omega) fun j _ _ => by omega, L.count]
  refine ⟨σ₆, ?_, H₆, hb₆, by rw [hrun₆, hrun₅, hrun₄, hrun₃, hrun₂, hrun₁, L.running],
    by rw [hm₆, hm₅, hm₄, hm₃, hm₂]⟩
  simp only [processDocument, H.base_eq, if_neg hpos.ne', hr₁, L.head, Option.some_bind,
    add64_of_lt (show B + cur < 2 ^ 64 by omega), hw₂, hr₃, hhead,
    add64_of_lt (show cur + entrySize < 2 ^ 64 by omega), hw₄, hr₅, hcount,
    add64_of_lt (show recs.length + 1 < 2 ^ 64 by omega), hw₆]

/-- An append whose record fits extends the log by it: the header words move on by one record,
and the bytes of the earlier records are left alone. -/
theorem Log.append (L : Log ps B recs σ) (r : Record) (hfit : Fits (recs ++ [r])) :
    ∃ σ', processDocument ps σ (some r) = some σ' ∧ Log ps B (recs ++ [r]) σ' := by
  obtain ⟨σ', hs, H', hb', hrun, hm⟩ := L.processDocument_spec r hfit
  have hend := L.ready.end_lt
  have hfit' := hfit
  unfold Fits at hfit'
  simp only [List.length_append, List.length_singleton, Nat.mul_add, Nat.mul_one] at hfit'
  have hE : entrySize = 264 := rfl
  have hH : headerSize = 24 := rfl
  have hX : entrySize * recs.length = 264 * recs.length := rfl
  have hfr := Mem.touches_setBytes σ.os.mem (B + (headerSize + entrySize * recs.length)) r.bytes
  refine ⟨σ', hs, H', hb', hrun, ?_, ?_, ?_, hfit, fun k r' hk i b hb => ?_⟩
  · rw [hm, Mem.load_store_of_disjoint _ _ (.inr (by omega)) (by omega) (by omega),
      Mem.load_store_of_disjoint _ _ (.inr (by omega)) (by omega) (by omega),
      hfr.load_eq (by omega) fun j _ _ => by simp; omega, L.magic]
  · rw [hm, Mem.load_store_self, List.length_append, List.length_singleton]
    exact Nat.mod_eq_of_lt (by omega)
  · rw [hm, Mem.load_store_of_disjoint _ _ (.inl (by omega)) (by omega) (by omega),
      Mem.load_store_self, Nat.mod_eq_of_lt (by omega), List.length_append, List.length_singleton,
      Nat.mul_succ, Nat.add_assoc]
  · have hi : i < entrySize := r'.length_bytes ▸ (List.getElem?_eq_some_iff.1 hb).1
    rw [hm, Mem.store_apply_of_disjoint _ _ (.inr (by omega)) (by omega),
      Mem.store_apply_of_disjoint _ _ (.inr (by omega)) (by omega)]
    rcases getElem?_concat_eq_some hk with hk | ⟨rfl, rfl⟩
    · have hle : entrySize * k + entrySize ≤ entrySize * recs.length := by
        rw [← Nat.mul_succ]; exact Nat.mul_le_mul_left _ (List.getElem?_eq_some_iff.1 hk).1
      rw [Mem.setBytes_apply_of_lt (.inl (by omega))]
      exact L.records k r' hk i b hb
    · exact Mem.setBytes_apply hb

/-- An append whose record runs past the end of the arena kills the process. -/
theorem Log.append_past_end (L : Log ps B recs σ) (r : Record) (hfit : ¬Fits (recs ++ [r])) :
    processDocument ps σ (some r) = none := by
  have H := L.ready
  have hpos := H.base_pos
  have hend := H.end_lt
  have hfits := L.fits
  have hE : entrySize = 264 := rfl
  have hH : headerSize = 24 := rfl
  unfold Fits at hfit hfits
  simp only [List.length_append, List.length_singleton, Nat.mul_add, Nat.mul_one] at hfit
  obtain ⟨σ₁, hr₁, H₁, hb₁, -, -⟩ := H.readWord L.below (a := B + 16) (by omega) (by omega)
  have hpast := H₁.writeBytes_past_end hb₁ (by omega) (by omega)
    (show B + ghostSpaceSize < B + (headerSize + entrySize * recs.length) + r.bytes.length by
      rw [Record.length_bytes]; omega)
  simp only [processDocument, H.base_eq, if_neg hpos.ne', hr₁, L.head, Option.some_bind,
    add64_of_lt (show B + (headerSize + entrySize * recs.length) < 2 ^ 64 by omega), hpast,
    Option.none_bind]

/-- A call that writes no record leaves the whole state alone; one that writes a record extends
the log while it fits and kills the process when it does not. -/
theorem Log.step (L : Log ps B recs σ) (c : Call ps) :
    (Fits (recs ++ written [c]) →
      ∃ σ', Call.step ps σ c = some σ' ∧ Log ps B (recs ++ written [c]) σ' ∧
        (written [c] = [] → σ' = σ)) ∧
    (¬Fits (recs ++ written [c]) → Call.step ps σ c = none) := by
  match c with
  | .init env =>
    simp only [written_init_cons, written_nil, List.append_nil]
    exact ⟨fun _ => ⟨σ, L.init env, L, fun _ => rfl⟩, fun h => absurd L.fits h⟩
  | .document none =>
    simp only [written_none_cons, written_nil, List.append_nil]
    exact ⟨fun _ => ⟨σ, rfl, L, fun _ => rfl⟩, fun h => absurd L.fits h⟩
  | .document (some r) =>
    refine ⟨fun h => ?_, L.append_past_end r⟩
    obtain ⟨σ', hs, L'⟩ := L.append r h
    exact ⟨σ', hs, L', fun h => by simp at h⟩

end Step

/-! ## Every sequence of calls -/

theorem written_cons (c : Call ps) (calls : List (Call ps)) :
    written (c :: calls) = written [c] ++ written calls := by
  match c with
  | .init _ | .document none | .document (some _) => rfl

/-- Over any sequence of calls the log holds the records written so far, as long as they fit;
the first record that does not fit kills the process. -/
theorem Log.runCalls {B : Nat} {recs : List Record} {σ : Sys} (L : Log ps B recs σ)
    (calls : List (Call ps)) :
    (Fits (recs ++ written calls) →
      ∃ σ', Ghost.runCalls ps σ calls = some σ' ∧ Log ps B (recs ++ written calls) σ') ∧
    (¬Fits (recs ++ written calls) → Ghost.runCalls ps σ calls = none) := by
  induction calls generalizing recs σ with
  | nil =>
    simp only [written_nil, List.append_nil]
    exact ⟨fun _ => ⟨σ, rfl, L⟩, fun h => absurd L.fits h⟩
  | cons c calls ih =>
    have hrun : ∀ σ', Call.step ps σ c = some σ' →
        Ghost.runCalls ps σ (c :: calls) = Ghost.runCalls ps σ' calls := fun σ' h => by
      simp only [Ghost.runCalls, List.foldlM_cons, h]
      rfl
    rw [written_cons, ← List.append_assoc]
    by_cases hfit : Fits (recs ++ written [c])
    · obtain ⟨σ', hs, L', -⟩ := (L.step c).1 hfit
      rw [hrun σ' hs]
      exact ih L'
    · have hnone : Ghost.runCalls ps σ (c :: calls) = none := by
        simp only [Ghost.runCalls, List.foldlM_cons, (L.step c).2 hfit]
        rfl
      exact ⟨fun h => absurd h.of_append hfit, fun _ => hnone⟩

/-- From the first `initialize()` on, over a kernel that grants `mprotect` on the arena's pages,
over any sequence of further `initialize()` calls and `ProcessDocument` calls, every state reached
is the log of the records written so far, in which a call that writes no record changes nothing;
a record that runs past the end of the arena kills the process. -/
theorem record_log {σ : Sys} (P : Placement ps) (hrun : σ.mm.running = false)
    (hg : σ.os.Grants P.base) (hb : Arena.Below P.base σ) :
    ∃ σ₀, initializeManager ps σ ⟨some P, true, true⟩ = some (σ₀, .ok ()) ∧
      ∀ calls : List (Call ps),
        (Fits (written calls) → ∃ σ', runCalls ps σ₀ calls = some σ' ∧
          Log ps P.base (written calls) σ' ∧
          ∀ c : Call ps, written [c] = [] → Call.step ps σ' c = some σ') ∧
        (¬Fits (written calls) → runCalls ps σ₀ calls = none) := by
  obtain ⟨σ₀, hinit, L₀⟩ := Log.boot P hrun hg hb
  refine ⟨σ₀, hinit, fun calls => ⟨fun hfit => ?_, (L₀.runCalls calls).2⟩⟩
  obtain ⟨σ', hσ', L'⟩ := (L₀.runCalls calls).1 hfit
  refine ⟨σ', hσ', L', fun c hc => ?_⟩
  obtain ⟨σ'', hs, -, hsame⟩ := (L'.step c).1 (by rwa [hc, List.append_nil])
  rw [hs, hsame hc]

/-- The arena at `2 ^ 40`, with pages of 4 KiB. -/
def Placement.first : Placement PageSize.four :=
  ⟨2 ^ 40, by decide, by simp [PageSize.four, PageSize.val, Nat.pow_mod], by
    rw [ghostSpaceSize_eq]; decide⟩

theorem record_log_start :
    (Sys.start (fun _ => 0) fun _ _ => true).mm.running = false ∧
      (Sys.start (fun _ => 0) fun _ _ => true).os.Grants (2 ^ 40) ∧
      Arena.Below (2 ^ 40) (Sys.start (fun _ => 0) fun _ _ => true) ∧
      ∃ σ₀, initializeManager PageSize.four (Sys.start (fun _ => 0) fun _ _ => true)
          ⟨some Placement.first, true, true⟩ = some (σ₀, .ok ()) ∧
        ∀ calls : List (Call PageSize.four),
          (Fits (written calls) → ∃ σ', runCalls PageSize.four σ₀ calls = some σ' ∧
            Log PageSize.four (2 ^ 40) (written calls) σ' ∧
            ∀ c : Call PageSize.four, written [c] = [] → Call.step PageSize.four σ' c = some σ') ∧
          (¬Fits (written calls) → runCalls PageSize.four σ₀ calls = none) :=
  ⟨rfl, fun _ _ _ _ => rfl, fun p hp => absurd hp (Finset.not_mem_empty p),
    record_log Placement.first rfl (fun _ _ _ _ => rfl)
      fun p hp => absurd hp (Finset.not_mem_empty p)⟩

/-! ## Past the end of the arena -/

/-- A record whose scale, bias and lanes are zero. -/
def Record.zero : Record := ⟨0, 0, List.replicate vectorDim 0, List.length_replicate _ _⟩

theorem written_replicate (n : Nat) (r : Record) :
    written (List.replicate n (Call.document (some r) : Call ps)) = List.replicate n r := by
  induction n with
  | zero => rfl
  | succ n ih => rw [List.replicate_succ, written_some_cons, ih, List.replicate_succ]

/-- `ProcessDocument` never compares `head_offset` with `GHOST_SPACE_SIZE`. After the first
`initialize()` and `4164816771` records, `head_offset` is `GHOST_SPACE_SIZE - 208`, so the next
record runs from offset `GHOST_SPACE_SIZE - 208` to `GHOST_SPACE_SIZE + 56`: its first `208`
bytes are written inside the arena, and its byte `208` is written at `B + GHOST_SPACE_SIZE`,
outside the reservation, where it kills the process. -/
theorem record_straddles_arena_end :
    ∃ σ₀ σ σ₁ σ₂,
      initializeManager PageSize.four (Sys.start (fun _ => 0) fun _ _ => true) ⟨some Placement.first, true, true⟩ =
        some (σ₀, .ok ()) ∧
      runCalls PageSize.four σ₀ (List.replicate 4164816771 (.document (some Record.zero))) = some σ ∧
      readWord PageSize.four σ (2 ^ 40 + 16) = some (σ₁, ghostSpaceSize - 208) ∧
      writeBytes PageSize.four σ₁ (2 ^ 40 + (ghostSpaceSize - 208)) (Record.zero.bytes.take 208) =
        some σ₂ ∧
      writeBytes PageSize.four σ₂ (2 ^ 40 + ghostSpaceSize) (Record.zero.bytes.drop 208) = none ∧
      processDocument PageSize.four σ (some Record.zero) = none := by
  obtain ⟨σ₀, hinit, L₀⟩ := Log.boot (σ := Sys.start (fun _ => 0) fun _ _ => true) Placement.first
    rfl (fun _ _ _ _ => rfl) fun p hp => absurd hp (Finset.not_mem_empty p)
  have hS : ghostSpaceSize = 2 ^ 40 := rfl
  have hB : Placement.first.base = 2 ^ 40 := rfl
  have hE : entrySize = 264 := rfl
  have hfit : Fits (written (List.replicate 4164816771 (Call.document (some Record.zero) : Call PageSize.four))) := by
    rw [written_replicate, Fits, List.length_replicate]; decide
  obtain ⟨σ, hrun, L⟩ := (L₀.runCalls _).1 (by rwa [List.nil_append])
  rw [List.nil_append, written_replicate] at L
  have hhead : σ.os.mem.load (2 ^ 40 + 16) = ghostSpaceSize - 208 := by
    rw [show 2 ^ 40 = Placement.first.base from rfl, L.head, List.length_replicate]; rfl
  have H := L.ready
  obtain ⟨σ₁, hr₁, H₁, hb₁, -, -⟩ := H.readWord L.below (a := 2 ^ 40 + 16) (by omega) (by omega)
  obtain ⟨σ₂, hw₂, H₂, hb₂, -, -⟩ := H₁.writeBytes hb₁ (by omega)
    (show 2 ^ 40 + (ghostSpaceSize - 208) + (Record.zero.bytes.take 208).length ≤ _ by simp; omega)
  refine ⟨σ₀, σ, σ₁, σ₂, hinit, hrun, hhead ▸ hr₁, hw₂,
    H₂.writeBytes_past_end hb₂ (by omega) le_rfl (by simp; omega), L.append_past_end _ ?_⟩
  rw [Fits, List.length_append, List.length_replicate, List.length_singleton]
  decide

end HyperionRuntime.Ghost
