import HyperionRuntime.Machine.Memory
import Mathlib.Data.List.Nodup

/-!
# The branch optimizer

`JITOptimizer` counts the outcomes of monitored branches and patches a branch to `NOP` once it
was not taken more than `10000` times and never taken. `_watched_branches` is modelled by its
content, a function from addresses to `Option BranchStats`; the counters are `uint64_t`, so
they wrap. The list of addresses `optimize_hot_path` was called on is kept as a ghost field.

The statistics of an address depend only on the outcomes recorded for it since it was first
monitored (`run_watchedBranches`): every call on another address, and every later
`monitor_branch`, leaves them alone. Over those outcomes `BranchStats.record` is the whole
story; while fewer than `2 ^ 64` taken outcomes are recorded it computes `expected`, which
patches an address at its `10001`-st outcome exactly when all of them were not taken
(`hot_path_patched_once`). After `2 ^ 64` taken outcomes `taken_count` is back at `0`, and the
address is patched anyway (`taken_count_wraps`).
-/

namespace HyperionRuntime.Jit

/-- `THRESHOLD`. -/
def threshold : Nat := 10000

/-- `ARM64_NOP`. -/
def arm64Nop : UInt32 := 0xD503201F

/-- `BranchStats`, with `uint64_t` counters. -/
structure BranchStats where
  takenCount : Nat
  notTakenCount : Nat
  isOptimized : Bool
deriving DecidableEq, Repr

/-- `BranchStats{}`. -/
def BranchStats.empty : BranchStats := ⟨0, 0, false⟩

/-- `if (taken) stats.taken_count++; else stats.not_taken_count++;` -/
def BranchStats.tally (stats : BranchStats) (taken : Bool) : BranchStats :=
  if taken then { stats with takenCount := add64 stats.takenCount 1 }
  else { stats with notTakenCount := add64 stats.notTakenCount 1 }

/-- `stats.not_taken_count > THRESHOLD && stats.taken_count == 0`. -/
def BranchStats.hot (stats : BranchStats) : Bool :=
  decide (stats.notTakenCount > threshold) && stats.takenCount == 0

/-- The optimizer: `_watched_branches`, the code it patches, and (ghost) the addresses
`optimize_hot_path` was called on, in order. -/
structure JITOptimizer where
  watchedBranches : Nat → Option BranchStats
  code : Mem
  patched : List Nat

/-- `JITOptimizer()`, over the code `code`. -/
def JITOptimizer.init (code : Mem) : JITOptimizer := ⟨fun _ => none, code, []⟩

/-- `monitor_branch(instruction_addr)`. -/
def monitorBranch (j : JITOptimizer) (instructionAddr : Nat) : JITOptimizer :=
  match j.watchedBranches instructionAddr with
  | some _ => j
  | none =>
    { j with watchedBranches := (Function.update j.watchedBranches instructionAddr (some .empty)) }

/-- `patch_instruction(address, new_opcode)`: a 32-bit store into the code. -/
def patchInstruction (j : JITOptimizer) (address : Nat) (newOpcode : UInt32) : JITOptimizer :=
  { j with code := j.code.storeLE address 4 newOpcode.toNat }

/-- `optimize_hot_path(address)`. -/
def optimizeHotPath (j : JITOptimizer) (address : Nat) : JITOptimizer :=
  patchInstruction { j with patched := j.patched ++ [address] } address arm64Nop

/-- `record_branch_outcome(instruction_addr, taken)`. -/
def recordBranchOutcome (j : JITOptimizer) (instructionAddr : Nat) (taken : Bool) :
    JITOptimizer :=
  match j.watchedBranches instructionAddr with
  | none => j
  | some stats =>
    if stats.isOptimized then j else
    let stats := stats.tally taken
    if stats.hot then
      optimizeHotPath { j with watchedBranches := (Function.update j.watchedBranches
        instructionAddr (some { stats with isOptimized := true })) } instructionAddr
    else { j with watchedBranches := Function.update j.watchedBranches instructionAddr (some stats) }

/-- A call of the optimizer's interface. -/
inductive Call where
  | monitorBranch (addr : Nat)
  | recordBranchOutcome (addr : Nat) (taken : Bool)
deriving DecidableEq, Repr

def Call.step (j : JITOptimizer) : Call → JITOptimizer
  | .monitorBranch a => Jit.monitorBranch j a
  | .recordBranchOutcome a taken => Jit.recordBranchOutcome j a taken

/-- The calls one after the other, from a fresh optimizer. -/
def run (code : Mem) (calls : List Call) : JITOptimizer := calls.foldl Call.step (.init code)

theorem run_concat (code : Mem) (calls : List Call) (c : Call) :
    run code (calls ++ [c]) = c.step (run code calls) := by
  simp only [run, List.foldl_append, List.foldl_cons, List.foldl_nil]

/-! ## One address -/

/-- What `record_branch_outcome` does to the statistics of its address, and whether it calls
`optimize_hot_path`. -/
def BranchStats.record (stats : BranchStats) (taken : Bool) : BranchStats × Bool :=
  if stats.isOptimized then (stats, false) else
  if (stats.tally taken).hot then ({ stats.tally taken with isOptimized := true }, true)
  else (stats.tally taken, false)

/-- The statistics after the outcomes `os`, from `BranchStats{}`. -/
def replay (os : List Bool) : BranchStats := os.foldl (fun s t => (s.record t).1) .empty

section Record
variable {s : BranchStats} {t : Bool}

@[simp] theorem BranchStats.tally_true : s.tally true = { s with takenCount := add64 s.takenCount 1 } :=
  rfl

@[simp] theorem BranchStats.tally_false :
    s.tally false = { s with notTakenCount := add64 s.notTakenCount 1 } := rfl

@[simp] theorem BranchStats.tally_isOptimized : (s.tally t).isOptimized = s.isOptimized := by
  cases t <;> rfl

theorem BranchStats.record_of_hot (ho : s.isOptimized = false) (h : (s.tally t).hot = true) :
    s.record t = ({ s.tally t with isOptimized := true }, true) := by
  simp only [BranchStats.record, ho, h, if_true, Bool.false_eq_true, if_false]

theorem BranchStats.record_of_not_hot (ho : s.isOptimized = false) (h : (s.tally t).hot = false) :
    s.record t = (s.tally t, false) := by
  simp only [BranchStats.record, ho, h, Bool.false_eq_true, if_false]

/-- An update sets `is_optimized` exactly when it calls `optimize_hot_path`, and then only on
statistics that were not optimized. -/
theorem BranchStats.record_isOptimized :
    (s.record t).1.isOptimized = (s.isOptimized || (s.record t).2) := by
  cases ho : s.isOptimized
  · cases h : (s.tally t).hot
    · rw [BranchStats.record_of_not_hot ho h, BranchStats.tally_isOptimized, ho]; rfl
    · rw [BranchStats.record_of_hot ho h]; rfl
  · simp only [BranchStats.record, ho, if_true, Bool.true_or]

theorem BranchStats.not_isOptimized_of_record (h : (s.record t).2 = true) : s.isOptimized = false := by
  cases ho : s.isOptimized
  · rfl
  · simp [BranchStats.record, ho] at h

end Record

/-- What the statistics of an address should be after the outcomes `os` recorded since
it was first monitored: patched, with `10001` not-taken outcomes, once its first `10001`
outcomes were all not taken, and the counts of `os` before. -/
def expected (os : List Bool) : BranchStats :=
  if List.replicate (threshold + 1) false <+: os then ⟨0, threshold + 1, true⟩
  else ⟨os.count true, os.count false % 2 ^ 64, false⟩

section Expected
variable {os : List Bool} {t : Bool}

theorem replicate_prefix_concat (h : ¬List.replicate (threshold + 1) false <+: os) :
    List.replicate (threshold + 1) false <+: os ++ [t] ↔
      t = false ∧ os = List.replicate threshold false := by
  rw [List.prefix_concat_iff, or_iff_left h, List.replicate_succ']
  constructor
  · intro heq
    obtain ⟨h₁, h₂⟩ := List.append_inj' heq rfl
    exact ⟨(List.singleton_inj.1 h₂).symm, h₁.symm⟩
  · rintro ⟨rfl, rfl⟩
    rfl

theorem not_replicate_prefix_of_length (h : os.length ≤ threshold) :
    ¬List.replicate (threshold + 1) false <+: os := fun hp => by
  have := hp.length_le
  simp only [List.length_replicate] at this
  omega

/-- A list with no `true` is all `false`. -/
theorem eq_replicate_of_count_true (h : os.count true = 0) : os = List.replicate os.length false :=
  List.eq_replicate_iff.2 ⟨rfl, fun b hb => by
    cases b
    · rfl
    · exact absurd hb (List.count_eq_zero.1 h)⟩

/-- Before its patch, an address with no taken outcome has at most `10000` not-taken ones. -/
theorem length_le_of_not_prefix (h : ¬List.replicate (threshold + 1) false <+: os)
    (h₀ : os.count true = 0) : os.length ≤ threshold := by
  by_contra hlt
  refine h ⟨List.replicate (os.length - (threshold + 1)) false, ?_⟩
  rw [← List.replicate_add, Nat.add_sub_cancel' (by omega)]
  exact (eq_replicate_of_count_true h₀).symm

theorem count_false_of_count_true (h₀ : os.count true = 0) : os.count false = os.length := by
  conv_rhs => rw [eq_replicate_of_count_true h₀]
  rw [List.length_replicate]
  nth_rewrite 1 [eq_replicate_of_count_true h₀]
  exact List.count_replicate_self _ _

theorem expected_isOptimized (os : List Bool) :
    (expected os).isOptimized = decide (List.replicate (threshold + 1) false <+: os) := by
  unfold expected
  split <;> simp [*]

/-- Before its patch, a not-taken outcome makes an address hot only after exactly `10000`
not-taken outcomes and no taken one. -/
theorem hot_tally_false (hP : ¬List.replicate (threshold + 1) false <+: os)
    (hz : os ≠ List.replicate threshold false) :
    (BranchStats.tally ⟨os.count true, os.count false % 2 ^ 64, false⟩ false).hot = false := by
  simp only [BranchStats.tally_false, BranchStats.hot, add64, Bool.and_eq_false_iff,
    decide_eq_false_iff_not, beq_eq_false_iff_ne, not_lt]
  by_cases h₀ : os.count true = 0
  · have hle := length_le_of_not_prefix hP h₀
    have hne : os.length ≠ threshold := fun he =>
      hz ((eq_replicate_of_count_true h₀).trans (by rw [he]))
    rw [count_false_of_count_true h₀]
    unfold threshold at *
    omega
  · exact .inr h₀

/-- One more outcome, while fewer than `2 ^ 64` taken outcomes are recorded: the code's update
computes `expected`. -/
theorem expected_concat (h : (os ++ [t]).count true < 2 ^ 64) :
    expected (os ++ [t]) = ((expected os).record t).1 := by
  by_cases hP : List.replicate (threshold + 1) false <+: os
  · rw [expected, if_pos (hP.trans (List.prefix_append _ _)), expected, if_pos hP]
    rfl
  · rw [show expected os = ⟨os.count true, os.count false % 2 ^ 64, false⟩ from if_neg hP]
    cases t with
    | true =>
      have hct : os.count true + 1 < 2 ^ 64 := by simpa using h
      rw [BranchStats.record_of_not_hot rfl (by simp [BranchStats.hot, BranchStats.tally,
        add64_of_lt hct]), expected, if_neg (by simp [replicate_prefix_concat hP])]
      simp [BranchStats.tally, add64_of_lt hct]
    | false =>
      by_cases hz : os = List.replicate threshold false
      · subst hz
        have h₀ : (List.replicate threshold false).count true = 0 := by simp [List.count_replicate]
        rw [h₀, List.count_replicate_self, BranchStats.record_of_hot rfl
          (by simp [BranchStats.hot, BranchStats.tally, add64, threshold]), expected,
          if_pos ((replicate_prefix_concat hP).2 ⟨rfl, rfl⟩)]
        simp [BranchStats.tally, add64, threshold]
      · rw [BranchStats.record_of_not_hot rfl (hot_tally_false hP hz), expected,
          if_neg (fun h => hz ((replicate_prefix_concat hP).1 h).2)]
        simp [BranchStats.tally, add64]

/-- While fewer than `2 ^ 64` taken outcomes are recorded, the code's statistics are
`expected`. -/
theorem replay_eq_expected (h : os.count true < 2 ^ 64) : replay os = expected os := by
  induction os using List.reverseRecOn with
  | nil => rfl
  | append_singleton os t ih =>
    have hle := (List.prefix_append os [t]).count_le true
    rw [replay, List.foldl_append, ← replay, ih (by omega), expected_concat h]
    rfl

/-- The update calls `optimize_hot_path` exactly at a not-taken outcome that follows, since the
address was first monitored, `10000` not-taken outcomes and no taken one. -/
theorem record_expected_patches (h : (os ++ [t]).count true < 2 ^ 64) :
    ((expected os).record t).2 = true ↔ t = false ∧ os = List.replicate threshold false := by
  have hopt := (expected os).record_isOptimized (t := t)
  rw [← expected_concat h, expected_isOptimized, expected_isOptimized] at hopt
  by_cases hP : List.replicate (threshold + 1) false <+: os
  · have hn := (expected os).not_isOptimized_of_record (t := t)
    rw [expected_isOptimized, decide_eq_false_iff_not] at hn
    refine ⟨fun hr => absurd hP (hn hr), fun ⟨_, hz⟩ => ?_⟩
    exact absurd hP (not_replicate_prefix_of_length (by rw [hz, List.length_replicate]))
  · rw [← replicate_prefix_concat hP]
    simp only [decide_eq_false hP, Bool.false_or] at hopt
    rw [← hopt, decide_eq_true_iff]

end Expected

/-! ## Every run -/

/-- What one call does to the outcomes recorded for `a` since it was first monitored (`none`
before that). -/
def Call.outcomes (a : Nat) (os : Option (List Bool)) : Call → Option (List Bool)
  | .monitorBranch b => if b = a then some (os.getD []) else os
  | .recordBranchOutcome b taken => if b = a then os.map (· ++ [taken]) else os

/-- The outcomes recorded for `a` since it was first monitored. -/
def outcomes (a : Nat) (calls : List Call) : Option (List Bool) := calls.foldl (Call.outcomes a) none

theorem outcomes_concat (a : Nat) (calls : List Call) (c : Call) :
    outcomes a (calls ++ [c]) = Call.outcomes a (outcomes a calls) c := by
  simp only [outcomes, List.foldl_append, List.foldl_cons, List.foldl_nil]

theorem outcomes_replicate (a n : Nat) (t : Bool) (os : List Bool) :
    (List.replicate n (Call.recordBranchOutcome a t)).foldl (Call.outcomes a) (some os) =
      some (os ++ List.replicate n t) := by
  induction n generalizing os with
  | zero => simp
  | succ n ih =>
    rw [List.replicate_succ, List.foldl_cons, Call.outcomes, if_pos rfl, Option.map_some', ih,
      List.append_assoc, List.singleton_append, List.replicate_succ]

section Steps
variable {j : JITOptimizer} {a b : Nat}

theorem monitorBranch_watchedBranches :
    (monitorBranch j b).watchedBranches =
      Function.update j.watchedBranches b (some ((j.watchedBranches b).getD .empty)) := by
  unfold monitorBranch
  split
  · next s hs => rw [hs, Option.getD_some, ← hs, Function.update_eq_self]
  · next hs => rw [hs]; rfl

theorem recordBranchOutcome_watchedBranches (t : Bool) :
    (recordBranchOutcome j b t).watchedBranches = match j.watchedBranches b with
      | none => j.watchedBranches
      | some s => Function.update j.watchedBranches b (some (s.record t).1) := by
  unfold recordBranchOutcome BranchStats.record
  split
  · rfl
  · next s hs =>
    by_cases ho : s.isOptimized
    · simp only [if_pos ho, ← hs, Function.update_eq_self]
    · simp only [if_neg ho]
      split <;> rfl

theorem recordBranchOutcome_patched (t : Bool) :
    (recordBranchOutcome j b t).patched = j.patched ++ match j.watchedBranches b with
      | none => []
      | some s => if (s.record t).2 then [b] else [] := by
  unfold recordBranchOutcome BranchStats.record
  split
  · rw [List.append_nil]
  · next s hs =>
    by_cases ho : s.isOptimized
    · simp only [if_pos ho, if_false, Bool.false_eq_true, List.append_nil]
    · simp only [if_neg ho]
      split <;> simp [optimizeHotPath, patchInstruction]

theorem Call.step_watchedBranches {o : Option (List Bool)} (c : Call)
    (h : j.watchedBranches a = o.map replay) :
    (c.step j).watchedBranches a = (Call.outcomes a o c).map replay := by
  cases c with
  | monitorBranch b =>
    rw [Call.step, monitorBranch_watchedBranches, Function.update_apply, Call.outcomes]
    by_cases hb : a = b
    · subst hb
      rw [if_pos rfl, if_pos rfl, h]
      cases o <;> rfl
    · rw [if_neg hb, if_neg (Ne.symm hb), h]
  | recordBranchOutcome b t =>
    rw [Call.step, recordBranchOutcome_watchedBranches, Call.outcomes]
    by_cases hb : a = b
    · subst hb
      rw [if_pos rfl, h]
      cases o with
      | none => exact h
      | some os =>
        simp only [Option.map_some', Function.update_same, replay, List.foldl_append,
          List.foldl_cons, List.foldl_nil]
    · rw [if_neg (Ne.symm hb)]
      split <;> simp only [Function.update_apply, if_neg hb, h]

/-- The statistics of an address after any run are those its own outcomes since its first
monitoring give. -/
theorem run_watchedBranches (code : Mem) (calls : List Call) (a : Nat) :
    (run code calls).watchedBranches a = (outcomes a calls).map replay := by
  induction calls using List.reverseRecOn with
  | nil => rfl
  | append_singleton calls c ih =>
    rw [run_concat, outcomes_concat]
    exact c.step_watchedBranches ih

theorem Call.step_patched (c : Call) : (c.step j).patched = j.patched ++ match c with
    | .monitorBranch _ => []
    | .recordBranchOutcome b t => match j.watchedBranches b with
      | none => []
      | some s => if (s.record t).2 then [b] else [] := by
  cases c with
  | monitorBranch b =>
    rw [Call.step, List.append_nil]
    unfold Jit.monitorBranch
    split <;> rfl
  | recordBranchOutcome b t => exact recordBranchOutcome_patched t

/-- `optimize_hot_path` has been called on an address once if its entry is optimized, and
never otherwise: every step keeps this. -/
theorem Call.step_count_patched (c : Call)
    (h : j.patched.count a = if (j.watchedBranches a).any (·.isOptimized) then 1 else 0) :
    (c.step j).patched.count a =
      if ((c.step j).watchedBranches a).any (·.isOptimized) then 1 else 0 := by
  rw [Call.step_patched, List.count_append, h]
  cases c with
  | monitorBranch b =>
    rw [Call.step, monitorBranch_watchedBranches, Function.update_apply]
    by_cases hb : a = b
    · subst hb
      rw [if_pos rfl]
      cases j.watchedBranches a <;> rfl
    · rw [if_neg hb]
      rfl
  | recordBranchOutcome b t =>
    rw [Call.step, recordBranchOutcome_watchedBranches]
    dsimp only
    cases hs : j.watchedBranches b with
    | none => rfl
    | some s =>
      simp only [Function.update_apply]
      by_cases hb : a = b
      · subst hb
        rw [hs, if_pos rfl, Option.any_some, Option.any_some, BranchStats.record_isOptimized]
        have hn := s.not_isOptimized_of_record (t := t)
        cases hr : (s.record t).2 <;> cases ho : s.isOptimized <;> simp_all
      · rw [if_neg hb]
        cases (s.record t).2 <;> simp [List.count_singleton, Ne.symm hb]

theorem run_count_patched (code : Mem) (calls : List Call) (a : Nat) :
    (run code calls).patched.count a =
      if ((run code calls).watchedBranches a).any (·.isOptimized) then 1 else 0 := by
  induction calls using List.reverseRecOn with
  | nil => rfl
  | append_singleton calls c ih =>
    rw [run_concat]
    exact c.step_count_patched ih

/-- The outcomes recorded for `a` hold no more taken ones than the calls. -/
theorem count_outcomes_le (a : Nat) (calls : List Call) {os : List Bool}
    (h : outcomes a calls = some os) :
    os.count true ≤ calls.count (.recordBranchOutcome a true) := by
  induction calls using List.reverseRecOn generalizing os with
  | nil => cases h
  | append_singleton calls c ih =>
    rw [outcomes_concat] at h
    rw [List.count_append]
    cases c with
    | monitorBranch b =>
      simp only [Call.outcomes] at h
      split at h
      · cases ho : outcomes a calls with
        | none => rw [ho] at h; cases h; simp
        | some os' => rw [ho] at h; cases h; exact Nat.le_add_right_of_le (ih ho)
      · exact Nat.le_add_right_of_le (ih h)
    | recordBranchOutcome b t =>
      simp only [Call.outcomes] at h
      split at h
      · next hb =>
        subst hb
        cases ho : outcomes b calls with
        | none => rw [ho] at h; cases h
        | some os' =>
          rw [ho] at h
          cases h
          have := ih ho
          cases t <;> simp [List.count_singleton] <;> omega
      · exact Nat.le_add_right_of_le (ih h)

end Steps

/-- The address a call should patch after the calls `calls`: that of a not-taken
outcome following, since the address was first monitored, `10000` not-taken outcomes and no
taken one. -/
def patchedBy (calls : List Call) : Call → List Nat
  | .recordBranchOutcome a false =>
    if outcomes a calls = some (List.replicate threshold false) then [a] else []
  | _ => []

/-- A recorded outcome on an address whose statistics are `expected` patches exactly what
`patchedBy` says. -/
theorem patchedBy_record {pre : List Call} {b : Nat} {t : Bool} {os : List Bool}
    (ho : outcomes b pre = some os) (h : (os ++ [t]).count true < 2 ^ 64) :
    (if ((expected os).record t).2 = true then [b] else []) =
      patchedBy pre (.recordBranchOutcome b t) := by
  have key := record_expected_patches h
  cases t
  · simp only [patchedBy, ho, Option.some_inj]
    exact if_congr (by simpa using key) rfl rfl
  · exact if_neg (by simpa using key)

/-- While fewer than `2 ^ 64` taken outcomes are recorded for each address: `optimize_hot_path`
is called on an address at most once; each call patches exactly what `patchedBy` says, that is
an address at the not-taken outcome that brings its not-taken count to `10001` with no taken
outcome since it was first monitored; and the statistics of every address are `expected` of its
outcomes since its first monitoring, so that a later `monitor_branch` resets nothing and a
patched address's counts stay at `(0, 10001)`. -/
theorem hot_path_patched_once (code : Mem) (calls : List Call)
    (hbound : ∀ a, calls.count (.recordBranchOutcome a true) < 2 ^ 64) :
    (run code calls).patched.Nodup ∧
    (∀ pre c, pre ++ [c] <+: calls →
      (run code (pre ++ [c])).patched = (run code pre).patched ++ patchedBy pre c) ∧
    ∀ a, (run code calls).watchedBranches a = (outcomes a calls).map expected := by
  have hexp : ∀ pre, pre <+: calls → ∀ a, (run code pre).watchedBranches a =
      (outcomes a pre).map expected := fun pre hpre a => by
    rw [run_watchedBranches]
    cases ho : outcomes a pre with
    | none => rfl
    | some os =>
      exact congrArg some (replay_eq_expected (lt_of_le_of_lt (count_outcomes_le a pre ho)
        (lt_of_le_of_lt (hpre.count_le _) (hbound a))))
  refine ⟨List.nodup_iff_count_le_one.2 fun a => ?_, fun pre c hpre => ?_,
    hexp calls (List.prefix_refl _)⟩
  · rw [run_count_patched]; split <;> omega
  · rw [run_concat, Call.step_patched]
    congr 1
    cases c with
    | monitorBranch b => rfl
    | recordBranchOutcome b t =>
      dsimp only
      rw [hexp pre ((List.prefix_append _ _).trans hpre) b]
      cases ho : outcomes b pre with
      | none => cases t <;> simp [patchedBy, ho]
      | some os =>
        exact patchedBy_record ho (lt_of_le_of_lt (count_outcomes_le b (pre ++ [.recordBranchOutcome b t])
          (by rw [outcomes_concat, ho]; simp [Call.outcomes]))
          (lt_of_le_of_lt (hpre.count_le _) (hbound b)))

/-- Monitoring address `0` and recording `10001` not-taken outcomes for it patches the branch
once, at the last call. -/
theorem hot_path_patched_once_hot_branch :
    0 ∈ (run (fun _ => 0)
      (.monitorBranch 0 :: List.replicate (threshold + 1) (.recordBranchOutcome 0 false))).patched ∧
    (run (fun _ => 0)
      (.monitorBranch 0 :: List.replicate (threshold + 1) (.recordBranchOutcome 0 false))).patched.Nodup ∧
    (∀ pre c, pre ++ [c] <+: .monitorBranch 0 :: List.replicate (threshold + 1) (.recordBranchOutcome 0 false) →
      (run (fun _ => 0) (pre ++ [c])).patched = (run (fun _ => 0) pre).patched ++ patchedBy pre c) ∧
    ∀ a, (run (fun _ => 0)
        (.monitorBranch 0 :: List.replicate (threshold + 1) (.recordBranchOutcome 0 false))).watchedBranches a =
      (outcomes a (.monitorBranch 0 :: List.replicate (threshold + 1) (.recordBranchOutcome 0 false))).map
        expected := by
  have hbound : ∀ a, (Call.monitorBranch 0 :: List.replicate (threshold + 1)
      (.recordBranchOutcome 0 false)).count (.recordBranchOutcome a true) < 2 ^ 64 := fun a => by
    simp [List.count_replicate]
  have h := hot_path_patched_once (fun _ => 0) _ hbound
  have ho : outcomes 0 (.monitorBranch 0 :: List.replicate (threshold + 1) (.recordBranchOutcome 0 false)) =
      some (List.replicate (threshold + 1) false) := by
    rw [outcomes, List.foldl_cons, show Call.outcomes 0 none (.monitorBranch 0) = some [] from rfl,
      outcomes_replicate, List.nil_append]
  refine ⟨List.count_pos_iff.1 ?_, h⟩
  rw [run_count_patched, h.2.2 0, ho, Option.map_some', expected, if_pos (List.prefix_refl _)]
  decide

/-! ## The counter wraps -/

/-- Taken outcomes only count, modulo `2 ^ 64`, while no not-taken one is recorded. -/
theorem foldl_record_replicate_true (n m : Nat) (hm : m < 2 ^ 64) :
    (List.replicate n true).foldl (fun (s : BranchStats) t => (s.record t).1) ⟨m, 0, false⟩ =
      ⟨(m + n) % 2 ^ 64, 0, false⟩ := by
  induction n generalizing m with
  | zero => rw [List.replicate_zero, List.foldl_nil, Nat.add_zero, Nat.mod_eq_of_lt hm]
  | succ n ih =>
    rw [List.replicate_succ, List.foldl_cons, BranchStats.record_of_not_hot rfl
      (by simp [BranchStats.hot, threshold]), BranchStats.tally_true]
    simp only [add64]
    rw [ih _ (Nat.mod_lt _ (by decide))]
    congr 1
    omega

/-- After `2 ^ 64` taken outcomes `taken_count` is `0` again, and `10001` not-taken outcomes
then patch the branch: address `0` is patched although `2 ^ 64` taken outcomes were recorded for
it since it was monitored. -/
theorem taken_count_wraps :
    outcomes 0 (.monitorBranch 0 :: (List.replicate (2 ^ 64) (.recordBranchOutcome 0 true) ++
        List.replicate (threshold + 1) (.recordBranchOutcome 0 false))) =
      some (List.replicate (2 ^ 64) true ++ List.replicate (threshold + 1) false) ∧
    0 ∈ (run (fun _ => 0) (.monitorBranch 0 :: (List.replicate (2 ^ 64) (.recordBranchOutcome 0 true) ++
        List.replicate (threshold + 1) (.recordBranchOutcome 0 false)))).patched := by
  have ho : outcomes 0 (.monitorBranch 0 :: (List.replicate (2 ^ 64) (.recordBranchOutcome 0 true) ++
      List.replicate (threshold + 1) (.recordBranchOutcome 0 false))) =
      some (List.replicate (2 ^ 64) true ++ List.replicate (threshold + 1) false) := by
    rw [outcomes, List.foldl_cons, List.foldl_append,
      show Call.outcomes 0 none (.monitorBranch 0) = some [] from rfl, outcomes_replicate,
      outcomes_replicate, List.nil_append]
  have hreplay : replay (List.replicate (2 ^ 64) true ++ List.replicate (threshold + 1) false) =
      ⟨0, threshold + 1, true⟩ := by
    rw [replay, List.foldl_append, show BranchStats.empty = ⟨0, 0, false⟩ from rfl,
      foldl_record_replicate_true (2 ^ 64) 0 (by decide), Nat.zero_add, Nat.mod_self, ← BranchStats.empty,
      ← replay, replay_eq_expected (by simp [List.count_replicate]), expected,
      if_pos (List.prefix_refl _)]
  refine ⟨ho, List.count_pos_iff.1 ?_⟩
  rw [run_count_patched, run_watchedBranches, ho, Option.map_some', hreplay]
  decide

end HyperionRuntime.Jit
