import HyperionRuntime.Kernel.Scheduler
import Mathlib.Data.List.Rotate

/-!
# Round-robin order of `Yield`

From a state reached by `Init` and any calls, `k` consecutive `Yield` calls make current the
fibers at the `k` indices after `current_idx`, modulo `fibers.size()` (`Sys.Inv.yieldTrace`).
`yield_round_robin` reads the scheduling order off it: `n` consecutive calls make each fiber
current exactly once, and a fiber spawned in between comes after those at the indices from
`current_idx` to the end of `fibers`.
-/

namespace HyperionRuntime.Kernel

/-- The fiber each of the `Yield` calls made on the stack pointers `sps` makes current, in order,
or `none` if one of them fails. -/
def Sys.yieldTrace (arch : Arch) : Sys → List RunningSp → Option (List (Option Nat))
  | _, [] => some []
  | σ, sp :: sps => (σ.step arch (.yield sp)).bind fun σ' =>
    (σ'.yieldTrace arch sps).map (σ'.sched.currentFiber :: ·)

variable {σ : Sys}

theorem Sys.Inv.getElem?_fibers (H : σ.Inv) (i : Nat) :
    σ.sched.fibers[i % σ.sched.fibers.length]? = some (i % σ.sched.fibers.length) := by
  rw [H.fibers_eq, List.length_range]
  exact List.getElem?_range (Nat.mod_lt _ (Nat.lt_of_le_of_lt (Nat.zero_le _) H.idx_lt))

/-- `k` consecutive `Yield` calls make current the fibers at indices `current_idx + 1`, ...,
`current_idx + k`, modulo the fiber count. -/
theorem Sys.Inv.yieldTrace (H : σ.Inv) (arch : Arch) (sps : List RunningSp) :
    σ.yieldTrace arch sps = some ((List.range sps.length).map fun j =>
      σ.sched.fibers[(σ.sched.currentIdx + (j + 1)) % σ.sched.fibers.length]?) := by
  induction sps generalizing σ with
  | nil => rfl
  | cons sp sps ih =>
    obtain ⟨σ', hstep, H', hfib, hidx, -⟩ := H.yield arch sp
    rw [Sys.yieldTrace, hstep, Option.some_bind, ih H', Option.map_some', List.length_cons,
      List.range_succ_eq_map, List.map_cons, List.map_map, H'.current_eq, hidx, hfib,
      ← H.getElem?_fibers, Nat.add_zero]
    congr 3
    funext j
    rw [Function.comp_apply, Nat.mod_add_mod, Nat.add_assoc, Nat.add_comm 1 (j + 1)]

/-- The indices after `c`, modulo `n`, visit each index below `n` once. -/
theorem map_range_mod_perm (c n : Nat) :
    List.Perm ((List.range n).map fun j => (c + (j + 1)) % n) (List.range n) := by
  have h : ((List.range n).map fun j => (c + (j + 1)) % n) = (List.range n).rotate (c + 1) := by
    refine List.ext_getElem (by simp) fun j h₁ h₂ => ?_
    simp only [List.getElem_map, List.getElem_rotate, List.getElem_range, List.length_range]
    congr 1; omega
  rw [h]
  exact List.rotate_perm _ _

/-- From every state reached by `Init` and any calls, with `n` fibers and current index `i`:
`k` consecutive `Yield` calls make `fibers[(i + 1) mod n]`, ..., `fibers[(i + k) mod n]` current,
in that order. With one fiber a `Yield` changes nothing; with more, it selects another fiber and
switches to it, saving the stack pointer in the outgoing one. `n` consecutive calls make each
fiber current exactly once. A fiber spawned now is made current by the `(n - i)`-th `Yield`
after the call, the calls before it making current the fibers at indices `i + 1` to `n - 1`. -/
theorem yield_round_robin (arch : Arch) (acts : List Action) (σ : Sys)
    (hσ : Sys.boot.run arch acts = some σ) (sps : List RunningSp) :
    σ.yieldTrace arch sps = some ((List.range sps.length).map fun j =>
      σ.sched.fibers[(σ.sched.currentIdx + (j + 1)) % σ.sched.fibers.length]?) ∧
    (∀ sp, σ.sched.fibers.length = 1 → σ.step arch (.yield sp) = some σ) ∧
    (∀ sp, σ.sched.fibers.length ≠ 1 → ∃ σ', σ.step arch (.yield sp) = some σ' ∧
      σ'.sched.currentFiber ≠ σ.sched.currentFiber ∧
      (σ'.sched.objects[σ.sched.currentIdx]?).map Fiber.stackPtr = some sp.val) ∧
    (sps.length = σ.sched.fibers.length →
      ∃ l, σ.yieldTrace arch sps = some l ∧ List.Perm l (σ.sched.fibers.map some)) ∧
    (∀ name m, σ.sched.fibers.length - σ.sched.currentIdx ≤ sps.length →
      ∃ σ₁ l, σ.step arch (.spawn name m) = some σ₁ ∧ σ₁.yieldTrace arch sps = some l ∧
        l.take (σ.sched.fibers.length - σ.sched.currentIdx - 1) =
          (List.range (σ.sched.fibers.length - σ.sched.currentIdx - 1)).map
            (fun j => σ.sched.fibers[σ.sched.currentIdx + 1 + j]?) ∧
        l[σ.sched.fibers.length - σ.sched.currentIdx - 1]? =
          some σ₁.sched.fibers[σ.sched.fibers.length]?) := by
  obtain ⟨σ', hrun, H⟩ := Sys.Inv.boot.run arch acts
  obtain rfl : σ = σ' := Option.some_inj.1 (hσ.symm.trans hrun)
  have hlen : σ.sched.fibers.length = σ.sched.objects.length := by
    rw [H.fibers_eq, List.length_range]
  have hidx := H.idx_lt
  refine ⟨H.yieldTrace arch sps, fun sp h1 => ?_, fun sp h1 => ?_, fun hk => ?_,
    fun name m hk => ?_⟩
  · obtain ⟨σ', h, -, -, -, hsame, -⟩ := H.yield arch sp
    rw [h, hsame h1]
  · obtain ⟨σ', h, H', -, hi, -, hsw⟩ := H.yield arch sp
    refine ⟨σ', h, ?_, (hsw h1).2⟩
    rw [H'.current_eq, H.current_eq, hi, Ne, Option.some_inj, succ_mod_eq_self_iff (by omega)]
    exact h1
  · refine ⟨_, H.yieldTrace arch sps, ?_⟩
    have hmap : ∀ j, σ.sched.fibers[(σ.sched.currentIdx + (j + 1)) % σ.sched.fibers.length]? =
        some ((σ.sched.currentIdx + (j + 1)) % σ.sched.fibers.length) := fun j =>
      H.getElem?_fibers _
    simp only [hmap, hk]
    convert (map_range_mod_perm σ.sched.currentIdx σ.sched.fibers.length).map some using 1
    · rw [List.map_map]; rfl
    · rw [hlen]; congr 1; exact H.fibers_eq
  · have H₁ := H.spawn arch name m
    have hf₁ : (σ.sched.spawn arch name m).fibers = σ.sched.fibers ++ [σ.sched.objects.length] := rfl
    have hn₁ : (σ.sched.spawn arch name m).fibers.length = σ.sched.fibers.length + 1 := by
      rw [hf₁, List.length_append, List.length_singleton]
    refine ⟨_, _, rfl, H₁.yieldTrace arch sps, ?_, ?_⟩
    · rw [← List.map_take, List.take_range, Nat.min_eq_left (by omega)]
      refine List.map_congr_left fun j hj => ?_
      have hj := List.mem_range.1 hj
      show (σ.sched.spawn arch name m).fibers[(σ.sched.currentIdx + (j + 1)) %
        (σ.sched.spawn arch name m).fibers.length]? = _
      rw [hn₁, Nat.mod_eq_of_lt (by omega), hf₁, List.getElem?_append_left (by omega),
        Nat.add_assoc, Nat.add_comm 1 j]
    · rw [List.getElem?_map, List.getElem?_range (by omega), Option.map_some']
      congr 1
      show (σ.sched.spawn arch name m).fibers[(σ.sched.currentIdx + (_ + 1)) %
        (σ.sched.spawn arch name m).fibers.length]? = _
      rw [hn₁, show σ.sched.currentIdx + (σ.sched.fibers.length - σ.sched.currentIdx - 1 + 1) =
        σ.sched.fibers.length by omega, Nat.mod_eq_of_lt (Nat.lt_succ_self _)]

/-- Two `Spawn` calls and two `Yield` calls after `Init` leave three fibers, with fiber `2`
current. Three more `Yield` calls then make fibers `0`, `1` and `2` current in turn; a `Yield`
there switches away from fiber `2` and saves its stack pointer; and a fiber spawned there is the
first that three `Yield` calls make current. -/
theorem yield_round_robin_example :
    ∃ σ, Sys.boot.run .x86_64 [.spawn "A" ⟨0x10000, by decide, by decide⟩,
        .spawn "B" ⟨0x200000, by decide, by decide⟩, .yield ⟨0x7000, by decide⟩,
        .yield ⟨0x10ff00, by decide⟩] = some σ ∧
      σ.sched.fibers = [0, 1, 2] ∧ σ.sched.currentIdx = 2 ∧
      σ.yieldTrace .x86_64 [⟨0x2ff000, by decide⟩, ⟨0x8000, by decide⟩, ⟨0x10fe00, by decide⟩] =
        some [some 0, some 1, some 2] ∧
      (∃ σ', σ.step .x86_64 (.yield ⟨0x2ff000, by decide⟩) = some σ' ∧
        σ'.sched.currentFiber ≠ σ.sched.currentFiber ∧
        (σ'.sched.objects[2]?).map Fiber.stackPtr = some 0x2ff000) ∧
      ∃ σ₁ l, σ.step .x86_64 (.spawn "C" ⟨0x400000, by decide, by decide⟩) = some σ₁ ∧
        σ₁.yieldTrace .x86_64 [⟨0x2ff000, by decide⟩, ⟨0x8000, by decide⟩, ⟨0x10fe00, by decide⟩] =
          some l ∧ l[0]? = some (some 3) := by
  have hrun : (Sys.boot.run .x86_64 [.spawn "A" ⟨0x10000, by decide, by decide⟩,
      .spawn "B" ⟨0x200000, by decide, by decide⟩, .yield ⟨0x7000, by decide⟩,
      .yield ⟨0x10ff00, by decide⟩]).map (fun σ => (σ.sched.fibers, σ.sched.currentIdx,
        σ.sched.objects.length)) = some ([0, 1, 2], 2, 3) := by decide
  obtain ⟨σ, hσ, hf⟩ := Option.map_eq_some'.1 hrun
  simp only [Prod.mk.injEq] at hf
  obtain ⟨hfib, hidx, hobj⟩ := hf
  obtain ⟨htrace, -, hswitch, -, hspawn⟩ := yield_round_robin .x86_64 _ σ hσ
    [⟨0x2ff000, by decide⟩, ⟨0x8000, by decide⟩, ⟨0x10fe00, by decide⟩]
  refine ⟨σ, hσ, hfib, hidx, by rw [htrace, hfib, hidx]; rfl, ?_, ?_⟩
  · obtain ⟨σ', h, hne, hsp⟩ := hswitch ⟨0x2ff000, by decide⟩ (by rw [hfib]; decide)
    exact ⟨σ', h, hne, hidx ▸ hsp⟩
  · obtain ⟨σ₁, l, h₁, hl, -, hl0⟩ := hspawn "C" ⟨0x400000, by decide, by decide⟩
      (by rw [hfib, hidx]; decide)
    cases h₁
    refine ⟨_, l, rfl, hl, ?_⟩
    rw [hfib, hidx] at hl0
    simpa [Scheduler.spawn, hfib, hobj] using hl0

end HyperionRuntime.Kernel
