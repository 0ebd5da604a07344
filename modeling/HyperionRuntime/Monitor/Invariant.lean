import HyperionRuntime.Monitor.Render

/-!
# The monitor's own state over a run

Besides the frame, `SystemMonitor` keeps state from one frame to the next: the ghost heat map,
the flash timer, the spinner's index and the static `scroll_offset` of `draw_jit_stream`. The
code indexes with them without a check:
- the ping of `draw_ghost_map` writes `m_ghost_heat_map[fast_rand() % m_ghost_heat_map.size()]`,
  a division by zero on an empty map;
- `render()` reads `spinner[m_spinner_idx]`;
- `draw_jit_stream` reads `dummy_asm[(scroll_offset / 10 + i) % 11]`, outside the array for a
  negative `scroll_offset`.

`SystemMonitor.Inv n` says they are in range after `n` frames. The heat map has the `1024`
entries `initialize()` gives it, each a heat level from `0` to `5`. The flash timer lies between
`0` and the `12` of `trigger_input_flash()`, the spinner's index is below `4`, and the 32-bit
scroll offset is `n` modulo `2 ^ 32`. `initialize()` sets it up (`Inv.init`) and every call keeps
it, a frame counting one more (`Inv.call`), so it holds over the UI fiber's whole run
(`ui_inv`). The scroll offset is then not negative as long as fewer than `2 ^ 31` frames are
drawn; at the `2 ^ 31`-th it wraps to `-2 ^ 31` (`scrollOffset_wraps`).

Most drawing changes only the back buffer and the generator's seed (`Paints`), which `Inv`
does not read; the lemmas below follow the calls of `render()` in the chaining form of
`Redraws`.
-/

namespace HyperionRuntime.Monitor
open Core (Bytes ascii)

/-- Whether a call is a frame of the UI fiber. -/
def UiCall.isRender : UiCall → Bool
  | .render _ _ => true
  | _ => false

/-- The number of frames among the calls. -/
def frames (cs : List UiCall) : Nat := cs.countP UiCall.isRender

theorem frames_append (a b : List UiCall) : frames (a ++ b) = frames a + frames b :=
  List.countP_append _ _ _

theorem frames_replicate_render (k : Nat) (mm : Ghost.MemoryManager) (sched : Kernel.Scheduler) :
    frames (List.replicate k (.render mm sched)) = k := by
  rw [frames, List.countP_replicate]; rfl

/-- A 32-bit value below `2 ^ 31` reads back as itself. -/
theorem toInt_ofNat_of_lt {k : Nat} (hk : k < 2 ^ 31) : (BitVec.ofNat 32 k).toInt = k := by
  rw [BitVec.toInt_eq_toNat_cond, BitVec.toNat_ofNat, Nat.mod_eq_of_lt (by omega),
    if_pos (by omega)]

namespace SystemMonitor

/-- A heat map as `initialize()` sizes it, each entry a heat level from `0` (cold) to `5`. -/
structure HeatMap (heat : List Int) : Prop where
  length : heat.length = 1024
  level : ∀ h ∈ heat, 0 ≤ h ∧ h ≤ 5

/-- The state the monitor keeps between frames after `n` frames: in the range the code indexes
with, and `scroll_offset` the number of frames modulo `2 ^ 32`. -/
structure Inv (n : Nat) (s : SystemMonitor) : Prop where
  heat : HeatMap s.ghostHeatMap
  flash : 0 ≤ s.flashTimer ∧ s.flashTimer ≤ 12
  spinner : s.spinnerIdx < 4
  scroll : s.scrollOffset = BitVec.ofNat 32 n

/-- `s'` is `s` with only the back buffer and the generator's seed changed. -/
def Paints (s s' : SystemMonitor) : Prop :=
  ∃ buf seed, s' = { s with backBuffer := buf, randSeed := seed }

namespace HeatMap
variable {heat : List Int}

/-- A write of a heat level. -/
theorem set (h : HeatMap heat) (i : Nat) {v : Int} (hv : 0 ≤ v ∧ v ≤ 5) : HeatMap (heat.set i v) :=
  ⟨(List.length_set ..).trans h.length, fun x hx => (List.mem_or_eq_of_mem_set hx).elim (h.level x) (· ▸ hv)⟩

/-- The heat decay of `draw_ghost_map`. -/
theorem decay (h : HeatMap heat) : HeatMap (heat.map fun h => if 0 < h then h - 1 else h) := by
  refine ⟨(List.length_map ..).trans h.length, fun x hx => ?_⟩
  obtain ⟨a, ha, rfl⟩ := List.mem_map.1 hx
  have := h.level a ha
  split_ifs <;> omega

end HeatMap

namespace Paints
variable {s s' s'' : SystemMonitor}

theorem refl (s : SystemMonitor) : Paints s s := ⟨s.backBuffer, s.randSeed, rfl⟩

theorem trans : Paints s s' → Paints s' s'' → Paints s s''
  | ⟨_, _, h⟩, ⟨b, r, h'⟩ => ⟨b, r, h' ▸ h ▸ rfl⟩

theorem ite {c : Prop} [Decidable c] {a b : SystemMonitor} (ha : Paints s a) (hb : Paints s b) :
    Paints s (if c then a else b) := by
  split
  · exact ha
  · exact hb

theorem clearBuffer (h : Paints s s') : Paints s s'.clearBuffer := h.trans ⟨_, _, rfl⟩

theorem fastRand (h : Paints s s') : Paints s s'.fastRand := h.trans ⟨_, _, rfl⟩

theorem drawBox (h : Paints s s') (r : Rect) : Paints s (s'.drawBox r) := h.trans ⟨_, _, rfl⟩

theorem drawText (h : Paints s s') (x y : Int) (text : Bytes) : Paints s (s'.drawText x y text) := by
  unfold SystemMonitor.drawText
  split
  · exact h
  · exact h.trans ⟨_, _, rfl⟩

theorem drawFiber (h : Paints s s') (r : Rect) (sched : Kernel.Scheduler) (row : Int) (p : Nat)
    (f : Kernel.Fiber) : Paints s (SystemMonitor.drawFiber r sched s' row p f) := by
  have h₁ : Paints s (if sched.currentFiber = some p then s' else s'.fastRand) := ite h h.fastRand
  exact (ite h₁.fastRand h₁).drawText _ _ _

theorem drawFibers (r : Rect) (sched : Kernel.Scheduler) :
    ∀ (ps : List Nat) (row : Int) {s' : SystemMonitor}, Paints s s' →
      Paints s (SystemMonitor.drawFibers r sched s' row ps)
  | [], _, _, h => h
  | p :: ps, row, s', h => by
    rw [SystemMonitor.drawFibers]
    split
    · exact drawFibers r sched ps row h
    · have h₁ := h.drawFiber r sched row p ‹_›
      exact ite h₁ (drawFibers r sched ps (row + 1) h₁)

theorem jitRows (r : Rect) : ∀ (k i : Nat) {s' : SystemMonitor}, Paints s s' →
    Paints s (SystemMonitor.jitRows r s' i k)
  | 0, _, _, h => h
  | k + 1, i, _, h => jitRows r k (i + 1) (h.drawText _ _ _)

end Paints

namespace Inv
variable {n : Nat} {s : SystemMonitor}

/-- Drawing that changes only the back buffer and the seed keeps the state. -/
theorem paints (h : Inv n s) {s' : SystemMonitor} : Paints s s' → Inv n s'
  | ⟨_, _, e⟩ => e ▸ ⟨h.heat, h.flash, h.spinner, h.scroll⟩

theorem ite {c : Prop} [Decidable c] {a b : SystemMonitor} (ha : Inv n a) (hb : Inv n b) :
    Inv n (if c then a else b) := by
  split
  · exact ha
  · exact hb

/-- The resident-pages loop of `draw_ghost_map` writes the levels `4` and `1`. -/
theorem simmer : ∀ (k i : Nat) {s : SystemMonitor}, Inv n s → Inv n (s.simmer i k)
  | 0, _, _, h => h
  | k + 1, i, s, h => by
    have h₁ := h.paints ((Paints.refl s).fastRand)
    rw [SystemMonitor.simmer]
    refine ite (simmer k (i + 1) ⟨h₁.heat.set i ?_, h₁.flash, h₁.spinner, h₁.scroll⟩) (simmer k (i + 1) h)
    split <;> decide

/-- The heat decay of `draw_ghost_map`. -/
theorem decay (h : Inv n s) :
    Inv n { s with ghostHeatMap := s.ghostHeatMap.map fun h => if 0 < h then h - 1 else h } :=
  ⟨h.heat.decay, h.flash, h.spinner, h.scroll⟩

/-- The ping of `draw_ghost_map`. -/
theorem ping (h : Inv n s) (i : Nat) : Inv n { s with ghostHeatMap := s.ghostHeatMap.set i 5 } :=
  ⟨h.heat.set i (by decide), h.flash, h.spinner, h.scroll⟩

/-- `draw_ghost_map` decays the heat, pings one entry to `5` and simmers the resident pages;
the map keeps its size, so the ping's `% m_ghost_heat_map.size()` is never `% 0`. -/
theorem drawGhostMap (h : Inv n s) (r : Rect) (resident : Nat) : Inv n (s.drawGhostMap r resident) := by
  have h₁ := (h.paints (((Paints.refl s).drawBox r).drawText (r.x + 2) r.y
    (ascii " GHOST MAP (1024TB) "))).decay.paints ((Paints.refl _).fastRand)
  dsimp only [SystemMonitor.drawGhostMap]
  exact (simmer _ 0 (ite ((h₁.paints ((Paints.refl _).fastRand)).ping _) h₁)).paints ⟨_, _, rfl⟩

/-- The input box's border runs the flash timer down while it is positive. -/
theorem inputBorder (h : Inv n s) (r : Rect) : Inv n (s.inputBorder r) := by
  dsimp only [SystemMonitor.inputBorder]
  split_ifs with ht
  · exact ⟨h.heat, by have := h.flash; dsimp only; omega, h.spinner, h.scroll⟩
  · exact h.paints ((Paints.refl s).fastRand)
  · exact h.paints (((Paints.refl s).fastRand).drawBox r)
  · exact h.paints ((Paints.refl s).drawBox r)

theorem drawInputBox (h : Inv n s) (r : Rect) : Inv n (s.drawInputBox r) := by
  have h₁ := (Paints.refl (s.inputBorder r)).drawText (r.x + 2) r.y (ascii " INPUT BUFFER ")
  refine (h.inputBorder r).paints ?_
  dsimp only [SystemMonitor.drawInputBox]
  split_ifs
  · exact h₁.drawText _ _ _
  · exact h₁.drawText _ _ _
  · exact h₁.fastRand.drawText _ _ _
  · exact h₁.fastRand

/-- `scroll_offset++` counts one more frame. -/
theorem scrolled (h : Inv n s) : Inv (n + 1) { s with scrollOffset := s.scrollOffset + 1 } :=
  ⟨h.heat, h.flash, h.spinner, by rw [h.scroll]; exact BitVec.ofNat_add_ofNat n 1⟩

theorem drawJitStream (h : Inv n s) (r : Rect) : Inv (n + 1) (s.drawJitStream r) :=
  (h.paints (((Paints.refl s).drawBox r).drawText (r.x + 2) r.y (ascii " JIT STREAM "))).scrolled.paints
    ((Paints.refl _).jitRows r _ 0)

/-- `m_spinner_idx = (m_spinner_idx + 1) % 4`. -/
theorem spin (h : Inv n s) : Inv n { s with spinnerIdx := (s.spinnerIdx + 1) % 4 } :=
  ⟨h.heat, h.flash, Nat.mod_lt _ (by decide), h.scroll⟩

theorem drawFrame (h : Inv n s) (mm : Ghost.MemoryManager) (sched : Kernel.Scheduler) :
    Inv (n + 1) (s.drawFrame mm sched) := by
  dsimp only [SystemMonitor.drawFrame]
  refine (((Inv.spin ?_).paints ((Paints.refl _).drawFibers _ sched _ 1)).drawJitStream _).drawInputBox _
  exact ((h.paints (((Paints.refl s).clearBuffer.drawText _ _ _).drawText _ _ _)).drawGhostMap _ _).paints
    (((Paints.refl _).drawBox _).drawText _ _ _)

theorem present (h : Inv n s) : Inv n s.present.1 := by
  dsimp only [SystemMonitor.present]
  split
  · exact ⟨h.heat, h.flash, h.spinner, h.scroll⟩
  · exact h

/-- Every call keeps the state in range, and a frame counts one more. -/
theorem call (h : Inv n s) : ∀ c : UiCall, Inv (n + frames [c]) (s.call c).1
  | .render mm sched => (h.drawFrame mm sched).present
  | .updateInputText _ => ⟨h.heat, h.flash, h.spinner, h.scroll⟩
  | .triggerInputFlash => ⟨h.heat, show (0 : Int) ≤ 12 ∧ (12 : Int) ≤ 12 by decide, h.spinner, h.scroll⟩
  | .setHeaderInfo _ => ⟨h.heat, h.flash, h.spinner, h.scroll⟩

theorem run : ∀ (cs : List UiCall) {n : Nat} {s : SystemMonitor}, Inv n s → Inv (n + frames cs) (s.run cs).1
  | [], _, _, h => h
  | c :: cs, n, _, h => by
    have := run cs (h.call c)
    rwa [Nat.add_assoc, ← frames_append, List.singleton_append] at this

/-- `initialize()` after `SystemMonitor()` fills the heat map with `1024` cold entries. -/
theorem init (seed : UInt32) (winsize : Option (Nat × Nat)) : Inv 0 ((create seed).init winsize).1 := by
  have hheat : ((create seed).init winsize).1.ghostHeatMap = List.replicate 1024 0 := rfl
  refine ⟨⟨by rw [hheat, List.length_replicate], fun h hh => ?_⟩, show (0 : Int) ≤ 0 ∧ (0 : Int) ≤ 12 by decide,
    show 0 < 4 by decide, rfl⟩
  rw [hheat] at hh
  rw [List.eq_of_mem_replicate hh]
  decide

end Inv

end SystemMonitor

open SystemMonitor

/-- Over the UI fiber's whole run, from `initialize()` on, the monitor's own state stays in
range: `1024` heat levels from `0` to `5`, a flash timer from `0` to `12`, a spinner index below
`4`, and the 32-bit `scroll_offset` the number of frames modulo `2 ^ 32`. While fewer than
`2 ^ 31` frames are drawn, it is the number of frames, which is not negative. -/
theorem ui_inv (seed : UInt32) (winsize : Option (Nat × Nat)) (cs : List UiCall) :
    Inv (frames cs) (((create seed).init winsize).1.run cs).1 ∧
      (frames cs < 2 ^ 31 →
        (((create seed).init winsize).1.run cs).1.scrollOffset.toInt = frames cs) := by
  have h := (Inv.init seed winsize).run cs
  rw [Nat.zero_add] at h
  exact ⟨h, fun hcs => by rw [h.scroll, toInt_ofNat_of_lt hcs]⟩

/-- At the `2 ^ 31`-th frame `scroll_offset` wraps to `-2 ^ 31`, and `draw_jit_stream` then
indexes `dummy_asm` with a negative `line_idx`. -/
theorem scrollOffset_wraps (seed : UInt32) (winsize : Option (Nat × Nat)) (mm : Ghost.MemoryManager)
    (sched : Kernel.Scheduler) :
    (((create seed).init winsize).1.run (List.replicate (2 ^ 31) (.render mm sched))).1.scrollOffset.toInt =
      -2 ^ 31 := by
  have h := (Inv.init seed winsize).run (List.replicate (2 ^ 31) (.render mm sched))
  rw [h.scroll, frames_replicate_render]
  rfl

end HyperionRuntime.Monitor
