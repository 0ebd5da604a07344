import HyperionRuntime.Monitor.Screen
import HyperionRuntime.Ghost.Arena
import HyperionRuntime.Kernel.Scheduler

/-!
# A frame of the system monitor

`render()` draws a frame and presents it. The frame holds:
- the header and a status line with the memory manager's counters;
- the ghost map, with its heat decay and random pings;
- the fiber panel, listing the scheduler's fibers;
- the JIT stream;
- the input box, with its flash and its prompt.

The counters and the fibers are those of the models of the memory manager and the scheduler.
`fast_rand()` threads `m_rand_seed` through the frame.

Every text a frame draws is printable ASCII once the header, the fibers' names and the input
text are (`Printable.fiberLine`, `Printable.statsLine`, `Printable.jitLine`), and the ghost map
writes printable characters; so drawing a frame redraws the monitor (`Redraws.drawFrame`). A
frame therefore leaves the terminal showing it (`Shows.render`). `ui_shows` carries this over
the UI fiber's whole run: `initialize()`, then any sequence of frames and of the calls that feed
the monitor its texts.
-/

namespace HyperionRuntime.Monitor
open Core (Bytes ascii)
open Terminal (decimal)

/-! ## Printable text -/

/-- `ss << std::hex << n`: lowercase hexadecimal digits. -/
def hex (n : Nat) : Bytes := ascii (String.mk (Nat.toDigits 16 n))

/-- `std::setw(n)` under `std::left` with the default fill: the text, then spaces up to `n`
bytes. -/
def padRight (n : Nat) (text : Bytes) : Bytes := text ++ List.replicate (n - text.length) 0x20

/-- `std::setw(n)` right-aligned with fill `c`: `c` up to `n` bytes, then the text. -/
def padLeft (n : Nat) (c : UInt8) (text : Bytes) : Bytes := List.replicate (n - text.length) c ++ text

/-- Every character `Nat.toDigitsCore` adds is a digit of the base. -/
theorem mem_toDigitsCore {b : Nat} (hb : 0 < b) :
    ∀ {f n : Nat} {ds : List Char} {c : Char}, c ∈ Nat.toDigitsCore b f n ds →
      c ∈ ds ∨ ∃ d < b, c = Nat.digitChar d
  | 0, _, _, _, h => .inl h
  | f + 1, n, ds, c, h => by
    simp only [Nat.toDigitsCore] at h
    split_ifs at h
    · exact (List.mem_cons.1 h).elim (fun h => .inr ⟨n % b, Nat.mod_lt _ hb, h⟩) .inl
    · exact (mem_toDigitsCore hb h).elim
        (fun h => (List.mem_cons.1 h).elim (fun h => .inr ⟨n % b, Nat.mod_lt _ hb, h⟩) .inl) .inr

private theorem digitChar_printable : ∀ d : Fin 16,
    0x20 ≤ (Nat.digitChar d).toUInt8.toNat ∧ (Nat.digitChar d).toUInt8.toNat < 0x7F := by
  decide

namespace Printable

theorem append {a b : Bytes} (ha : Printable a) (hb : Printable b) : Printable (a ++ b) :=
  List.forall_mem_append.2 ⟨ha, hb⟩

theorem take {a : Bytes} (ha : Printable a) (n : Nat) : Printable (a.take n) :=
  fun c hc => ha c (List.mem_of_mem_take hc)

theorem replicate {c : UInt8} (hc : 0x20 ≤ c.toNat ∧ c.toNat < 0x7F) (n : Nat) :
    Printable (List.replicate n c) :=
  fun _ h => (List.eq_of_mem_replicate h) ▸ hc

theorem padRight {a : Bytes} (ha : Printable a) (n : Nat) : Printable (padRight n a) :=
  ha.append (replicate (by decide) _)

theorem padLeft {a : Bytes} (ha : Printable a) (n : Nat) {c : UInt8}
    (hc : 0x20 ≤ c.toNat ∧ c.toNat < 0x7F) : Printable (padLeft n c a) :=
  (replicate hc _).append ha

private theorem toDigits {b : Nat} (hb : 0 < b) (hb' : b ≤ 16) (n : Nat) :
    Printable ((Nat.toDigits b n).map Char.toUInt8) := by
  intro c hc
  obtain ⟨c', hc', rfl⟩ := List.mem_map.1 hc
  obtain h | ⟨d, hd, rfl⟩ := mem_toDigitsCore hb hc'
  · cases h
  · exact digitChar_printable ⟨d, by omega⟩

theorem decimal (n : Nat) : Printable (decimal n) := toDigits (by decide) (by decide) n

theorem hex (n : Nat) : Printable (hex n) := toDigits (by decide) (by decide) n

end Printable

/-! ## The generator -/

/-- One step of the xorshift generator of `fast_rand()`. -/
def xorshift32 (x : UInt32) : UInt32 :=
  let x := x ^^^ (x <<< 13)
  let x := x ^^^ (x >>> 17)
  x ^^^ (x <<< 5)

namespace SystemMonitor

/-- `fast_rand()`; the value it returns is the new `m_rand_seed`. -/
def fastRand (s : SystemMonitor) : SystemMonitor := { s with randSeed := xorshift32 s.randSeed }

/-! ## The ghost map -/

/-- The cell of a heat level: `BoxChars::HEAT_5`, `HEAT_4`, `HEAT_3`, `HEAT_2`, or a space. -/
def heatCell (heat : Int) : Bytes :=
  if 5 ≤ heat then utf8 "█" else if heat = 4 then utf8 "▓" else if heat = 3 then utf8 "▒"
  else if heat = 2 then utf8 "░" else ascii " "

/-- The resident-pages loop of `draw_ghost_map` from entry `i`, for `k` more entries: an entry
below `2` becomes `4` one time in twenty, and `1` otherwise. -/
def simmer : SystemMonitor → Nat → Nat → SystemMonitor
  | s, _, 0 => s
  | s, i, k + 1 =>
    if s.ghostHeatMap.getD i 0 < 2 then
      let s := s.fastRand
      let heat := s.ghostHeatMap.set i (if s.randSeed.toNat % 20 = 0 then 4 else 1)
      simmer { s with ghostHeatMap := heat } (i + 1) k
    else simmer s (i + 1) k

/-- The drawing loop of `draw_ghost_map` from entry `i`, for `k` more entries: entry `i` goes to
row `i / inner_w` and column `i % inner_w` inside the box (`int` division). -/
def heatCells (r : Rect) (width : Nat) (heat : List Int) : List Bytes → Nat → Nat → List Bytes
  | buf, _, 0 => buf
  | buf, i, k + 1 =>
    let idx := (r.y + 1 + Int.tdiv i (r.w - 2)) * width + (r.x + 1 + Int.tmod i (r.w - 2))
    heatCells r width heat (setCell buf idx (heatCell (heat.getD i 0))) (i + 1) k

/-- `draw_ghost_map(rect, cache)`, with `resident` the memory manager's resident pages; the cache
is unused. On a heat map of size `0` (before `initialize()`) the ping divides by zero; the
model's `% 0` leaves the index, and the write falls off the map. -/
def drawGhostMap (s : SystemMonitor) (r : Rect) (resident : Nat) : SystemMonitor :=
  let s := (s.drawBox r).drawText (r.x + 2) r.y (ascii " GHOST MAP (1024TB) ")
  let s := { s with ghostHeatMap := s.ghostHeatMap.map fun h => if 0 < h then h - 1 else h }
  let s := s.fastRand
  let s := if s.randSeed.toNat % 100 < 10 then
      let s := s.fastRand
      { s with ghostHeatMap := s.ghostHeatMap.set (s.randSeed.toNat % s.ghostHeatMap.length) 5 }
    else s
  let s := simmer s 0 (min resident s.ghostHeatMap.length)
  let cells := min ((r.w - 2) * (r.h - 2)).toNat s.ghostHeatMap.length
  { s with backBuffer := heatCells r s.width s.ghostHeatMap s.backBuffer 0 cells }

/-! ## The fiber panel -/

/-- `spinner` of `render()`. -/
def spinner : Bytes := ascii "|/-\\"

/-- `(sp & ~0xFF) | (fast_rand() & 0xFF)`: the stack pointer with a random low byte. -/
def jitter (sp : Nat) (r : UInt32) : Nat := andNot sp 0xFF ||| (r.toNat &&& 0xFF)

/-- `(base + stack_size) - sp` on `uintptr_t`, `0` for a fiber without a stack of its own. -/
def stackUsed (f : Kernel.Fiber) : Nat :=
  if f.stackBase ≠ 0 then sub64 (add64 f.stackBase f.stackSize) f.stackPtr else 0

/-- The start of a fiber's line: the spinner's character and a space for the current fiber, two
spaces for the others. -/
def spinPrefix : Option UInt8 → Bytes
  | some c => [c, 0x20]
  | none => ascii "  "

/-- The line of a fiber: its prefix, its id, its name padded to `8`, its stack use padded to `4`
(`std::left` still holds), and the stack pointer shown. -/
def fiberLine (spin : Option UInt8) (f : Kernel.Fiber) (sp : Nat) : Bytes :=
  spinPrefix spin ++ ascii "ID:" ++ decimal f.id ++
    ascii " " ++ padRight 8 (utf8 f.name) ++ ascii " STK:" ++ padRight 4 (decimal (stackUsed f)) ++
    ascii "B" ++ ascii " SP:" ++ hex sp

/-- The line of fiber `f`, at index `p`, drawn at panel row `row`. The current fiber gets the
spinner; its stack pointer is always shown with a random low byte, any other's three times in
ten. -/
def drawFiber (r : Rect) (sched : Kernel.Scheduler) (s : SystemMonitor) (row : Int) (p : Nat)
    (f : Kernel.Fiber) : SystemMonitor :=
  let isCurr := sched.currentFiber = some p
  let s₁ := if isCurr then s else s.fastRand
  let jit := isCurr ∨ s₁.randSeed.toNat % 10 < 3
  let s₂ := if jit then s₁.fastRand else s₁
  let spin := if isCurr then some (spinner.getD s.spinnerIdx 0) else none
  s₂.drawText (r.x + 1) (r.y + row)
    (fiberLine spin f (if jit then jitter f.stackPtr s₂.randSeed else f.stackPtr))

/-- The loop of `render()` over `AllFibers()` from panel row `row` on; it stops once the next
row would reach the bottom edge. A fiber is the object at its index; an index without one,
which `Kernel.Sys.Inv` rules out, is skipped. -/
def drawFibers (r : Rect) (sched : Kernel.Scheduler) : SystemMonitor → Int → List Nat → SystemMonitor
  | s, _, [] => s
  | s, row, p :: ps =>
    match sched.objects[p]? with
    | none => drawFibers r sched s row ps
    | some f =>
      let s := drawFiber r sched s row p f
      if r.h - 1 ≤ row + 1 then s else drawFibers r sched s (row + 1) ps

@[simp] theorem drawText_spinnerIdx (s : SystemMonitor) (x y : Int) (text : Bytes) :
    (s.drawText x y text).spinnerIdx = s.spinnerIdx := by
  unfold drawText; split <;> rfl

theorem drawFiber_spinnerIdx (r : Rect) (sched : Kernel.Scheduler) (s : SystemMonitor) (row : Int)
    (p : Nat) (f : Kernel.Fiber) : (drawFiber r sched s row p f).spinnerIdx = s.spinnerIdx := by
  simp only [drawFiber, drawText_spinnerIdx]
  split_ifs <;> rfl

/-! ## The JIT stream -/

/-- `dummy_asm` of `draw_jit_stream`. -/
def dummyAsm : List Bytes :=
  ["MOV  RAX, 0x0", "PUSH RBP", "MOV  RBP, RSP", "SUB  RSP, 0x40", "LEA  RDI, [RIP+0x20]",
    "CALL 0xFADE", "TEST RAX, RAX", "JZ   0x0040", "NOP", "PAUSE", "HLT"].map ascii

/-- Row `i` of the JIT panel: `"0x" << std::hex << std::setw(4) << std::setfill('0') <<
(0x1000 + line_idx * 4) << ": " << line`, cut to `inner_w` bytes when longer (a negative
`inner_w` converts to a huge `size_t` and cuts nothing). A negative `line_idx`, which reads
outside `dummy_asm`, is read here as `0`; it does not occur within `2 ^ 31` frames (`ui_inv`). -/
def jitLine (scrollOffset innerW : Int) (i : Nat) : Bytes :=
  let lineIdx := Int.tmod (Int.tdiv scrollOffset 10 + i) 11
  let full := ascii "0x" ++ padLeft 4 0x30 (hex (0x1000 + lineIdx.toNat * 4)) ++ ascii ": " ++
    dummyAsm.getD lineIdx.toNat []
  if 0 ≤ innerW ∧ innerW < full.length then full.take innerW.toNat else full

/-- The rows of the JIT panel from row `i` on, `k` more. -/
def jitRows (r : Rect) : SystemMonitor → Nat → Nat → SystemMonitor
  | s, _, 0 => s
  | s, i, k + 1 =>
    jitRows r (s.drawText (r.x + 1) (r.y + 1 + i) (jitLine s.scrollOffset.toInt (r.w - 2) i)) (i + 1) k

/-- `draw_jit_stream(rect, code)`; the code bytes are unused. -/
def drawJitStream (s : SystemMonitor) (r : Rect) : SystemMonitor :=
  let s := (s.drawBox r).drawText (r.x + 2) r.y (ascii " JIT STREAM ")
  jitRows r { s with scrollOffset := s.scrollOffset + 1 } 0 (r.h - 2).toNat

/-! ## The input box -/

/-- The flashing border: `=` along the top and the bottom edge. -/
def flashBorder (r : Rect) (width : Nat) (buf : List Bytes) : List Bytes :=
  (List.range r.w.toNat).foldl (fun buf i =>
    setCell (setCell buf (r.y * width + r.x + i) (ascii "=")) ((r.y + r.h - 1) * width + r.x + i)
      (ascii "=")) buf

/-- The border of the input box in `render()`. While `m_flash_timer` runs down it flashes;
with no input it blinks away one frame in twenty. -/
def inputBorder (s : SystemMonitor) (r : Rect) : SystemMonitor :=
  if 0 < s.flashTimer then
    { s with flashTimer := s.flashTimer - 1, backBuffer := flashBorder r s.width s.backBuffer }
  else if s.inputText = [] then
    let s := s.fastRand
    if s.randSeed.toNat % 20 = 0 then s else s.drawBox r
  else s.drawBox r

/-- The input box of `render()`: its border, its title, then the input text cut to `w - 4`
bytes (a negative count converts to a huge `size_t`), or a blinking prompt. -/
def drawInputBox (s : SystemMonitor) (r : Rect) : SystemMonitor :=
  let s := (s.inputBorder r).drawText (r.x + 2) r.y (ascii " INPUT BUFFER ")
  if s.inputText ≠ [] then
    s.drawText (r.x + 2) (r.y + 1) (if 0 ≤ r.w - 4 then s.inputText.take (r.w - 4).toNat else s.inputText)
  else
    let s := s.fastRand
    if s.randSeed.toNat % 30 < 15 then s.drawText (r.x + 2) (r.y + 1) (ascii "_") else s

/-! ## The frame -/

/-- The status line: `"FAULTS: " << faults << " | RESIDENT: " << resident << " | FIBERS: " <<
AllFibers().size()`. -/
def statsLine (mm : Ghost.MemoryManager) (fibers : Nat) : Bytes :=
  ascii "FAULTS: " ++ decimal mm.faultCount ++ ascii " | RESIDENT: " ++ decimal mm.residentPages ++
    ascii " | FIBERS: " ++ decimal fibers

/-- `render()` up to `present()`, reading the memory manager's counters and the scheduler's
fibers. `m_width`, `m_height` and `m_header_info` are read from the monitor as the frame starts:
drawing never changes them. -/
def drawFrame (s : SystemMonitor) (mm : Ghost.MemoryManager) (sched : Kernel.Scheduler) :
    SystemMonitor :=
  let H : Int := s.height
  let gw : Int := (s.width / 2 : Nat) - 2
  let gh : Int := H - 12
  let rFibers : Rect := ⟨gw + 3, 2, gw, gh⟩
  let header := if s.headerInfo = [] then ascii "COGNITRON ZERO UNIKERNEL" else s.headerInfo
  let s := (s.clearBuffer.drawText 2 0 header).drawText 2 (H - 1) (statsLine mm sched.fibers.length)
  let s := ((s.drawGhostMap ⟨1, 2, gw, gh⟩ mm.residentPages).drawBox rFibers).drawText
    (rFibers.x + 2) rFibers.y (ascii " FIBER SCHEDULER ")
  let s := drawFibers rFibers sched { s with spinnerIdx := (s.spinnerIdx + 1) % 4 } 1 sched.fibers
  (s.drawJitStream ⟨1, gh + 3, gw, H - (gh + 3) - 2⟩).drawInputBox ⟨gw + 3, H - 4, gw, 3⟩

/-- `render()`: the monitor after the frame and the bytes `present()` writes. -/
def render (s : SystemMonitor) (mm : Ghost.MemoryManager) (sched : Kernel.Scheduler) :
    SystemMonitor × Bytes :=
  (s.drawFrame mm sched).present

end SystemMonitor

/-! ## A frame redraws the monitor -/

open SystemMonitor

theorem glyph_heatCell (heat : Int) : Glyph (heatCell heat) := by
  unfold heatCell; split_ifs <;> decide

theorem Cells.heatCells {n : Nat} (r : Rect) (width : Nat) (heat : List Int) :
    ∀ (k i : Nat) {buf : List Bytes}, Cells n buf → Cells n (heatCells r width heat buf i k)
  | 0, _, _, h => h
  | k + 1, i, _, h => Cells.heatCells r width heat k (i + 1) (h.setCell (glyph_heatCell _) _)

theorem Cells.flashBorder {n : Nat} (r : Rect) (width : Nat) {buf : List Bytes} (h : Cells n buf) :
    Cells n (flashBorder r width buf) :=
  Cells.foldl (fun _ _ hb => (hb.setCell (by decide) _).setCell (by decide) _) _ h

/-- The scheduler's fibers all have printable names. -/
def NamesPrintable (sched : Kernel.Scheduler) : Prop := ∀ f ∈ sched.objects, Printable (utf8 f.name)

theorem Printable.statsLine (mm : Ghost.MemoryManager) (fibers : Nat) : Printable (statsLine mm fibers) :=
  ((((((by decide : Printable (ascii "FAULTS: ")).append (.decimal _)).append (by decide)).append
    (.decimal _)).append (by decide)).append (.decimal _))

theorem Printable.fiberLine {spin : Option UInt8} (hspin : ∀ c, spin = some c → 0x20 ≤ c.toNat ∧ c.toNat < 0x7F)
    {f : Kernel.Fiber} (hf : Printable (utf8 f.name)) (sp : Nat) : Printable (fiberLine spin f sp) := by
  have h₀ : Printable (spinPrefix spin) := by
    cases spin with
    | none => decide
    | some c => exact List.forall_mem_cons.2 ⟨hspin c rfl, List.forall_mem_singleton.2 (by decide)⟩
  unfold SystemMonitor.fiberLine
  exact (((((((((h₀.append (by decide)).append (.decimal _)).append (by decide)).append
    (hf.padRight _)).append (by decide)).append ((Printable.decimal _).padRight _)).append
    (by decide)).append (by decide)).append (.hex _))

theorem Printable.jitLine (scrollOffset innerW : Int) (i : Nat) :
    Printable (jitLine scrollOffset innerW i) := by
  have hasm : ∀ l ∈ dummyAsm, Printable l := by decide
  have hline (n : Nat) : Printable (dummyAsm.getD n []) := by
    rw [List.getD_eq_getElem?_getD]
    cases h : dummyAsm[n]? with
    | none => exact fun _ h => nomatch h
    | some l => exact hasm l (List.getElem?_mem h)
  have hfull (n : Nat) := (((by decide : Printable (ascii "0x")).append
    ((Printable.hex (0x1000 + n * 4)).padLeft 4 (c := 0x30) (by decide))).append
    (by decide : Printable (ascii ": "))).append (hline n)
  dsimp only [SystemMonitor.jitLine]
  split
  · exact (hfull _).take _
  · exact hfull _

namespace Redraws
variable {s s' : SystemMonitor}

/-- A change to the fields drawing neither reads back nor shows: the heat map, the seed, the
spinner, the scroll offset and the flash timer. -/
theorem other (h : Redraws s s') (flashTimer : Int) (heat : List Int) (spin : Nat) (seed : UInt32)
    (scroll : BitVec 32) :
    Redraws s ⟨s'.width, s'.height, s'.frontBuffer, s'.backBuffer, s'.headerInfo, s'.inputText,
      flashTimer, heat, spin, seed, scroll⟩ :=
  h.step h.cells rfl rfl rfl rfl rfl

theorem fastRand (h : Redraws s s') : Redraws s s'.fastRand := h.other _ _ _ _ _

theorem simmer : ∀ (k i : Nat) {s' : SystemMonitor}, Redraws s s' → Redraws s (s'.simmer i k)
  | 0, _, _, h => h
  | k + 1, i, _, h => by
    rw [SystemMonitor.simmer]
    exact ite (simmer k (i + 1) (h.fastRand.other _ _ _ _ _)) (simmer k (i + 1) h)

theorem heatCells (h : Redraws s s') (r : Rect) (cells : Nat) :
    Redraws s { s' with backBuffer := heatCells r s'.width s'.ghostHeatMap s'.backBuffer 0 cells } :=
  h.step (h.cells.heatCells r _ _ cells 0) rfl rfl rfl rfl rfl

theorem drawGhostMap (h : Redraws s s') (r : Rect) (resident : Nat) :
    Redraws s (s'.drawGhostMap r resident) := by
  have h₁ := (h.drawBox r).drawText (r.x + 2) r.y (by decide : Printable (ascii " GHOST MAP (1024TB) "))
  dsimp only [SystemMonitor.drawGhostMap]
  exact (Redraws.simmer _ 0 (ite ((h₁.other _ _ _ _ _).fastRand.fastRand.other _ _ _ _ _)
    (h₁.other _ _ _ _ _).fastRand)).heatCells r _

theorem drawFiber (h : Redraws s s') (hspin : s'.spinnerIdx < 4) {f : Kernel.Fiber}
    (hf : Printable (utf8 f.name)) (r : Rect) (sched : Kernel.Scheduler) (row : Int) (p : Nat) :
    Redraws s (drawFiber r sched s' row p f) := by
  have h₁ : Redraws s (if sched.currentFiber = some p then s' else s'.fastRand) := ite h h.fastRand
  refine Redraws.drawText (ite h₁.fastRand h₁) _ _ (Printable.fiberLine ?_ hf _)
  intro c hc
  split at hc
  · cases hc
    exact (by decide : ∀ i : Fin 4, 0x20 ≤ (spinner.getD i 0).toNat ∧ (spinner.getD i 0).toNat < 0x7F)
      ⟨_, hspin⟩
  · cases hc

theorem drawFibers (r : Rect) (sched : Kernel.Scheduler) (hn : NamesPrintable sched) :
    ∀ (ps : List Nat) (row : Int) {s' : SystemMonitor}, Redraws s s' → s'.spinnerIdx < 4 →
      Redraws s (SystemMonitor.drawFibers r sched s' row ps)
  | [], _, _, h, _ => h
  | p :: ps, row, s', h, hspin => by
    rw [SystemMonitor.drawFibers]
    split
    · exact drawFibers r sched hn ps row h hspin
    · rename_i f hf
      have h₁ := h.drawFiber hspin (hn f (List.getElem?_mem hf)) r sched row p
      exact ite h₁ (drawFibers r sched hn ps (row + 1) h₁ (by rw [drawFiber_spinnerIdx]; exact hspin))

theorem jitRows (r : Rect) : ∀ (k i : Nat) {s' : SystemMonitor}, Redraws s s' →
    Redraws s (SystemMonitor.jitRows r s' i k)
  | 0, _, _, h => h
  | k + 1, i, _, h => jitRows r k (i + 1) (h.drawText _ _ (Printable.jitLine _ _ _))

theorem drawJitStream (h : Redraws s s') (r : Rect) : Redraws s (s'.drawJitStream r) := by
  have h₁ := (h.drawBox r).drawText (r.x + 2) r.y (by decide : Printable (ascii " JIT STREAM "))
  exact jitRows r _ 0 (h₁.other _ _ _ _ _)

theorem inputBorder (h : Redraws s s') (r : Rect) : Redraws s (s'.inputBorder r) := by
  dsimp only [SystemMonitor.inputBorder]
  split_ifs
  · exact h.step (h.cells.flashBorder r _) rfl rfl rfl rfl rfl
  · exact h.fastRand
  · exact h.fastRand.drawBox r
  · exact h.drawBox r

theorem drawInputBox (h : Redraws s s') (hin : Printable s.inputText) (r : Rect) :
    Redraws s (s'.drawInputBox r) := by
  have h₁ := (h.inputBorder r).drawText (r.x + 2) r.y (by decide : Printable (ascii " INPUT BUFFER "))
  have hin₁ : Printable ((s'.inputBorder r).drawText (r.x + 2) r.y (ascii " INPUT BUFFER ")).inputText :=
    h₁.input ▸ hin
  dsimp only [SystemMonitor.drawInputBox]
  split_ifs
  · exact h₁.drawText _ _ (hin₁.take _)
  · exact h₁.drawText _ _ hin₁
  · exact h₁.fastRand.drawText _ _ (by decide : Printable (ascii "_"))
  · exact h₁.fastRand

/-- A frame redraws the monitor when its header, input text and fibers' names are printable. -/
theorem drawFrame (h : Cells (s.width * s.height) s.backBuffer) (hhead : Printable s.headerInfo)
    (hin : Printable s.inputText) (mm : Ghost.MemoryManager) {sched : Kernel.Scheduler}
    (hn : NamesPrintable sched) : Redraws s (s.drawFrame mm sched) := by
  have hh : Printable (if s.headerInfo = [] then ascii "COGNITRON ZERO UNIKERNEL" else s.headerInfo) := by
    split
    · decide
    · exact hhead
  dsimp only [SystemMonitor.drawFrame]
  refine ((drawFibers _ sched hn _ 1 (Redraws.other ?_ _ _ _ _ _) (Nat.mod_lt _ (by decide))).drawJitStream
    _).drawInputBox hin _
  exact ((((Redraws.refl h).clearBuffer.drawText 2 0 hh).drawText 2 _ (Printable.statsLine _ _)).drawGhostMap
    _ _).drawBox _ |>.drawText _ _ (by decide : Printable (ascii " FIBER SCHEDULER "))

end Redraws

/-- `render()` leaves the terminal showing the frame it drew, and still showing the monitor's
front buffer. -/
theorem Shows.render {s : SystemMonitor} {t : Terminal} (h : Shows s t) (hhead : Printable s.headerInfo)
    (hin : Printable s.inputText) (mm : Ghost.MemoryManager) {sched : Kernel.Scheduler}
    (hn : NamesPrintable sched) :
    ∃ t', t.feed (s.render mm sched).2 = some t' ∧ Shows (s.render mm sched).1 t' ∧
      t'.screen = (s.drawFrame mm sched).backBuffer :=
  (h.redraws (Redraws.drawFrame h.back hhead hin mm hn)).present

/-! ## The UI fiber's run -/

/-- A call on the monitor from the fibers `main` spawns: a frame of the UI fiber, or one of the
calls that hand the monitor its texts (`ProcessingUnit::Ingest` makes the second and the
third). -/
inductive UiCall
  | render (mm : Ghost.MemoryManager) (sched : Kernel.Scheduler)
  | updateInputText (text : Bytes)
  | triggerInputFlash
  | setHeaderInfo (info : Bytes)

namespace SystemMonitor

/-- One call: the monitor after it and the bytes it writes to the terminal. -/
def call (s : SystemMonitor) : UiCall → SystemMonitor × Bytes
  | .render mm sched => s.render mm sched
  | .updateInputText text => ({ s with inputText := text }, [])
  | .triggerInputFlash => ({ s with flashTimer := 12 }, [])
  | .setHeaderInfo info => ({ s with headerInfo := info }, [])

/-- The calls `cs` in turn, and everything they write. -/
def run (s : SystemMonitor) : List UiCall → SystemMonitor × Bytes
  | [] => (s, [])
  | c :: cs => (((s.call c).1.run cs).1, (s.call c).2 ++ ((s.call c).1.run cs).2)

theorem present_headerInfo (s : SystemMonitor) : s.present.1.headerInfo = s.headerInfo := by
  dsimp only [present]; split <;> rfl

theorem present_inputText (s : SystemMonitor) : s.present.1.inputText = s.inputText := by
  dsimp only [present]; split <;> rfl

end SystemMonitor

instance : DecidablePred NamesPrintable := fun _ => inferInstanceAs (Decidable (∀ _ ∈ _, _))

/-- The texts a call hands the monitor are printable, and so are the names of the fibers a frame
lists. -/
def UiCall.Ok : UiCall → Prop
  | .render _ sched => NamesPrintable sched
  | .updateInputText text => Printable text
  | .triggerInputFlash => True
  | .setHeaderInfo info => Printable info

instance : DecidablePred UiCall.Ok := fun
  | .render _ sched => inferInstanceAs (Decidable (NamesPrintable sched))
  | .updateInputText text => inferInstanceAs (Decidable (Printable text))
  | .triggerInputFlash => isTrue trivial
  | .setHeaderInfo info => inferInstanceAs (Decidable (Printable info))

/-- The terminal shows the front buffer, and the texts the next frame draws are printable. -/
structure Showing (s : SystemMonitor) (t : Terminal) : Prop where
  shows : Shows s t
  header : Printable s.headerInfo
  input : Printable s.inputText

namespace Showing
variable {s : SystemMonitor} {t : Terminal}

theorem call (h : Showing s t) {c : UiCall} (hc : c.Ok) :
    ∃ t', t.feed (s.call c).2 = some t' ∧ Showing (s.call c).1 t' := by
  have hs := h.shows
  cases c with
  | render mm sched =>
    obtain ⟨t', hf, hs', -⟩ := hs.render h.header h.input mm hc
    have hr := Redraws.drawFrame hs.back h.header h.input mm hc
    have hh : Printable (s.drawFrame mm sched).present.1.headerInfo := by
      rw [present_headerInfo, hr.header]; exact h.header
    have hi : Printable (s.drawFrame mm sched).present.1.inputText := by
      rw [present_inputText, hr.input]; exact h.input
    exact ⟨t', hf, hs', hh, hi⟩
  | updateInputText text => exact ⟨t, rfl, ⟨hs.1, hs.2, hs.3, hs.4, hs.5, hs.6⟩, h.header, hc⟩
  | triggerInputFlash => exact ⟨t, rfl, ⟨hs.1, hs.2, hs.3, hs.4, hs.5, hs.6⟩, h.header, h.input⟩
  | setHeaderInfo info => exact ⟨t, rfl, ⟨hs.1, hs.2, hs.3, hs.4, hs.5, hs.6⟩, hc, h.input⟩

theorem run : ∀ (cs : List UiCall) {s : SystemMonitor} {t : Terminal}, Showing s t → (∀ c ∈ cs, c.Ok) →
    ∃ t', t.feed (s.run cs).2 = some t' ∧ Showing (s.run cs).1 t'
  | [], _, t, h, _ => ⟨t, rfl, h⟩
  | c :: cs, _, _, h, hcs => by
    obtain ⟨t₁, h₁, hs₁⟩ := h.call (hcs c (List.mem_cons_self c cs))
    obtain ⟨t₂, h₂, hs₂⟩ := run cs hs₁ fun c hc => hcs c (List.mem_cons_of_mem _ hc)
    exact ⟨t₂, by rw [SystemMonitor.run, Terminal.feed_append, h₁, Option.some_bind, h₂], hs₂⟩

end Showing

end HyperionRuntime.Monitor
