import HyperionRuntime.Monitor.Terminal

/-!
# Frames and the diff renderer

`SystemMonitor` draws a frame into `m_back_buffer`, one string per cell in row-major order.
`present()` then sends the terminal only the cells that differ from `m_front_buffer`, the frame
it sent last. For each such cell it sends a cursor move and the cell's bytes
(`compute_buffer_diff`). That is right only while the terminal still shows `m_front_buffer`.

`Shows s t` says that the terminal `t` shows the front buffer, and that the back buffer is a
frame of printable characters of the screen's size.
- `initialize()` sets it up on a terminal of the size it read (`Shows.init`).
- The drawing calls keep it when the text they draw is printable ASCII: each one `Redraws` the
  monitor (`Redraws.drawText`, `Redraws.drawBox`, `Redraws.clearBuffer`), and redrawing keeps
  the terminal showing the front buffer (`Shows.redraws`).
- `present()` keeps it, and leaves the terminal showing exactly the frame that was drawn
  (`Shows.present`).

Underneath is the meaning of the diff (`feed_computeBufferDiff`). Fed to a terminal that shows
the front buffer, it leaves the back buffer on the screen. It is empty exactly when the two
buffers are equal (`computeBufferDiff_eq_nil`), so a second `present()` writes nothing
(`present_present`). `getElem?_drawText` says which cells `draw_text` writes.
-/

namespace HyperionRuntime.Monitor
open Core (Bytes ascii)
open Terminal (moveTo)

/-- A string literal of the source as the compiler stores it: its UTF-8 bytes. -/
def utf8 (s : String) : Bytes := s.toList.flatMap String.utf8EncodeChar

/-- `BoxChars::H_LINE`. -/
def hLine : Bytes := utf8 "─"
/-- `BoxChars::V_LINE`. -/
def vLine : Bytes := utf8 "│"
/-- `BoxChars::TL`. -/
def tl : Bytes := utf8 "┌"
/-- `BoxChars::TR`. -/
def tr : Bytes := utf8 "┐"
/-- `BoxChars::BL`. -/
def bl : Bytes := utf8 "└"
/-- `BoxChars::BR`. -/
def br : Bytes := utf8 "┘"

/-- `Rect`. -/
structure Rect where
  x : Int
  y : Int
  w : Int
  h : Int

/-- The members of `SystemMonitor` that drawing reads and writes. `scrollOffset` is the static
`int scroll_offset` of `draw_jit_stream`, a 32-bit two's-complement integer whose increment
wraps; `m_width` and `m_height` come from the terminal's size, so they are never negative. -/
structure SystemMonitor where
  width : Nat
  height : Nat
  frontBuffer : List Bytes
  backBuffer : List Bytes
  headerInfo : Bytes
  inputText : Bytes
  flashTimer : Int
  ghostHeatMap : List Int
  spinnerIdx : Nat
  randSeed : UInt32
  scrollOffset : BitVec 32

namespace SystemMonitor

/-- `SystemMonitor()`, with `m_rand_seed` the clock's count it reads. -/
def create (seed : UInt32) : SystemMonitor := ⟨80, 24, [], [], [], [], 0, [], 0, seed, 0⟩

/-! ## Drawing -/

/-- `if (idx < m_back_buffer.size()) m_back_buffer[idx] = g;` for an `int` index. A negative
index converts to a huge `size_t` and fails the test, as it fails `idx >= 0` where the code
writes that. -/
def setCell (buf : List Bytes) (idx : Int) (g : Bytes) : List Bytes :=
  if 0 ≤ idx ∧ idx < buf.length then buf.set idx.toNat g else buf

/-- `clear_buffer()`. -/
def clearBuffer (s : SystemMonitor) : SystemMonitor :=
  { s with backBuffer := s.backBuffer.map fun _ => blank }

/-- The loop of `draw_text` from the byte at column `cx` on: each byte becomes a cell of row `y`
when its column is on the screen. -/
def drawChars (width : Nat) (y : Int) : List Bytes → Int → Bytes → List Bytes
  | buf, _, [] => buf
  | buf, cx, c :: cs =>
    drawChars width y (if 0 ≤ cx ∧ cx < width then setCell buf (y * width + cx) [c] else buf)
      (cx + 1) cs

/-- `draw_text(x, y, text)`; the colour argument is unused. -/
def drawText (s : SystemMonitor) (x y : Int) (text : Bytes) : SystemMonitor :=
  if y < 0 ∨ s.height ≤ y then s
  else { s with backBuffer := drawChars s.width y s.backBuffer x text }

/-- `draw_box(rect)`: the two horizontal edges, the two vertical edges, then the corners. The
indices are not clipped to a row, only to the buffer. -/
def drawBox (s : SystemMonitor) (r : Rect) : SystemMonitor :=
  let W : Int := s.width
  let buf := (List.range r.w.toNat).foldl (fun buf i =>
    setCell (setCell buf (r.y * W + (r.x + i)) hLine) ((r.y + r.h - 1) * W + (r.x + i)) hLine)
    s.backBuffer
  let buf := (List.range r.h.toNat).foldl (fun buf i =>
    setCell (setCell buf ((r.y + i) * W + r.x) vLine) ((r.y + i) * W + (r.x + r.w - 1)) vLine) buf
  let buf := setCell buf (r.y * W + r.x) tl
  let buf := setCell buf (r.y * W + (r.x + r.w - 1)) tr
  let buf := setCell buf ((r.y + r.h - 1) * W + r.x) bl
  { s with backBuffer := setCell buf ((r.y + r.h - 1) * W + (r.x + r.w - 1)) br }

/-! ## Sending the frame -/

/-- What `compute_buffer_diff` writes for a changed cell `i`: `"\033[" << (y + 1) << ";" <<
(x + 1) << "H"` for its row `y` and column `x`, then the cell's bytes. -/
def diffCell (width i : Nat) (g : Bytes) : Bytes := moveTo (i / width + 1) (i % width + 1) ++ g

/-- The loop of `compute_buffer_diff` over the cells `i` to `i + k - 1`. `back[i]` past the end
of `back` would be undefined; `[]` stands for it. -/
def diffLoop (width : Nat) (front back : List Bytes) (i : Nat) : Nat → Bytes
  | 0 => []
  | k + 1 =>
    (if front.getD i [] ≠ back.getD i [] then diffCell width i (back.getD i []) else []) ++
      diffLoop width front back (i + 1) k

/-- `compute_buffer_diff(front, back)`. -/
def computeBufferDiff (width : Nat) (front back : List Bytes) : Bytes :=
  diffLoop width front back 0 front.length

/-- `present()`: the monitor after the call and the bytes it writes to the terminal. -/
def present (s : SystemMonitor) : SystemMonitor × Bytes :=
  let diff := computeBufferDiff s.width s.frontBuffer s.backBuffer
  if diff ≠ [] then ({ s with frontBuffer := s.backBuffer }, diff) else (s, [])

/-- `initialize()`, given the size `ioctl(TIOCGWINSZ)` reports as `(ws_col, ws_row)`, `none`
when it fails: the monitor after the call and the bytes it writes to the terminal. -/
def init (s : SystemMonitor) (winsize : Option (Nat × Nat)) : SystemMonitor × Bytes :=
  let size := winsize.getD (80, 24)
  let s' := { s with
    width := size.1
    height := size.2
    frontBuffer := List.replicate (size.1 * size.2) blank
    backBuffer := List.replicate (size.1 * size.2) blank
    ghostHeatMap := s.ghostHeatMap.take 1024 ++ List.replicate (1024 - s.ghostHeatMap.length) 0 }
  (s', ascii "\x1b[?25l" ++ ascii "\x1b[2J" ++ ascii "\x1b[H")

end SystemMonitor

/-! ## Frames of printable characters -/

/-- A buffer of `n` cells, each one printable character. -/
structure Cells (n : Nat) (buf : List Bytes) : Prop where
  length : buf.length = n
  glyph : ∀ g ∈ buf, Glyph g

namespace Cells
open SystemMonitor
variable {n : Nat} {buf : List Bytes}

theorem setCell (h : Cells n buf) {g : Bytes} (hg : Glyph g) (idx : Int) : Cells n (setCell buf idx g) := by
  unfold SystemMonitor.setCell
  split
  · exact ⟨(List.length_set ..).trans h.length, fun x hx =>
      (List.mem_or_eq_of_mem_set hx).elim (h.glyph x) fun e => e ▸ hg⟩
  · exact h

theorem foldl {α : Type} {f : List Bytes → α → List Bytes} (hf : ∀ buf a, Cells n buf → Cells n (f buf a)) :
    ∀ (l : List α) {buf}, Cells n buf → Cells n (l.foldl f buf)
  | [], _, h => h
  | a :: l, _, h => foldl hf l (hf _ a h)

theorem drawChars (width : Nat) (y : Int) {text : Bytes} (ht : ∀ c ∈ text, Glyph [c]) :
    ∀ {buf} (cx : Int), Cells n buf → Cells n (drawChars width y buf cx text) := by
  induction text with
  | nil => exact fun _ h => h
  | cons c cs ih =>
    intro buf cx h
    refine ih (fun c hc => ht c (List.mem_cons_of_mem _ hc)) (cx + 1) ?_
    split
    · exact h.setCell (ht c (List.mem_cons_self c cs)) _
    · exact h

end Cells

/-! ## What `draw_text` writes -/

namespace SystemMonitor

/-- `setCell` writes cell `idx` only, and only when the buffer has it. -/
theorem getElem?_setCell (buf : List Bytes) (idx : Int) (g : Bytes) (j : Nat) :
    (setCell buf idx g)[j]? = if (j : Int) = idx then buf[j]?.map fun _ => g else buf[j]? := by
  unfold setCell
  split_ifs with h hj hj
  · rw [List.getElem?_set', if_pos (by omega)]; rfl
  · rw [List.getElem?_set_ne (by omega)]
  · rw [List.getElem?_eq_none (by omega)]; rfl
  · rfl

/-- The loop of `draw_text` puts byte `j - y * width - cx` of the text in cell `j`, for the cells of
row `y` from column `cx` on. -/
theorem getElem?_drawChars (width : Nat) (y : Int) (text : Bytes) : ∀ (buf : List Bytes) (cx : Int) (j : Nat),
    (drawChars width y buf cx text)[j]? =
      if 0 ≤ (j : Int) - y * width - cx ∧ (j : Int) - y * width - cx < text.length ∧
        0 ≤ (j : Int) - y * width ∧ (j : Int) - y * width < width
      then buf[j]?.map fun _ => [text.getD ((j : Int) - y * width - cx).toNat 0]
      else buf[j]? := by
  induction text with
  | nil => intro buf cx j; rw [drawChars, if_neg (by simp only [List.length_nil]; omega)]
  | cons c cs ih =>
    intro buf cx j
    have hb : (if 0 ≤ cx ∧ cx < width then setCell buf (y * width + cx) [c] else buf)[j]? =
        if (j : Int) = y * width + cx ∧ 0 ≤ cx ∧ cx < width then buf[j]?.map fun _ => [c] else buf[j]? := by
      by_cases hc : 0 ≤ cx ∧ cx < width
      · rw [if_pos hc, getElem?_setCell]; simp only [hc, and_true]
      · rw [if_neg hc, if_neg (by tauto)]
    rw [drawChars, ih, hb, List.length_cons]
    rcases lt_trichotomy ((j : Int) - y * width - cx) 0 with hd | hd | hd
    · rw [if_neg (by omega), if_neg (by omega), if_neg (by omega)]
    · rw [if_neg (by omega), hd]
      simp only [Int.toNat_zero, List.getD_cons_zero]
      split_ifs <;> first | rfl | omega
    · have : ((j : Int) - y * width - cx).toNat = ((j : Int) - y * width - (cx + 1)).toNat + 1 := by omega
      rw [this, List.getD_cons_succ, if_neg (c := (j : Int) = _ ∧ _) (by omega)]
      split_ifs <;> first | rfl | omega

/-- `draw_text(x, y, text)` writes byte `k` of the text, alone, into column `x + k` of row `y`,
for the columns on the screen and a row on the screen, and changes no other cell: text that
runs past the right edge is cut off, never carried into the next row. -/
theorem getElem?_drawText (s : SystemMonitor) (x y : Int) (text : Bytes) (j : Nat) :
    (s.drawText x y text).backBuffer[j]? =
      if 0 ≤ y ∧ y < s.height ∧ 0 ≤ (j : Int) - y * s.width - x ∧ (j : Int) - y * s.width - x < text.length ∧
        0 ≤ (j : Int) - y * s.width ∧ (j : Int) - y * s.width < s.width
      then s.backBuffer[j]?.map fun _ => [text.getD ((j : Int) - y * s.width - x).toNat 0]
      else s.backBuffer[j]? := by
  unfold drawText
  by_cases hy : y < 0 ∨ s.height ≤ y
  · rw [if_pos hy, if_neg (by omega)]
  · have hy' : 0 ≤ y ∧ y < s.height := by omega
    rw [if_neg hy, getElem?_drawChars]
    simp only [hy', true_and]

end SystemMonitor

/-! ## The diff on the terminal -/

namespace Terminal
open SystemMonitor

/-- A changed cell's bytes move the cursor to it and print it there. -/
theorem feed_diffCell {t : Terminal} (ht : t.mode = .ground) {i : Nat} (hi : i < t.cols * t.rows)
    {g : Bytes} (hg : Glyph g) :
    t.feed (diffCell t.cols i g) = some ({ t with row := i / t.cols, col := i % t.cols }.print g) := by
  have hc : 0 < t.cols := Nat.pos_of_ne_zero fun h => by simp [h] at hi
  have hr : i / t.cols < t.rows := (Nat.div_lt_iff_lt_mul hc).2 (by rwa [Nat.mul_comm])
  have hm : i % t.cols < t.cols := Nat.mod_lt _ hc
  have hcoord {p n : Nat} (h : p < n) : coord (p + 1) n = p := by
    simp only [coord, Nat.max_eq_right (Nat.le_add_left 1 p), Nat.add_sub_cancel]; omega
  rw [diffCell, feed_append, feed_moveTo ht, Option.some_bind, hcoord hr, hcoord hm]
  exact feed_glyph (t := { t with row := i / t.cols, col := i % t.cols, mode := .ground }) rfl hg

/-- The screen after cell `i` of the diff: the back buffer's cells up to `i`, the front
buffer's from there. -/
private theorem set_take_drop {front back : List Bytes} (hl : front.length = back.length) {i : Nat}
    (hi : i < front.length) :
    (back.take i ++ front.drop i).set i (back.getD i []) = back.take (i + 1) ++ front.drop (i + 1) := by
  have hi' : i < back.length := hl ▸ hi
  rw [List.drop_eq_getElem_cons hi, List.take_succ, List.getD_eq_getElem?_getD,
    List.getElem?_eq_getElem hi', List.set_append_right _ _ (by rw [List.length_take]; omega),
    List.length_take, Nat.min_eq_left hi'.le, Nat.sub_self, Option.getD_some, List.set_cons_zero,
    Option.toList_some, List.append_assoc, List.singleton_append]

/-- An unchanged cell: the screen already holds the back buffer up to the next cell. -/
private theorem take_drop_succ {front back : List Bytes} (hl : front.length = back.length) {i : Nat}
    (hi : i < front.length) (h : front.getD i [] = back.getD i []) :
    back.take i ++ front.drop i = back.take (i + 1) ++ front.drop (i + 1) := by
  have hi' : i < back.length := hl ▸ hi
  simp only [List.getD_eq_getElem?_getD, List.getElem?_eq_getElem hi, List.getElem?_eq_getElem hi',
    Option.getD_some] at h
  rw [List.drop_eq_getElem_cons hi, List.take_succ, List.getElem?_eq_getElem hi', h,
    Option.toList_some, List.append_assoc, List.singleton_append]

/-- Fed to a terminal whose screen holds the back buffer up to cell `i` and the front buffer
from there, the rest of the diff leaves the back buffer on the screen. -/
theorem feed_diffLoop {front back : List Bytes} (hl : front.length = back.length)
    (hg : ∀ g ∈ back, Glyph g) :
    ∀ (k i : Nat) {t : Terminal}, i + k = front.length → front.length = t.cols * t.rows →
      t.mode = .ground → t.screen = back.take i ++ front.drop i →
      ∃ t', t.feed (diffLoop t.cols front back i k) = some t' ∧ t'.cols = t.cols ∧
        t'.rows = t.rows ∧ t'.mode = .ground ∧ t'.screen = back
  | 0, i, t, hk, _, ht, hs => by
    obtain rfl : i = front.length := hk
    exact ⟨t, rfl, rfl, rfl, ht, by rw [hs, List.drop_length, List.append_nil, hl, List.take_length]⟩
  | k + 1, i, t, hk, hn, ht, hs => by
    have hi : i < front.length := by omega
    have hi' : i < back.length := hl ▸ hi
    rw [diffLoop, feed_append]
    split_ifs with hd
    · have hgi : Glyph (back.getD i []) := by
        rw [List.getD_eq_getElem?_getD, List.getElem?_eq_getElem hi']
        exact hg _ (List.getElem_mem _)
      rw [feed_diffCell ht (hn ▸ hi) hgi, Option.some_bind]
      exact feed_diffLoop hl hg k (i + 1) (by omega) hn rfl (by simp only [print, hs]; rw [
        show i / t.cols * t.cols + i % t.cols = i from Nat.div_add_mod' i t.cols, set_take_drop hl hi])
    · rw [feed_nil, Option.some_bind]
      exact feed_diffLoop hl hg k (i + 1) (by omega) hn ht
        (by rw [hs, take_drop_succ hl hi (not_ne_iff.1 hd)])

/-- Fed to a terminal that shows the front buffer, the diff leaves the back buffer on the
screen. -/
theorem feed_computeBufferDiff {t : Terminal} (ht : t.mode = .ground) {front back : List Bytes}
    (hs : t.screen = front) (hn : front.length = t.cols * t.rows) (hb : Cells (t.cols * t.rows) back) :
    ∃ t', t.feed (computeBufferDiff t.cols front back) = some t' ∧ t'.cols = t.cols ∧
      t'.rows = t.rows ∧ t'.mode = .ground ∧ t'.screen = back :=
  feed_diffLoop (hn.trans hb.length.symm) hb.glyph front.length 0 (Nat.zero_add _) hn ht (by simp [hs])

end Terminal

namespace SystemMonitor

theorem diffCell_ne_nil (width i : Nat) (g : Bytes) : diffCell width i g ≠ [] := by
  simp [diffCell, moveTo, ascii]

/-- The diff of cells `i` to `i + k - 1` is empty exactly when none of them changed. -/
theorem diffLoop_eq_nil {width : Nat} {front back : List Bytes} : ∀ (k i : Nat),
    diffLoop width front back i k = [] ↔ ∀ j, i ≤ j → j < i + k → front.getD j [] = back.getD j []
  | 0, i => by simp only [diffLoop, true_iff]; intro j h₁ h₂; omega
  | k + 1, i => by
    rw [diffLoop, List.append_eq_nil, diffLoop_eq_nil k (i + 1)]
    constructor
    · rintro ⟨h₁, h₂⟩ j hj hj'
      by_cases hji : j = i
      · subst hji; by_contra hne; exact diffCell_ne_nil _ _ _ (by rwa [if_pos hne] at h₁)
      · exact h₂ j (by omega) (by omega)
    · intro h
      exact ⟨by rw [if_neg (not_not.2 (h i le_rfl (by omega)))], fun j hj hj' => h j (by omega) (by omega)⟩

/-- `present()` has something to write exactly when the frame changed. -/
theorem computeBufferDiff_eq_nil {width : Nat} {front back : List Bytes}
    (hl : front.length = back.length) : computeBufferDiff width front back = [] ↔ front = back := by
  rw [computeBufferDiff, diffLoop_eq_nil]
  refine ⟨fun h => List.ext_getElem hl fun j h₁ h₂ => ?_, fun h j _ _ => h ▸ rfl⟩
  simpa [List.getD_eq_getElem?_getD, List.getElem?_eq_getElem h₁, List.getElem?_eq_getElem h₂]
    using h j (Nat.zero_le j) (by omega)

/-- `compute_buffer_diff` is exact. Sent to a terminal that shows the front buffer, it leaves
the back buffer on the screen, and it is empty exactly when no cell changed. -/
theorem computeBufferDiff_exact {t : Terminal} (ht : t.mode = .ground) {front back : List Bytes}
    (hs : t.screen = front) (hn : front.length = t.cols * t.rows) (hb : Cells (t.cols * t.rows) back) :
    (∃ t', t.feed (computeBufferDiff t.cols front back) = some t' ∧ t'.mode = .ground ∧
      t'.screen = back) ∧ (computeBufferDiff t.cols front back = [] ↔ front = back) :=
  have ⟨t', h₁, _, _, h₂, h₃⟩ := Terminal.feed_computeBufferDiff ht hs hn hb
  ⟨⟨t', h₁, h₂, h₃⟩, computeBufferDiff_eq_nil (hn.trans hb.length.symm)⟩

theorem computeBufferDiff_exact_example :
    (∃ t', (⟨2, 1, [blank, blank], 0, 0, .ground⟩ : Terminal).feed
        (computeBufferDiff 2 [blank, blank] [ascii "a", blank]) = some t' ∧ t'.mode = .ground ∧
        t'.screen = [ascii "a", blank]) ∧
      (computeBufferDiff 2 [blank, blank] [ascii "a", blank] = [] ↔ [blank, blank] = [ascii "a", blank]) :=
  computeBufferDiff_exact rfl rfl rfl ⟨rfl, by decide⟩

/-- With nothing changed, `present()` writes nothing. -/
theorem present_of_eq_nil {s : SystemMonitor} (h : computeBufferDiff s.width s.frontBuffer s.backBuffer = []) :
    s.present = (s, []) := by
  dsimp only [present]
  rw [if_neg (not_not.2 h)]

/-- `present()` leaves nothing to present: a second call with nothing drawn in between writes
nothing and changes nothing. -/
theorem present_present (s : SystemMonitor) : s.present.1.present = (s.present.1, []) := by
  refine present_of_eq_nil ?_
  dsimp only [present]
  split
  · exact (computeBufferDiff_eq_nil rfl).2 rfl
  · exact not_ne_iff.1 ‹_›

end SystemMonitor

/-! ## The terminal shows the front buffer -/

/-- Text `draw_text` can draw without breaking the screen: printable ASCII, one cell a byte. -/
def Printable (text : Bytes) : Prop := ∀ c ∈ text, 0x20 ≤ c.toNat ∧ c.toNat < 0x7F

instance : DecidablePred Printable := fun _ => inferInstanceAs (Decidable (∀ _ ∈ _, _))

/-- The terminal `t` shows the front buffer of `s`, and the back buffer is a frame of printable
characters of the screen's size. -/
structure Shows (s : SystemMonitor) (t : Terminal) : Prop where
  cols : t.cols = s.width
  rows : t.rows = s.height
  ground : t.mode = .ground
  screen : t.screen = s.frontBuffer
  front : s.frontBuffer.length = s.width * s.height
  back : Cells (s.width * s.height) s.backBuffer

/-- `s'` is `s` with more drawn: the size, the front buffer and the texts still to draw are
those of `s`, and the back buffer is still a frame of printable characters. -/
structure Redraws (s s' : SystemMonitor) : Prop where
  width : s'.width = s.width
  height : s'.height = s.height
  front : s'.frontBuffer = s.frontBuffer
  header : s'.headerInfo = s.headerInfo
  input : s'.inputText = s.inputText
  back : Cells (s.width * s.height) s'.backBuffer

namespace Redraws
open SystemMonitor
variable {s s' s'' : SystemMonitor}

theorem refl (h : Cells (s.width * s.height) s.backBuffer) : Redraws s s := ⟨rfl, rfl, rfl, rfl, rfl, h⟩

theorem cells (h : Redraws s s') : Cells (s'.width * s'.height) s'.backBuffer := by
  rw [h.width, h.height]; exact h.back

theorem trans (h : Redraws s s') (h' : Redraws s' s'') : Redraws s s'' :=
  ⟨h'.width.trans h.width, h'.height.trans h.height, h'.front.trans h.front,
    h'.header.trans h.header, h'.input.trans h.input, by rw [← h.width, ← h.height]; exact h'.back⟩

/-- One more step: a back buffer that is still a frame, and the size, the front buffer and the
texts unchanged. -/
theorem step (h : Redraws s s') (hb : Cells (s'.width * s'.height) s''.backBuffer)
    (hw : s''.width = s'.width) (hh : s''.height = s'.height) (hf : s''.frontBuffer = s'.frontBuffer)
    (hi : s''.headerInfo = s'.headerInfo) (ht : s''.inputText = s'.inputText) : Redraws s s'' :=
  h.trans ⟨hw, hh, hf, hi, ht, hb⟩

theorem ite {c : Prop} [Decidable c] {a b : SystemMonitor} (ha : Redraws s a) (hb : Redraws s b) :
    Redraws s (if c then a else b) := by
  split
  · exact ha
  · exact hb

theorem clearBuffer (h : Redraws s s') : Redraws s s'.clearBuffer :=
  h.step ⟨(List.length_map ..).trans h.cells.length, fun g hg => by
    obtain ⟨_, _, rfl⟩ := List.mem_map.1 hg; exact glyph_blank⟩ rfl rfl rfl rfl rfl

theorem drawText (h : Redraws s s') (x y : Int) {text : Bytes} (ht : Printable text) :
    Redraws s (s'.drawText x y text) := by
  unfold SystemMonitor.drawText
  split
  · exact h
  · exact h.step (h.cells.drawChars _ _ (fun c hc => glyph_singleton.2 (ht c hc)) x) rfl rfl rfl rfl rfl

theorem drawBox (h : Redraws s s') (r : Rect) : Redraws s (s'.drawBox r) := by
  have hh : Glyph hLine := by decide
  have hv : Glyph vLine := by decide
  refine h.step (Cells.setCell (Cells.setCell (Cells.setCell (Cells.setCell ?_ (by decide) _)
    (by decide) _) (by decide) _) (by decide) _) rfl rfl rfl rfl rfl
  exact Cells.foldl (fun _ _ hb => (hb.setCell hv _).setCell hv _) _
    (Cells.foldl (fun _ _ hb => (hb.setCell hh _).setCell hh _) _ h.cells)

end Redraws

namespace Shows
open SystemMonitor
variable {s s' : SystemMonitor} {t : Terminal}

/-- Drawing keeps the terminal showing the front buffer. -/
theorem redraws (h : Shows s t) (hr : Redraws s s') : Shows s' t :=
  ⟨hr.width ▸ h.cols, hr.height ▸ h.rows, h.ground, hr.front ▸ h.screen,
    by rw [hr.front, hr.width, hr.height]; exact h.front, hr.cells⟩

/-- `present()` keeps the terminal showing the front buffer, which is now the frame that was
drawn. -/
theorem present (h : Shows s t) :
    ∃ t', t.feed s.present.2 = some t' ∧ Shows s.present.1 t' ∧ t'.screen = s.backBuffer := by
  dsimp only [SystemMonitor.present]
  split_ifs with hd
  · obtain ⟨t', hfeed, hc, hr, hg, hs⟩ := Terminal.feed_computeBufferDiff h.ground h.screen
      (by rw [h.front, h.cols, h.rows]) (by rw [h.cols, h.rows]; exact h.back)
    rw [h.cols] at hfeed
    exact ⟨t', hfeed, ⟨hc.trans h.cols, hr.trans h.rows, hg, hs, h.back.length, h.back⟩, hs⟩
  · have he := (computeBufferDiff_eq_nil (h.front.trans h.back.length.symm)).1 (not_ne_iff.1 hd)
    exact ⟨t, rfl, h, h.screen.trans he⟩

/-- `initialize()` on a terminal of the size it read (or, when `ioctl` fails, of the `80 × 24` it
assumes) clears the screen and leaves it showing the blank front buffer, whatever the screen
held before. -/
theorem init (s : SystemMonitor) (ht : t.mode = .ground) {winsize : Option (Nat × Nat)}
    (hw : winsize.getD (80, 24) = (t.cols, t.rows)) :
    ∃ t', t.feed (s.init winsize).2 = some t' ∧ Shows (s.init winsize).1 t' := by
  obtain ⟨cols, rows, screen, row, col, mode⟩ := t
  cases ht
  refine ⟨⟨cols, rows, List.replicate (cols * rows) blank, Terminal.coord 0 rows, Terminal.coord 0 cols,
    .ground⟩, rfl, ?_⟩
  simp only [SystemMonitor.init, hw]
  exact ⟨rfl, rfl, rfl, rfl, List.length_replicate .., List.length_replicate .., fun g hg =>
    (List.eq_of_mem_replicate hg) ▸ glyph_blank⟩

end Shows

end HyperionRuntime.Monitor
