import HyperionRuntime.Core.Tokenizer
import Mathlib.Data.Nat.Digits

/-!
# The terminal the system monitor draws on

`SystemMonitor` keeps a frame as a buffer of cells and sends the terminal escape sequences and
cell contents; what those bytes do is the terminal's business, not the program's. `Terminal` is
that reference: a VT-style parser fed one byte at a time (`Terminal.putByte`, `Terminal.feed`)
over a screen of `cols * rows` cells in row-major order, with a cursor and the parser's mode. It
knows the sequences the monitor sends: cursor position `ESC [ r ; c H`, erase display
`ESC [ 2 J`, and other control sequences, which change no cell. A printable UTF-8 character
(`Glyph`) fills one cell. Control bytes outside an escape sequence, and malformed UTF-8, are
outside the model (`none`).

The lemmas read the monitor's output back: a cell's bytes print it (`feed_glyph`), and a cursor
move with both coordinates printed in decimal (`feed_decimal`) puts the cursor there
(`feed_moveTo`).
-/

namespace HyperionRuntime.Monitor
open Core (Bytes ascii)

/-! ## UTF-8 characters -/

/-- The number of continuation bytes after a UTF-8 lead byte that starts a printable
character; `none` for any other byte. -/
def utf8Extra (b : UInt8) : Option Nat :=
  if 0x20 ≤ b.toNat ∧ b.toNat < 0x7F then some 0
  else if 0xC2 ≤ b.toNat ∧ b.toNat < 0xE0 then some 1
  else if 0xE0 ≤ b.toNat ∧ b.toNat < 0xF0 then some 2
  else if 0xF0 ≤ b.toNat ∧ b.toNat < 0xF5 then some 3
  else none

/-- A UTF-8 continuation byte. -/
def IsCont (b : UInt8) : Prop := 0x80 ≤ b.toNat ∧ b.toNat < 0xC0

instance : DecidablePred IsCont := fun _ => inferInstanceAs (Decidable (_ ∧ _))

/-- A cell's bytes are one printable character. -/
def Glyph : Bytes → Prop
  | [] => False
  | b :: cs => utf8Extra b = some cs.length ∧ ∀ c ∈ cs, IsCont c

instance : DecidablePred Glyph := fun
  | [] => isFalse id
  | _ :: _ => inferInstanceAs (Decidable (_ ∧ _))

/-- A one-byte cell is a glyph exactly when the byte is printable ASCII. -/
theorem glyph_singleton {b : UInt8} : Glyph [b] ↔ 0x20 ≤ b.toNat ∧ b.toNat < 0x7F := by
  simp only [Glyph, List.length_nil, List.not_mem_nil, false_imp_iff, imp_true_iff, and_true,
    utf8Extra]
  split_ifs <;> simp_all

/-- A space, the cell `clear_buffer` and `initialize` fill the buffers with. -/
def blank : Bytes := ascii " "

theorem glyph_blank : Glyph blank := by decide

/-! ## The terminal -/

/-- Where the parser is: between sequences, after `ESC`, inside `ESC [` with the parameters read
so far and the one being read, or inside a UTF-8 character with its bytes so far and the number
still to come. -/
inductive Mode
  | ground
  | escape
  | csi (params : List Nat) (cur : Nat)
  | utf8 (pending : Bytes) (need : Nat)
  deriving DecidableEq

/-- A terminal of `cols` columns and `rows` rows; cell `(r, c)` is `screen[r * cols + c]`. -/
structure Terminal where
  cols : Nat
  rows : Nat
  screen : List Bytes
  row : Nat
  col : Nat
  mode : Mode
  deriving DecidableEq

namespace Terminal

/-- Write a character at the cursor and move right, stopping at the last column. -/
def print (t : Terminal) (g : Bytes) : Terminal :=
  { t with screen := t.screen.set (t.row * t.cols + t.col) g, col := min (t.col + 1) (t.cols - 1),
           mode := .ground }

/-- A parameter of a cursor move: `1`-based, a missing or zero one counts as `1`, clamped to the
screen. -/
def coord (p : Nat) (n : Nat) : Nat := min (max 1 p - 1) (n - 1)

/-- The end of a control sequence `ESC [ params final`: `H` moves the cursor, `2 J` erases the
display, and every other final byte changes no cell. -/
def dispatch (t : Terminal) (params : List Nat) (final : UInt8) : Terminal :=
  if final.toNat = 0x48 then
    { t with row := coord (params.getD 0 0) t.rows, col := coord (params.getD 1 0) t.cols,
             mode := .ground }
  else if final.toNat = 0x4A ∧ params.getD 0 0 = 2 then
    { t with screen := List.replicate (t.cols * t.rows) blank, mode := .ground }
  else { t with mode := .ground }

/-- One byte. -/
def putByte (t : Terminal) (b : UInt8) : Option Terminal :=
  match t.mode with
  | .ground =>
    if b.toNat = 0x1B then some { t with mode := .escape }
    else match utf8Extra b with
      | some 0 => some (t.print [b])
      | some (n + 1) => some { t with mode := .utf8 [b] (n + 1) }
      | none => none
  | .escape => if b.toNat = 0x5B then some { t with mode := .csi [] 0 } else none
  | .csi ps cur =>
    if 0x30 ≤ b.toNat ∧ b.toNat < 0x3A then some { t with mode := .csi ps (cur * 10 + (b.toNat - 0x30)) }
    else if b.toNat = 0x3B then some { t with mode := .csi (ps ++ [cur]) 0 }
    else if b.toNat = 0x3F then some t
    else if 0x40 ≤ b.toNat ∧ b.toNat < 0x7F then some (t.dispatch (ps ++ [cur]) b)
    else none
  | .utf8 pend need =>
    if IsCont b then
      if need = 1 then some (t.print (pend ++ [b])) else some { t with mode := .utf8 (pend ++ [b]) (need - 1) }
    else none

/-- The bytes written to the terminal, in order. -/
def feed (t : Terminal) (bs : Bytes) : Option Terminal := bs.foldlM putByte t

@[simp] theorem feed_nil (t : Terminal) : t.feed [] = some t := rfl

theorem feed_cons (t : Terminal) (b : UInt8) (bs : Bytes) :
    t.feed (b :: bs) = (t.putByte b).bind (feed · bs) := rfl

theorem feed_append (t : Terminal) (bs cs : Bytes) :
    t.feed (bs ++ cs) = (t.feed bs).bind (feed · cs) := List.foldlM_append _ _ _ _

theorem feed_of_putByte {t t' : Terminal} {b : UInt8} (h : t.putByte b = some t') (bs : Bytes) :
    t.feed (b :: bs) = t'.feed bs := by
  rw [feed_cons, h]; rfl

@[simp] theorem print_mode (t : Terminal) (m : Mode) (g : Bytes) : { t with mode := m }.print g = t.print g := rfl

theorem length_print (t : Terminal) (g : Bytes) : (t.print g).screen.length = t.screen.length :=
  List.length_set ..

/-! ## Reading a cell back -/

/-- The continuation bytes of a character complete it. -/
theorem feed_utf8 : ∀ (cs : Bytes) {t : Terminal} {pend : Bytes}, t.mode = .utf8 pend cs.length →
    cs ≠ [] → (∀ c ∈ cs, IsCont c) → t.feed cs = some (t.print (pend ++ cs))
  | [], _, _, _, hne, _ => absurd rfl hne
  | [c], t, pend, ht, _, hc => by
    have h : t.putByte c = some (t.print (pend ++ [c])) := by
      simp [putByte, ht, hc c (List.mem_singleton_self c)]
    rw [feed_of_putByte h]; rfl
  | c :: d :: cs, t, pend, ht, _, hc => by
    have h : t.putByte c = some { t with mode := .utf8 (pend ++ [c]) (cs.length + 1) } := by
      simp [putByte, ht, hc c (List.mem_cons_self c _)]
    rw [feed_of_putByte h, feed_utf8 (d :: cs) rfl (List.cons_ne_nil _ _)
      fun x hx => hc x (List.mem_cons_of_mem _ hx)]
    simp

/-- A glyph, sent between sequences, is printed at the cursor. -/
theorem feed_glyph {t : Terminal} (ht : t.mode = .ground) :
    ∀ {g : Bytes}, Glyph g → t.feed g = some (t.print g)
  | b :: cs, ⟨hb, hc⟩ => by
    have hesc : b.toNat ≠ 0x1B := by
      intro h; simp only [utf8Extra, h] at hb; simp at hb
    cases cs with
    | nil =>
      exact feed_of_putByte (by simp [putByte, ht, hesc, hb]) []
    | cons c cs =>
      have h : t.putByte b = some { t with mode := .utf8 [b] (c :: cs).length } := by
        simp [putByte, ht, hesc, hb]
      rw [feed_of_putByte h, feed_utf8 _ rfl (List.cons_ne_nil _ _) hc]
      rfl

/-! ## Decimal numbers -/

/-- `ss << n` for a number `n ≥ 0`: its decimal digits. -/
def decimal (n : Nat) : Bytes := ascii (toString n)

private theorem digitChar_toUInt8 : ∀ d : Fin 10, ((Nat.digitChar d).toUInt8).toNat = 48 + d := by
  decide

/-- A digit inside a control sequence extends the parameter being read. -/
theorem putByte_digit {t : Terminal} {ps : List Nat} {a : Nat} (ht : t.mode = .csi ps a) {d : Nat}
    (hd : d < 10) : t.putByte (Nat.digitChar d).toUInt8 = some { t with mode := .csi ps (a * 10 + d) } := by
  have := digitChar_toUInt8 ⟨d, hd⟩
  simp only at this
  simp only [putByte, ht, this, if_pos (show 0x30 ≤ 48 + d ∧ 48 + d < 0x3A by omega)]
  congr 3; omega

private theorem feed_toDigitsCore {ps : List Nat} :
    ∀ (f m : Nat) (ds : List Char) {t : Terminal}, m < f → t.mode = .csi ps 0 →
      t.feed ((Nat.toDigitsCore 10 f m ds).map Char.toUInt8) =
        { t with mode := .csi ps m }.feed (ds.map Char.toUInt8)
  | 0, _, _, _, hm, _ => absurd hm (Nat.not_lt_zero _)
  | f + 1, m, ds, t, hm, ht => by
    have hd : m % 10 < 10 := Nat.mod_lt _ (by decide)
    simp only [Nat.toDigitsCore]
    split_ifs with h0
    · rw [List.map_cons, feed_of_putByte (putByte_digit ht hd)]
      congr 4; omega
    · rw [feed_toDigitsCore f (m / 10) _ (by omega) ht, List.map_cons,
        feed_of_putByte (putByte_digit rfl hd), Nat.div_add_mod']

/-- A number printed in decimal inside a control sequence is read back as the parameter. -/
theorem feed_decimal {t : Terminal} {ps : List Nat} (ht : t.mode = .csi ps 0) (n : Nat) :
    t.feed (decimal n) = some { t with mode := .csi ps n } :=
  feed_toDigitsCore (n + 1) n [] (Nat.lt_succ_self n) ht

/-! ## Cursor moves -/

/-- `"\x1b[" << r << ";" << c << "H"`: move the cursor to row `r` and column `c`, counted from
`1`. -/
def moveTo (r c : Nat) : Bytes := ascii "\x1b[" ++ decimal r ++ ascii ";" ++ decimal c ++ ascii "H"

/-- A cursor move, sent between sequences, puts the cursor at its (clamped) cell. -/
theorem feed_moveTo {t : Terminal} (ht : t.mode = .ground) (r c : Nat) :
    t.feed (moveTo r c) = some { t with row := coord r t.rows, col := coord c t.cols, mode := .ground } := by
  obtain ⟨cols, rows, screen, row, col, mode⟩ := t
  cases ht
  have h₁ : feed ⟨cols, rows, screen, row, col, .ground⟩ [0x1B, 0x5B] =
      some ⟨cols, rows, screen, row, col, .csi [] 0⟩ := rfl
  have h₂ := feed_decimal (t := ⟨cols, rows, screen, row, col, .csi [] 0⟩) rfl r
  have h₃ : feed ⟨cols, rows, screen, row, col, .csi [] r⟩ [0x3B] =
      some ⟨cols, rows, screen, row, col, .csi [r] 0⟩ := rfl
  have h₄ := feed_decimal (t := ⟨cols, rows, screen, row, col, .csi [r] 0⟩) rfl c
  have h₅ : feed ⟨cols, rows, screen, row, col, .csi [r] c⟩ [0x48] =
      some ⟨cols, rows, screen, coord r rows, coord c cols, .ground⟩ := rfl
  dsimp only at h₂ h₄
  rw [show moveTo r c = [0x1B, 0x5B] ++ decimal r ++ [0x3B] ++ decimal c ++ [0x48] from rfl]
  simp only [feed_append, h₁, h₂, h₃, h₄, h₅, Option.some_bind]

end Terminal

end HyperionRuntime.Monitor
