import Mathlib.Data.List.Basic
import DordOs.Libk.Move

/-!
The text terminal of `terminal.c`: the VGA text buffer, the write position and
the two bytes of the hardware cursor. Below it, the unbounded page the buffer is
a window of.
-/
namespace DordOs

/-- `TERMINAL_WIDTH` times `TERMINAL_HEIGHT`. -/
def terminalSize : Nat := 2000

structure Terminal where
  buf : List U16
  pos : U32
  color : U16
  cursorLow : U8
  cursorHigh : U8
  deriving DecidableEq

namespace Terminal

/-- `terminal_update_cursor_pos`: registers 0x0F and 0x0E behind ports 0x3D4, 0x3D5. -/
def updateCursorPos (t : Terminal) : Terminal :=
  { t with cursorLow := (t.pos &&& 0xFF).setWidth 8
           cursorHigh := ((t.pos >>> 8) &&& 0xFF).setWidth 8 }

/-- The `switch` of `terminal_putc`; `char` is signed. -/
def switch (c : U8) (t : Terminal) : Option Terminal :=
  if c = 0x0A then
    let lineBeginOffs := t.pos % 80
    some { t with pos := t.pos + (80 - lineBeginOffs) }
  else if c = 0x09 then
    let lineBeginOffs := t.pos % 80
    let tabOffs := lineBeginOffs % 4
    some { t with pos := t.pos + (4 - tabOffs) }
  else if c = 0x08 then do
    let pos := if t.pos ≠ 0 then t.pos - 1 else t.pos
    let buf ← store t.buf pos.toNat ((t.color.setWidth 32 <<< 8).setWidth 16)
    return { t with buf := buf, pos := pos }
  else do
    let buf ← store t.buf t.pos.toNat
      ((c.signExtend 32 ||| (t.color.setWidth 32 <<< 8)).setWidth 16)
    return { t with buf := buf, pos := t.pos + 1 }

/-- The end of `terminal_putc`: past the last row the buffer moves up by one. -/
def scroll (t : Terminal) : Option Terminal :=
  if 2000 ≤ t.pos then do
    let buf ← mmove16 t.buf 0 80 (2000 - 80)
    let buf ← mset16 buf (80 * (25 - 1)) 0 80
    return { t with buf := buf, pos := t.pos - 80 }
  else
    some t

def putc (c : U8) (t : Terminal) : Option Terminal := do
  let t ← switch c t
  let t ← scroll t
  return t.updateCursorPos

def write (t : Terminal) : List U8 → Option Terminal
  | [] => some t
  | c :: data => do
      let t ← putc c t
      write t data

def clear (t : Terminal) : Option Terminal := do
  let buf ← mset16 t.buf 0 0 2000
  return { t with buf := buf, pos := 0 }

end Terminal

/-- An unbounded page of rows of 80 cells with a cursor. The window on it is its
last 25 rows. -/
structure Page where
  cells : List U16
  cursor : Nat
  deriving DecidableEq

namespace Page

/-- The first cell of the window. -/
def top (p : Page) : Nat := p.cells.length - terminalSize

def window (p : Page) : List U16 := p.cells.drop p.top

def blank : Page := ⟨List.replicate terminalSize 0, 0⟩

theorem blank_length : blank.cells.length = terminalSize := List.length_replicate

theorem blank_top : blank.top = 0 := by
  rw [top, blank_length, Nat.sub_self]

/-- A cell in the colour of the terminal. -/
def glyph (color : U16) (c : U8) : U16 := (color <<< 8) ||| c.setWidth 16

/-- What a byte does to the page, the window apart. -/
def type (color : U16) (c : U8) (p : Page) : Page :=
  if c = 0x0A then { p with cursor := (p.cursor / 80 + 1) * 80 }
  else if c = 0x09 then { p with cursor := (p.cursor / 4 + 1) * 4 }
  else if c = 0x08 then
    let cursor := if p.top < p.cursor then p.cursor - 1 else p.cursor
    ⟨p.cells.set cursor (glyph color 0), cursor⟩
  else ⟨p.cells.set p.cursor (glyph color c), p.cursor + 1⟩

/-- At the end of the window the page grows by one row. -/
def slide (p : Page) : Page :=
  if p.cursor = p.cells.length then { p with cells := p.cells ++ List.replicate 80 0 } else p

def putc (color : U16) (p : Page) (c : U8) : Page := (p.type color c).slide

def write (color : U16) (p : Page) (data : List U8) : Page := data.foldl (putc color) p

/-- What a byte does to the page when it is printed as the cell `v`. -/
def typeAs (color v : U16) (c : U8) (p : Page) : Page :=
  if c = 0x0A then { p with cursor := (p.cursor / 80 + 1) * 80 }
  else if c = 0x09 then { p with cursor := (p.cursor / 4 + 1) * 4 }
  else if c = 0x08 then
    let cursor := if p.top < p.cursor then p.cursor - 1 else p.cursor
    ⟨p.cells.set cursor (glyph color 0), cursor⟩
  else ⟨p.cells.set p.cursor v, p.cursor + 1⟩

def writeAs (color : U16) (cell : U8 → U16) (p : Page) (data : List U8) : Page :=
  data.foldl (fun p c => (p.typeAs color (cell c) c).slide) p

/-- Typing in the colour of the terminal is printing bytes as their glyphs. -/
theorem write_eq_writeAs (color : U16) (p : Page) (data : List U8) :
    p.write color data = p.writeAs color (glyph color) data := rfl

theorem writeAs_congr {color : U16} {cell cell' : U8 → U16} {data : List U8}
    (h : ∀ c ∈ data, cell c = cell' c) (p : Page) :
    p.writeAs color cell data = p.writeAs color cell' data :=
  List.foldl_ext _ _ p fun p c hc => by rw [h c hc]

/-- The page consists of rows and has a full window. -/
structure Formed (p : Page) : Prop where
  rows : p.cells.length % 80 = 0
  full : terminalSize ≤ p.cells.length

theorem Formed.length_window {p : Page} (h : p.Formed) : p.window.length = terminalSize := by
  have := h.full
  rw [window, List.length_drop, top]
  omega

theorem window_set {p : Page} {i : Nat} (cursor : Nat) (v : U16) (hlo : p.top ≤ i) :
    (⟨p.cells.set i v, cursor⟩ : Page).window = p.window.set (i - p.top) v := by
  simp only [window, top, List.length_set]
  rw [List.drop_set, if_neg (by simp only [top] at hlo; omega)]

theorem window_slide {p : Page} (hp : p.Formed) (hend : p.cursor = p.cells.length) :
    p.slide.window = p.window.drop 80 ++ List.replicate 80 0 := by
  have hfull := hp.full
  have hsize : 80 ≤ terminalSize := by decide
  have hlen : p.slide.cells.length = p.cells.length + 80 := by
    rw [slide, if_pos hend, List.length_append, List.length_replicate]
  have htop : p.slide.top = p.top + 80 := by
    rw [top, top, hlen]
    omega
  have hle : p.top + 80 ≤ p.cells.length := by
    rw [top]
    omega
  rw [window, window, htop, slide, if_pos hend, List.drop_append_of_le_length hle, List.drop_drop]

theorem Formed.slide {p : Page} (h : p.Formed) : p.slide.Formed := by
  simp only [Page.slide]
  split
  next =>
    refine ⟨?_, ?_⟩
    · have hrows := h.rows
      simp only [List.length_append, List.length_replicate]
      omega
    · have hfull := h.full
      simp only [List.length_append, List.length_replicate]
      omega
  next => exact h

end Page

namespace Terminal

/-- The buffer shows the window of the page. -/
structure Shows (t : Terminal) (p : Page) : Prop where
  formed : p.Formed
  buf : t.buf = p.window
  pos : t.pos.toNat + p.top = p.cursor

variable {t : Terminal} {p : Page}

theorem Shows.length_buf (h : t.Shows p) : t.buf.length = terminalSize := by
  rw [h.buf, h.formed.length_window]

theorem color_shift (color : U16) : (color.setWidth 32 <<< 8).setWidth 16 = color <<< 8 := by
  apply BitVec.eq_of_getLsbD_eq
  intro i hi
  simp only [BitVec.getLsbD_setWidth, BitVec.getLsbD_shiftLeft]
  by_cases h : i < 8
  · simp [h]
  · simp [h, hi, show i - 8 < 32 by omega, show i < 32 by omega]

theorem signExtend_ascii {c : U8} (h : c < 0x80) : c.signExtend 32 = c.setWidth 32 := by
  apply BitVec.signExtend_eq_setWidth_of_msb_false
  rw [BitVec.msb_eq_false_iff_two_mul_lt]
  have hlt : c.toNat < 128 := BitVec.lt_def.mp h
  omega

/-- The cell `terminal_putc` prints a byte as. -/
def printed (color : U16) (c : U8) : U16 :=
  (c.signExtend 32 ||| (color.setWidth 32 <<< 8)).setWidth 16

theorem printed_ascii {c : U8} (h : c < 0x80) (color : U16) :
    printed color c = Page.glyph color c := by
  rw [printed, signExtend_ascii h, BitVec.setWidth_or, color_shift, BitVec.or_comm, Page.glyph,
    BitVec.setWidth_setWidth_of_le _ (by decide)]

theorem Shows.top_rows (h : t.Shows p) : p.top % 80 = 0 := by
  have hrows := h.formed.rows
  have hfull := h.formed.full
  have hsize : terminalSize = 25 * 80 := rfl
  rw [Page.top, hsize]
  rw [hsize] at hfull
  omega

theorem Shows.move (h : t.Shows p) {pos : U32} {cursor : Nat} (hpos : pos.toNat + p.top = cursor) :
    { t with pos := pos }.Shows { p with cursor := cursor } :=
  ⟨⟨h.formed.rows, h.formed.full⟩, h.buf, hpos⟩

theorem Shows.store (h : t.Shows p) {i : Nat} {pos : U32} {cursor : Nat} (v : U16)
    (hi : i < terminalSize) (hpos : pos.toNat + p.top = cursor) :
    ∃ buf, DordOs.store t.buf i v = some buf ∧
      { t with buf := buf, pos := pos }.Shows ⟨p.cells.set (i + p.top) v, cursor⟩ := by
  have hlen : (p.cells.set (i + p.top) v).length = p.cells.length := List.length_set
  refine ⟨_, store_of_lt (by rw [h.length_buf]; exact hi) v, ⟨?_, ?_⟩, ?_, ?_⟩
  · exact (congrArg (· % 80) hlen).trans h.formed.rows
  · exact Nat.le_trans h.formed.full (Nat.le_of_eq hlen.symm)
  · rw [Page.window_set cursor v (Nat.le_add_left p.top i), Nat.add_sub_cancel, ← h.buf]
  · rw [Page.top, hlen]
    exact hpos

theorem toNat_line_end {pos : U32} (h : pos.toNat < 25 * 80) :
    (pos + (80 - pos % 80)).toNat = (pos.toNat / 80 + 1) * 80 := by
  have hwidth : (80 : U32).toNat = 80 := rfl
  simp only [BitVec.toNat_add, BitVec.toNat_sub, BitVec.toNat_umod, hwidth]
  omega

theorem toNat_tab_stop {pos : U32} (h : pos.toNat < 25 * 80) :
    (pos + (4 - pos % 80 % 4)).toNat = (pos.toNat / 4 + 1) * 4 := by
  have hwidth : (80 : U32).toNat = 80 := rfl
  have htab : (4 : U32).toNat = 4 := rfl
  simp only [BitVec.toNat_add, BitVec.toNat_sub, BitVec.toNat_umod, hwidth, htab]
  omega

theorem toNat_back (pos : U32) :
    (if pos ≠ 0 then pos - 1 else pos).toNat = pos.toNat - 1 := by
  have hone : (1 : U32).toNat = 1 := rfl
  split
  next h =>
    have hne : pos.toNat ≠ 0 := fun heq => h (BitVec.eq_of_toNat_eq heq)
    rw [BitVec.toNat_sub, hone]
    omega
  next h =>
    rw [not_not.mp h]
    rfl

theorem Shows.line_feed (h : t.Shows p) (hpos : t.pos.toNat < terminalSize) :
    { t with pos := t.pos + (80 - t.pos % 80) }.Shows
        { p with cursor := (p.cursor / 80 + 1) * 80 } ∧
      (t.pos + (80 - t.pos % 80)).toNat ≤ terminalSize := by
  have hrows := h.top_rows
  have hcursor := h.pos
  have hsize : terminalSize = 25 * 80 := rfl
  have hmove := toNat_line_end (hsize ▸ hpos)
  refine ⟨h.move ?_, ?_⟩
  · rw [hmove]
    omega
  · rw [hmove, hsize]
    omega

theorem Shows.tab (h : t.Shows p) (hpos : t.pos.toNat < terminalSize) :
    { t with pos := t.pos + (4 - t.pos % 80 % 4) }.Shows
        { p with cursor := (p.cursor / 4 + 1) * 4 } ∧
      (t.pos + (4 - t.pos % 80 % 4)).toNat ≤ terminalSize := by
  have hrows := h.top_rows
  have hcursor := h.pos
  have hsize : terminalSize = 25 * 80 := rfl
  have hmove := toNat_tab_stop (hsize ▸ hpos)
  refine ⟨h.move ?_, ?_⟩
  · rw [hmove]
    omega
  · rw [hmove, hsize]
    omega

/-- The cell before the cursor is blanked; at the top of the window the cursor stays. -/
theorem Shows.back (h : t.Shows p) (hpos : t.pos.toNat < terminalSize) :
    ∃ buf, DordOs.store t.buf (if t.pos ≠ 0 then t.pos - 1 else t.pos).toNat
        ((t.color.setWidth 32 <<< 8).setWidth 16) = some buf ∧
      { t with buf := buf, pos := if t.pos ≠ 0 then t.pos - 1 else t.pos }.Shows
        ⟨p.cells.set (if p.top < p.cursor then p.cursor - 1 else p.cursor)
            (Page.glyph t.color 0), if p.top < p.cursor then p.cursor - 1 else p.cursor⟩ ∧
      (if t.pos ≠ 0 then t.pos - 1 else t.pos).toNat ≤ terminalSize := by
  have hcursor := h.pos
  have hback := toNat_back t.pos
  have hcell : (if p.top < p.cursor then p.cursor - 1 else p.cursor) =
      t.pos.toNat - 1 + p.top := by
    split <;> omega
  have hblank : (t.color.setWidth 32 <<< 8).setWidth 16 = Page.glyph t.color 0 :=
    (color_shift t.color).trans BitVec.or_zero.symm
  obtain ⟨buf, hstore, hshows⟩ := h.store (Page.glyph t.color 0)
    (show t.pos.toNat - 1 < terminalSize by omega)
    (show (if t.pos ≠ 0 then t.pos - 1 else t.pos).toNat + p.top = t.pos.toNat - 1 + p.top by
      rw [hback])
  refine ⟨buf, ?_, ?_, ?_⟩
  · rw [hback, hblank, hstore]
  · rw [hcell]
    exact hshows
  · rw [hback]
    omega

theorem Shows.print (h : t.Shows p) (hpos : t.pos.toNat < terminalSize) (v : U16) :
    ∃ buf, DordOs.store t.buf t.pos.toNat v = some buf ∧
      { t with buf := buf, pos := t.pos + 1 }.Shows ⟨p.cells.set p.cursor v, p.cursor + 1⟩ ∧
      (t.pos + 1).toNat ≤ terminalSize := by
  have hcursor := h.pos
  have hsize : terminalSize = 25 * 80 := rfl
  have hnext : (t.pos + 1).toNat = t.pos.toNat + 1 := by
    have hone : (1 : U32).toNat = 1 := rfl
    rw [BitVec.toNat_add, hone]
    omega
  obtain ⟨buf, hstore, hshows⟩ := h.store v hpos
    (show (t.pos + 1).toNat + p.top = p.cursor + 1 by omega)
  rw [hcursor] at hshows
  refine ⟨buf, hstore, hshows, ?_⟩
  rw [hnext]
  omega

theorem switch_shows (c : U8) (h : t.Shows p) (hpos : t.pos.toNat < terminalSize) :
    ∃ t', switch c t = some t' ∧ t'.Shows (p.typeAs t.color (printed t.color c) c) ∧
      t'.color = t.color ∧ t'.pos.toNat ≤ terminalSize := by
  simp only [switch, Page.typeAs]
  split
  next =>
    obtain ⟨hshows, hend⟩ := h.line_feed hpos
    exact ⟨_, rfl, hshows, rfl, hend⟩
  next =>
    split
    next =>
      obtain ⟨hshows, hend⟩ := h.tab hpos
      exact ⟨_, rfl, hshows, rfl, hend⟩
    next =>
      split
      next =>
        obtain ⟨buf, hstore, hshows, hend⟩ := h.back hpos
        exact ⟨_, by rw [hstore]; rfl, hshows, rfl, hend⟩
      next =>
        obtain ⟨buf, hstore, hshows, hend⟩ := h.print hpos (printed t.color c)
        rw [printed] at hstore
        exact ⟨_, by rw [hstore]; rfl, hshows, rfl, hend⟩

theorem scroll_buf {buf : List U16} (h : buf.length = terminalSize) :
    ∃ moved, mmove16 buf 0 80 (2000 - 80) = some moved ∧
      mset16 moved (80 * (25 - 1)) 0 80 = some (buf.drop 80 ++ List.replicate 80 0) := by
  have hrest : ((2000 : U32) - 80).toNat = 24 * 80 := rfl
  have hrow : (80 : U32).toNat = 80 := rfl
  have hlen : buf.length = 25 * 80 := h
  obtain ⟨moved, hmove, hmlen, hcell⟩ := @mmove_eq_some _ buf 0 80 (24 * 80) (by omega) (by omega)
  obtain ⟨filled, hfill, hflen, hfcell⟩ := @mset_eq_some _ moved (24 * 80) 80 (0 : U16) (by omega)
  refine ⟨moved, by rw [mmove16, hrest, hmove], ?_⟩
  rw [mset16, hrow, Nat.mul_comm, hfill, Option.some.injEq]
  apply List.ext_getElem?
  intro j
  rw [hfcell, hcell, Nat.sub_zero, moveSource_of_le (Nat.zero_le 80)]
  by_cases hold : j < 24 * 80
  · rw [if_neg (by omega), if_pos (by omega), List.getElem?_append_left
      (by rw [List.length_drop]; omega), List.getElem?_drop]
  · rw [List.getElem?_append_right (by rw [List.length_drop]; omega), List.getElem?_replicate,
      List.length_drop]
    by_cases hnew : j < 25 * 80
    · rw [if_pos (by omega), if_pos (by omega)]
    · rw [if_neg (by omega), if_neg (by omega), if_neg (by omega), List.getElem?_eq_none (by omega)]

/-- The end of `terminal_putc` slides the window. -/
theorem scroll_shows (h : t.Shows p) (hpos : t.pos.toNat ≤ terminalSize) :
    ∃ t', scroll t = some t' ∧ t'.Shows p.slide ∧ t'.color = t.color ∧
      t'.pos.toNat < terminalSize := by
  have hfull := h.formed.full
  have hcursor := h.pos
  have hbound : (2000 : U32).toNat = terminalSize := rfl
  by_cases hend : 2000 ≤ t.pos
  · have hpast : terminalSize ≤ t.pos.toNat := hbound ▸ BitVec.le_def.mp hend
    have hat : p.cursor = p.cells.length := by
      rw [Page.top] at hcursor
      omega
    obtain ⟨moved, hmove, hfill⟩ := scroll_buf h.length_buf
    have hup : (t.pos - 80).toNat = t.pos.toNat - 80 := by
      have hrow : (80 : U32).toNat = 80 := rfl
      have hwide : 80 ≤ terminalSize := by decide
      rw [BitVec.toNat_sub, hrow]
      omega
    have htop : p.slide.top = p.top + 80 := by
      rw [Page.top, Page.top, Page.slide, if_pos hat, List.length_append, List.length_replicate]
      omega
    have hwide : 80 < terminalSize := by decide
    refine ⟨{ t with buf := t.buf.drop 80 ++ List.replicate 80 0, pos := t.pos - 80 }, ?_,
      ⟨h.formed.slide, ?_, ?_⟩, rfl, ?_⟩
    · rw [scroll, if_pos hend, hmove, Option.bind_eq_bind, Option.bind_some, hfill]
      rfl
    · rw [Page.window_slide h.formed hat, h.buf]
    · have hstay : p.slide.cursor = p.cursor := by
        rw [Page.slide, if_pos hat]
      rw [htop, hstay]
      simp only [hup]
      omega
    · simp only [hup]
      omega
  · have hlt : t.pos.toNat < terminalSize := by
      rw [BitVec.le_def, hbound] at hend
      omega
    have hstay : p.slide = p := by
      refine if_neg fun hat => ?_
      rw [Page.top] at hcursor
      omega
    refine ⟨t, if_neg hend, ?_, rfl, hlt⟩
    rw [hstay]
    exact h

theorem putc_shows (c : U8) (h : t.Shows p) (hpos : t.pos.toNat < terminalSize) :
    ∃ t', putc c t = some t' ∧ t'.Shows (p.typeAs t.color (printed t.color c) c).slide ∧
      t'.color = t.color ∧ t'.pos.toNat < terminalSize := by
  obtain ⟨t₁, hswitch, hshows₁, hcolor₁, hpos₁⟩ := switch_shows c h hpos
  obtain ⟨t₂, hscroll, hshows₂, hcolor₂, hpos₂⟩ := scroll_shows hshows₁ hpos₁
  refine ⟨t₂.updateCursorPos, ?_, ⟨hshows₂.formed, hshows₂.buf, hshows₂.pos⟩,
    hcolor₂.trans hcolor₁, hpos₂⟩
  rw [putc, hswitch, Option.bind_eq_bind, Option.bind_some, hscroll]
  rfl

theorem write_shows (data : List U8) (h : t.Shows p) (hpos : t.pos.toNat < terminalSize) :
    ∃ t', write t data = some t' ∧ t'.Shows (p.writeAs t.color (printed t.color) data) ∧
      t'.pos.toNat < terminalSize := by
  induction data generalizing t p with
  | nil => exact ⟨t, rfl, h, hpos⟩
  | cons c data ih =>
      obtain ⟨t₁, hputc, hshows₁, hcolor₁, hpos₁⟩ := putc_shows c h hpos
      obtain ⟨t₂, hwrite, hshows₂, hpos₂⟩ := ih hshows₁ hpos₁
      refine ⟨t₂, ?_, ?_, hpos₂⟩
      · rw [write, hputc, Option.bind_eq_bind, Option.bind_some, hwrite]
      · rw [hcolor₁] at hshows₂
        exact hshows₂

theorem clear_shows (h : t.buf.length = terminalSize) :
    ∃ t', clear t = some t' ∧ t'.Shows Page.blank ∧ t'.color = t.color ∧ t'.pos = 0 := by
  have hcount : (2000 : U32).toNat = terminalSize := rfl
  have hfill := mset_all t.buf (0 : U16)
  rw [h] at hfill
  have hzeros : List.replicate terminalSize 0 = Page.blank.window := by
    rw [Page.window, Page.blank_top, List.drop_zero, Page.blank]
  refine ⟨{ t with buf := List.replicate terminalSize 0, pos := 0 }, ?_, ⟨⟨?_, ?_⟩, hzeros, ?_⟩,
    rfl, rfl⟩
  · rw [clear, mset16, hcount, hfill]
    rfl
  · rw [Page.blank_length, terminalSize]
  · exact Nat.le_of_eq Page.blank_length.symm
  · exact congrArg ((0 : U32).toNat + ·) Page.blank_top

theorem clear_write_shows (hbuf : t.buf.length = terminalSize) (data : List U8) :
    ∃ t₀ t', clear t = some t₀ ∧ write t₀ data = some t' ∧
      t'.Shows (Page.blank.writeAs t.color (printed t.color) data) ∧
      t'.pos.toNat < terminalSize := by
  obtain ⟨t₀, hclear, hshows₀, hcolor, hzero⟩ := clear_shows hbuf
  have hpos : t₀.pos.toNat < terminalSize := by
    rw [hzero]
    decide
  obtain ⟨t', hwrite, hshows, hlt⟩ := write_shows data hshows₀ hpos
  rw [hcolor] at hshows
  exact ⟨t₀, t', hclear, hwrite, hshows, hlt⟩

theorem terminal_refines_page {t : Terminal} {data : List U8}
    (hbuf : t.buf.length = terminalSize) (hdata : ∀ c ∈ data, c < 0x80) :
    ∃ t₀ t', clear t = some t₀ ∧ write t₀ data = some t' ∧ t'.pos.toNat < terminalSize ∧
      t'.buf = (Page.blank.write t.color data).window ∧
      t'.pos.toNat + (Page.blank.write t.color data).top =
        (Page.blank.write t.color data).cursor := by
  obtain ⟨t₀, t', hclear, hwrite, hshows, hlt⟩ := clear_write_shows hbuf data
  have hascii : ∀ c ∈ data, printed t.color c = Page.glyph t.color c :=
    fun c hc => printed_ascii (hdata c hc) t.color
  rw [Page.writeAs_congr hascii, ← Page.write_eq_writeAs] at hshows
  exact ⟨t₀, t', hclear, hwrite, hlt, hshows.buf, hshows.pos⟩

theorem terminal_refines_page_two_lines :
    ∃ t₀ t', clear ⟨List.replicate terminalSize 0x0720, 0, 0x0F, 0, 0⟩ = some t₀ ∧
      write t₀ [0x61, 0x0A, 0x09, 0x62, 0x08] = some t' ∧ t'.pos.toNat < terminalSize ∧
      t'.buf = (Page.blank.write 0x0F [0x61, 0x0A, 0x09, 0x62, 0x08]).window ∧
      t'.pos.toNat + (Page.blank.write 0x0F [0x61, 0x0A, 0x09, 0x62, 0x08]).top =
        (Page.blank.write 0x0F [0x61, 0x0A, 0x09, 0x62, 0x08]).cursor :=
  @terminal_refines_page ⟨List.replicate terminalSize 0x0720, 0, 0x0F, 0, 0⟩ _
    List.length_replicate (by decide)

end Terminal

end DordOs
