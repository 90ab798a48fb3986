import DordOs.Libk.Memory
import DordOs.Libk.Psf2
import DordOs.Libk.Render

/-!
`ws_draw_text`: a byte of the string picks the glyph image that is drawn. Nothing
compares it with the number of glyphs of the font.
-/
namespace DordOs
open Lib

/-- `glyphs` is the array at `font.glyph_data`, `str` the bytes before the terminator. -/
def wsDrawText (font : Font) (glyphs : List U32) (fb : Framebuf) (x y : I32) :
    Bytes → Option Framebuf
  | [] => some fb
  | c :: str => do
      let image := glyphs.drop (font.pxPerGlyph * c.setWidth 32).toNat
      let fb ← renderBlendImage fb image x y (font.glyphWidth.setWidth 32)
        (font.glyphHeight.setWidth 32)
      wsDrawText font glyphs fb (x + font.glyphWidth.setWidth 32) y str

/-- A call of `render_blend_image`: for which byte, with the image at which index, and
where on screen. -/
structure GlyphCall where
  char : U8
  index : Usz
  x : I32
  y : I32
  deriving DecidableEq

def wsTextCalls (font : Font) (x y : I32) : Bytes → List GlyphCall
  | [] => []
  | c :: str =>
      ⟨c, font.pxPerGlyph * c.setWidth 32, x, y⟩ ::
        wsTextCalls font (x + font.glyphWidth.setWidth 32) y str

def GlyphCall.draw (font : Font) (glyphs : List U32) (fb : Framebuf) (call : GlyphCall) :
    Option Framebuf :=
  renderBlendImage fb (glyphs.drop call.index.toNat) call.x call.y
    (font.glyphWidth.setWidth 32) (font.glyphHeight.setWidth 32)

theorem wsDrawText_eq_calls (font : Font) (glyphs : List U32) (fb : Framebuf) (x y : I32)
    (str : Bytes) :
    wsDrawText font glyphs fb x y str =
      (wsTextCalls font x y str).foldlM (GlyphCall.draw font glyphs) fb := by
  induction str generalizing fb x with
  | nil => rfl
  | cons c str ih =>
      rw [wsDrawText, wsTextCalls, List.foldlM_cons]
      exact congrArg _ (funext fun fb => ih fb _)

/-- The image for this byte lies in the glyph table. -/
def Font.Inside (font : Font) (c : U8) : Prop :=
  font.pxPerGlyph.toNat * c.toNat + font.glyphWidth.toNat * font.glyphHeight.toNat ≤
    font.glyphCount.toNat * font.pxPerGlyph.toNat

instance Font.decidableInside (font : Font) (c : U8) : Decidable (font.Inside c) :=
  inferInstanceAs (Decidable (_ ≤ _))

/-- The pixels of the glyph table. -/
def Font.tableSize (font : Font) : Nat := font.glyphCount.toNat * font.pxPerGlyph.toNat

/-- The image of the call, from its index on, lies in the glyph table. -/
def GlyphCall.Inside (font : Font) (call : GlyphCall) : Prop :=
  call.index.toNat + font.glyphWidth.toNat * font.glyphHeight.toNat ≤ font.tableSize

theorem index_of_mem_wsTextCalls {font : Font} {x y : I32} {str : Bytes} {call : GlyphCall}
    (h : call ∈ wsTextCalls font x y str) :
    call.index = font.pxPerGlyph * call.char.setWidth 32 := by
  induction str generalizing x with
  | nil => cases h
  | cons c str ih =>
      obtain rfl | h := List.mem_cons.mp h
      · rfl
      · exact ih h

theorem map_char_wsTextCalls (font : Font) (x y : I32) (str : Bytes) :
    (wsTextCalls font x y str).map GlyphCall.char = str := by
  induction str generalizing x with
  | nil => rfl
  | cons c str ih => rw [wsTextCalls, List.map_cons, ih]

/-- In a table that fits the address space the index of an image does not wrap. -/
theorem Font.Inside.index {font : Font} {c : U8} (h : font.Inside c)
    (htable : font.tableSize < 2 ^ 32) :
    (font.pxPerGlyph * c.setWidth 32).toNat = font.pxPerGlyph.toNat * c.toNat := by
  have hchar : (c.setWidth 32).toNat = c.toNat := BitVec.toNat_setWidth_of_le (by decide)
  rw [BitVec.toNat_mul, hchar]
  exact Nat.mod_eq_of_lt (Nat.lt_of_le_of_lt (Nat.le_trans (Nat.le_add_right _ _) h) htable)

namespace PsfGlyphs

/-- The pixels of a glyph in the table, `w * h` as it wraps. -/
def stored (g : PsfGlyphs) : Nat := g.w.toNat * g.h.toNat % 2 ^ 32

/-- The pixels of a glyph that is drawn, width and height cut to 16 bits. -/
def drawn (g : PsfGlyphs) : Nat := g.w.toNat % 2 ^ 16 * (g.h.toNat % 2 ^ 16)

/-- From glyph `c` on the table has as many entries as a drawn glyph covers. -/
def CharFits (g : PsfGlyphs) (c : U8) : Prop :=
  if g.stored = 0 then g.drawn = 0
  else c.toNat + (g.drawn + g.stored - 1) / g.stored ≤ g.glyphCount.toNat

instance (g : PsfGlyphs) (c : U8) : Decidable (g.CharFits c) :=
  inferInstanceAs (Decidable (if g.stored = 0 then g.drawn = 0 else _ ≤ _))

theorem fits_iff {c d p n : Nat} :
    p * c + d ≤ n * p ↔ if p = 0 then d = 0 else c + (d + p - 1) / p ≤ n := by
  split
  next hp =>
    rw [hp, Nat.zero_mul, Nat.mul_zero, Nat.zero_add]
    exact Nat.le_zero
  next hp =>
    have hceil (k : Nat) : (d + p - 1) / p ≤ k ↔ d ≤ p * k := by
      rw [Nat.div_le_iff_le_mul_add_pred (Nat.pos_of_ne_zero hp)]
      omega
    constructor
    · intro h
      have hle : c ≤ n := by
        refine Nat.le_of_mul_le_mul_left ?_ (Nat.pos_of_ne_zero hp)
        rw [Nat.mul_comm p n]
        omega
      obtain ⟨k, rfl⟩ := Nat.exists_eq_add_of_le hle
      rw [Nat.mul_comm (c + k), Nat.mul_add] at h
      have := (hceil k).mpr (by omega)
      omega
    · intro h
      obtain ⟨k, rfl⟩ := Nat.exists_eq_add_of_le (Nat.le_trans (Nat.le_add_right c _) h)
      have hd := (hceil k).mp (by omega)
      rw [Nat.mul_comm (c + k), Nat.mul_add]
      omega

/-- A glyph of ordinary size covers its own entry. -/
theorem charFits_iff_lt {g : PsfGlyphs} (hw : 1 ≤ g.w.toNat ∧ g.w.toNat < 2 ^ 16)
    (hh : 1 ≤ g.h.toNat ∧ g.h.toNat < 2 ^ 16) (c : U8) :
    g.CharFits c ↔ c.toNat < g.glyphCount.toNat := by
  have hpos : 1 ≤ g.w.toNat * g.h.toNat := Nat.mul_pos hw.1 hh.1
  have hlt : g.w.toNat * g.h.toNat < 2 ^ 32 := by
    have := Nat.mul_lt_mul'' hw.2 hh.2
    omega
  have hone : (g.w.toNat * g.h.toNat + g.w.toNat * g.h.toNat - 1) / (g.w.toNat * g.h.toNat) = 1 :=
    Nat.div_eq_of_lt_le (by omega) (by omega)
  rw [CharFits, stored, drawn, Nat.mod_eq_of_lt hlt, Nat.mod_eq_of_lt hw.2,
    Nat.mod_eq_of_lt hh.2, if_neg (Nat.ne_of_gt hpos), hone]
  exact Nat.lt_iff_add_one_le.symm

end PsfGlyphs

section Draw

variable {data : Mem} {len : Usz}

theorem PsfAccepted.inside_iff (h : PsfAccepted data len) (outFnt : Font) (outData : Usz) (c : U8) :
    (psfLoad data len outFnt outData).font.Inside c ↔ (psfGlyphsOf data).CharFits c := by
  have hfont : (psfLoad data len outFnt outData).font =
      ⟨(psfGlyphsOf data).w.setWidth 16, (psfGlyphsOf data).h.setWidth 16,
        (psfGlyphsOf data).glyphCount, (psfGlyphsOf data).w * (psfGlyphsOf data).h, outData⟩ := by
    rw [psfLoad_of_accepted h]
    dsimp only
    split <;> rfl
  rw [hfont, Font.Inside, BitVec.toNat_setWidth, BitVec.toNat_setWidth, BitVec.toNat_mul]
  exact PsfGlyphs.fits_iff

/-- The images a string is drawn with lie in the glyph table iff each byte of it has an
entry there, or as many as a drawn glyph covers. In a table that fits the address space the
images are then those at the indices that the calls are given. -/
theorem ws_draw_text_inside_iff {outFnt : Font} {outData : Usz}
    (hok : (psfLoad data len outFnt outData).err = .ok) (x y : I32) (str : CStr) :
    (∀ glyphs fb, wsDrawText (psfLoad data len outFnt outData).font glyphs fb x y str.bytes =
      (wsTextCalls (psfLoad data len outFnt outData).font x y str.bytes).foldlM
        (GlyphCall.draw (psfLoad data len outFnt outData).font glyphs) fb) ∧
    ((∀ call ∈ wsTextCalls (psfLoad data len outFnt outData).font x y str.bytes,
      (psfLoad data len outFnt outData).font.Inside call.char) ↔
        ∀ c ∈ str.bytes, (psfGlyphsOf data).CharFits c) ∧
    ((psfLoad data len outFnt outData).font.tableSize < 2 ^ 32 →
      ∀ call ∈ wsTextCalls (psfLoad data len outFnt outData).font x y str.bytes,
        (psfLoad data len outFnt outData).font.Inside call.char →
          call.Inside (psfLoad data len outFnt outData).font) := by
  have haccepted := accepted_of_ok hok
  refine ⟨fun glyphs fb => wsDrawText_eq_calls _ glyphs fb x y str.bytes, ?_,
    fun htable call hcall inside => ?_⟩
  · rw [← List.forall_mem_map, map_char_wsTextCalls]
    exact forall₂_congr fun c _ => haccepted.inside_iff outFnt outData c
  · rw [GlyphCall.Inside, index_of_mem_wsTextCalls hcall, inside.index htable]
    exact inside

theorem ws_draw_text_inside_striped :
    (psfLoad stripedFont 516 ⟨0, 0, 0, 0, 0⟩ 0x1000).err = .ok ∧
      ∀ call ∈ wsTextCalls (psfLoad stripedFont 516 ⟨0, 0, 0, 0, 0⟩ 0x1000).font 10 20 [0xFF],
        (psfLoad stripedFont 516 ⟨0, 0, 0, 0, 0⟩ 0x1000).font.Inside call.char := by
  have hok := (@stripedFont_accepted 516 (by decide)).load_ok ⟨0, 0, 0, 0, 0⟩ 0x1000
  exact ⟨hok, (ws_draw_text_inside_iff hok 10 20 ⟨[0xFF], by decide⟩).2.1.mpr (by decide)⟩

/-- The letter A in a font of one glyph. -/
theorem ws_draw_text_outside :
    ¬ ∀ (data : Mem) (len : Usz) (outFnt : Font) (outData : Usz) (x y : I32) (str : CStr),
      (psfLoad data len outFnt outData).err = .ok →
      ∀ call ∈ wsTextCalls (psfLoad data len outFnt outData).font x y str.bytes,
        (psfLoad data len outFnt outData).font.Inside call.char := by
  intro claim
  have haccepted := psf2Glyph_four.accepted
  have hinside := claim _ _ ⟨0, 0, 0, 0, 0⟩ 0x1000 0 0 ⟨[0x41], by decide⟩
    (haccepted.load_ok _ _) _ List.mem_cons_self
  exact absurd ((haccepted.inside_iff _ _ _).mp hinside) (by decide)

end Draw

end DordOs
