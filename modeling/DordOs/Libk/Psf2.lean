import DordOs.Libk.PsfHeader
import DordOs.Libk.PsfRows

/-!
The pixels of a PSF2 font. Rows are padded to bytes in the file. The loop drops the
padding only where the width is a multiple of four; elsewhere it stores too many
pixels, or takes bytes of the next row.
-/
namespace DordOs
open Lib

def psf2HeaderSize (data : Mem) : Nat := (psf32 data 8).toNat
def psf2GlyphCount (data : Mem) : Nat := (psf32 data 16).toNat
def psf2GlyphBytes (data : Mem) : Nat := (psf32 data 20).toNat
def psf2Height (data : Mem) : Nat := (psf32 data 24).toNat
def psf2Width (data : Mem) : Nat := (psf32 data 28).toNat

/-- A PSF2 font with all its glyphs. -/
structure Psf2File (data : Mem) (len : Usz) : Prop where
  magic : psf32 data 0 = psf2Magic
  version : psf32 data 4 = 0
  header : 32 ≤ len.toNat
  width : 1 ≤ psf2Width data ∧ psf2Width data < 2 ^ 16
  height : 1 ≤ psf2Height data
  glyphBytes : psf2GlyphBytes data = psf2Height data * ((psf2Width data + 7) / 8)
  size : psf2HeaderSize data + psf2GlyphCount data * psf2GlyphBytes data ≤ len.toNat

/-- The pixels of a PSF2 font, each from its bit in the file. -/
structure Psf2Pixels (data : Mem) (out : List U32) : Prop where
  length : out.length = psf2GlyphCount data * psf2Width data * psf2Height data
  pixel : ∀ g < psf2GlyphCount data, ∀ y < psf2Height data, ∀ x < psf2Width data,
    out[(g * psf2Height data + y) * psf2Width data + x]? = some
      (if (data (BitVec.ofNat 32 (psf2HeaderSize data + g * psf2GlyphBytes data +
          y * ((psf2Width data + 7) / 8) + x / 8))).getLsbD (7 - x % 8) then 0xFFFFFFFF else 0)

/-- The pass that stores pixel `x` of a row, and the place of the pixel in it. -/
def passSource : List Nat → Nat → Nat × Nat
  | [], x => (0, x)
  | left :: passes, x =>
      if x < left then (0, x)
      else
        let (pass, k) := passSource passes (x - left)
        (pass + 1, k)

/-- The bit pixel `x` of row `r` is taken from. -/
def psf2Taken (data : Mem) (r x : Nat) : Bool :=
  let (pass, k) := passSource (psfPasses (psf2Width data)) x
  (data (BitVec.ofNat 32
    (psf2HeaderSize data + r * psfRowBytes (psf2Width data) + pass))).getLsbD (7 - k)

/-- Its own bit. -/
def psf2Bit (data : Mem) (r x : Nat) : Bool :=
  (data (BitVec.ofNat 32
    (psf2HeaderSize data + r * ((psf2Width data + 7) / 8) + x / 8))).getLsbD (7 - x % 8)

/-- The file has the same bits in both places. -/
def Psf2Coincides (data : Mem) : Prop :=
  ∀ r < psf2Height data * psf2GlyphCount data, ∀ x < psf2Width data,
    psf2Taken data r x = psf2Bit data r x

variable {data : Mem} {len : Usz}

theorem length_passPixels (it : Usz) (passes : List Nat) :
    (passPixels data it passes).length = passes.sum := by
  induction passes generalizing it with
  | nil => rfl
  | cons left passes ih =>
      rw [passPixels, List.length_append, List.length_map, List.length_range, ih, List.sum_cons]

theorem getElem?_passPixels {passes : List Nat} {x : Nat} (h : x < passes.sum) (it : Usz) :
    (passPixels data it passes)[x]? = some
      (bitPixel (data (it + BitVec.ofNat 32 (passSource passes x).1)) (passSource passes x).2) := by
  induction passes generalizing it x with
  | nil => exact absurd h (Nat.not_lt_zero x)
  | cons left passes ih =>
      rw [List.sum_cons] at h
      rw [passPixels, passSource]
      by_cases hx : x < left
      · have hzero : it + BitVec.ofNat 32 0 = it := BitVec.add_zero it
        rw [List.getElem?_append_left (by rw [List.length_map, List.length_range]; exact hx),
          List.getElem?_map, List.getElem?_range hx, if_pos hx, hzero]
        rfl
      · rw [List.getElem?_append_right (by rw [List.length_map, List.length_range]; omega),
          List.length_map, List.length_range, ih (by omega), if_neg hx]
        dsimp only
        rw [Nat.add_comm (passSource passes (x - left)).1 1, ← addr_add_add]
        rfl

theorem passSource_replicate {n x : Nat} {passes : List Nat} (h : x < 8 * n) :
    passSource (List.replicate n 8 ++ passes) x = (x / 8, x % 8) := by
  induction n generalizing x with
  | zero => exact absurd h (Nat.not_lt_zero x)
  | succ n ih =>
      rw [List.replicate_succ, List.cons_append, passSource]
      by_cases hx : x < 8
      · rw [if_pos hx, Nat.div_eq_of_lt hx, Nat.mod_eq_of_lt hx]
      · rw [if_neg hx, ih (by omega)]
        exact Prod.ext (by dsimp only; omega) (by dsimp only; omega)

theorem passSource_skip {n x : Nat} {passes : List Nat} (h : 8 * n ≤ x) :
    passSource (List.replicate n 8 ++ passes) x =
      (n + (passSource passes (x - 8 * n)).1, (passSource passes (x - 8 * n)).2) := by
  induction n generalizing x with
  | zero =>
      rw [Nat.mul_zero, Nat.sub_zero, Nat.zero_add]
      rfl
  | succ n ih =>
      rw [List.replicate_succ, List.cons_append, passSource, if_neg (by omega), ih (by omega),
        show x - 8 - 8 * n = x - 8 * (n + 1) by omega]
      exact Prod.ext (by dsimp only; omega) rfl

theorem sum_psfPasses (w : Nat) : (psfPasses w).sum = 8 * (w / 8) + (psfTail (w % 8)).sum := by
  rw [psfPasses, List.sum_append, List.sum_replicate_nat, Nat.mul_comm]

/-- The widths whose rows come out with the right number of pixels. -/
theorem sum_psfPasses_eq_iff (w : Nat) :
    (psfPasses w).sum = w ↔ w % 8 = 0 ∨ w % 8 = 4 ∨ w % 8 = 6 ∨ w % 8 = 7 := by
  have hall : ∀ r : Fin 8, (psfTail r.val).sum = r.val ↔
      r.val = 0 ∨ r.val = 4 ∨ r.val = 6 ∨ r.val = 7 := by decide
  have htail := hall ⟨w % 8, Nat.mod_lt w (by decide)⟩
  dsimp only at htail
  rw [sum_psfPasses, ← htail]
  omega

/-- Multiples of four are read as they are stored. -/
theorem passSource_of_multiple {w x : Nat} (h : w % 8 = 0 ∨ w % 8 = 4) (hx : x < w) :
    passSource (psfPasses w) x = (x / 8, x % 8) := by
  by_cases hfull : x < 8 * (w / 8)
  · exact passSource_replicate hfull
  · have hfour : w % 8 = 4 := by omega
    rw [psfPasses, passSource_skip (Nat.not_lt.mp hfull), hfour, psfTail, passSource,
      if_pos (by omega)]
    exact Prod.ext (by dsimp only; omega) (by dsimp only; omega)

theorem psfRowBytes_of_multiple {w : Nat} (h : w % 8 = 0 ∨ w % 8 = 4) :
    psfRowBytes w = (w + 7) / 8 := by
  rw [psfRowBytes, psfPasses, List.length_append, List.length_replicate]
  obtain h | h := h
  · rw [h]
    change w / 8 + 0 = _
    omega
  · rw [h]
    change w / 8 + 1 = _
    omega

theorem coincides_of_multiple (h : psf2Width data % 8 = 0 ∨ psf2Width data % 8 = 4) :
    Psf2Coincides data := by
  intro r _ x hx
  rw [psf2Taken, psf2Bit, passSource_of_multiple h hx, psfRowBytes_of_multiple h]

/-- The rows of the font, as the loop stores them. -/
def psf2Rows (data : Mem) : List U32 :=
  (List.range (psf2Height data * psf2GlyphCount data)).flatMap fun r =>
    passPixels data (psf32 data 8 + BitVec.ofNat 32 (r * psfRowBytes (psf2Width data)))
      (psfPasses (psf2Width data))

theorem length_psf2Rows (data : Mem) : (psf2Rows data).length =
    (psfPasses (psf2Width data)).sum * (psf2Height data * psf2GlyphCount data) := by
  rw [psf2Rows, length_flatMap_of_const (fun _ => length_passPixels _ _), List.length_range]

theorem getElem?_psf2Rows {r x : Nat} (hsum : (psfPasses (psf2Width data)).sum = psf2Width data)
    (hr : r < psf2Height data * psf2GlyphCount data) (hx : x < psf2Width data) :
    (psf2Rows data)[r * psf2Width data + x]? =
      some (if psf2Taken data r x then 0xFFFFFFFF else 0) := by
  have hlen (r : Nat) : (passPixels data
      (psf32 data 8 + BitVec.ofNat 32 (r * psfRowBytes (psf2Width data)))
      (psfPasses (psf2Width data))).length = psf2Width data :=
    (length_passPixels _ _).trans hsum
  have hbase : psf32 data 8 = BitVec.ofNat 32 (psf2HeaderSize data) := by
    rw [psf2HeaderSize, BitVec.ofNat_toNat, BitVec.setWidth_eq]
  rw [psf2Rows, Nat.mul_comm r, getElem?_flatMap_of_const hlen (List.getElem?_range hr) hx,
    getElem?_passPixels (by rw [hsum]; exact hx), hbase, ← BitVec.ofNat_add, ← BitVec.ofNat_add]
  rfl

theorem pixel_injective {a b : Bool} :
    some (if a then (0xFFFFFFFF : U32) else 0) = some (if b then 0xFFFFFFFF else 0) ↔ a = b := by
  cases a <;> cases b <;> decide

/-- Row `y` of glyph `g` starts at its place in the table. -/
theorem psf2Bit_glyph
    (hbytes : psf2GlyphBytes data = psf2Height data * ((psf2Width data + 7) / 8)) (g y x : Nat) :
    psf2Bit data (g * psf2Height data + y) x =
      (data (BitVec.ofNat 32 (psf2HeaderSize data + g * psf2GlyphBytes data +
        y * ((psf2Width data + 7) / 8) + x / 8))).getLsbD (7 - x % 8) := by
  rw [psf2Bit, hbytes, Nat.add_mul, Nat.mul_assoc, ← Nat.add_assoc (psf2HeaderSize data)]

theorem row_lt {g y h n : Nat} (hg : g < n) (hy : y < h) : g * h + y < h * n := by
  have hle := Nat.mul_le_mul_right h (Nat.succ_le_of_lt hg)
  rw [Nat.succ_mul, Nat.mul_comm n] at hle
  omega

/-- With rows of the right length the pixels are right iff the bits are. -/
theorem psf2Pixels_iff (hbytes : psf2GlyphBytes data = psf2Height data * ((psf2Width data + 7) / 8))
    (hsum : (psfPasses (psf2Width data)).sum = psf2Width data) :
    Psf2Pixels data (psf2Rows data) ↔ Psf2Coincides data := by
  constructor
  · intro hpixels r hr x hx
    have hheight : 0 < psf2Height data := Nat.pos_of_ne_zero fun h => by
      rw [h, Nat.zero_mul] at hr
      exact Nat.not_lt_zero r hr
    have hpixel := hpixels.pixel (r / psf2Height data) (Nat.div_lt_of_lt_mul hr)
      (r % psf2Height data) (Nat.mod_lt r hheight) x hx
    rw [← psf2Bit_glyph hbytes, Nat.div_add_mod'] at hpixel
    rw [← pixel_injective, ← hpixel, getElem?_psf2Rows hsum hr hx]
  · intro hbits
    constructor
    · rw [length_psf2Rows, hsum, Nat.mul_comm (psf2Height data), ← Nat.mul_assoc,
        Nat.mul_comm (psf2Width data)]
    · intro g hg y hy x hx
      have hr := row_lt hg hy
      rw [getElem?_psf2Rows hsum hr hx, ← psf2Bit_glyph hbytes,
        hbits _ hr x hx]

/-- The condition under which the rows come out right. -/
def Psf2Intact (data : Mem) : Prop :=
  psf2GlyphCount data = 0 ∨ psf2Width data % 8 = 0 ∨ psf2Width data % 8 = 4 ∨
    ((psf2Width data % 8 = 6 ∨ psf2Width data % 8 = 7) ∧ Psf2Coincides data)

theorem psf2Rows_iff (hheight : 1 ≤ psf2Height data)
    (hbytes : psf2GlyphBytes data = psf2Height data * ((psf2Width data + 7) / 8)) :
    Psf2Pixels data (psf2Rows data) ↔ Psf2Intact data := by
  by_cases hcount : psf2GlyphCount data = 0
  · refine iff_of_true ⟨?_, fun g hg => ?_⟩ (Or.inl hcount)
    · rw [length_psf2Rows, hcount, Nat.mul_zero, Nat.mul_zero, Nat.zero_mul, Nat.zero_mul]
    · rw [hcount] at hg
      exact absurd hg (Nat.not_lt_zero g)
  rw [Psf2Intact, or_iff_right hcount]
  by_cases hsum : (psfPasses (psf2Width data)).sum = psf2Width data
  · rw [psf2Pixels_iff hbytes hsum]
    rw [sum_psfPasses_eq_iff] at hsum
    constructor
    · intro hbits
      obtain h | h | h := hsum
      · exact Or.inl h
      · exact Or.inr (Or.inl h)
      · exact Or.inr (Or.inr ⟨h, hbits⟩)
    · rintro (h | h | h)
      · exact coincides_of_multiple (Or.inl h)
      · exact coincides_of_multiple (Or.inr h)
      · exact h.2
  · refine iff_of_false (fun hpixels => hsum ?_) ?_
    · have hlen := hpixels.length
      rw [length_psf2Rows, Nat.mul_comm (psf2Height data), ← Nat.mul_assoc,
        Nat.mul_comm (psf2GlyphCount data) (psf2Width data)] at hlen
      exact Nat.eq_of_mul_eq_mul_right (Nat.pos_of_ne_zero hcount)
        (Nat.eq_of_mul_eq_mul_right hheight hlen)
    · rw [sum_psfPasses_eq_iff] at hsum
      rintro (h | h | h)
      · exact hsum (Or.inl h)
      · exact hsum (Or.inr (Or.inl h))
      · exact hsum (Or.inr (Or.inr h.1))

theorem psf16_eq_setWidth (off : Usz) : psf16 data off = (psf32 data off).setWidth 16 := by
  apply BitVec.eq_of_toNat_eq
  rw [psf16, psf32, BitVec.toNat_setWidth, BitVec.toNat_ofNat, BitVec.toNat_ofNat]
  simp only [readBytes, List.range, List.range.loop, List.map_cons, List.map_nil, leValue]
  omega

theorem Psf2File.magic1_ne (h : Psf2File data len) : psf16 data 0 ≠ psf1Magic := by
  rw [psf16_eq_setWidth, h.magic]
  decide

theorem ne_zero_of_toNat_pos {w : Nat} {a : BitVec w} (h : 1 ≤ a.toNat) : a ≠ 0 := by
  intro hzero
  have htoNat : a.toNat = 0 := by simp [hzero]
  omega

theorem Psf2File.accepted (h : Psf2File data len) : PsfAccepted data len := by
  have hheader := h.header
  have hlen := len.isLt
  have htable : (psf32 data 16 * psf32 data 20).toNat =
      psf2GlyphCount data * psf2GlyphBytes data := by
    rw [BitVec.toNat_mul]
    exact Nat.mod_eq_of_lt (Nat.lt_of_le_of_lt (Nat.le_add_left _ _)
      (Nat.lt_of_le_of_lt h.size hlen))
  have hsum : (psf32 data 8 + psf32 data 16 * psf32 data 20).toNat =
      psf2HeaderSize data + psf2GlyphCount data * psf2GlyphBytes data := by
    rw [BitVec.toNat_add, htable]
    exact Nat.mod_eq_of_lt (Nat.lt_of_le_of_lt h.size hlen)
  refine ⟨?_, ?_⟩
  · rw [BitVec.lt_def]
    exact Nat.not_lt.mpr (Nat.le_trans (by decide) hheader)
  · rw [if_neg h.magic1_ne]
    refine ⟨h.magic, ?_, h.version, ?_, ne_zero_of_toNat_pos h.width.1,
      ne_zero_of_toNat_pos h.height⟩
    · rw [BitVec.lt_def]
      exact Nat.not_lt.mpr hheader
    · rw [BitVec.lt_def, hsum]
      exact Nat.not_lt.mpr h.size

theorem Psf2File.load (h : Psf2File data len) (outFnt : Font) {outData : Usz} (hbuf : outData ≠ 0) :
    (psfLoad data len outFnt outData).out = psf2Rows data := by
  have hwidth : (psf2Glyphs data).w.toNat < 2 ^ 31 := Nat.lt_trans h.width.2 (by decide)
  rw [psfLoad_of_accepted h.accepted]
  dsimp only
  rw [if_neg hbuf, psfGlyphsOf, if_neg h.magic1_ne, psfGlyphs_spec]
  simp only [PsfGlyphs.rowPixels, PsfGlyphs.rowBytes, if_pos hwidth, List.nil_append]
  rfl

/-- A PSF2 font is decoded bit for bit iff its width is a multiple of four, it has no
glyphs, or its bits happen to agree where the loop looks for them. -/
theorem psf2_decodes_iff (h : Psf2File data len) (outFnt : Font) {outData : Usz}
    (hbuf : outData ≠ 0) :
    ((psfLoad data len outFnt outData).err = .ok ∧
      Psf2Pixels data (psfLoad data len outFnt outData).out) ↔ Psf2Intact data := by
  rw [h.load outFnt hbuf, ← psf2Rows_iff h.height h.glyphBytes]
  exact and_iff_right (h.accepted.load_ok outFnt outData)

/-- One glyph of one row of this width, at most eight. -/
def psf2Glyph (width : Nat) : Mem := fun a =>
  (leBytes 4 psf2Magic.toNat ++ leBytes 4 0 ++ leBytes 4 32 ++ leBytes 4 0 ++ leBytes 4 1 ++
    leBytes 4 1 ++ leBytes 4 1 ++ leBytes 4 width).getD a.toNat 0xA0

theorem psf2Glyph_four : Psf2File (psf2Glyph 4) 33 :=
  ⟨by decide, by decide, by decide, by decide, by decide,
    by decide, by decide⟩

theorem psf2Glyph_five : Psf2File (psf2Glyph 5) 33 :=
  ⟨by decide, by decide, by decide, by decide, by decide,
    by decide, by decide⟩

theorem psf2_decodes_width_four :
    (psfLoad (psf2Glyph 4) 33 ⟨0, 0, 0, 0, 0⟩ 0x1000).err = .ok ∧
      Psf2Pixels (psf2Glyph 4) (psfLoad (psf2Glyph 4) 33 ⟨0, 0, 0, 0, 0⟩ 0x1000).out :=
  (psf2_decodes_iff psf2Glyph_four ⟨0, 0, 0, 0, 0⟩ (by decide)).mpr
    (Or.inr (Or.inr (Or.inl (by decide))))

/-- A row of five pixels comes out as nine. -/
theorem psf2_width_five_overflows :
    ¬ ∀ (data : Mem) (len : Usz) (outFnt : Font) (outData : Usz), Psf2File data len →
      outData ≠ 0 → (psfLoad data len outFnt outData).err = .ok ∧
        Psf2Pixels data (psfLoad data len outFnt outData).out := by
  intro claim
  have hlen := (claim _ _ ⟨0, 0, 0, 0, 0⟩ 0x1000 psf2Glyph_five (by decide)).2.length
  rw [psf2Glyph_five.load _ (by decide), length_psf2Rows] at hlen
  exact absurd hlen (by decide)

end DordOs
