import DordOs.Lib.Memory
import DordOs.Libk.Err
import DordOs.Libk.PrecompTab

/-!
The reader of console fonts of `libk/psf.c`. A pointer into the file is its offset
from `data` modulo 2 ^ 32. The file is followed by whatever memory holds there, and
the offsets of the bytes that are read are kept. The glyph buffer does not overlap
the file; its pixels are listed in the order in which they are stored.
-/
namespace DordOs
open Lib

/-- `font_t`. -/
structure Font where
  glyphWidth : U16
  glyphHeight : U16
  glyphCount : U32
  pxPerGlyph : Usz
  glyphData : Usz
  deriving DecidableEq

def psf1Magic : U16 := 0x0436
def psf2Magic : U32 := 0x864ab572
def psf1Mode512 : U8 := 0x01

/-- Code that reads the file, with the offsets read so far. -/
abbrev PsfM := StateM (List Usz)

/-- The object of `n` bytes at `off`. -/
def psfField (data : Mem) (off : Usz) (n : Nat) : PsfM Nat := fun reads =>
  (leValue (readBytes data off n), reads ++ (List.range n).map fun k => off + BitVec.ofNat 32 k)

def readU8 (data : Mem) (off : Usz) : PsfM U8 := BitVec.ofNat 8 <$> psfField data off 1
def readU16 (data : Mem) (off : Usz) : PsfM U16 := BitVec.ofNat 16 <$> psfField data off 2
def readU32 (data : Mem) (off : Usz) : PsfM U32 := BitVec.ofNat 32 <$> psfField data off 4

/-- The values of `w`, `h`, `glyph_count` and `it` behind the header. -/
structure PsfGlyphs where
  w : U32
  h : U32
  glyphCount : U32
  it : Usz
  deriving DecidableEq

/-- A header that starts with `PSF1_MAGIC`. -/
def psf1Header (data : Mem) (len : Usz) : PsfM (Option PsfGlyphs) := do
  if len < 4 then return none
  else if (← readU8 data 3) = 0 then return none
  else
    let h := (← readU8 data 3).setWidth 32
    let mode ← readU8 data 2
    return some ⟨8, h, if mode &&& psf1Mode512 ≠ 0 then 512 else 256, 4⟩

/-- A header that starts with `PSF2_MAGIC`. -/
def psf2Header (data : Mem) (len : Usz) : PsfM (Option PsfGlyphs) := do
  if len < 32 then return none
  else if (← readU32 data 4) ≠ 0 then return none
  else
    let glyphtabSize := (← readU32 data 16) * (← readU32 data 20)
    if len < (← readU32 data 8) + glyphtabSize then return none
    else if (← readU32 data 28) = 0 then return none
    else if (← readU32 data 24) = 0 then return none
    else
      let w ← readU32 data 28
      let h ← readU32 data 24
      let glyphCount ← readU32 data 16
      return some ⟨w, h, glyphCount, ← readU32 data 8⟩

/-- `psf_load` up to the first store to `out_fnt`; `none` is `ERR_FMTINVAL`. -/
def psfHeader (data : Mem) (len : Usz) : PsfM (Option PsfGlyphs) := do
  if len < 4 then return none
  else if (← readU16 data 0) = psf1Magic then psf1Header data len
  else if (← readU32 data 0) = psf2Magic then psf2Header data len
  else return none

/-- The state of the glyph loop: `it`, the offsets read, and the pixels stored. -/
structure PsfCursor where
  it : Usz
  reads : List Usz
  out : List U32
  deriving DecidableEq

/-- `mcpy8(out, precomp_tab[*it++], left * sizeof(u32))` and `out += left`. -/
def PsfCursor.copy (data : Mem) (left : Usz) (c : PsfCursor) : PsfCursor where
  it := c.it + 1
  reads := c.reads ++ [c.it]
  out := c.out ++ (precompTab.getD (data c.it).toNat []).take left.toNat

/-- `while (bits > 0)`; each pass lowers `bits`. -/
def psfRowFrom (data : Mem) : Nat → I32 → PsfCursor → PsfCursor
  | 0, _, c => c
  | fuel + 1, bits, c =>
      if 0 < bits.toInt then
        let left : Usz := if bits.toInt < 8 then 8 - bits else 8
        psfRowFrom data fuel (bits - left) (c.copy data left)
      else c

def psfRow (data : Mem) (w : U32) : PsfCursor → PsfCursor := psfRowFrom data w.toNat w

def psfGlyphs (data : Mem) (g : PsfGlyphs) : PsfCursor → PsfCursor :=
  forUp 0 g.glyphCount fun _ => forUp 0 g.h fun _ => psfRow data g.w

structure PsfRun where
  err : Err
  font : Font
  out : List U32
  reads : List Usz
  deriving DecidableEq

def psfLoad (data : Mem) (len : Usz) (outFnt : Font) (outData : Usz) : PsfRun :=
  match (psfHeader data len).run [] with
  | (none, reads) => ⟨.fmtInval, outFnt, [], reads⟩
  | (some g, reads) =>
      let font : Font := ⟨g.w.setWidth 16, g.h.setWidth 16, g.glyphCount, g.w * g.h, outData⟩
      if outData = 0 then ⟨.ok, font, [], reads⟩
      else
        let c := psfGlyphs data g ⟨g.it, reads, []⟩
        ⟨.ok, font, c.out, c.reads⟩

section Rows

variable {data : Mem}

theorem psfGlyphs_eq (g : PsfGlyphs) (c : PsfCursor) :
    psfGlyphs data g c = (psfRow data g.w)^[g.h.toNat * g.glyphCount.toNat] c := by
  have hrows : (fun _ : U32 => forUp 0 g.h fun _ : Usz => psfRow data g.w) =
      fun _ => (psfRow data g.w)^[g.h.toNat] := by
    funext _ c
    exact forUp_const g.h _ c
  rw [psfGlyphs, hrows, forUp_const, Function.iterate_mul]

/-- Rows that each take `b` bytes of the file: the bytes they read and the pixels
they store come one row behind the other. -/
theorem iterate_rows {row : PsfCursor → PsfCursor} {b : Nat} (reads : Usz → List Usz)
    (pixels : Usz → List U32)
    (hrow : ∀ c, row c =
      ⟨c.it + BitVec.ofNat 32 b, c.reads ++ reads c.it, c.out ++ pixels c.it⟩)
    (k : Nat) (c : PsfCursor) : row^[k] c =
      ⟨c.it + BitVec.ofNat 32 (k * b),
        c.reads ++ (List.range k).flatMap fun r => reads (c.it + BitVec.ofNat 32 (r * b)),
        c.out ++ (List.range k).flatMap fun r => pixels (c.it + BitVec.ofNat 32 (r * b))⟩ := by
  induction k with
  | zero =>
      rw [Nat.zero_mul, List.range_zero, List.flatMap_nil, List.flatMap_nil, List.append_nil,
        List.append_nil, Function.iterate_zero, id]
      exact congrArg (fun it => PsfCursor.mk it c.reads c.out) (BitVec.add_zero c.it).symm
  | succ k ih =>
      rw [Function.iterate_succ_apply', ih, hrow, addr_add_add, ← Nat.succ_mul, List.range_succ,
        List.flatMap_append, List.flatMap_append, List.flatMap_singleton, List.flatMap_singleton,
        List.append_assoc, List.append_assoc]

theorem psfRow_eight (c : PsfCursor) : psfRow data 8 c =
    ⟨c.it + BitVec.ofNat 32 1, c.reads ++ [c.it],
      c.out ++ (List.range 8).map (bitPixel (data c.it))⟩ := by
  have hrow : psfRow data 8 c = c.copy data 8 := rfl
  have htake : ((List.range 8).map (bitPixel (data c.it))).take (8 : Usz).toNat =
      (List.range 8).map (bitPixel (data c.it)) := List.take_of_length_le (Nat.le_refl 8)
  rw [hrow, PsfCursor.copy, precompTab_row, htake]
  rfl

end Rows

/-- The number of glyphs of a PSF1 font. -/
def psf1Count (data : Mem) : Nat := if data 2 &&& psf1Mode512 ≠ 0 then 512 else 256

/-- A PSF1 font with all its glyphs. -/
structure Psf1File (data : Mem) (len : Usz) : Prop where
  magic : data 0 = 0x36 ∧ data 1 = 0x04
  height : data 3 ≠ 0
  size : 4 + psf1Count data * (data 3).toNat ≤ len.toNat

/-- What `psf_load` says of a PSF1 font. -/
structure Psf1Metadata (data : Mem) (font : Font) : Prop where
  width : font.glyphWidth = 8
  height : font.glyphHeight.toNat = (data 3).toNat
  count : font.glyphCount.toNat = psf1Count data
  area : font.pxPerGlyph.toNat = 8 * (data 3).toNat

/-- The pixels of a PSF1 font, each from its bit in the file. -/
structure Psf1Pixels (data : Mem) (out : List U32) : Prop where
  length : out.length = psf1Count data * (data 3).toNat * 8
  pixel : ∀ g < psf1Count data, ∀ y < (data 3).toNat, ∀ x < 8,
    out[(g * (data 3).toNat + y) * 8 + x]? = some
      (if (data (BitVec.ofNat 32 (4 + g * (data 3).toNat + y))).getLsbD (7 - x) then 0xFFFFFFFF
        else 0)

section Header

variable {data : Mem} {len : Usz}

theorem run_bind_of_eq {α β : Type} {m : PsfM α} {reads reads' : List Usz} {a : α}
    (h : m.run reads = (a, reads')) (f : α → PsfM β) :
    (m >>= f).run reads = (f a).run reads' := by
  rw [StateT.run_bind, h]
  rfl

theorem run_readU8 (off : Usz) (reads : List Usz) :
    (readU8 data off).run reads = (data off, reads ++ [off]) := by
  have hbytes : readBytes data off 1 = [data off] :=
    congrArg (fun a => [data a]) (BitVec.add_zero off)
  have hvalue : BitVec.ofNat 8 (leValue [data off]) = data off := by
    rw [leValue, leValue, Nat.mul_zero, Nat.add_zero, BitVec.ofNat_toNat, BitVec.setWidth_eq]
  have hreads : (List.range 1).map (fun k => off + BitVec.ofNat 32 k) = [off] :=
    congrArg (fun a => [a]) (BitVec.add_zero off)
  change (BitVec.ofNat 8 (leValue (readBytes data off 1)), reads ++ List.map _ _) = _
  rw [hbytes, hvalue, hreads]

theorem Psf1File.run_magic (hfile : Psf1File data len) (reads : List Usz) :
    (readU16 data 0).run reads = (psf1Magic, reads ++ [0, 1]) := by
  have hbytes : readBytes data 0 2 = [data 0, data 1] := rfl
  change (BitVec.ofNat 16 (leValue (readBytes data 0 2)), reads ++ [0, 1]) = _
  rw [hbytes, hfile.magic.1, hfile.magic.2]
  rfl

theorem run_psf1Header (hlen : ¬ len < 4) (hheight : data 3 ≠ 0) (reads : List Usz) :
    (psf1Header data len).run reads =
      (some ⟨8, (data 3).setWidth 32, BitVec.ofNat 32 (psf1Count data), 4⟩,
        reads ++ [3] ++ [3] ++ [2]) := by
  have hcount : (if data 2 &&& psf1Mode512 ≠ 0 then (512 : U32) else 256) =
      BitVec.ofNat 32 (psf1Count data) := by
    rw [psf1Count]
    split <;> rfl
  rw [psf1Header, if_neg hlen, run_bind_of_eq (run_readU8 3 _), if_neg hheight,
    run_bind_of_eq (run_readU8 3 _), run_bind_of_eq (run_readU8 2 _), hcount]
  rfl

theorem Psf1File.header (hfile : Psf1File data len) : (psfHeader data len).run [] =
    (some ⟨8, (data 3).setWidth 32, BitVec.ofNat 32 (psf1Count data), 4⟩, [0, 1, 3, 3, 2]) := by
  have hlen : ¬ len < 4 := by
    rw [BitVec.lt_def]
    exact Nat.not_lt.mpr (Nat.le_trans (Nat.le_add_right 4 _) hfile.size)
  rw [psfHeader, if_neg hlen, run_bind_of_eq (hfile.run_magic []), if_pos rfl,
    run_psf1Header hlen hfile.height]
  rfl

end Header

section Glyphs

variable {data : Mem} {len : Usz}

theorem psf1Count_cases (data : Mem) : psf1Count data = 256 ∨ psf1Count data = 512 := by
  rw [psf1Count]
  split
  · exact Or.inr rfl
  · exact Or.inl rfl

/-- The rows of a PSF1 font, one byte each behind the header. -/
theorem psfGlyphs_psf1 (reads : List Usz) :
    psfGlyphs data ⟨8, (data 3).setWidth 32, BitVec.ofNat 32 (psf1Count data), 4⟩ ⟨4, reads, []⟩ =
      ⟨4 + BitVec.ofNat 32 (psf1Count data * (data 3).toNat),
        reads ++ (List.range (psf1Count data * (data 3).toNat)).map fun r =>
          4 + BitVec.ofNat 32 r,
        (List.range (psf1Count data * (data 3).toNat)).flatMap fun r =>
          (List.range 8).map (bitPixel (data (4 + BitVec.ofNat 32 r)))⟩ := by
  have hheight : ((data 3).setWidth 32).toNat = (data 3).toNat :=
    BitVec.toNat_setWidth_of_le (by decide)
  have hcount : (BitVec.ofNat 32 (psf1Count data)).toNat = psf1Count data := by
    obtain h | h := psf1Count_cases data <;> rw [h] <;> rfl
  rw [psfGlyphs_eq, hheight, hcount, Nat.mul_comm (data 3).toNat,
    iterate_rows (fun it => [it]) (fun it => (List.range 8).map (bitPixel (data it))) psfRow_eight]
  simp only [Nat.mul_one, List.nil_append, List.map_eq_flatMap]

theorem psf1Pixels_rows (data : Mem) : Psf1Pixels data
    ((List.range (psf1Count data * (data 3).toNat)).flatMap fun r =>
      (List.range 8).map (bitPixel (data (4 + BitVec.ofNat 32 r)))) := by
  have hrow (r : Nat) :
      ((List.range 8).map (bitPixel (data (4 + BitVec.ofNat 32 r)))).length = 8 := List.length_map _
  constructor
  · rw [length_flatMap_of_const hrow, List.length_range, Nat.mul_comm]
  · intro g hg y hy x hx
    have hr : g * (data 3).toNat + y < psf1Count data * (data 3).toNat := by
      have hle := Nat.mul_le_mul_right (data 3).toNat (Nat.succ_le_of_lt hg)
      rw [Nat.succ_mul] at hle
      omega
    have hbyte : (4 : Usz) + BitVec.ofNat 32 (g * (data 3).toNat + y) =
        BitVec.ofNat 32 (4 + g * (data 3).toNat + y) := by
      rw [Nat.add_assoc]
      exact (BitVec.ofNat_add 4 _).symm
    rw [Nat.mul_comm _ 8, getElem?_flatMap_of_const hrow (List.getElem?_range hr) hx,
      List.getElem?_map, List.getElem?_range hx, hbyte]
    rfl

theorem psf1Metadata_of_header (data : Mem) (outData : Usz) : Psf1Metadata data
    ⟨8, ((data 3).setWidth 32).setWidth 16, BitVec.ofNat 32 (psf1Count data),
      8 * (data 3).setWidth 32, outData⟩ where
  width := rfl
  height := by
    rw [BitVec.toNat_setWidth, BitVec.toNat_setWidth]
    omega
  count := by
    obtain h | h := psf1Count_cases data <;> rw [h] <;> rfl
  area := by
    bv_omega

theorem Psf1File.reads_lt (hfile : Psf1File data len) : ∀ off ∈ ([0, 1, 3, 3, 2] : List Usz) ++
    (List.range (psf1Count data * (data 3).toNat)).map fun r => 4 + BitVec.ofNat 32 r,
    off < len := by
  have hsize := hfile.size
  intro off hoff
  rw [BitVec.lt_def]
  obtain hhead | hrow := List.mem_append.mp hoff
  · have hlow : ∀ a ∈ ([0, 1, 3, 3, 2] : List Usz), a.toNat < 4 := by simp
    exact Nat.lt_of_lt_of_le (hlow off hhead) (Nat.le_trans (Nat.le_add_right 4 _) hsize)
  · obtain ⟨r, hr, rfl⟩ := List.mem_map.mp hrow
    have hlt := List.mem_range.mp hr
    have hfour : (4 : Usz).toNat = 4 := rfl
    rw [toNat_addr_add (by have := len.isLt; omega), hfour]
    omega

end Glyphs

/-- A PSF1 font is decoded bit for bit, from bytes of the file only, and the call
that asks for its size reports the same. -/
theorem psf1_decodes {data : Mem} {len : Usz} (hfile : Psf1File data len) (outFnt : Font) :
    ((psfLoad data len outFnt 0).err = .ok ∧ Psf1Metadata data (psfLoad data len outFnt 0).font ∧
      (psfLoad data len outFnt 0).out = []) ∧
    ∀ outData, outData ≠ 0 →
      (psfLoad data len outFnt outData).err = .ok ∧
      Psf1Metadata data (psfLoad data len outFnt outData).font ∧
      Psf1Pixels data (psfLoad data len outFnt outData).out ∧
      ∀ off ∈ (psfLoad data len outFnt outData).reads, off < len := by
  refine ⟨?_, fun outData hbuf => ?_⟩
  · simp only [psfLoad, hfile.header, if_true]
    exact ⟨trivial, psf1Metadata_of_header data 0, trivial⟩
  · simp only [psfLoad, hfile.header, if_neg hbuf, psfGlyphs_psf1]
    exact ⟨trivial, psf1Metadata_of_header data outData, psf1Pixels_rows data, hfile.reads_lt⟩

/-- 256 glyphs of two rows, all of one pattern. -/
def stripedFont : Mem := fun a =>
  if a = 0 then 0x36 else if a = 1 then 0x04 else if a = 2 then 0 else if a = 3 then 2 else 0xA5

theorem psf1_decodes_striped :
    (psfLoad stripedFont 516 ⟨0, 0, 0, 0, 0⟩ 0).font.pxPerGlyph.toNat = 16 ∧
    (psfLoad stripedFont 516 ⟨0, 0, 0, 0, 0⟩ 0x1000).out.length = 4096 ∧
    (psfLoad stripedFont 516 ⟨0, 0, 0, 0, 0⟩ 0x1000).out[(65 * 2 + 1) * 8 + 2]? =
      some 0xFFFFFFFF := by
  have hfile : Psf1File stripedFont 516 := ⟨⟨rfl, rfl⟩, by decide, by decide⟩
  obtain ⟨⟨_, hmeta, _⟩, hcall⟩ := psf1_decodes hfile ⟨0, 0, 0, 0, 0⟩
  obtain ⟨_, _, hpixels, _⟩ := hcall 0x1000 (by decide)
  exact ⟨hmeta.area, hpixels.length, hpixels.pixel 65 (by decide) 1 (by decide) 2 (by decide)⟩

end DordOs
