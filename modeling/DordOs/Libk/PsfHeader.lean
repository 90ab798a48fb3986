import DordOs.Libk.Psf

/-!
What `psf_load` accepts, and what it takes from the header, for both formats and
any bytes.
-/
namespace DordOs
open Lib

def psf16 (data : Mem) (off : Usz) : U16 := BitVec.ofNat 16 (leValue (readBytes data off 2))

def psf32 (data : Mem) (off : Usz) : U32 := BitVec.ofNat 32 (leValue (readBytes data off 4))

def psf1Glyphs (data : Mem) : PsfGlyphs :=
  ⟨8, (data 3).setWidth 32, BitVec.ofNat 32 (psf1Count data), 4⟩

def psf2Glyphs (data : Mem) : PsfGlyphs :=
  ⟨psf32 data 28, psf32 data 24, psf32 data 16, psf32 data 8⟩

/-- The glyph table as the header describes it. -/
def psfGlyphsOf (data : Mem) : PsfGlyphs :=
  if psf16 data 0 = psf1Magic then psf1Glyphs data else psf2Glyphs data

/-- A PSF2 header that passes the checks, which wrap. -/
structure Psf2Accepted (data : Mem) (len : Usz) : Prop where
  room : ¬ len < 32
  version : psf32 data 4 = 0
  table : ¬ len < psf32 data 8 + psf32 data 16 * psf32 data 20
  width : psf32 data 28 ≠ 0
  height : psf32 data 24 ≠ 0

def PsfAccepted (data : Mem) (len : Usz) : Prop :=
  ¬ len < 4 ∧
    if psf16 data 0 = psf1Magic then data 3 ≠ 0
    else psf32 data 0 = psf2Magic ∧ Psf2Accepted data len

/-- The offsets of a header field of `n` bytes. -/
def fieldOffsets (off : Usz) (n : Nat) : List Usz :=
  (List.range n).map fun k => off + BitVec.ofNat 32 k

def psf2Offsets : List Usz :=
  [4, 16, 20, 8, 28, 24, 28, 24, 16, 8].flatMap fun off => fieldOffsets off 4

/-- The offsets the checks of an accepted header read. -/
def psfHeaderOffsets (data : Mem) : List Usz :=
  fieldOffsets 0 2 ++
    if psf16 data 0 = psf1Magic then [3, 3, 2] else fieldOffsets 0 4 ++ psf2Offsets

variable {data : Mem} {len : Usz}

theorem run_readU16 (off : Usz) (reads : List Usz) :
    (readU16 data off).run reads = (psf16 data off, reads ++ fieldOffsets off 2) := rfl

theorem run_readU32 (off : Usz) (reads : List Usz) :
    (readU32 data off).run reads = (psf32 data off, reads ++ fieldOffsets off 4) := rfl

theorem Psf2Accepted.run (h : Psf2Accepted data len) (reads : List Usz) :
    (psf2Header data len).run reads = (some (psf2Glyphs data), reads ++ psf2Offsets) := by
  rw [psf2Header, if_neg h.room, run_bind_of_eq (run_readU32 4 _), if_neg (not_not.mpr h.version),
    run_bind_of_eq (run_readU32 16 _), run_bind_of_eq (run_readU32 20 _),
    run_bind_of_eq (run_readU32 8 _), if_neg h.table, run_bind_of_eq (run_readU32 28 _),
    if_neg h.width, run_bind_of_eq (run_readU32 24 _), if_neg h.height,
    run_bind_of_eq (run_readU32 28 _), run_bind_of_eq (run_readU32 24 _),
    run_bind_of_eq (run_readU32 16 _), run_bind_of_eq (run_readU32 8 _)]
  simp only [psf2Offsets, List.flatMap_cons, List.flatMap_nil, List.append_assoc, List.append_nil]
  rfl

theorem psf2Header_of_not_accepted (h : ¬ Psf2Accepted data len) (reads : List Usz) :
    ((psf2Header data len).run reads).1 = none := by
  rw [psf2Header]
  by_cases room : len < 32
  · rw [if_pos room]
    rfl
  rw [if_neg room, run_bind_of_eq (run_readU32 4 _)]
  by_cases version : psf32 data 4 = 0
  swap
  · rw [if_pos version]
    rfl
  rw [if_neg (not_not.mpr version), run_bind_of_eq (run_readU32 16 _),
    run_bind_of_eq (run_readU32 20 _), run_bind_of_eq (run_readU32 8 _)]
  by_cases table : len < psf32 data 8 + psf32 data 16 * psf32 data 20
  · rw [if_pos table]
    rfl
  rw [if_neg table, run_bind_of_eq (run_readU32 28 _)]
  by_cases width : psf32 data 28 = 0
  · rw [if_pos width]
    rfl
  rw [if_neg width, run_bind_of_eq (run_readU32 24 _)]
  by_cases height : psf32 data 24 = 0
  · rw [if_pos height]
    rfl
  · exact absurd ⟨room, version, table, width, height⟩ h

theorem PsfAccepted.run (h : PsfAccepted data len) :
    (psfHeader data len).run [] = (some (psfGlyphsOf data), psfHeaderOffsets data) := by
  obtain ⟨hlen, hformat⟩ := h
  rw [psfHeader, if_neg hlen, run_bind_of_eq (run_readU16 0 []), psfGlyphsOf, psfHeaderOffsets]
  by_cases hmagic : psf16 data 0 = psf1Magic
  · rw [if_pos hmagic] at hformat ⊢
    rw [if_pos hmagic, if_pos hmagic, run_psf1Header hlen hformat, List.append_assoc,
      List.append_assoc]
    rfl
  · rw [if_neg hmagic] at hformat ⊢
    rw [if_neg hmagic, if_neg hmagic, run_bind_of_eq (run_readU32 0 _), if_pos hformat.1,
      hformat.2.run, List.nil_append, List.append_assoc]

theorem psfHeader_of_not_accepted (h : ¬ PsfAccepted data len) :
    ((psfHeader data len).run []).1 = none := by
  rw [psfHeader]
  by_cases hlen : len < 4
  · rw [if_pos hlen]
    rfl
  rw [if_neg hlen, run_bind_of_eq (run_readU16 0 [])]
  by_cases hmagic : psf16 data 0 = psf1Magic
  · have hheight : data 3 = 0 := by
      by_contra hne
      exact h ⟨hlen, by rw [if_pos hmagic]; exact hne⟩
    rw [if_pos hmagic, psf1Header, if_neg hlen, run_bind_of_eq (run_readU8 3 _), if_pos hheight]
    rfl
  rw [if_neg hmagic, run_bind_of_eq (run_readU32 0 _)]
  by_cases hmagic2 : psf32 data 0 = psf2Magic
  · rw [if_pos hmagic2]
    exact psf2Header_of_not_accepted
      (fun haccepted => h ⟨hlen, by rw [if_neg hmagic]; exact ⟨hmagic2, haccepted⟩⟩) _
  · rw [if_neg hmagic2]
    rfl

theorem psfLoad_of_accepted (h : PsfAccepted data len) (outFnt : Font) (outData : Usz) :
    psfLoad data len outFnt outData =
      let g := psfGlyphsOf data
      let font : Font := ⟨g.w.setWidth 16, g.h.setWidth 16, g.glyphCount, g.w * g.h, outData⟩
      if outData = 0 then ⟨.ok, font, [], psfHeaderOffsets data⟩
      else
        let c := psfGlyphs data g ⟨g.it, psfHeaderOffsets data, []⟩
        ⟨.ok, font, c.out, c.reads⟩ := by
  rw [psfLoad, h.run]

theorem PsfAccepted.load_ok (h : PsfAccepted data len) (outFnt : Font) (outData : Usz) :
    (psfLoad data len outFnt outData).err = .ok := by
  rw [psfLoad_of_accepted h]
  dsimp only
  split <;> rfl

theorem accepted_of_ok {outFnt : Font} {outData : Usz}
    (h : (psfLoad data len outFnt outData).err = .ok) : PsfAccepted data len := by
  by_contra hnot
  obtain ⟨reads, hrun⟩ : ∃ reads, (psfHeader data len).run [] = (none, reads) :=
    ⟨_, Prod.ext (psfHeader_of_not_accepted hnot) rfl⟩
  rw [psfLoad, hrun] at h
  cases h

theorem mem_fieldOffsets_lt {off a : Usz} {n bound : Nat} (ha : a ∈ fieldOffsets off n)
    (h : off.toNat + n ≤ bound) (hbound : bound < 2 ^ 32) : a.toNat < bound := by
  obtain ⟨k, hk, rfl⟩ := List.mem_map.mp ha
  have hlt := List.mem_range.mp hk
  rw [toNat_addr_add (by omega)]
  omega

theorem PsfAccepted.offsets_lt (h : PsfAccepted data len) :
    ∀ off ∈ psfHeaderOffsets data, off < len := by
  obtain ⟨hlen, hformat⟩ := h
  rw [BitVec.lt_def] at hlen
  have hfour : 4 ≤ len.toNat := Nat.not_lt.mp hlen
  intro off hoff
  rw [BitVec.lt_def]
  rw [psfHeaderOffsets] at hoff
  obtain hoff | hoff := List.mem_append.mp hoff
  · exact mem_fieldOffsets_lt hoff (Nat.le_trans (by decide) hfour) len.isLt
  split at hformat
  next hmagic =>
    rw [if_pos hmagic] at hoff
    have hlow : ∀ a ∈ ([3, 3, 2] : List Usz), a.toNat < 4 := by simp
    exact Nat.lt_of_lt_of_le (hlow off hoff) hfour
  next hmagic =>
    have hroom := hformat.2.room
    rw [BitVec.lt_def] at hroom
    have hroom : 32 ≤ len.toNat := Nat.not_lt.mp hroom
    rw [if_neg hmagic] at hoff
    obtain hoff | hoff := List.mem_append.mp hoff
    · exact mem_fieldOffsets_lt hoff (Nat.le_trans (by decide) hroom) len.isLt
    · obtain ⟨field, hfield, hoff⟩ := List.mem_flatMap.mp hoff
      have hlow : ∀ a ∈ ([4, 16, 20, 8, 28, 24, 28, 24, 16, 8] : List Usz), a.toNat ≤ 28 := by simp
      exact mem_fieldOffsets_lt hoff
        (Nat.le_trans (Nat.add_le_add_right (hlow field hfield) 4) hroom) len.isLt

theorem stripedFont_accepted {len : Usz} (h : ¬ len < 4) : PsfAccepted stripedFont len := by
  have hmagic : psf16 stripedFont 0 = psf1Magic := by decide
  refine ⟨h, ?_⟩
  rw [if_pos hmagic]
  decide

end DordOs
