import DordOs.Libk.PsfHeader
import DordOs.Libk.PsfRows

/-!
Which bytes `psf_load` reads. The header's checks do not say how many bytes the
glyph loop takes: a PSF1 header is not compared with the length at all, and for
PSF2 `glyph_bytes` need not be the size of a glyph.
-/
namespace DordOs
open Lib

/-- The rows the loop takes lie in the file; there may be none. -/
def PsfGlyphs.Inside (g : PsfGlyphs) (len : Usz) : Prop :=
  g.rows * g.rowBytes = 0 ∨ g.it.toNat + g.rows * g.rowBytes ≤ len.toNat

instance PsfGlyphs.decidableInside (g : PsfGlyphs) (len : Usz) : Decidable (g.Inside len) :=
  inferInstanceAs (Decidable (_ ∨ _))

theorem mem_rows_iff {it a : Usz} {rows b : Nat} :
    (a ∈ (List.range rows).flatMap fun r =>
      (List.range b).map fun k => it + BitVec.ofNat 32 (r * b) + BitVec.ofNat 32 k) ↔
      ∃ j < rows * b, it + BitVec.ofNat 32 j = a := by
  simp only [List.mem_flatMap, List.mem_map, List.mem_range, addr_add_add]
  constructor
  · rintro ⟨r, hr, k, hk, rfl⟩
    refine ⟨r * b + k, ?_, rfl⟩
    have hle := Nat.mul_le_mul_right b (Nat.succ_le_of_lt hr)
    rw [Nat.succ_mul] at hle
    omega
  · rintro ⟨j, hj, rfl⟩
    have hb : 0 < b := Nat.pos_of_ne_zero fun h => by
      rw [h, Nat.mul_zero] at hj
      exact Nat.not_lt_zero j hj
    refine ⟨j / b, Nat.div_lt_of_lt_mul (Nat.mul_comm rows b ▸ hj), j % b, Nat.mod_lt j hb, ?_⟩
    rw [Nat.mul_comm, Nat.div_add_mod]

variable {data : Mem} {len : Usz}

theorem psfGlyphs_reads_lt_iff (g : PsfGlyphs) {reads : List Usz} (h : ∀ off ∈ reads, off < len) :
    (∀ off ∈ (psfGlyphs data g ⟨g.it, reads, []⟩).reads, off < len) ↔ g.Inside len := by
  rw [psfGlyphs_spec, PsfGlyphs.Inside, ← forall_addr_add_lt_iff, List.forall_mem_append]
  simp only [mem_rows_iff]
  constructor
  · rintro ⟨-, hrows⟩ j hj
    exact hrows _ ⟨j, hj, rfl⟩
  · intro hall
    refine ⟨h, ?_⟩
    rintro off ⟨j, hj, rfl⟩
    exact hall j hj

theorem PsfAccepted.reads_inside_iff (h : PsfAccepted data len) (outFnt : Font) (outData : Usz) :
    (∀ off ∈ (psfLoad data len outFnt outData).reads, off < len) ↔
      outData = 0 ∨ (psfGlyphsOf data).Inside len := by
  rw [psfLoad_of_accepted h]
  dsimp only
  by_cases hnull : outData = 0
  · rw [if_pos hnull]
    exact iff_of_true h.offsets_lt (Or.inl hnull)
  · rw [if_neg hnull, or_iff_right hnull]
    exact psfGlyphs_reads_lt_iff _ h.offsets_lt

/-- An accepted font is read inside the file iff no glyphs are asked for or the rows
the loop takes lie in it. -/
theorem psf_load_reads_inside_iff {outFnt : Font} {outData : Usz}
    (hok : (psfLoad data len outFnt outData).err = .ok) :
    (∀ off ∈ (psfLoad data len outFnt outData).reads, off < len) ↔
      outData = 0 ∨ (psfGlyphsOf data).Inside len :=
  (accepted_of_ok hok).reads_inside_iff outFnt outData

theorem psf_load_reads_inside_striped :
    (psfLoad stripedFont 516 ⟨0, 0, 0, 0, 0⟩ 0x1000).err = .ok ∧
      ∀ off ∈ (psfLoad stripedFont 516 ⟨0, 0, 0, 0, 0⟩ 0x1000).reads, off < 516 := by
  have hok := (@stripedFont_accepted 516 (by decide)).load_ok ⟨0, 0, 0, 0, 0⟩ 0x1000
  exact ⟨hok, (psf_load_reads_inside_iff hok).mpr (Or.inr (by decide))⟩

/-- A PSF1 header with nothing behind it. -/
theorem psf_load_reads_past_end :
    ¬ ∀ (data : Mem) (len : Usz) (outFnt : Font) (outData : Usz),
      (psfLoad data len outFnt outData).err = .ok →
      ∀ off ∈ (psfLoad data len outFnt outData).reads, off < len := by
  intro claim
  have haccepted : PsfAccepted stripedFont 4 := stripedFont_accepted (by decide)
  have hinside := (haccepted.reads_inside_iff ⟨0, 0, 0, 0, 0⟩ 0x1000).mp
    (claim stripedFont 4 _ _ (haccepted.load_ok ⟨0, 0, 0, 0, 0⟩ 0x1000))
  exact absurd hinside (by decide)

end DordOs
