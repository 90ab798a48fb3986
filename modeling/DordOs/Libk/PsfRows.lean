import DordOs.Libk.Psf

/-!
What the glyph loop of `psf_load` makes of a row: how many bytes it takes and which
bit of which byte becomes which pixel. Of the last byte of a row it copies
`8 - bits` pixels, not `bits`.
-/
namespace DordOs
open Lib

/-- The pixels copied in each pass once fewer than eight are left. -/
def psfTail : Nat → List Nat
  | 1 => [7]
  | 2 => [6]
  | 3 => [5]
  | 4 => [4]
  | 5 => [3, 6]
  | 6 => [2, 4]
  | 7 => [1, 2, 4]
  | _ => []

/-- The pixels copied in each pass over a row of width `w`. -/
def psfPasses (w : Nat) : List Nat := List.replicate (w / 8) 8 ++ psfTail (w % 8)

/-- The bytes a row takes. -/
def psfRowBytes (w : Nat) : Nat := (psfPasses w).length

/-- The pixels a row stores, from the byte at `it` on. -/
def passPixels (data : Mem) : Usz → List Nat → List U32
  | _, [] => []
  | it, left :: passes =>
      (List.range left).map (bitPixel (data it)) ++ passPixels data (it + 1) passes

variable {data : Mem}

theorem psfRowFrom_done (fuel : Nat) {bits : I32} (h : ¬ 0 < bits.toInt) (c : PsfCursor) :
    psfRowFrom data fuel bits c = c := by
  cases fuel with
  | zero => rfl
  | succ fuel => rw [psfRowFrom, if_neg h]

theorem psfRowFrom_pass (fuel : Nat) {bits : I32} {left : Nat} (h : 0 < bits.toInt)
    (hleft : (if bits.toInt < 8 then 8 - bits else 8) = BitVec.ofNat 32 left) (c : PsfCursor) :
    psfRowFrom data (fuel + 1) bits c =
      psfRowFrom data fuel (bits - BitVec.ofNat 32 left) (c.copy data (BitVec.ofNat 32 left)) := by
  rw [psfRowFrom, if_pos h]
  dsimp only
  rw [hleft]

theorem copy_eq (c : PsfCursor) {left : Nat} (h : left ≤ 8) :
    c.copy data (BitVec.ofNat 32 left) =
      ⟨c.it + 1, c.reads ++ [c.it], c.out ++ (List.range left).map (bitPixel (data c.it))⟩ := by
  have hleft : (BitVec.ofNat 32 left).toNat = left := Nat.mod_eq_of_lt (by omega)
  rw [PsfCursor.copy, precompTab_row, hleft, ← List.map_take, List.take_range, Nat.min_eq_left h]

/-- A pass for each entry of the list. -/
def runPasses (data : Mem) (passes : List Nat) (c : PsfCursor) : PsfCursor :=
  passes.foldl (fun c left => c.copy data (BitVec.ofNat 32 left)) c

theorem runPasses_eq {passes : List Nat} (h : ∀ left ∈ passes, left ≤ 8) (c : PsfCursor) :
    runPasses data passes c =
      ⟨c.it + BitVec.ofNat 32 passes.length,
        c.reads ++ (List.range passes.length).map fun k => c.it + BitVec.ofNat 32 k,
        c.out ++ passPixels data c.it passes⟩ := by
  induction passes generalizing c with
  | nil =>
      have hzero : c.it + BitVec.ofNat 32 0 = c.it := BitVec.add_zero c.it
      simp only [runPasses, passPixels, List.foldl_nil, List.length_nil, List.range_zero,
        List.map_nil, List.append_nil, hzero]
  | cons left passes ih =>
      obtain ⟨hleft, hrest⟩ := List.forall_mem_cons.mp h
      have hzero : c.it + BitVec.ofNat 32 0 = c.it := BitVec.add_zero c.it
      have hnext (k : Nat) : c.it + 1 + BitVec.ofNat 32 k = c.it + BitVec.ofNat 32 (k + 1) := by
        rw [Nat.add_comm k 1]
        exact addr_add_add c.it 1 k
      have hmap : (List.range (passes.length + 1)).map (fun k => c.it + BitVec.ofNat 32 k) =
          c.it :: (List.range passes.length).map fun k => c.it + 1 + BitVec.ofNat 32 k := by
        rw [List.range_succ_eq_map, List.map_cons, List.map_map, hzero]
        exact congrArg _ (List.map_congr_left fun k _ => (hnext k).symm)
      rw [runPasses, List.foldl_cons, ← runPasses, ih hrest, copy_eq c hleft]
      simp only [passPixels, List.length_cons, hmap, hnext, List.append_assoc, List.cons_append,
        List.nil_append]

theorem psfTail_le {r : Nat} (hr : r < 8) : ∀ left ∈ psfTail r, left ≤ 8 := by
  have hall : ∀ r : Fin 8, ∀ left ∈ psfTail r.val, left ≤ 8 := by decide
  exact hall ⟨r, hr⟩

theorem psfPasses_le (w : Nat) : ∀ left ∈ psfPasses w, left ≤ 8 := by
  intro left hleft
  obtain h | h := List.mem_append.mp hleft
  · exact Nat.le_of_eq (List.eq_of_mem_replicate h)
  · exact psfTail_le (Nat.mod_lt w (by decide)) left h

theorem psfTail_pass {r : Nat} (hpos : 0 < r) (hr : r < 8) :
    psfTail r = (8 - r) :: psfTail (2 * r - 8) := by
  have hall : ∀ r : Fin 8, 0 < r.val → psfTail r.val = (8 - r.val) :: psfTail (2 * r.val - 8) := by
    decide
  exact hall ⟨r, hr⟩ hpos

theorem toInt_ofNat_small {n : Nat} (h : n < 2 ^ 31) : (BitVec.ofNat 32 n).toInt = n := by
  rw [BitVec.toInt_eq_toNat_of_lt]
  · rw [BitVec.toNat_ofNat, Nat.mod_eq_of_lt (by omega)]
  · rw [BitVec.toNat_ofNat]
    omega

theorem ofNat_sub_ofNat {a b : Nat} (h : b ≤ a) :
    BitVec.ofNat 32 a - BitVec.ofNat 32 b = BitVec.ofNat 32 (a - b) := by
  conv_lhs => rw [← Nat.sub_add_cancel h, BitVec.ofNat_add]
  exact BitVec.add_sub_cancel _ _

/-- The passes over a row that has fewer than eight pixels left. -/
theorem psfRowFrom_tail {r : Nat} (hr : r < 8) {fuel : Nat} (hfuel : r ≤ fuel) (c : PsfCursor) :
    psfRowFrom data fuel (BitVec.ofNat 32 r) c = runPasses data (psfTail r) c := by
  induction r using Nat.strongRecOn generalizing fuel c with
  | ind r ih =>
      have hint : (BitVec.ofNat 32 r).toInt = r := toInt_ofNat_small (by omega)
      obtain rfl | hpos := Nat.eq_zero_or_pos r
      · exact psfRowFrom_done fuel (by decide) c
      obtain ⟨fuel, rfl⟩ := Nat.exists_eq_succ_of_ne_zero (by omega : fuel ≠ 0)
      have hleft : (if (BitVec.ofNat 32 r).toInt < 8 then 8 - BitVec.ofNat 32 r else 8) =
          BitVec.ofNat 32 (8 - r) := by
        rw [hint, if_pos (by omega)]
        exact @ofNat_sub_ofNat 8 r (by omega)
      rw [psfRowFrom_pass fuel (by rw [hint]; omega) hleft, psfTail_pass hpos hr, runPasses,
        List.foldl_cons, ← runPasses]
      by_cases hfour : 4 ≤ r
      · -- the next pass has `2 * r - 8` pixels in front of it
        rw [ofNat_sub_ofNat (by omega), show r - (8 - r) = 2 * r - 8 by omega]
        exact ih (2 * r - 8) (by omega) (by omega) (by omega) _
      · -- more pixels are copied than the row has left
        rw [show 2 * r - 8 = 0 by omega]
        have hall : ∀ r : Fin 4, 0 < r.val →
            ¬ 0 < (BitVec.ofNat 32 r.val - BitVec.ofNat 32 (8 - r.val)).toInt := by decide
        exact psfRowFrom_done fuel (hall ⟨r, by omega⟩ hpos) _

/-- Full bytes first. -/
theorem psfRowFrom_full {n r : Nat} (h : 8 * n + r < 2 ^ 31) (fuel : Nat) (c : PsfCursor) :
    psfRowFrom data (fuel + n) (BitVec.ofNat 32 (8 * n + r)) c =
      psfRowFrom data fuel (BitVec.ofNat 32 r) (runPasses data (List.replicate n 8) c) := by
  induction n generalizing c with
  | zero =>
      rw [Nat.mul_zero, Nat.zero_add]
      rfl
  | succ n ih =>
      have hint := toInt_ofNat_small h
      have hleft : (if (BitVec.ofNat 32 (8 * (n + 1) + r)).toInt < 8 then
          8 - BitVec.ofNat 32 (8 * (n + 1) + r) else 8) = BitVec.ofNat 32 8 := by
        rw [hint, if_neg (by omega)]
        rfl
      rw [← Nat.add_assoc, psfRowFrom_pass _ (by rw [hint]; omega) hleft,
        ofNat_sub_ofNat (by omega), show 8 * (n + 1) + r - 8 = 8 * n + r by omega,
        ih (by omega), List.replicate_succ]
      rfl

theorem psfRowFrom_eq {n fuel : Nat} (h : n < 2 ^ 31) (hfuel : n ≤ fuel) (c : PsfCursor) :
    psfRowFrom data fuel (BitVec.ofNat 32 n) c = runPasses data (psfPasses n) c := by
  have hsplit := Nat.div_add_mod n 8
  have hmod := Nat.mod_lt n (show 0 < 8 by decide)
  obtain ⟨fuel, rfl⟩ := Nat.exists_eq_add_of_le' (Nat.le_trans (Nat.div_le_self n 8) hfuel)
  have hfull := @psfRowFrom_full data (n / 8) (n % 8) (by omega) fuel c
  rw [hsplit, psfRowFrom_tail hmod (by omega)] at hfull
  rw [hfull, psfPasses, runPasses, runPasses, runPasses, List.foldl_append]

theorem psfRow_eq {w : U32} (h : w.toNat < 2 ^ 31) (c : PsfCursor) :
    psfRow data w c = runPasses data (psfPasses w.toNat) c := by
  have hrow := @psfRowFrom_eq data w.toNat w.toNat h (Nat.le_refl w.toNat) c
  rw [BitVec.ofNat_toNat, BitVec.setWidth_eq] at hrow
  exact hrow

/-- A width that is negative as an `i32`. -/
theorem psfRow_of_negative {w : U32} (h : ¬ w.toNat < 2 ^ 31) (c : PsfCursor) :
    psfRow data w c = c := by
  refine psfRowFrom_done _ ?_ c
  rw [BitVec.toInt_eq_toNat_cond]
  split <;> omega

def PsfGlyphs.rows (g : PsfGlyphs) : Nat := g.h.toNat * g.glyphCount.toNat

/-- The bytes the loop takes for a row: none where the width is negative. -/
def PsfGlyphs.rowBytes (g : PsfGlyphs) : Nat :=
  if g.w.toNat < 2 ^ 31 then psfRowBytes g.w.toNat else 0

def PsfGlyphs.rowPixels (g : PsfGlyphs) (data : Mem) (it : Usz) : List U32 :=
  if g.w.toNat < 2 ^ 31 then passPixels data it (psfPasses g.w.toNat) else []

theorem psfRow_spec (g : PsfGlyphs) (c : PsfCursor) :
    psfRow data g.w c =
      ⟨c.it + BitVec.ofNat 32 g.rowBytes,
        c.reads ++ (List.range g.rowBytes).map fun k => c.it + BitVec.ofNat 32 k,
        c.out ++ g.rowPixels data c.it⟩ := by
  rw [PsfGlyphs.rowBytes, PsfGlyphs.rowPixels]
  split
  next h => rw [psfRow_eq h, runPasses_eq (psfPasses_le _), psfRowBytes]
  next h =>
    have hzero : c.it + BitVec.ofNat 32 0 = c.it := BitVec.add_zero c.it
    rw [psfRow_of_negative h, hzero, List.range_zero, List.map_nil, List.append_nil,
      List.append_nil]

/-- The glyph loop, row by row. -/
theorem psfGlyphs_spec (g : PsfGlyphs) (c : PsfCursor) :
    psfGlyphs data g c =
      ⟨c.it + BitVec.ofNat 32 (g.rows * g.rowBytes),
        c.reads ++ (List.range g.rows).flatMap fun r =>
          (List.range g.rowBytes).map fun k =>
            c.it + BitVec.ofNat 32 (r * g.rowBytes) + BitVec.ofNat 32 k,
        c.out ++ (List.range g.rows).flatMap fun r =>
          g.rowPixels data (c.it + BitVec.ofNat 32 (r * g.rowBytes))⟩ := by
  rw [psfGlyphs_eq]
  exact iterate_rows (fun it => (List.range g.rowBytes).map fun k => it + BitVec.ofNat 32 k)
    (fun it => g.rowPixels data it) (psfRow_spec g) g.rows c

end DordOs
