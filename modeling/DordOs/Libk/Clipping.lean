import DordOs.Libk.Render

/-!
What `CHECK_IMAGE_BOUNDS` leaves of an image. On each axis the clipped part lies
on screen and inside the image; it is the visible part, unless the image begins
before the screen and is larger than it.
-/
namespace DordOs
open Lib

/-- The part of an axis that is drawn: the image covers `[pos, pos + size)`, the
screen `[0, bound)`. When the image begins before the screen and is larger than
the screen, its last `-pos` visible places are left out. -/
def DrawnAxis (bound pos size p : Int) : Prop :=
  pos ≤ p ∧ p < pos + size ∧ (pos < 0 → bound < size → p < bound + pos)

instance (bound pos size p : Int) : Decidable (DrawnAxis bound pos size p) :=
  inferInstanceAs (Decidable (_ ∧ _ ∧ _))

/-- The result of `clipAxis` in integers. -/
structure ClippedAxis (bound pos size : Int) (a : Axis) : Prop where
  start : a.pos.toInt = max pos 0
  offset : a.uv.toInt = max (-pos) 0
  extent : a.len.toInt =
    if pos < 0 ∧ bound < size then bound + pos else min (pos + size) bound - max pos 0

theorem bmod_of_fits {z : Int} (lo : -2 ^ 31 ≤ z) (hi : z < 2 ^ 31) : z.bmod (2 ^ 32) = z :=
  Int.bmod_eq_of_le (by omega) (by omega)

theorem toInt_bounds (a : I32) : -2 ^ 31 ≤ a.toInt ∧ a.toInt < 2 ^ 31 :=
  ⟨BitVec.le_toInt a, BitVec.toInt_lt⟩

theorem toInt_cut {bound : I32} (hbound : 0 ≤ bound.toInt) (sum len : I32)
    (hfit : -2 ^ 31 ≤ len.toInt + (bound.toInt - sum.toInt)) :
    (if sum.toInt > bound.toInt then len + (bound - sum) else len).toInt =
      len.toInt + min (bound.toInt - sum.toInt) 0 := by
  obtain ⟨_, hlen⟩ := toInt_bounds len
  obtain ⟨_, hsum⟩ := toInt_bounds sum
  split
  next hcut =>
    have hdiff : (bound - sum).toInt = bound.toInt - sum.toInt := by
      rw [BitVec.toInt_sub, bmod_of_fits (by omega) (by omega)]
    rw [BitVec.toInt_add, hdiff, bmod_of_fits (by omega) (by omega)]
    omega
  next => omega

theorem clipAxis_clipped {bound pos size : I32} (hbound : 0 ≤ bound.toInt)
    (hfit : ¬ pos.saddOverflow size)
    (hcheck : ¬ (pos.toInt > bound.toInt ∨ (pos + size).toInt < 0)) :
    ClippedAxis bound.toInt pos.toInt size.toInt (clipAxis bound pos size) := by
  obtain ⟨hplo, hphi⟩ := toInt_bounds pos
  obtain ⟨hslo, hshi⟩ := toInt_bounds size
  have hsum := BitVec.toInt_add_of_not_saddOverflow hfit
  rw [hsum] at hcheck
  have hzero : (0 : I32).toInt = 0 := by decide
  simp only [clipAxis]
  by_cases hneg : pos.toInt < 0
  · have huv : (-pos).toInt = -pos.toInt := by
      rw [BitVec.toInt_neg, bmod_of_fits (by omega) (by omega)]
    have hlen : (size - -pos).toInt = size.toInt + pos.toInt := by
      rw [BitVec.toInt_sub, huv, bmod_of_fits (by omega) (by omega)]
      omega
    have hadd : (0 : I32) + size = size := BitVec.zero_add size
    have hcut := toInt_cut hbound size (size - -pos) (by omega)
    simp only [if_pos hneg, hadd]
    exact .mk (by dsimp only; omega) (by dsimp only; omega) (by dsimp only; omega)
  · have hlen : (size - 0).toInt = size.toInt := congrArg BitVec.toInt (BitVec.sub_zero size)
    have hcut := toInt_cut hbound (pos + size) (size - 0) (by omega)
    rw [hsum] at hcut
    simp only [if_neg hneg, hsum]
    exact .mk (by dsimp only; omega) (by dsimp only; omega) (by dsimp only; omega)

section

variable {bound pos size : Int} {a : Axis}

/-- The clipped part is on screen and inside the image. -/
theorem ClippedAxis.inside (h : ClippedAxis bound pos size a) :
    0 ≤ a.pos.toInt ∧ a.pos.toInt + a.len.toInt ≤ bound ∧ 0 ≤ a.uv.toInt ∧
      a.uv.toInt + a.len.toInt ≤ size ∧ a.uv.toInt = a.pos.toInt - pos := by
  obtain ⟨hp, hu, hl⟩ := h
  split at hl <;> omega

theorem ClippedAxis.drawn_iff (h : ClippedAxis bound pos size a) {p : Int} (h0 : 0 ≤ p)
    (hp : p < bound) :
    DrawnAxis bound pos size p ↔ a.pos.toInt ≤ p ∧ p < a.pos.toInt + a.len.toInt := by
  obtain ⟨hpos, _, hlen⟩ := h
  simp only [DrawnAxis]
  split at hlen <;> omega

end

/-- A pixel of the screen is drawn. -/
def Drawn (fb : Framebuf) (x y w h : I32) (px py : Nat) : Prop :=
  DrawnAxis fb.width.toInt x.toInt w.toInt px ∧ DrawnAxis fb.height.toInt y.toInt h.toInt py

instance (fb : Framebuf) (x y w h : I32) (px py : Nat) : Decidable (Drawn fb x y w h px py) :=
  inferInstanceAs (Decidable (_ ∧ _))

/-- An image whose right and bottom edges fit 32 bits. -/
structure Placed (x y w h : I32) : Prop where
  right : ¬ x.saddOverflow w
  bottom : ¬ y.saddOverflow h

section

variable {fb : Framebuf} {x y w h : I32} {ax ay : Axis}

/-- Both axes are clipped, and something is left of them. -/
structure Clipped (fb : Framebuf) (x y w h : I32) (ax ay : Axis) : Prop where
  across : ClippedAxis fb.width.toInt x.toInt w.toInt ax
  down : ClippedAxis fb.height.toInt y.toInt h.toInt ay
  width : 0 < ax.len.toInt
  height : 0 < ay.len.toInt

theorem checkImageBounds_some (hfb : fb.Formed) (hplace : Placed x y w h)
    (hsome : checkImageBounds fb x y w h = some (ax, ay)) : Clipped fb x y w h ax ay := by
  obtain ⟨hx, hsome⟩ := Option.ite_none_left_eq_some.mp hsome
  obtain ⟨hy, hsome⟩ := Option.ite_none_left_eq_some.mp hsome
  obtain ⟨hlen, hsome⟩ := Option.ite_none_left_eq_some.mp hsome
  obtain ⟨rfl, rfl⟩ := Prod.mk.inj (Option.some.inj hsome)
  exact ⟨clipAxis_clipped hfb.width hplace.right hx, clipAxis_clipped hfb.height hplace.bottom hy,
    by omega, by omega⟩

/-- An axis with a place to draw passes the check of the macro. -/
theorem DrawnAxis.check {bound pos size : I32} {p : Nat} (hp : (p : Int) < bound.toInt)
    (hfit : ¬ pos.saddOverflow size) (h : DrawnAxis bound.toInt pos.toInt size.toInt p) :
    ¬ (pos.toInt > bound.toInt ∨ (pos + size).toInt < 0) := by
  rw [BitVec.toInt_add_of_not_saddOverflow hfit]
  obtain ⟨hlo, hhi, _⟩ := h
  omega

/-- When the macro returns there is nothing to draw. -/
theorem checkImageBounds_none (hfb : fb.Formed) (hplace : Placed x y w h)
    (hnone : checkImageBounds fb x y w h = none) {px py : Nat} (hpx : (px : Int) < fb.width.toInt)
    (hpy : (py : Int) < fb.height.toInt) : ¬ Drawn fb x y w h px py := by
  rintro ⟨hdx, hdy⟩
  have hx := hdx.check hpx hplace.right
  have hy := hdy.check hpy hplace.bottom
  have hlx := ((clipAxis_clipped hfb.width hplace.right hx).drawn_iff
    (Int.natCast_nonneg px) hpx).mp hdx
  have hly := ((clipAxis_clipped hfb.height hplace.bottom hy).drawn_iff
    (Int.natCast_nonneg py) hpy).mp hdy
  simp only [checkImageBounds] at hnone
  rw [if_neg hx, if_neg hy, if_neg (by omega)] at hnone
  cases hnone

theorem natCast_toNat {a : I32} (h : 0 ≤ a.toInt) : (a.toNat : Int) = a.toInt := by
  have hlt := a.isLt
  rw [BitVec.toInt_eq_toNat_cond] at h ⊢
  split at h
  case isTrue hsmall => rw [if_pos hsmall]
  case isFalse => omega

theorem Framebuf.Formed.length (hfb : fb.Formed) :
    fb.pxData.length = fb.height.toNat * fb.width.toNat := by
  have hcount := hfb.count
  rw [← natCast_toNat hfb.width, ← natCast_toNat hfb.height, ← Int.natCast_mul] at hcount
  rw [hfb.data, Nat.mul_comm]
  exact Int.ofNat.inj hcount

theorem Framebuf.Formed.length_lt (hfb : fb.Formed) : fb.pxData.length < 2 ^ 32 := by
  rw [hfb.data]
  exact fb.pxCount.isLt

/-- The clipped part in numbers. -/
structure Clipped.Inside (fb : Framebuf) (ax ay : Axis) : Prop where
  right : ax.pos.toNat + ax.len.toNat ≤ fb.width.toNat
  bottom : ay.pos.toNat + ay.len.toNat ≤ fb.height.toNat
  width : 0 < ax.len.toNat
  height : 0 < ay.len.toNat

theorem Clipped.inside (hclip : Clipped fb x y w h ax ay) (hfb : fb.Formed) :
    Clipped.Inside fb ax ay := by
  obtain ⟨hx, hxW, _⟩ := hclip.across.inside
  obtain ⟨hy, hyH, _⟩ := hclip.down.inside
  have hlx := natCast_toNat (Int.le_of_lt hclip.width)
  have hly := natCast_toNat (Int.le_of_lt hclip.height)
  have hwidth := hclip.width
  have hheight := hclip.height
  rw [← natCast_toNat hx, ← natCast_toNat hfb.width] at hxW
  rw [← natCast_toNat hy, ← natCast_toNat hfb.height] at hyH
  exact ⟨by omega, by omega, by omega, by omega⟩

theorem Clipped.Inside.row_end (hin : Clipped.Inside fb ax ay) (hfb : fb.Formed) {k : Nat}
    (hk : k < ay.len.toNat) :
    (ay.pos.toNat + k) * fb.width.toNat + ax.pos.toNat + ax.len.toNat ≤ fb.pxData.length := by
  have hrow : (ay.pos.toNat + k + 1) * fb.width.toNat ≤ fb.height.toNat * fb.width.toNat :=
    Nat.mul_le_mul_right _ (by have := hin.bottom; omega)
  have := hin.right
  rw [Nat.succ_mul] at hrow
  rw [hfb.length]
  omega

theorem Clipped.Inside.vram (hin : Clipped.Inside fb ax ay) (hfb : fb.Formed) :
    (ax.pos + fb.width * ay.pos).toNat = ay.pos.toNat * fb.width.toNat + ax.pos.toNat := by
  have hend := hin.row_end hfb hin.height
  have hlt := hfb.length_lt
  rw [Nat.add_zero] at hend
  have hmul : (fb.width * ay.pos).toNat = ay.pos.toNat * fb.width.toNat := by
    rw [BitVec.toNat_mul_of_lt (by rw [Nat.mul_comm]; omega), Nat.mul_comm]
  rw [BitVec.toNat_add_of_lt (by omega), hmul, Nat.add_comm]

theorem Clipped.Inside.vram_row (hin : Clipped.Inside fb ax ay) (hfb : fb.Formed) (k : Nat) :
    (ax.pos + fb.width * ay.pos).toNat + k * fb.width.toNat =
      (ay.pos.toNat + k) * fb.width.toNat + ax.pos.toNat := by
  rw [hin.vram hfb, Nat.add_mul]
  omega

/-- `vram_it` in pass `k` of the row loop. -/
theorem Clipped.Inside.vram_ptr (hin : Clipped.Inside fb ax ay) (hfb : fb.Formed) {k : Nat}
    (hk : k < ay.len.toNat) :
    (ax.pos + fb.width * ay.pos + BitVec.ofNat 32 k * fb.width).toNat =
      (ay.pos.toNat + k) * fb.width.toNat + ax.pos.toNat := by
  have hend := hin.row_end hfb hk
  have hlt := hfb.length_lt
  have hpos := hin.width
  have hrow := hin.vram_row hfb k
  have hk32 : (BitVec.ofNat 32 k).toNat = k := by
    rw [BitVec.toNat_ofNat]
    exact Nat.mod_eq_of_lt (Nat.lt_trans hk ay.len.isLt)
  have hmul : (BitVec.ofNat 32 k * fb.width).toNat = k * fb.width.toNat := by
    rw [BitVec.toNat_mul_of_lt (by rw [hk32]; omega), hk32]
  rw [BitVec.toNat_add_of_lt (by rw [hmul]; omega), hmul, hrow]

theorem img_index (ay ax : Axis) (w : I32) (k c : Nat) :
    ay.uv * w + ax.uv + BitVec.ofNat 32 k * w + BitVec.ofNat 32 c =
      BitVec.ofInt 32 ((ay.uv.toInt + k) * w.toInt + (ax.uv.toInt + c)) := by
  rw [BitVec.ofInt_add, BitVec.ofInt_mul, BitVec.ofInt_add, BitVec.ofInt_add, BitVec.ofInt_natCast,
    BitVec.ofInt_natCast, BitVec.ofInt_toInt, BitVec.ofInt_toInt, BitVec.ofInt_toInt,
    BitVec.add_mul]
  ac_rfl

theorem cell_index_bounds {w h r c : Int} (hr : 0 ≤ r) (hrh : r < h) (hc : 0 ≤ c) (hcw : c < w) :
    0 ≤ r * w + c ∧ r * w + c < w * h := by
  have hw : 0 ≤ w := by omega
  have hlow : 0 ≤ r * w := Int.mul_nonneg hr hw
  have hrow : (r + 1) * w ≤ h * w := Int.mul_le_mul_of_nonneg_right hrh hw
  rw [Int.add_mul, Int.one_mul, Int.mul_comm h] at hrow
  omega

theorem Clipped.img_bounds (hclip : Clipped fb x y w h ax ay) {k c : Nat} (hk : k < ay.len.toNat)
    (hc : c < ax.len.toNat) :
    0 ≤ (ay.uv.toInt + k) * w.toInt + (ax.uv.toInt + c) ∧
      (ay.uv.toInt + k) * w.toInt + (ax.uv.toInt + c) < w.toInt * h.toInt := by
  obtain ⟨_, _, hux, hxw, _⟩ := hclip.across.inside
  obtain ⟨_, _, huy, hyh, _⟩ := hclip.down.inside
  have hlx := natCast_toNat (Int.le_of_lt hclip.width)
  have hly := natCast_toNat (Int.le_of_lt hclip.height)
  exact cell_index_bounds (by omega) (by omega) (by omega) (by omega)

/-- Index `i` of the image, or what it wraps to, is inside an array of `n` cells. -/
theorem toNat_ofInt_lt {i : Int} {n : Nat} (h0 : 0 ≤ i) (hi : i < n) :
    (BitVec.ofInt 32 i).toNat < n := by
  obtain ⟨m, rfl⟩ := Int.eq_ofNat_of_zero_le h0
  rw [BitVec.ofInt_natCast, BitVec.toNat_ofNat]
  exact Nat.lt_of_le_of_lt (Nat.mod_le m _) (Int.ofNat_lt.mp hi)

/-- Pixel `(px, py)`. -/
def Framebuf.pixel (fb : Framebuf) (px py : Nat) : Option U32 :=
  fb.pxData[py * fb.width.toNat + px]?

theorem Framebuf.Formed.pixel_some (hfb : fb.Formed) {px py : Nat}
    (hpx : (px : Int) < fb.width.toInt) (hpy : (py : Int) < fb.height.toInt) :
    ∃ old, fb.pixel px py = some old := by
  have hW := natCast_toNat hfb.width
  have hH := natCast_toNat hfb.height
  have hrow : (py + 1) * fb.width.toNat ≤ fb.height.toNat * fb.width.toNat :=
    Nat.mul_le_mul_right _ (by omega)
  rw [Nat.succ_mul] at hrow
  exact ⟨_, List.getElem?_eq_getElem (by rw [hfb.length]; omega)⟩

/-- The index in the image that is drawn at `(px, py)`. -/
def srcIndex (x y w : I32) (px py : Nat) : U32 :=
  BitVec.ofInt 32 ((py - y.toInt) * w.toInt + (px - x.toInt))

theorem Clipped.srcIndex_eq (hclip : Clipped fb x y w h ax ay) (k c : Nat) :
    srcIndex x y w (ax.pos.toNat + c) (ay.pos.toNat + k) =
      ay.uv * w + ax.uv + BitVec.ofNat 32 k * w + BitVec.ofNat 32 c := by
  obtain ⟨hx, _, _, _, hu⟩ := hclip.across.inside
  obtain ⟨hy, _, _, _, hv⟩ := hclip.down.inside
  have hX := natCast_toNat hx
  have hY := natCast_toNat hy
  rw [img_index, srcIndex, hu, hv]
  congr 2
  · congr 1
    omega
  · omega

theorem Clipped.drawn_iff (hclip : Clipped fb x y w h ax ay) {px py : Nat}
    (hpx : (px : Int) < fb.width.toInt) (hpy : (py : Int) < fb.height.toInt) :
    Drawn fb x y w h px py ↔ ∃ k < ay.len.toNat, ∃ c < ax.len.toNat,
      px = ax.pos.toNat + c ∧ py = ay.pos.toNat + k := by
  obtain ⟨hx, _⟩ := hclip.across.inside
  obtain ⟨hy, _⟩ := hclip.down.inside
  have hX := natCast_toNat hx
  have hY := natCast_toNat hy
  have hlx := natCast_toNat (Int.le_of_lt hclip.width)
  have hly := natCast_toNat (Int.le_of_lt hclip.height)
  have hdx := hclip.across.drawn_iff (Int.natCast_nonneg px) hpx
  have hdy := hclip.down.drawn_iff (Int.natCast_nonneg py) hpy
  rw [Drawn, hdx, hdy]
  constructor
  · intro hdrawn
    exact ⟨py - ay.pos.toNat, by omega, px - ax.pos.toNat, by omega, by omega, by omega⟩
  · rintro ⟨k, hk, c, hc, rfl, rfl⟩
    omega

/-- What is drawn comes from inside the image. -/
theorem srcIndex_lt {data : List U32} (hdata : w.toInt * h.toInt ≤ data.length) {px py : Nat}
    (hdrawn : Drawn fb x y w h px py) : (srcIndex x y w px py).toNat < data.length := by
  obtain ⟨⟨hx, hxw, _⟩, hy, hyh, _⟩ := hdrawn
  obtain ⟨hlow, hhigh⟩ := @cell_index_bounds w.toInt h.toInt (py - y.toInt) (px - x.toInt)
    (by omega) (by omega) (by omega) (by omega)
  exact toNat_ofInt_lt hlow (by omega)

theorem pixel_index_inj {W px py c r : Nat} (hpx : px < W) (hc : c < W)
    (heq : py * W + px = r * W + c) : px = c ∧ py = r := by
  have hW : 0 < W := Nat.zero_lt_of_lt hpx
  have hdiv := congrArg (· / W) heq
  have hmod := congrArg (· % W) heq
  simp only [Nat.add_comm _ px, Nat.add_comm _ c, Nat.add_mul_div_right _ _ hW,
    Nat.div_eq_of_lt hpx, Nat.div_eq_of_lt hc, Nat.add_mul_mod_self_right, Nat.mod_eq_of_lt hpx,
    Nat.mod_eq_of_lt hc] at hdiv hmod
  omega

/-- The three functions draw the pixels of `Drawn`, each from its own place in the
image, and leave the others alone. -/
theorem renderRows_pixels (hfb : fb.Formed) (hplace : Placed x y w h)
    {row : I32 → U32 → U32 → List U32 → Option (List U32)} {readable : U32 → Prop}
    {g : U32 → U32 → U32} (hrow : ∀ uvW : I32, RowPaints (row uvW) uvW.toNat readable g)
    (hread : ∀ i : Int, 0 ≤ i → i < w.toInt * h.toInt → readable (BitVec.ofInt 32 i)) :
    ∃ px', renderRows fb x y w h row = some { fb with pxData := px' } ∧
      px'.length = fb.pxData.length ∧
      ∀ px py : Nat, (px : Int) < fb.width.toInt → (py : Int) < fb.height.toInt →
        px'[py * fb.width.toNat + px]? = if Drawn fb x y w h px py then
          (fb.pixel px py).map (g (srcIndex x y w px py)) else fb.pixel px py := by
  cases hbounds : checkImageBounds fb x y w h with
  | none =>
      refine ⟨fb.pxData, by simp only [renderRows, hbounds], rfl, fun px py hpx hpy => ?_⟩
      rw [if_neg (checkImageBounds_none hfb hplace hbounds hpx hpy)]
      rfl
  | some axes =>
      obtain ⟨ax, ay⟩ := axes
      have hclip := checkImageBounds_some hfb hplace hbounds
      have hin := hclip.inside hfb
      obtain ⟨px', hdraw, hlen, hinside, houtside⟩ := eachRow_paints (hrow ax.len)
        (Nat.le_trans (Nat.le_add_left _ _) hin.right)
        (fun k hk => by
          rw [hin.vram_row hfb k]
          exact hin.row_end hfb hk)
        hfb.length_lt (fun k hk c hc => by
          obtain ⟨hlo, hhi⟩ := hclip.img_bounds hk hc
          rw [img_index]
          exact hread _ hlo hhi)
      refine ⟨px', ?_, hlen, fun px py hpx hpy => ?_⟩
      · simp only [renderRows, hbounds]
        rw [hdraw]
        rfl
      · by_cases hdrawn : Drawn fb x y w h px py
        · rw [if_pos hdrawn]
          obtain ⟨k, hk, c, hc, rfl, rfl⟩ := (hclip.drawn_iff hpx hpy).mp hdrawn
          have hcell := hinside k hk c hc
          rw [hin.vram_row hfb k, Nat.add_assoc] at hcell
          rw [hclip.srcIndex_eq]
          exact hcell
        · rw [if_neg hdrawn]
          refine houtside _ fun k hk c hc heq => ?_
          rw [hin.vram_row hfb k, Nat.add_assoc] at heq
          have hW := natCast_toNat hfb.width
          have hright := hin.right
          obtain ⟨hcol, hline⟩ := pixel_index_inj (by omega) (by omega) heq
          exact hdrawn ((hclip.drawn_iff hpx hpy).mpr ⟨k, hk, c, hc, hcol, hline⟩)

/-- One pass of the row loop. -/
structure Row where
  vramIt : U32
  imgIt : U32
  uvW : I32
  deriving DecidableEq

/-- The rows the three functions draw. -/
def drawnRows (fb : Framebuf) (x y w h : I32) : List Row :=
  match checkImageBounds fb x y w h with
  | none => []
  | some (ax, ay) =>
      (rowPtrs fb.width w ay.len.toNat (ax.pos + fb.width * ay.pos) (ay.uv * w + ax.uv)).map
        fun r => ⟨r.1, r.2, ax.len⟩

theorem renderRows_eq_foldlM (fb : Framebuf) (x y w h : I32)
    (row : I32 → U32 → U32 → List U32 → Option (List U32)) :
    renderRows fb x y w h row =
      ((drawnRows fb x y w h).foldlM (fun px r => row r.uvW r.vramIt r.imgIt px) fb.pxData).map
        fun px => { fb with pxData := px } := by
  cases hbounds : checkImageBounds fb x y w h with
  | none =>
      simp only [renderRows, drawnRows, hbounds]
      rfl
  | some axes =>
      simp only [renderRows, drawnRows, hbounds]
      rw [eachRow_eq_foldlM, List.foldlM_map]
      exact (Option.map_eq_bind).symm

/-- A row of pixels on one line of the screen, from a row of the image. -/
structure Row.Inside (fb : Framebuf) (w h : I32) (r : Row) : Prop where
  line : ∃ line < fb.height.toNat, ∃ col, r.vramIt.toNat = line * fb.width.toNat + col ∧
    col + r.uvW.toNat ≤ fb.width.toNat
  vram : ∀ c < r.uvW.toNat, r.vramIt.toNat + c < fb.pxCount.toNat
  image : ∀ c < r.uvW.toNat, ((r.imgIt + BitVec.ofNat 32 c).toNat : Int) < w.toInt * h.toInt

theorem drawnRows_inside (hfb : fb.Formed) (hplace : Placed x y w h) :
    ∀ r ∈ drawnRows fb x y w h, r.Inside fb w h := by
  intro r hr
  simp only [drawnRows] at hr
  split at hr
  case h_1 => exact absurd hr List.not_mem_nil
  case h_2 ax ay hbounds =>
    have hclip := checkImageBounds_some hfb hplace hbounds
    have hin := hclip.inside hfb
    obtain ⟨_, hmem, rfl⟩ := List.mem_map.mp hr
    obtain ⟨k, hk, rfl⟩ := mem_rowPtrs.mp hmem
    have hend := hin.row_end hfb hk
    have hvram := hin.vram_ptr hfb hk
    constructor
    · refine ⟨ay.pos.toNat + k, ?_, ax.pos.toNat, hvram, hin.right⟩
      have := hin.bottom
      omega
    · intro c hc
      change c < ax.len.toNat at hc
      rw [← hfb.data, hvram]
      omega
    · intro c hc
      obtain ⟨hlo, hhi⟩ := hclip.img_bounds hk hc
      change ((ay.uv * w + ax.uv + BitVec.ofNat 32 k * w + BitVec.ofNat 32 c).toNat : Int) < _
      rw [img_index]
      have hcells : 0 ≤ w.toInt * h.toInt := Int.le_trans hlo (Int.le_of_lt hhi)
      have hlt := @toNat_ofInt_lt _ (w.toInt * h.toInt).toNat hlo (by omega)
      omega

end

/-- Clipping never leaves the framebuffer, the line it draws on, or the image: the functions
draw the rows of `drawnRows` and no others, and each of them stays inside. -/
theorem render_stays_inside {fb : Framebuf} (hfb : fb.Formed) {x y w h : I32}
    (hplace : Placed x y w h) (data : List U32) (hdata : w.toInt * h.toInt ≤ data.length)
    (clr : U32) :
    (∃ fb', renderPutImage fb data x y w h = some fb') ∧
    (∃ fb', renderBlendImage fb data x y w h = some fb') ∧
    (∃ fb', renderRect fb x y w h clr = some fb') ∧
    (∀ row, renderRows fb x y w h row =
      ((drawnRows fb x y w h).foldlM (fun px r => row r.uvW r.vramIt r.imgIt px) fb.pxData).map
        fun px => { fb with pxData := px }) ∧
    ∀ r ∈ drawnRows fb x y w h, r.Inside fb w h := by
  have hread : ∀ i : Int, 0 ≤ i → i < w.toInt * h.toInt → InImage data (BitVec.ofInt 32 i) :=
    fun i h0 hi => toNat_ofInt_lt h0 (Int.lt_of_lt_of_le hi hdata)
  obtain ⟨_, hput, _⟩ := renderRows_pixels hfb hplace (fun uvW => mcpy32_paints uvW.toNat) hread
  obtain ⟨_, hblend, _⟩ := renderRows_pixels hfb hplace (fun uvW => blendRow_paints uvW) hread
  obtain ⟨_, hrect, _⟩ := renderRows_pixels hfb hplace (fun uvW => mset_paints clr uvW.toNat)
    fun _ _ _ => trivial
  exact ⟨⟨_, hput⟩, ⟨_, hblend⟩, ⟨_, hrect⟩, renderRows_eq_foldlM fb x y w h,
    drawnRows_inside hfb hplace⟩

/-- A black screen of 4 by 3 pixels. -/
def smallFb : Framebuf := ⟨4, 3, List.replicate 12 0, 12⟩

theorem formed_small : smallFb.Formed := ⟨by decide, by decide, by decide, by decide⟩

/-- An image that sticks out of the upper left corner. -/
theorem render_stays_inside_corner :
    (∃ fb', renderPutImage smallFb (List.replicate 9 7) (-1) (-2) 3 3 = some fb') ∧
      drawnRows smallFb (-1) (-2) 3 3 = [⟨0, 7, 2⟩] ∧
      Row.Inside smallFb 3 3 ⟨0, 7, 2⟩ := by
  obtain ⟨hput, _, _, _, hrows⟩ := render_stays_inside formed_small
    (x := -1) (y := -2) (w := 3) (h := 3) ⟨by decide, by decide⟩ (List.replicate 9 7) (by decide) 0
  have hdrawn : drawnRows smallFb (-1) (-2) 3 3 = [⟨0, 7, 2⟩] := by decide
  exact ⟨hput, hdrawn, hrows _ (by rw [hdrawn]; exact List.mem_singleton_self _)⟩

end DordOs
