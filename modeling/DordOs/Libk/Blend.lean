import DordOs.Libk.Clipping

/-!
Blending by shifts. The shift counts are the alpha value and its complement
modulo 32, so that opaque pixels are copied and transparent ones leave the screen
as it is, up to the highest bit.
-/
namespace DordOs

def alpha (clr : U32) : U8 := (clr >>> 24).setWidth 8

/-- The colour without alpha. -/
def low24 (clr : U32) : BitVec 24 := clr.setWidth 24

/-- What is shifted to the highest bit is no colour. -/
theorem low24_add_shiftLeft (a b : U32) : low24 ((a <<< 0) + (b <<< 31)) = low24 a := by
  apply BitVec.eq_of_toNat_eq
  rw [low24, low24, BitVec.toNat_setWidth, BitVec.toNat_setWidth, BitVec.toNat_add,
    BitVec.toNat_shiftLeft, BitVec.toNat_shiftLeft, Nat.shiftLeft_eq, Nat.shiftLeft_eq]
  omega

theorem blend_opaque {clr : U32} (h : alpha clr = 0xFF) (px : U32) :
    low24 (blend clr px) = low24 clr := by
  have ha : (clr >>> 24).setWidth 8 = (0xFF : U8) := h
  have hblend : blend clr px = (clr <<< 0) + (px <<< 31) := by
    simp only [blend, ha]
    rfl
  rw [hblend, low24_add_shiftLeft]

theorem blend_transparent {clr : U32} (h : alpha clr = 0) (px : U32) :
    low24 (blend clr px) = low24 px := by
  have ha : (clr >>> 24).setWidth 8 = (0 : U8) := h
  have hblend : blend clr px = (clr <<< 31) + (px <<< 0) := by
    simp only [blend, ha]
    rfl
  rw [hblend, BitVec.add_comm, low24_add_shiftLeft]

/-- Pixel `(px, py)` is drawn from index `i` of the image. -/
def DrawnFrom (fb : Framebuf) (x y w h : I32) (px py : Nat) (i : U32) : Prop :=
  ∃ r ∈ drawnRows fb x y w h, ∃ c < r.uvW.toNat,
    py * fb.width.toNat + px = r.vramIt.toNat + c ∧ i = r.imgIt + BitVec.ofNat 32 c

/-- No edge of the image wraps around unless its size is not negative; then the
code takes it for an image that is not on screen. -/
structure Sized (x y w h : I32) : Prop where
  right : w.toInt < 0 → ¬ x.saddOverflow w
  bottom : h.toInt < 0 → ¬ y.saddOverflow h

section

variable {fb : Framebuf} {x y w h : I32}

theorem drawnFrom_iff (hfb : fb.Formed) (hplace : Placed x y w h) {px py : Nat}
    (hpx : (px : Int) < fb.width.toInt) (hpy : (py : Int) < fb.height.toInt) (i : U32) :
    DrawnFrom fb x y w h px py i ↔ Drawn fb x y w h px py ∧ i = srcIndex x y w px py := by
  simp only [DrawnFrom, drawnRows]
  cases hbounds : checkImageBounds fb x y w h with
  | none =>
      refine iff_of_false ?_ fun hdrawn => checkImageBounds_none hfb hplace hbounds hpx hpy hdrawn.1
      rintro ⟨r, hr, _⟩
      exact List.not_mem_nil hr
  | some axes =>
      obtain ⟨ax, ay⟩ := axes
      have hclip := checkImageBounds_some hfb hplace hbounds
      have hin := hclip.inside hfb
      have hW := natCast_toNat hfb.width
      have hright := hin.right
      rw [hclip.drawn_iff hpx hpy]
      constructor
      · rintro ⟨_, hr, c, hc, hplace, rfl⟩
        obtain ⟨_, hmem, rfl⟩ := List.mem_map.mp hr
        obtain ⟨k, hk, rfl⟩ := mem_rowPtrs.mp hmem
        rw [hin.vram_ptr hfb hk, Nat.add_assoc] at hplace
        obtain ⟨rfl, rfl⟩ := pixel_index_inj (by omega)
          (show ax.pos.toNat + c < _ by have : c < ax.len.toNat := hc; omega) hplace
        exact ⟨⟨k, hk, c, hc, rfl, rfl⟩, (hclip.srcIndex_eq k c).symm⟩
      · rintro ⟨⟨k, hk, c, hc, rfl, rfl⟩, rfl⟩
        refine ⟨_, List.mem_map_of_mem (mem_rowPtrs.mpr ⟨k, hk, rfl⟩), c, hc, ?_,
          hclip.srcIndex_eq k c⟩
        rw [hin.vram_ptr hfb hk, Nat.add_assoc]

theorem toInt_add_of_saddOverflow {a b : I32} (hover : a.saddOverflow b) (hb : 0 ≤ b.toInt) :
    (a + b).toInt < 0 := by
  obtain ⟨hlo, hhi⟩ := toInt_bounds a
  obtain ⟨_, hbhi⟩ := toInt_bounds b
  simp only [BitVec.saddOverflow, Bool.or_eq_true, decide_eq_true_eq] at hover
  have hwrap : (a.toInt + b.toInt).bmod (2 ^ 32) = a.toInt + b.toInt - 2 ^ 32 := by
    have hsub : (a.toInt + b.toInt - 2 ^ 32).bmod (2 ^ 32) = (a.toInt + b.toInt).bmod (2 ^ 32) :=
      Int.sub_bmod_right _ (2 ^ 32)
    rw [← hsub, bmod_of_fits (by omega) (by omega)]
  rw [BitVec.toInt_add, hwrap]
  omega

theorem Sized.placed_or_none (hsize : Sized x y w h) :
    Placed x y w h ∨ checkImageBounds fb x y w h = none := by
  simp only [checkImageBounds]
  by_cases hx : x.saddOverflow w
  · have hneg := toInt_add_of_saddOverflow hx (Int.not_lt.mp fun hw => hsize.right hw hx)
    exact Or.inr (if_pos (Or.inr hneg))
  · by_cases hy : y.saddOverflow h
    · have hneg := toInt_add_of_saddOverflow hy (Int.not_lt.mp fun hh => hsize.bottom hh hy)
      right
      split
      · rfl
      · exact if_pos (Or.inr hneg)
    · exact Or.inl ⟨hx, hy⟩

/-- The pixel drawn at `(px, py)` is opaque. -/
def OpaqueAt (fb : Framebuf) (data : List U32) (x y w h : I32) (px py : Nat) : Prop :=
  ∃ i, DrawnFrom fb x y w h px py i ∧ alpha (data.getD i.toNat 0) = 0xFF

/-- On pixel `(px, py)` blending shows what copying shows where the image is opaque,
and what was there before everywhere else. -/
def BlendsAt (fb : Framebuf) (data : List U32) (x y w h : I32) (blended copied : Framebuf)
    (px py : Nat) : Prop :=
  ∃ old new copy, fb.pixel px py = some old ∧ blended.pixel px py = some new ∧
    copied.pixel px py = some copy ∧
    (OpaqueAt fb data x y w h px py → low24 new = low24 copy) ∧
    (¬ OpaqueAt fb data x y w h px py → low24 new = low24 old)

theorem blendsAt_of_pixels {data : List U32} (hfb : fb.Formed) (hplace : Placed x y w h)
    (hdata : w.toInt * h.toInt ≤ data.length)
    (halpha : ∀ clr ∈ data, alpha clr = 0 ∨ alpha clr = 0xFF) {blended copied : Framebuf}
    {px py : Nat} (hpx : (px : Int) < fb.width.toInt) (hpy : (py : Int) < fb.height.toInt)
    (hblend : blended.pixel px py = if Drawn fb x y w h px py then
      (fb.pixel px py).map fun old => blend (data.getD (srcIndex x y w px py).toNat 0) old
      else fb.pixel px py)
    (hcopy : copied.pixel px py = if Drawn fb x y w h px py then
      (fb.pixel px py).map fun _ => data.getD (srcIndex x y w px py).toNat 0 else fb.pixel px py) :
    BlendsAt fb data x y w h blended copied px py := by
  obtain ⟨old, hold⟩ := hfb.pixel_some hpx hpy
  have hcovers : OpaqueAt fb data x y w h px py ↔
      Drawn fb x y w h px py ∧ alpha (data.getD (srcIndex x y w px py).toNat 0) = 0xFF := by
    simp only [OpaqueAt, drawnFrom_iff hfb hplace hpx hpy]
    exact ⟨fun ⟨_, ⟨hdrawn, hi⟩, h⟩ => ⟨hdrawn, hi ▸ h⟩, fun ⟨hdrawn, h⟩ => ⟨_, ⟨hdrawn, rfl⟩, h⟩⟩
  rw [hold] at hblend hcopy
  by_cases hdrawn : Drawn fb x y w h px py
  · rw [if_pos hdrawn, Option.map_some] at hblend hcopy
    refine ⟨old, _, _, hold, hblend, hcopy, fun h => blend_opaque (hcovers.mp h).2 old, fun h => ?_⟩
    have hsrc := srcIndex_lt hdata hdrawn
    rw [List.getD_eq_getElem data 0 hsrc] at hcovers ⊢
    obtain hzero | hfull := halpha _ (List.getElem_mem hsrc)
    · exact blend_transparent hzero old
    · exact absurd (hcovers.mpr ⟨hdrawn, hfull⟩) h
  · rw [if_neg hdrawn] at hblend hcopy
    exact ⟨old, old, old, hold, hblend, hcopy, fun _ => rfl, fun _ => rfl⟩

end

/-- Blending an image of opaque and transparent pixels shows its opaque ones where
copying shows them, and the screen behind it everywhere else. -/
theorem blend_agrees_with_copy {fb : Framebuf} (hfb : fb.Formed) {x y w h : I32}
    (hsize : Sized x y w h) (data : List U32) (hdata : w.toInt * h.toInt ≤ data.length)
    (halpha : ∀ clr ∈ data, alpha clr = 0 ∨ alpha clr = 0xFF) :
    ∃ blended copied, renderBlendImage fb data x y w h = some blended ∧
      renderPutImage fb data x y w h = some copied ∧
      ∀ px py : Nat, (px : Int) < fb.width.toInt → (py : Int) < fb.height.toInt →
        BlendsAt fb data x y w h blended copied px py := by
  obtain hplace | hnone := @Sized.placed_or_none fb _ _ _ _ hsize
  · have hread : ∀ i : Int, 0 ≤ i → i < w.toInt * h.toInt → InImage data (BitVec.ofInt 32 i) :=
      fun i h0 hi => toNat_ofInt_lt h0 (Int.lt_of_lt_of_le hi hdata)
    obtain ⟨_, hblend, _, hblended⟩ :=
      renderRows_pixels hfb hplace (fun uvW => blendRow_paints uvW) hread
    obtain ⟨_, hput, _, hcopied⟩ :=
      renderRows_pixels hfb hplace (fun uvW => mcpy32_paints uvW.toNat) hread
    exact ⟨_, _, hblend, hput, fun px py hpx hpy => blendsAt_of_pixels hfb hplace hdata halpha
      hpx hpy (hblended px py hpx hpy) (hcopied px py hpx hpy)⟩
  · refine ⟨fb, fb, ?_, ?_, fun px py hpx hpy => ?_⟩
    · simp only [renderBlendImage, renderRows, hnone]
    · simp only [renderPutImage, renderRows, hnone]
    · obtain ⟨old, hold⟩ := hfb.pixel_some hpx hpy
      exact ⟨old, old, old, hold, hold, hold, fun _ => rfl, fun _ => rfl⟩

/-- A cut-out image of an opaque and a transparent pixel. -/
theorem blend_agrees_with_copy_pair :
    ∃ blended copied, renderBlendImage smallFb [0xFF102030, 0x00405060] 1 1 2 1 = some blended ∧
      renderPutImage smallFb [0xFF102030, 0x00405060] 1 1 2 1 = some copied ∧
      BlendsAt smallFb [0xFF102030, 0x00405060] 1 1 2 1 blended copied 1 1 ∧
      BlendsAt smallFb [0xFF102030, 0x00405060] 1 1 2 1 blended copied 2 1 := by
  obtain ⟨blended, copied, hblend, hput, hall⟩ := blend_agrees_with_copy formed_small
    (x := 1) (y := 1) (w := 2) (h := 1) ⟨by decide, by decide⟩ [0xFF102030, 0x00405060]
    (by decide) (by simp [alpha])
  exact ⟨blended, copied, hblend, hput, hall 1 1 (by decide) (by decide),
    hall 2 1 (by decide) (by decide)⟩

end DordOs
