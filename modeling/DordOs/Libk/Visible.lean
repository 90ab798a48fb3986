import DordOs.Libk.Clipping

/-!
Whether drawing shows the whole visible part of an image. The two corrections of
an axis are both made when the image begins before the screen and is larger than
it; then the last places of the screen are skipped.
-/
namespace DordOs

/-- Screen pixel `(px, py)` shows a pixel of the image. -/
def Visible (x y w h : I32) (px py : Nat) : Prop :=
  (0 ≤ px - x.toInt ∧ px - x.toInt < w.toInt) ∧ 0 ≤ py - y.toInt ∧ py - y.toInt < h.toInt

instance (x y w h : I32) (px py : Nat) : Decidable (Visible x y w h px py) :=
  inferInstanceAs (Decidable (_ ∧ _))

/-- A place of an axis that is skipped although the image covers it. -/
def SkippedAxis (bound pos size : Int) (p : Nat) : Prop :=
  pos < 0 ∧ bound < size ∧ bound + pos ≤ p

instance (bound pos size : Int) (p : Nat) : Decidable (SkippedAxis bound pos size p) :=
  inferInstanceAs (Decidable (_ ∧ _))

def Skipped (fb : Framebuf) (x y w h : I32) (px py : Nat) : Prop :=
  SkippedAxis fb.width.toInt x.toInt w.toInt px ∨ SkippedAxis fb.height.toInt y.toInt h.toInt py

instance (fb : Framebuf) (x y w h : I32) (px py : Nat) : Decidable (Skipped fb x y w h px py) :=
  inferInstanceAs (Decidable (_ ∨ _))

/-- `drawn` shows `image` where it is visible and `fb` elsewhere. -/
def ShowsImage (fb : Framebuf) (x y w h : I32) (image : Nat → Nat → Option U32)
    (drawn : Option Framebuf) : Prop :=
  ∃ fb', drawn = some fb' ∧ ∀ px py : Nat, (px : Int) < fb.width.toInt →
    (py : Int) < fb.height.toInt →
    fb'.pixel px py = if Visible x y w h px py then image px py else fb.pixel px py

/-- Wherever the image is visible but skipped, the screen shows it already. -/
def SkipsNothingNew (fb : Framebuf) (x y w h : I32) (image : Nat → Nat → Option U32) : Prop :=
  ∀ px py : Nat, (px : Int) < fb.width.toInt → (py : Int) < fb.height.toInt →
    Visible x y w h px py → Skipped fb x y w h px py → fb.pixel px py = image px py

/-- The pixel of the image at `(px, py)` of the screen. -/
def imagePixel (data : List U32) (x y w : I32) (px py : Nat) : Option U32 :=
  data[((py - y.toInt) * w.toInt + (px - x.toInt)).toNat]?

section

variable {fb : Framebuf} {x y w h : I32}

theorem drawn_iff_visible (px py : Nat) :
    Drawn fb x y w h px py ↔ Visible x y w h px py ∧ ¬ Skipped fb x y w h px py := by
  simp only [Drawn, DrawnAxis, Visible, Skipped, SkippedAxis]
  omega

theorem showsImage_iff {image : Nat → Nat → Option U32} {fb' : Framebuf}
    (hpixel : ∀ px py : Nat, (px : Int) < fb.width.toInt → (py : Int) < fb.height.toInt →
      fb'.pixel px py = if Drawn fb x y w h px py then image px py else fb.pixel px py) :
    ShowsImage fb x y w h image (some fb') ↔ SkipsNothingNew fb x y w h image := by
  constructor
  · rintro ⟨_, hsome, hshow⟩ px py hpx hpy hvisible hskipped
    cases hsome
    have hdrawn : ¬ Drawn fb x y w h px py := fun hdrawn =>
      ((drawn_iff_visible px py).mp hdrawn).2 hskipped
    have hcell := hshow px py hpx hpy
    rw [hpixel px py hpx hpy, if_neg hdrawn, if_pos hvisible] at hcell
    exact hcell
  · intro hnew
    refine ⟨fb', rfl, fun px py hpx hpy => ?_⟩
    rw [hpixel px py hpx hpy]
    by_cases hvisible : Visible x y w h px py
    · by_cases hskipped : Skipped fb x y w h px py
      · rw [if_neg fun hdrawn => ((drawn_iff_visible px py).mp hdrawn).2 hskipped,
          if_pos hvisible]
        exact hnew px py hpx hpy hvisible hskipped
      · rw [if_pos ((drawn_iff_visible px py).mpr ⟨hvisible, hskipped⟩), if_pos hvisible]
    · rw [if_neg fun hdrawn => hvisible ((drawn_iff_visible px py).mp hdrawn).1, if_neg hvisible]

/-- A visible pixel of the image is at the index the code computes. -/
theorem imagePixel_eq {data : List U32} (hdata : (data.length : Int) = w.toInt * h.toInt)
    (hlen : data.length < 2 ^ 32) {px py : Nat} (hvisible : Visible x y w h px py) :
    imagePixel data x y w px py = some (data.getD (srcIndex x y w px py).toNat 0) := by
  obtain ⟨⟨hx, hxw⟩, hy, hyh⟩ := hvisible
  obtain ⟨hlow, hhigh⟩ := cell_index_bounds hy hyh hx hxw
  rw [← hdata] at hhigh
  obtain ⟨i, hi⟩ := Int.eq_ofNat_of_zero_le hlow
  have hlt : i < data.length := by omega
  have hindex : (srcIndex x y w px py).toNat = i := by
    rw [srcIndex, hi, BitVec.ofInt_natCast, BitVec.toNat_ofNat]
    exact Nat.mod_eq_of_lt (by omega)
  rw [hindex, imagePixel, hi]
  change data[i]? = _
  rw [List.getElem?_eq_getElem hlt, List.getD_eq_getElem data 0 hlt]

end

/-- Drawing an image or a rectangle shows all of its visible part, and nothing
else, exactly when what it skips is on screen already. -/
theorem clipping_exact_iff {fb : Framebuf} (hfb : fb.Formed) {x y w h : I32}
    (hplace : Placed x y w h) (data : List U32)
    (hdata : (data.length : Int) = w.toInt * h.toInt) (hlen : data.length < 2 ^ 32) (clr : U32) :
    (ShowsImage fb x y w h (imagePixel data x y w) (renderPutImage fb data x y w h) ↔
      SkipsNothingNew fb x y w h (imagePixel data x y w)) ∧
    (ShowsImage fb x y w h (fun _ _ => some clr) (renderRect fb x y w h clr) ↔
      SkipsNothingNew fb x y w h fun _ _ => some clr) := by
  constructor
  · obtain ⟨px', hput, _, hpixel⟩ := renderRows_pixels hfb hplace
      (fun uvW => @mcpy32_paints data uvW.toNat)
      (fun i h0 hi => toNat_ofInt_lt h0 (by rw [hdata]; exact hi))
    refine (congrArg (ShowsImage fb x y w h (imagePixel data x y w)) hput).to_iff.trans ?_
    refine showsImage_iff fun px py hpx hpy => ?_
    obtain ⟨old, hold⟩ := hfb.pixel_some hpx hpy
    refine (hpixel px py hpx hpy).trans (ite_congr rfl (fun hdrawn => ?_) fun _ => rfl)
    rw [hold, imagePixel_eq hdata hlen ((drawn_iff_visible px py).mp hdrawn).1, Option.map_some]
  · obtain ⟨px', hrect, _, hpixel⟩ := renderRows_pixels hfb hplace
      (fun uvW => mset_paints clr uvW.toNat) fun _ _ _ => trivial
    refine (congrArg (ShowsImage fb x y w h fun _ _ => some clr) hrect).to_iff.trans ?_
    refine showsImage_iff fun px py hpx hpy => ?_
    obtain ⟨old, hold⟩ := hfb.pixel_some hpx hpy
    refine (hpixel px py hpx hpy).trans (ite_congr rfl (fun _ => ?_) fun _ => rfl)
    rw [hold, Option.map_some]

/-- A small image half off the left edge. -/
theorem clipping_exact_iff_left :
    ShowsImage smallFb (-1) 0 2 2 (imagePixel [1, 2, 3, 4] (-1) 0 2)
      (renderPutImage smallFb [1, 2, 3, 4] (-1) 0 2 2) :=
  (clipping_exact_iff formed_small ⟨by decide, by decide⟩ [1, 2, 3, 4] (by decide) (by decide)
    0).1.mpr fun px py _ _ _ hskipped => by
      obtain ⟨_, hbig, _⟩ | ⟨hneg, _⟩ := hskipped
      · exact absurd hbig (by decide)
      · exact absurd hneg (by decide)

/-- An image of 8 white pixels drawn at -2 covers the 4 columns of the screen, but
only the first two are drawn. -/
theorem wide_image_skips_columns :
    ¬ ∀ (fb : Framebuf) (data : List U32) (x y w h : I32), fb.Formed → Placed x y w h →
      0 ≤ w.toInt → 0 ≤ h.toInt → (data.length : Int) = w.toInt * h.toInt →
      data.length < 2 ^ 32 →
      ShowsImage fb x y w h (imagePixel data x y w) (renderPutImage fb data x y w h) := by
  intro claim
  obtain ⟨fb', hput, hshow⟩ := claim smallFb (List.replicate 8 0xFFFFFF) (-2) 0 8 1 formed_small
    ⟨by decide, by decide⟩ (by decide) (by decide) (by decide) (by decide)
  have hcell := hshow 2 0 (by decide) (by decide)
  have hpixel : (renderPutImage smallFb (List.replicate 8 0xFFFFFF) (-2) 0 8 1).map
      (fun fb => fb.pixel 2 0) = some (some 0) := by decide
  rw [hput] at hpixel
  have hzero : fb'.pixel 2 0 = some 0 := Option.some.inj hpixel
  rw [hzero, if_pos (by decide)] at hcell
  exact absurd hcell (by decide)

end DordOs
