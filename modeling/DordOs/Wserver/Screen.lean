import DordOs.Lib.Layers
import DordOs.Libk.Blend
import DordOs.Libk.Visible
import DordOs.Wserver.Drag
import DordOs.Wserver.Text

/-!
What a frame of the window server shows. `proc_wserver` paints the windows from the last one
to the first and the cursor over them, each of them with opaque rectangles, a title of
glyphs and an image; the screen is then a copy of what was painted. At every pixel the first
window that covers it is seen, unless the cursor or a title of a window before it is. Where
something is drawn that is larger than the screen and begins before it, the clipping leaves
out a part of it, and what is seen there is not said.
-/
namespace DordOs
open Lib

/-- What the pointers of the window server lead to: the glyph table of the font, the pixels
and the title of each window. -/
structure WsData where
  font : Font
  glyphs : List U32
  pixels : Usz → List U32
  title : Usz → CStr

/-- `br` of the drawing loop. -/
def Win.border (win : Win) : Rect := ⟨win.r.x - 1, win.r.y - 1, win.r.w + 2, win.r.h + 2⟩

namespace Wserver

/-- `bclr` of window `i`. -/
def bclr (s : Wserver) (i : Nat) : U32 := if BitVec.ofNat 32 i = s.focus then 0xAE3030 else 0x404040

end Wserver

/-- The pixels `B`, `W` and `_` of the cursor. -/
inductive CursorPx
  | b
  | w
  | o

def CursorPx.clr : CursorPx → U32
  | b => 0xFFFFFFFF
  | w => 0xFF000000
  | o => 0

open CursorPx in
def cursorRows : List (List CursorPx) :=
  [[b, o, o, o, o, o, o, o, o, o, o, o, o],
   [b, b, o, o, o, o, o, o, o, o, o, o, o],
   [b, w, b, o, o, o, o, o, o, o, o, o, o],
   [b, w, w, b, o, o, o, o, o, o, o, o, o],
   [b, w, w, w, b, o, o, o, o, o, o, o, o],
   [b, w, w, w, w, b, o, o, o, o, o, o, o],
   [b, w, w, w, w, w, b, o, o, o, o, o, o],
   [b, w, w, w, w, w, w, b, o, o, o, o, o],
   [b, w, w, w, w, w, w, w, b, o, o, o, o],
   [b, w, w, w, w, w, w, w, w, b, o, o, o],
   [b, w, w, w, w, w, w, w, w, w, b, o, o],
   [b, w, w, w, w, w, w, w, w, w, w, b, o],
   [b, w, w, w, w, w, w, b, b, b, b, b, b],
   [b, w, w, w, w, w, w, b, o, o, o, o, o],
   [b, w, w, b, b, w, w, w, b, o, o, o, o],
   [b, w, b, o, b, w, w, w, b, o, o, o, o],
   [b, b, o, o, o, b, w, w, w, b, o, o, o],
   [b, o, o, o, o, b, w, w, w, b, o, o, o],
   [o, o, o, o, o, o, b, b, b, o, o, o, o],
   [o, o, o, o, o, o, o, o, o, o, o, o, o]]

/-- `cursor[24][13]`; the last four rows have no initializer. -/
def cursor : List U32 := cursorRows.flatten.map CursorPx.clr ++ List.replicate (4 * 13) 0

/-- `render_clear` on an array of pixels. -/
def Framebuf.renderClear (fb : Framebuf) (color : U32) : Option Framebuf :=
  (mset fb.pxData 0 color fb.pxCount.toNat).map fun px => { fb with pxData := px }

/-- What blending makes of a colour. -/
def blendColour (clr : U32) (below : BitVec 24) : BitVec 24 :=
  low24 (blend clr (below.setWidth 32))

/-- A place on screen. -/
abbrev Place := Nat × Nat

def Framebuf.OnScreen (fb : Framebuf) (p : Place) : Prop :=
  (p.1 : Int) < fb.width.toInt ∧ (p.2 : Int) < fb.height.toInt

instance (fb : Framebuf) (p : Place) : Decidable (fb.OnScreen p) :=
  inferInstanceAs (Decidable (_ ∧ _))

def Framebuf.colour (fb : Framebuf) (p : Place) : Option (BitVec 24) :=
  (fb.pixel p.1 p.2).map low24

/-- `fb` has the size of the screen and shows this picture. -/
structure Depicts (screen fb : Framebuf) (pic : Place → BitVec 24) : Prop where
  size : fb = { screen with pxData := fb.pxData }
  length : fb.pxData.length = screen.pxData.length
  colour : ∀ p, screen.OnScreen p → fb.colour p = some (pic p)

/-- The function paints these layers over whatever there is. -/
def Paints (screen : Framebuf) (draw : Framebuf → Option Framebuf)
    (layers : List (Layer Place (BitVec 24))) : Prop :=
  ∀ fb pic, Depicts screen fb pic →
    ∃ fb', draw fb = some fb' ∧ Depicts screen fb' fun p => Layer.overlay layers p (pic p)

/-- A part of the screen is drawn from an image: `shade i` is what index `i` of it makes of
the colour below. -/
def drawnLayer (screen : Framebuf) (x y w h : I32) (shade : U32 → BitVec 24 → BitVec 24) :
    Layer Place (BitVec 24) :=
  Layer.patch (fun p => Drawn screen x y w h p.1 p.2) fun p => shade (srcIndex x y w p.1 p.2)

def rectLayer (screen : Framebuf) (x y w h : I32) (clr : U32) : Layer Place (BitVec 24) :=
  drawnLayer screen x y w h fun _ _ => low24 clr

def imageLayer (screen : Framebuf) (data : List U32) (x y w h : I32) : Layer Place (BitVec 24) :=
  drawnLayer screen x y w h fun i _ => low24 (data.getD i.toNat 0)

def blendLayer (screen : Framebuf) (data : List U32) (x y w h : I32) : Layer Place (BitVec 24) :=
  drawnLayer screen x y w h fun i => blendColour (data.getD i.toNat 0)

section Paint

variable {screen fb : Framebuf} {pic : Place → BitVec 24} {x y w h : I32}
  {draw draw' : Framebuf → Option Framebuf} {layers layers' : List (Layer Place (BitVec 24))}

theorem Depicts.formed (hfb : Depicts screen fb pic) (hscreen : screen.Formed) : fb.Formed := by
  rw [hfb.size]
  exact ⟨hscreen.width, hscreen.height, hscreen.count, hfb.length.trans hscreen.data⟩

theorem Paints.bind (hdraw : Paints screen draw layers) (hdraw' : Paints screen draw' layers') :
    Paints screen (fun fb => draw fb >>= draw') (layers ++ layers') := by
  intro fb pic hfb
  obtain ⟨fb₁, heq, hfb₁⟩ := hdraw fb pic hfb
  obtain ⟨fb₂, heq', hfb₂⟩ := hdraw' fb₁ _ hfb₁
  refine ⟨fb₂, ?_, hfb₂.size, hfb₂.length, fun p hp => ?_⟩
  · exact (congrArg (· >>= draw') heq).trans heq'
  · rw [hfb₂.colour p hp, Layer.overlay_append]

variable {data : List U32}

end Paint

/-- Where the glyph is drawn. -/
def GlyphCall.rect (d : WsData) (call : GlyphCall) : Rect :=
  ⟨call.x, call.y, d.font.glyphWidth.setWidth 32, d.font.glyphHeight.setWidth 32⟩

def GlyphCall.layer (screen : Framebuf) (d : WsData) (call : GlyphCall) :
    Layer Place (BitVec 24) :=
  blendLayer screen (d.glyphs.drop call.index.toNat) call.x call.y
    (d.font.glyphWidth.setWidth 32) (d.font.glyphHeight.setWidth 32)

/-- The pixel of the glyph at `p`. -/
def GlyphCall.pixelAt (d : WsData) (call : GlyphCall) (p : Place) : U32 :=
  let gw : I32 := d.font.glyphWidth.setWidth 32
  (d.glyphs.drop call.index.toNat).getD (srcIndex call.x call.y gw p.1 p.2).toNat 0

/-- The place lies in the rectangle. -/
def Rect.Covers (r : Rect) (p : Place) : Prop := Visible r.x r.y r.w r.h p.1 p.2

instance (r : Rect) (p : Place) : Decidable (r.Covers p) :=
  inferInstanceAs (Decidable (Visible _ _ _ _ _ _))

/-- The clipping leaves the place out. -/
def Rect.SkippedAt (r : Rect) (screen : Framebuf) (p : Place) : Prop :=
  Skipped screen r.x r.y r.w r.h p.1 p.2

/-- The whole glyph, blended with what is below. -/
def GlyphCall.ink (d : WsData) (call : GlyphCall) : Layer Place (BitVec 24) :=
  Layer.patch (fun p => (call.rect d).Covers p) fun p => blendColour (call.pixelAt d p)

namespace Win

variable (screen : Framebuf) (d : WsData) (win : Win)

/-- What matters for drawing. -/
def look : Win := { win with dragged := 0 }

def titleCalls : List GlyphCall :=
  wsTextCalls d.font (win.r.x + 4) (win.r.y - 18) (d.title win.title).bytes

def headerLayer (clr : U32) : Layer Place (BitVec 24) :=
  rectLayer screen win.header.x win.header.y win.header.w win.header.h clr

def titleLayers : List (Layer Place (BitVec 24)) :=
  (win.titleCalls d).map (GlyphCall.layer screen d)

/-- The lines of the border. -/
def borderRects : List Rect :=
  [⟨win.border.x, win.border.y, 1, win.border.h⟩,
   ⟨win.border.x + win.border.w - 1, win.border.y, 1, win.border.h⟩,
   ⟨win.border.x, win.border.y, win.border.w, 1⟩,
   ⟨win.border.x, win.border.y + win.border.h - 1, win.border.w, 1⟩]

def borderLayers (clr : U32) : List (Layer Place (BitVec 24)) :=
  [rectLayer screen win.border.x win.border.y 1 win.border.h clr,
   rectLayer screen (win.border.x + win.border.w - 1) win.border.y 1 win.border.h clr,
   rectLayer screen win.border.x win.border.y win.border.w 1 clr,
   rectLayer screen win.border.x (win.border.y + win.border.h - 1) win.border.w 1 clr]

def contentLayer : Layer Place (BitVec 24) :=
  imageLayer screen (d.pixels win.pxData) win.r.x win.r.y win.r.w win.r.h

/-- The layers a window is painted in. -/
def layers (clr : U32) : List (Layer Place (BitVec 24)) :=
  [win.headerLayer screen clr] ++ (win.titleLayers screen d ++
    (win.borderLayers screen clr ++ [win.contentLayer screen d]))

end Win

section Window

variable {screen : Framebuf} {d : WsData} {win : Win}

/-- The glyph has some colour at `p`. -/
def GlyphCall.Touches (d : WsData) (call : GlyphCall) (p : Place) : Prop :=
  (call.rect d).Covers p ∧ alpha (call.pixelAt d p) ≠ 0

instance (d : WsData) (call : GlyphCall) (p : Place) : Decidable (call.Touches d p) :=
  inferInstanceAs (Decidable (_ ∧ _))

section Rects

variable {r : Rect} {p : Place}

theorem Rect.drawn_iff : Drawn screen r.x r.y r.w r.h p.1 p.2 ↔
    r.Covers p ∧ ¬ r.SkippedAt screen p := drawn_iff_visible p.1 p.2

end Rects

theorem clear_blend {data : List U32} {x y w h : I32} {p : Place}
    (hclear : ¬ (Drawn screen x y w h p.1 p.2 ∧
      alpha (data.getD (srcIndex x y w p.1 p.2).toNat 0) ≠ 0)) :
    (blendLayer screen data x y w h).Clear p := by
  refine Layer.clear_patch fun hdrawn below => ?_
  have halpha := not_not.mp fun h => hclear ⟨hdrawn, h⟩
  rw [blendColour, blend_transparent halpha, low24, BitVec.setWidth_setWidth_of_le _ (by decide),
    BitVec.setWidth_eq]

namespace Win

variable (screen d win) (clr : U32) (p : Place)

/-- On the border. -/
def OnBorder : Prop := ∃ r ∈ win.borderRects, r.Covers p

instance : Decidable (win.OnBorder p) := inferInstanceAs (Decidable (∃ r ∈ _, _))

/-- What the window has at `p`: its content, its border, or its header with the title. -/
def colourAt : Option (BitVec 24) :=
  if win.r.Covers p then
    some (low24 ((d.pixels win.pxData).getD (srcIndex win.r.x win.r.y win.r.w p.1 p.2).toNat 0))
  else if win.OnBorder p then some (low24 clr)
  else if win.header.Covers p then
    some (Layer.overlay ((win.titleCalls d).map (GlyphCall.ink d)) p (low24 clr))
  else none

/-- Neither the window nor its title, which may be wider, is at `p`. -/
def Misses : Prop :=
  win.colourAt d clr p = none ∧ ∀ call ∈ win.titleCalls d, ¬ call.Touches d p

instance : Decidable (win.Misses d clr p) := inferInstanceAs (Decidable (_ ∧ _))

variable {screen d win clr p}

theorem borderLayers_eq : win.borderLayers screen clr =
    win.borderRects.map fun r => rectLayer screen r.x r.y r.w r.h clr := rfl

theorem clear_border (h : ¬ win.OnBorder p) :
    (Layer.overlay (win.borderLayers screen clr)).Clear p := by
  rw [borderLayers_eq]
  refine Layer.Clear.overlay (List.forall_mem_map.mpr fun r hr => ?_)
  exact Layer.clear_patch_of_not fun hdrawn => h ⟨r, hr, (Rect.drawn_iff.mp hdrawn).1⟩

theorem Misses.clear (h : win.Misses d clr p) :
    (Layer.overlay (win.layers screen d clr)).Clear p := by
  obtain ⟨hnone, htitle⟩ := h
  have hrect {r : Rect} (hr : ¬ r.Covers p) : ¬ Drawn screen r.x r.y r.w r.h p.1 p.2 :=
    fun hdrawn => hr (Rect.drawn_iff.mp hdrawn).1
  simp only [colourAt] at hnone
  split at hnone
  next => cases hnone
  next hcontent =>
    split at hnone
    next => cases hnone
    next hborder =>
      split at hnone
      next => cases hnone
      next hheader =>
        refine Layer.Clear.append (Layer.clear_patch_of_not (hrect hheader)) (Layer.Clear.append ?_
          ((clear_border hborder).append (Layer.clear_patch_of_not (hrect hcontent))))
        refine Layer.Clear.overlay (List.forall_mem_map.mpr fun call hcall => ?_)
        exact clear_blend fun hdrawn =>
          htitle call hcall ⟨(Rect.drawn_iff (r := call.rect d).mp hdrawn.1).1, hdrawn.2⟩

end Win

end Window

namespace Wserver

variable {screen : Framebuf} {d : WsData} {m : Mouse} {s t : Wserver}

/-- The layers of the windows below `n`, the last one lowest. -/
def layersBelow (screen : Framebuf) (d : WsData) (s : Wserver) :
    Nat → List (Layer Place (BitVec 24))
  | 0 => []
  | i + 1 =>
      ((s.w[i]?).map fun win => win.layers screen d (s.bclr i)).getD [] ++ layersBelow screen d s i

/-- Both states have the same windows in the same places, and the same one in focus. -/
structure SameLook (s t : Wserver) : Prop where
  looks : ∀ i : Nat, (t.w[i]?).map Win.look = (s.w[i]?).map Win.look
  focus : t.focus = s.focus
  winCount : t.winCount = s.winCount

theorem SameLook.refl (s : Wserver) : SameLook s s := ⟨fun _ => rfl, rfl, rfl⟩

theorem SameLook.trans {u : Wserver} (h : SameLook s t) (h' : SameLook t u) : SameLook s u :=
  ⟨fun i => (h'.looks i).trans (h.looks i), h'.focus.trans h.focus,
    h'.winCount.trans h.winCount⟩

theorem SameLook.layersBelow (h : SameLook s t) (n : Nat) :
    t.layersBelow screen d n = s.layersBelow screen d n := by
  induction n with
  | zero => rfl
  | succ i ih =>
      have hlook (u : Wserver) : ((u.w[i]?).map fun win => win.layers screen d (u.bclr i)) =
          ((u.w[i]?).map Win.look).map fun win => win.layers screen d (u.bclr i) := by
        rw [Option.map_map]
        rfl
      have hbclr : t.bclr i = s.bclr i := by rw [bclr, bclr, h.focus]
      rw [Wserver.layersBelow, Wserver.layersBelow, hlook t, h.looks i, hbclr, ← hlook s, ih]

end Wserver

section Frame

variable {vga : Framebuf}

def cursorLayer (screen : Framebuf) (m : Mouse) : Layer Place (BitVec 24) :=
  blendLayer screen cursor m.x m.y 13 24

/-- Where the cursor is drawn. -/
def Mouse.cursorRect (m : Mouse) : Rect := ⟨m.x, m.y, 13, 24⟩

/-- The cursor's pixel at `p`, where there is one. -/
def cursorAt (m : Mouse) (p : Place) : Option U32 :=
  if m.cursorRect.Covers p then
    some (cursor.getD (srcIndex m.x m.y 13 p.1 p.2).toNat 0)
  else none

/-- The cursor has no colour at `p`. -/
def CursorMisses (m : Mouse) (p : Place) : Prop := ∀ clr ∈ cursorAt m p, alpha clr = 0

variable {m : Mouse} {p : Place}

theorem CursorMisses.clear (h : CursorMisses m p) : (cursorLayer vga m).Clear p := by
  refine clear_blend fun hdrawn => hdrawn.2 (h _ ?_)
  exact if_pos (Rect.drawn_iff (r := m.cursorRect).mp hdrawn.1).1

end Frame

end DordOs
