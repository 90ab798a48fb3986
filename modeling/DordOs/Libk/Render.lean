import DordOs.Libk.Move
import Mathlib.Data.List.GetD

/-!
Drawing into a framebuffer, `libk/render.c`. The pixels and the image are arrays,
pointers into them are indices modulo 2 ^ 32, and an access outside an array is
`none`. Shift counts are taken modulo 32, as the x86 takes them.
-/
namespace DordOs
open Lib

/-- `framebuf_t`. -/
structure Framebuf where
  width : I32
  height : I32
  pxData : List U32
  pxCount : Usz
  deriving DecidableEq

/-- A framebuffer as `vga.c` sets it up. -/
structure Framebuf.Formed (fb : Framebuf) : Prop where
  width : 0 ≤ fb.width.toInt
  height : 0 ≤ fb.height.toInt
  count : (fb.pxCount.toNat : Int) = fb.width.toInt * fb.height.toInt
  data : fb.pxData.length = fb.pxCount.toNat

/-- Where one axis of an image is drawn: the position on screen, the offset into
the image, and how much of it. -/
structure Axis where
  pos : I32
  uv : I32
  len : I32
  deriving DecidableEq

/-- The correction `CHECK_IMAGE_BOUNDS` makes on each axis. -/
def clipAxis (bound pos size : I32) : Axis :=
  let uv : I32 := if pos.toInt < 0 then -pos else 0
  let pos : I32 := if pos.toInt < 0 then 0 else pos
  let len := size - uv
  let len := if (pos + size).toInt > bound.toInt then len + (bound - (pos + size)) else len
  ⟨pos, uv, len⟩

/-- `CHECK_IMAGE_BOUNDS`; `none` is one of its returns. -/
def checkImageBounds (fb : Framebuf) (x y w h : I32) : Option (Axis × Axis) :=
  if x.toInt > fb.width.toInt ∨ (x + w).toInt < 0 then none
  else if y.toInt > fb.height.toInt ∨ (y + h).toInt < 0 then none
  else
    let ax := clipAxis fb.width x w
    let ay := clipAxis fb.height y h
    if ay.len.toInt ≤ 0 ∨ ax.len.toInt ≤ 0 then none else some (ax, ay)

/-- The row loop: `row` draws the row at `vram_it` from `img_it`. -/
def eachRow (row : U32 → U32 → List U32 → Option (List U32)) (width w : U32) :
    Nat → U32 → U32 → List U32 → Option (List U32)
  | 0, _, _, px => some px
  | n + 1, vramIt, imgIt, px => do
      let px ← row vramIt imgIt px
      eachRow row width w n (vramIt + width) (imgIt + w) px

/-- What the three functions share: `row` gets the number of pixels, `vram_it`,
`img_it` and the pixels of the framebuffer. -/
def renderRows (fb : Framebuf) (x y w h : I32)
    (row : I32 → U32 → U32 → List U32 → Option (List U32)) : Option Framebuf :=
  match checkImageBounds fb x y w h with
  | none => some fb
  | some (ax, ay) => do
      let vramIt := ax.pos + fb.width * ay.pos
      let imgIt := ay.uv * w + ax.uv
      let px ← eachRow (row ax.len) fb.width w ay.len.toNat vramIt imgIt fb.pxData
      return { fb with pxData := px }

/-- `rep movsd` from one array to another. -/
def mcpy32 (data : List U32) : Nat → U32 → U32 → List U32 → Option (List U32)
  | 0, _, _, px => some px
  | count + 1, dst, src, px => do
      let v ← data[src.toNat]?
      let px ← store px dst.toNat v
      mcpy32 data count (dst + 1) (src + 1) px

def renderPutImage (fb : Framebuf) (data : List U32) (x y w h : I32) : Option Framebuf :=
  renderRows fb x y w h fun uvW => mcpy32 data uvW.toNat

/-- The pixel that `render_blend_image` stores. -/
def blend (clr px : U32) : U32 :=
  let a : U8 := (clr >>> 24).setWidth 8
  (clr <<< ((~~~(a.setWidth 32 : U32)).toNat % 32)) + (px <<< (a.toNat % 32))

def blendRow (data : List U32) (uvW : U32) (vramIt imgIt : U32) (px : List U32) :
    Option (List U32) :=
  forUp 0 uvW (fun i px => do
    let px ← px
    let clr ← data[(imgIt + i).toNat]?
    let old ← px[(vramIt + i).toNat]?
    store px (vramIt + i).toNat (blend clr old)) (some px)

def renderBlendImage (fb : Framebuf) (data : List U32) (x y w h : I32) : Option Framebuf :=
  renderRows fb x y w h fun uvW => blendRow data uvW

def renderRect (fb : Framebuf) (x y w h : I32) (clr : U32) : Option Framebuf :=
  renderRows fb x y w h fun uvW vramIt _ px => mset px vramIt.toNat clr uvW.toNat

/-- `row` replaces the `n` pixels from `vram_it` on, reading the image from
`img_it` on: `g i old` is the new pixel for image index `i` over `old`. -/
def RowPaints (row : U32 → U32 → List U32 → Option (List U32)) (n : Nat) (readable : U32 → Prop)
    (g : U32 → U32 → U32) : Prop :=
  ∀ (vramIt imgIt : U32) (px : List U32), vramIt.toNat + n ≤ px.length → px.length < 2 ^ 32 →
    (∀ k < n, readable (imgIt + BitVec.ofNat 32 k)) →
    ∃ px', row vramIt imgIt px = some px' ∧ px'.length = px.length ∧
      ∀ j, px'[j]? = if vramIt.toNat ≤ j ∧ j < vramIt.toNat + n then
        px[j]?.map (g (imgIt + BitVec.ofNat 32 (j - vramIt.toNat))) else px[j]?

section Rows

variable {data : List U32}

/-- The image index is inside the image. -/
def InImage (data : List U32) (i : U32) : Prop := i.toNat < data.length

theorem toNat_add_ofNat {v : U32} {k : Nat} (h : v.toNat + k < 2 ^ 32) :
    (v + BitVec.ofNat 32 k).toNat = v.toNat + k := by
  bv_omega

theorem mset_paints (clr : U32) (n : Nat) :
    RowPaints (fun vramIt _ px => mset px vramIt.toNat clr n) n (fun _ => True) fun _ _ => clr := by
  intro vramIt imgIt px hfit _ _
  obtain ⟨filled, hfill, hlen, hcell⟩ := mset_eq_some (v := clr) hfit
  refine ⟨filled, hfill, hlen, fun j => (hcell j).trans (ite_congr rfl (fun hj => ?_) fun _ => rfl)⟩
  rw [List.getElem?_eq_getElem (Nat.lt_of_lt_of_le hj.2 hfit), Option.map_some]

theorem mcpy32_paints (n : Nat) :
    RowPaints (mcpy32 data n) n (InImage data) fun i _ => data.getD i.toNat 0 := by
  intro vramIt imgIt px hfit hlt hread
  induction n generalizing vramIt imgIt px with
  | zero =>
      refine ⟨px, rfl, rfl, fun j => ?_⟩
      rw [if_neg (by omega)]
  | succ n ih =>
      have hfirst : imgIt.toNat < data.length := by
        have h0 := hread 0 (Nat.zero_lt_succ n)
        rwa [InImage, show imgIt + BitVec.ofNat 32 0 = imgIt from BitVec.add_zero imgIt] at h0
      have hdst : (vramIt + 1).toNat = vramIt.toNat + 1 :=
        @toNat_add_ofNat vramIt 1 (by omega)
      have hstep (k : Nat) : imgIt + 1 + BitVec.ofNat 32 k = imgIt + BitVec.ofNat 32 (k + 1) := by
        rw [Nat.add_comm k 1, BitVec.ofNat_add, BitVec.add_assoc]
        rfl
      obtain ⟨px', hrest, hlen, hcell⟩ := ih (vramIt + 1) (imgIt + 1)
        (px.set vramIt.toNat data[imgIt.toNat]) (by rw [List.length_set]; omega)
        (by rw [List.length_set]; exact hlt)
        (fun k hk => (hstep k).symm ▸ hread (k + 1) (Nat.succ_lt_succ hk))
      refine ⟨px', ?_, hlen.trans List.length_set, fun j => ?_⟩
      · rw [mcpy32, List.getElem?_eq_getElem hfirst, Option.bind_eq_bind, Option.bind_some,
          store_of_lt (by omega)]
        exact hrest
      · rw [hcell j, hdst, List.getElem?_set]
        obtain hj | rfl | hj := Nat.lt_trichotomy j vramIt.toNat
        · rw [if_neg (by omega), if_neg (by omega), if_neg (by omega)]
        · rw [if_neg (by omega), if_pos rfl, if_pos (by omega), if_pos (by omega), Nat.sub_self,
            List.getElem?_eq_getElem (by omega), Option.map_some,
            show imgIt + BitVec.ofNat 32 0 = imgIt from BitVec.add_zero imgIt]
          exact congrArg some (List.getD_eq_getElem data 0 hfirst).symm
        · rw [if_neg (by omega : ¬ vramIt.toNat = j)]
          refine ite_congr (by rw [eq_iff_iff]; omega) (fun _ => ?_) fun _ => rfl
          rw [hstep, show j - (vramIt.toNat + 1) + 1 = j - vramIt.toNat by omega]

theorem blendRow_paints (uvW : U32) :
    RowPaints (blendRow data uvW) uvW.toNat (InImage data)
      fun i old => blend (data.getD i.toNat 0) old := by
  intro vramIt imgIt px hfit hlt hread
  unfold blendRow
  refine forUp_invariant
    (fun n (px' : Option (List U32)) => ∃ cells, px' = some cells ∧ cells.length = px.length ∧
      ∀ j, cells[j]? = if vramIt.toNat ≤ j ∧ j < vramIt.toNat + n then
        px[j]?.map fun old =>
          blend (data.getD (imgIt + BitVec.ofNat 32 (j - vramIt.toNat)).toNat 0) old
        else px[j]?)
    _ (show (0 : U32).toNat ≤ uvW.toNat from Nat.zero_le _) ?_ (some px) ?_
  · rintro i _ - hi ⟨cells, rfl, hlen, hcell⟩
    have hsrc : (imgIt + i).toNat < data.length := by
      have hin := hread i.toNat hi
      rwa [InImage, BitVec.ofNat_toNat, BitVec.setWidth_eq] at hin
    have hdst : (vramIt + i).toNat = vramIt.toNat + i.toNat := by bv_omega
    have hdlt : (vramIt + i).toNat < cells.length := by omega
    have hold : cells[(vramIt + i).toNat]? = px[(vramIt + i).toNat]? := by
      rw [hcell, if_neg (by omega)]
    refine ⟨cells.set (vramIt + i).toNat (blend data[(imgIt + i).toNat] cells[(vramIt + i).toNat]),
      ?_, List.length_set.trans hlen, fun j => ?_⟩
    · simp only [Option.bind_eq_bind, Option.bind_some, List.getElem?_eq_getElem hsrc,
        List.getElem?_eq_getElem hdlt]
      exact store_of_lt hdlt _
    · rw [List.getElem?_set, hcell j]
      by_cases hj : (vramIt + i).toNat = j
      · have hindex : imgIt + BitVec.ofNat 32 ((vramIt + i).toNat - vramIt.toNat) = imgIt + i := by
          rw [hdst, Nat.add_sub_cancel_left, BitVec.ofNat_toNat, BitVec.setWidth_eq]
        subst hj
        rw [if_pos rfl, if_pos hdlt, if_pos (by omega), ← hold, List.getElem?_eq_getElem hdlt,
          Option.map_some, hindex, List.getD_eq_getElem data 0 hsrc]
      · rw [if_neg hj]
        exact ite_congr (by rw [eq_iff_iff]; omega) (fun _ => rfl) fun _ => rfl
  · refine ⟨px, rfl, rfl, fun j => ?_⟩
    rw [if_neg (by change ¬ (_ ∧ _ < _ + 0); omega)]

end Rows

/-- `vram_it` and `img_it` in each pass of the row loop. -/
def rowPtrs (width w : U32) : Nat → U32 → U32 → List (U32 × U32)
  | 0, _, _ => []
  | n + 1, vramIt, imgIt => (vramIt, imgIt) :: rowPtrs width w n (vramIt + width) (imgIt + w)

section Loop

variable {row : U32 → U32 → List U32 → Option (List U32)} {width w vramIt imgIt : U32} {m n : Nat}

theorem eachRow_eq_foldlM (px : List U32) :
    eachRow row width w m vramIt imgIt px =
      (rowPtrs width w m vramIt imgIt).foldlM (fun px r => row r.1 r.2 px) px := by
  induction m generalizing vramIt imgIt px with
  | zero => rfl
  | succ m ih =>
      rw [eachRow, rowPtrs, List.foldlM_cons]
      exact congrArg _ (funext fun px => ih px)

theorem ptr_zero (p stride : U32) : p + BitVec.ofNat 32 0 * stride = p := by
  rw [BitVec.zero_mul, BitVec.add_zero]

theorem ptr_succ (p stride : U32) (k : Nat) :
    p + stride + BitVec.ofNat 32 k * stride = p + BitVec.ofNat 32 (k + 1) * stride := by
  rw [Nat.add_comm k 1, BitVec.ofNat_add, BitVec.add_mul, ← BitVec.add_assoc]
  exact congrArg (p + · + BitVec.ofNat 32 k * stride) (BitVec.one_mul stride).symm

theorem mem_rowPtrs {r : U32 × U32} :
    r ∈ rowPtrs width w m vramIt imgIt ↔
      ∃ k < m, r = (vramIt + BitVec.ofNat 32 k * width, imgIt + BitVec.ofNat 32 k * w) := by
  induction m generalizing vramIt imgIt with
  | zero => exact iff_of_false List.not_mem_nil fun ⟨k, hk, _⟩ => absurd hk (Nat.not_lt_zero k)
  | succ m ih =>
      rw [rowPtrs, List.mem_cons, ih]
      constructor
      · rintro (rfl | ⟨k, hk, rfl⟩)
        · exact ⟨0, Nat.zero_lt_succ m, by rw [ptr_zero, ptr_zero]⟩
        · exact ⟨k + 1, Nat.succ_lt_succ hk, by rw [ptr_succ, ptr_succ]⟩
      · rintro ⟨k, hk, rfl⟩
        cases k with
        | zero => exact Or.inl (by rw [ptr_zero, ptr_zero])
        | succ k => exact Or.inr ⟨k, Nat.lt_of_succ_lt_succ hk, by rw [ptr_succ, ptr_succ]⟩

theorem toNat_next_row {size : Nat}
    (hfit : ∀ k < m + 1, vramIt.toNat + k * width.toNat + n ≤ size) (hlt : size < 2 ^ 32) {k : Nat}
    (hk : k < m) : (vramIt + width).toNat + k * width.toNat =
      vramIt.toNat + (k + 1) * width.toNat := by
  have hsecond := hfit 1 (Nat.succ_lt_succ (Nat.zero_lt_of_lt hk))
  rw [Nat.one_mul] at hsecond
  rw [BitVec.toNat_add_of_lt (by omega), Nat.succ_mul]
  omega

/-- Rows that lie behind each other are drawn one by one, and nothing else is. -/
theorem eachRow_paints {readable : U32 → Prop} {g : U32 → U32 → U32}
    (hrow : RowPaints row n readable g) (hn : n ≤ width.toNat) {px : List U32}
    (hfit : ∀ k < m, vramIt.toNat + k * width.toNat + n ≤ px.length) (hlt : px.length < 2 ^ 32)
    (hread : ∀ k < m, ∀ c < n,
      readable (imgIt + BitVec.ofNat 32 k * w + BitVec.ofNat 32 c)) :
    ∃ px', eachRow row width w m vramIt imgIt px = some px' ∧ px'.length = px.length ∧
      (∀ k < m, ∀ c < n, px'[vramIt.toNat + k * width.toNat + c]? =
        px[vramIt.toNat + k * width.toNat + c]?.map
          (g (imgIt + BitVec.ofNat 32 k * w + BitVec.ofNat 32 c))) ∧
      ∀ j, (∀ k < m, ∀ c < n, j ≠ vramIt.toNat + k * width.toNat + c) → px'[j]? = px[j]? := by
  induction m generalizing vramIt imgIt px with
  | zero =>
      exact ⟨px, rfl, rfl, fun k hk => absurd hk (Nat.not_lt_zero k), fun _ _ => rfl⟩
  | succ m ih =>
      have hfirst := hfit 0 (Nat.zero_lt_succ m)
      rw [Nat.zero_mul, Nat.add_zero] at hfirst
      obtain ⟨px₁, hpx₁, hlen₁, hcell₁⟩ := hrow vramIt imgIt px hfirst hlt fun c hc => by
        have h0 := hread 0 (Nat.zero_lt_succ m) c hc
        rwa [ptr_zero] at h0
      have hshift : ∀ k < m, (vramIt + width).toNat + k * width.toNat =
          vramIt.toNat + (k + 1) * width.toNat := fun k hk => toNat_next_row hfit hlt hk
      obtain ⟨px', hpx', hlen', hin, hout⟩ := @ih (vramIt + width) (imgIt + w) px₁
        (fun k hk => by
          rw [hshift k hk, hlen₁]
          exact hfit (k + 1) (Nat.succ_lt_succ hk))
        (by rw [hlen₁]; exact hlt)
        (fun k hk c hc => by
          rw [ptr_succ]
          exact hread (k + 1) (Nat.succ_lt_succ hk) c hc)
      refine ⟨px', ?_, hlen'.trans hlen₁, fun k hk c hc => ?_, fun j hj => ?_⟩
      · rw [eachRow, hpx₁]
        exact hpx'
      · cases k with
        | zero =>
            rw [ptr_zero, Nat.zero_mul, Nat.add_zero, hout, hcell₁, if_pos (by omega),
              Nat.add_sub_cancel_left]
            intro k hk c' hc' heq
            have hstep := hshift k hk
            rw [Nat.succ_mul] at hstep
            omega
        | succ k =>
            have hk := Nat.lt_of_succ_lt_succ hk
            have hstep := hshift k hk
            rw [← hstep, hin k hk c hc, ptr_succ, hcell₁, if_neg]
            rw [hstep, Nat.succ_mul]
            omega
      · rw [hout j, hcell₁, if_neg]
        · intro hrange
          refine hj 0 (Nat.zero_lt_succ m) (j - vramIt.toNat) (by omega) ?_
          rw [Nat.zero_mul]
          omega
        · intro k hk c hc heq
          exact hj (k + 1) (Nat.succ_lt_succ hk) c hc (heq.trans (by rw [hshift k hk]))

end Loop

end DordOs
