import DordOs.Lib.Memory
import DordOs.Libk.PpmGrammar

/-!
What `ppm_load` accepts, and what an accepted file has behind its header. Numerals,
the product and the two sums of the checks are all taken modulo 2 ^ 32.
-/
namespace DordOs
open Lib

section Raster

variable {buf : Buffer} {rest : Bytes} {w h : Nat} {img img' : Img} {out out' : Option PxBuf}

theorem Buffer.toNat_addr (buf : Buffer) (h : rest.length ≤ buf.bytes.length) :
    (buf.addr rest).toNat = buf.base.toNat + (buf.bytes.length - rest.length) := by
  have hfits := buf.fits
  exact toNat_addr_add (by omega)

theorem Buffer.toNat_stop (buf : Buffer) :
    buf.stop.toNat = buf.base.toNat + buf.bytes.length :=
  toNat_addr_add buf.fits

theorem toNat_rasterBytes (hfit : 3 * (w * h) < 2 ^ 32) :
    (BitVec.ofNat 32 w * BitVec.ofNat 32 h * 3 : U32).toNat = 3 * (w * h) := by
  have hthree : (3 : U32).toNat = 3 := rfl
  rw [BitVec.toNat_mul, toNat_pxCount (by omega), hthree, Nat.mul_comm]
  exact Nat.mod_eq_of_lt hfit

/-- The check for the raster, as long as it does not wrap. -/
theorem Buffer.raster_room (hrest : rest.length ≤ buf.bytes.length)
    (hwrap : (buf.addr rest).toNat + 3 * (w * h) < 2 ^ 32) :
    buf.stop < buf.addr rest + BitVec.ofNat 32 w * BitVec.ofNat 32 h * 3 ↔
      rest.length < 3 * (w * h) := by
  have haddr := buf.toNat_addr hrest
  rw [BitVec.lt_def, BitVec.toNat_add, toNat_rasterBytes (by omega), Nat.mod_eq_of_lt hwrap,
    buf.toNat_stop]
  omega

/-- Once over the end of the address space the check passes. -/
theorem Buffer.raster_room_wrap (hrest : rest.length ≤ buf.bytes.length)
    (hbase : buf.base.toNat + 3 * (w * h) < 2 ^ 32)
    (hwrap : ¬ (buf.addr rest).toNat + 3 * (w * h) < 2 ^ 32) :
    ¬ buf.stop < buf.addr rest + BitVec.ofNat 32 w * BitVec.ofNat 32 h * 3 := by
  have haddr := buf.toNat_addr hrest
  have hfits := buf.fits
  rw [BitVec.lt_def, BitVec.toNat_add, toNat_rasterBytes (by omega), buf.toNat_stop]
  omega

theorem ppmRaster_ok {width height : U32}
    (h : ppmRaster buf img out width height rest = some (.ok, img', out')) :
    ¬ buf.stop < buf.addr rest + width * height * 3 ∧
      img'.width = width ∧ img'.height = height ∧ img'.pxCount = width * height := by
  simp only [ppmRaster] at h
  split at h
  next => cases Option.some.inj h
  next hroom =>
    refine ⟨hroom, ?_⟩
    cases out with
    | none =>
        obtain rfl := congrArg (fun r => r.2.1) (Option.some.inj h)
        exact ⟨rfl, rfl, rfl⟩
    | some o =>
        obtain ⟨cells, -, h⟩ := Option.bind_eq_some_iff.mp h
        obtain rfl := congrArg (fun r => r.2.1) (Option.some.inj h)
        exact ⟨rfl, rfl, rfl⟩

theorem ppmRaster_clean {width height : U32} {err : Err}
    (h : ppmRaster buf img out width height rest = some (err, img', out')) (herr : err ≠ .ok) :
    img' = img ∧ out' = out := by
  simp only [ppmRaster] at h
  split at h
  next =>
    cases h
    exact ⟨rfl, rfl⟩
  next =>
    cases out with
    | none =>
        exact absurd (congrArg Prod.fst (Option.some.inj h)).symm herr
    | some o =>
        obtain ⟨cells, -, h⟩ := Option.bind_eq_some_iff.mp h
        exact absurd (congrArg Prod.fst (Option.some.inj h)).symm herr

/-- A raster that is there is read into a buffer that has room for it. -/
theorem ppmRaster_accepts (hfit : w * h < 2 ^ 32)
    (hroom : ¬ buf.stop < buf.addr rest + BitVec.ofNat 32 w * BitVec.ofNat 32 h * 3)
    (hlen : 3 * (w * h) ≤ rest.length) (hout : ∀ o ∈ out, w * h ≤ o.cells.length) (img : Img) :
    ∃ img' out', ppmRaster buf img out (BitVec.ofNat 32 w) (BitVec.ofNat 32 h) rest =
      some (.ok, img', out') := by
  simp only [ppmRaster]
  rw [if_neg hroom, toNat_pxCount hfit]
  cases out with
  | none => exact ⟨_, _, rfl⟩
  | some o =>
      obtain ⟨cells, hstore, -⟩ := @storePixels_eq_some (w * h) 0 rest o.cells hlen
        (by rw [Nat.zero_add]; exact hout o rfl)
      dsimp only
      rw [hstore]
      exact ⟨_, _, rfl⟩

end Raster

/-- The image has the size its header gives, and the pixels for it. -/
structure Announced (img : Img) (width height rest : Bytes) : Prop where
  columns : img.width.toNat = digitsValue width
  rows : img.height.toNat = digitsValue height
  count : img.pxCount.toNat = digitsValue width * digitsValue height
  raster : 3 * (digitsValue width * digitsValue height) ≤ rest.length

section Load

variable {buf : Buffer} {width height clrmax rest : Bytes} {img img' : Img}
  {out out' : Option PxBuf}

theorem header_of_ok (h : ppmLoad buf img out = some (.ok, img', out')) :
    ∃ width height clrmax rest, PpmHeader buf.bytes width height clrmax rest := by
  by_contra hnone
  simp only [not_exists] at hnone
  by_cases hbase : buf.base.toNat + 2 < 2 ^ 32
  · rw [ppmLoad_of_no_header hbase hnone] at h
    exact nomatch congrArg Prod.fst (Option.some.inj h)
  · rw [ppmLoad_of_wrap hbase] at h
    exact nomatch h

theorem raster_of_ok (hheader : PpmHeader buf.bytes width height clrmax rest)
    (h : ppmLoad buf img out = some (.ok, img', out')) :
    ppmRaster buf img out (BitVec.ofNat 32 (digitsValue width))
      (BitVec.ofNat 32 (digitsValue height)) rest = some (.ok, img', out') := by
  rw [ppmLoad_of_header hheader] at h
  split at h
  next => exact nomatch congrArg Prod.fst (Option.some.inj h)
  next => exact h

theorem announced_iff (hheader : PpmHeader buf.bytes width height clrmax rest)
    (hok : ppmLoad buf img out = some (.ok, img', out')) :
    Announced img' width height rest ↔
      digitsValue width < 2 ^ 32 ∧ digitsValue height < 2 ^ 32 ∧
        (buf.addr rest).toNat + 3 * (digitsValue width * digitsValue height) < 2 ^ 32 := by
  obtain ⟨hroom, hwidth, hheight, hcount⟩ := ppmRaster_ok (raster_of_ok hheader hok)
  have hrest : rest.length ≤ buf.bytes.length := by
    have := hheader.length_le
    omega
  have haddr := buf.toNat_addr hrest
  have hfits := buf.fits
  constructor
  · intro h
    have hw := h.columns ▸ img'.width.isLt
    have hh := h.rows ▸ img'.height.isLt
    have hraster := h.raster
    exact ⟨hw, hh, by omega⟩
  · rintro ⟨hw, hh, hwrap⟩
    rw [Buffer.raster_room hrest hwrap] at hroom
    refine ⟨?_, ?_, ?_, Nat.not_lt.mp hroom⟩
    · rw [hwidth]
      exact Nat.mod_eq_of_lt hw
    · rw [hheight]
      exact Nat.mod_eq_of_lt hh
    · rw [hcount]
      exact toNat_pxCount (by omega)

/-- An accepted file has a header, and the image is as announced in it iff its numerals
fit 32 bits and the end of the raster, as it is computed, does not wrap. -/
theorem ppm_load_announced_iff (hok : ppmLoad buf img out = some (.ok, img', out')) :
    (∃ width height clrmax rest, PpmHeader buf.bytes width height clrmax rest) ∧
      ∀ width height clrmax rest, PpmHeader buf.bytes width height clrmax rest →
        (Announced img' width height rest ↔
          digitsValue width < 2 ^ 32 ∧ digitsValue height < 2 ^ 32 ∧
            (buf.addr rest).toNat + 3 * (digitsValue width * digitsValue height) < 2 ^ 32) :=
  ⟨header_of_ok hok, fun _ _ _ _ hheader => announced_iff hheader hok⟩

end Load

theorem ppm_load_announced_one_pixel :
    Announced ⟨1, 1, 1, 0⟩ (decimal 1) (decimal 1) [1, 2, 3] := by
  have hok : ppmLoad (onePixel 1 2 3) ⟨0, 0, 0, 0⟩ none = some (.ok, ⟨1, 1, 1, 0⟩, none) := by
    decide
  refine ((ppm_load_announced_iff hok).2 _ _ _ _ (ppmHeader_ppmFile 1 1 (by decide))).mpr ?_
  rw [digitsValue_decimal]
  decide

/-- A file at address 0 that announces 2 ^ 32 + 1 columns. -/
def wideFile : Buffer where
  base := 0
  bytes := ppmFile (2 ^ 32 + 1) 1 [1, 2, 3]
  fits := by decide +kernel

theorem ppm_load_width_wraps :
    ¬ ∀ (buf : Buffer) (img img' : Img) (out out' : Option PxBuf)
        (width height clrmax rest : Bytes),
      ppmLoad buf img out = some (.ok, img', out') →
      PpmHeader buf.bytes width height clrmax rest → Announced img' width height rest := by
  intro claim
  have hok : ppmLoad wideFile ⟨0, 0, 0, 0⟩ none = some (.ok, ⟨1, 1, 1, 0⟩, none) := by
    decide
  have hheader : PpmHeader wideFile.bytes _ _ _ _ :=
    ppmHeader_ppmFile (2 ^ 32 + 1) 1 (show StopsBlank [1, 2, 3] by decide)
  obtain ⟨hwidth, -⟩ := (announced_iff hheader hok).mp (claim _ _ _ _ _ _ _ _ _ hok hheader)
  rw [digitsValue_decimal] at hwidth
  exact absurd hwidth (by decide)

section Exact

variable {buf : Buffer} {width height clrmax rest : Bytes} {img img' : Img}
  {out out' : Option PxBuf}

/-- A header with this maximal value, and its raster. -/
structure PpmFile (bytes : Bytes) : Prop where
  header : ∃ width height clrmax rest, PpmHeader bytes width height clrmax rest ∧
    digitsValue clrmax = 255 ∧ 3 * (digitsValue width * digitsValue height) ≤ rest.length

/-- The numerals fit 32 bits, and so does the length of the raster added to the
address of the file. -/
def PpmBounded (buf : Buffer) : Prop :=
  ∀ width height clrmax rest, PpmHeader buf.bytes width height clrmax rest →
    digitsValue width < 2 ^ 32 ∧ digitsValue height < 2 ^ 32 ∧ digitsValue clrmax < 2 ^ 32 ∧
      buf.base.toNat + 3 * (digitsValue width * digitsValue height) < 2 ^ 32

/-- The buffer, if there is one, has room for the pixels. -/
def PpmRoom (buf : Buffer) (out : Option PxBuf) : Prop :=
  ∀ o ∈ out, ∀ width height clrmax rest, PpmHeader buf.bytes width height clrmax rest →
    digitsValue width * digitsValue height ≤ o.cells.length

/-- No access leaves the file or the buffer, files of the grammar are accepted and
nothing else is, and an error leaves image and buffer alone. -/
structure PpmExact (buf : Buffer) : Prop where
  returns : ∀ img out, PpmRoom buf out → ppmLoad buf img out ≠ none
  accepts : ∀ img out, PpmRoom buf out →
    ((∃ img' out', ppmLoad buf img out = some (.ok, img', out')) ↔ PpmFile buf.bytes)
  clean : ∀ img out err img' out', ppmLoad buf img out = some (err, img', out') → err ≠ .ok →
    img' = img ∧ out' = out

theorem ppmLoad_clean {err : Err} (h : ppmLoad buf img out = some (err, img', out'))
    (herr : err ≠ .ok) : img' = img ∧ out' = out := by
  by_cases hheader : ∃ width height clrmax rest, PpmHeader buf.bytes width height clrmax rest
  · obtain ⟨width, height, clrmax, rest, hheader⟩ := hheader
    rw [ppmLoad_of_header hheader] at h
    split at h
    next =>
      cases h
      exact ⟨rfl, rfl⟩
    next => exact ppmRaster_clean h herr
  · simp only [not_exists] at hheader
    by_cases hbase : buf.base.toNat + 2 < 2 ^ 32
    · rw [ppmLoad_of_no_header hbase hheader] at h
      cases h
      exact ⟨rfl, rfl⟩
    · rw [ppmLoad_of_wrap hbase] at h
      exact nomatch h

/-- The condition: neither of the two sums that are compared with `end` wraps. -/
structure PpmSumsFit (buf : Buffer) : Prop where
  magic : buf.base.toNat + 2 < 2 ^ 32
  raster : ∀ width height clrmax rest, PpmHeader buf.bytes width height clrmax rest →
    digitsValue clrmax = 255 →
    (buf.addr rest).toNat + 3 * (digitsValue width * digitsValue height) < 2 ^ 32

theorem ofNat_clrmax_iff {n : Nat} (h : n < 2 ^ 32) :
    BitVec.ofNat 32 n = (255 : U32) ↔ n = 255 := by
  constructor
  · intro heq
    have htoNat := congrArg BitVec.toNat heq
    rw [BitVec.toNat_ofNat, Nat.mod_eq_of_lt h] at htoNat
    exact htoNat
  · rintro rfl
    rfl

theorem ppmLoad_of_file (fits : PpmSumsFit buf) (hfile : PpmFile buf.bytes) (img : Img)
    (room : PpmRoom buf out) :
    ∃ img' out', ppmLoad buf img out = some (.ok, img', out') := by
  obtain ⟨width, height, clrmax, rest, hheader, hmax, hlen⟩ := hfile.header
  have hwrap := fits.raster _ _ _ _ hheader hmax
  have hrest : rest.length ≤ buf.bytes.length := by
    have := hheader.length_le
    omega
  have hroom := mt (Buffer.raster_room hrest hwrap).mp (Nat.not_lt.mpr hlen)
  rw [ppmLoad_of_header hheader, if_neg (not_not.mpr (by rw [hmax]; rfl))]
  exact ppmRaster_accepts (by omega) hroom hlen
    (fun o ho => room o ho _ _ _ _ hheader) img

theorem ppmLoad_of_not_file (bounded : PpmBounded buf) (fits : PpmSumsFit buf)
    (hnot : ¬ PpmFile buf.bytes) (img : Img) (out : Option PxBuf) :
    ppmLoad buf img out = some (.fmtInval, img, out) := by
  by_cases hheader : ∃ width height clrmax rest, PpmHeader buf.bytes width height clrmax rest
  · obtain ⟨width, height, clrmax, rest, hheader⟩ := hheader
    obtain ⟨-, -, hclrmax, -⟩ := bounded _ _ _ _ hheader
    rw [ppmLoad_of_header hheader]
    by_cases hmax : digitsValue clrmax = 255
    · have hwrap := fits.raster _ _ _ _ hheader hmax
      have hrest : rest.length ≤ buf.bytes.length := by
        have := hheader.length_le
        omega
      have hshort : rest.length < 3 * (digitsValue width * digitsValue height) :=
        Nat.not_le.mp fun hlen => hnot ⟨_, _, _, _, hheader, hmax, hlen⟩
      rw [if_neg (not_not.mpr ((ofNat_clrmax_iff hclrmax).mpr hmax))]
      simp only [ppmRaster]
      exact if_pos ((Buffer.raster_room hrest hwrap).mpr hshort)
    · rw [if_pos (mt (ofNat_clrmax_iff hclrmax).mp hmax)]
  · simp only [not_exists] at hheader
    exact ppmLoad_of_no_header fits.magic hheader img out

theorem exact_of_sums (bounded : PpmBounded buf) (fits : PpmSumsFit buf) : PpmExact buf where
  returns := by
    intro img out room
    by_cases hfile : PpmFile buf.bytes
    · obtain ⟨img', out', h⟩ := ppmLoad_of_file fits hfile img room
      rw [h]
      exact Option.some_ne_none _
    · rw [ppmLoad_of_not_file bounded fits hfile]
      exact Option.some_ne_none _
  accepts := by
    intro img out room
    refine ⟨fun ⟨img', out', h⟩ => ?_, fun hfile => ppmLoad_of_file fits hfile img room⟩
    by_contra hfile
    rw [ppmLoad_of_not_file bounded fits hfile] at h
    exact nomatch congrArg Prod.fst (Option.some.inj h)
  clean := fun _ _ _ _ _ h herr => ppmLoad_clean h herr

theorem sums_of_exact (bounded : PpmBounded buf) (h : PpmExact buf) : PpmSumsFit buf where
  magic := by
    by_contra hbase
    exact h.returns ⟨0, 0, 0, 0⟩ none (fun _ ho => nomatch ho) (ppmLoad_of_wrap hbase _ none)
  raster := by
    intro width height clrmax rest hheader hmax
    by_contra hwrap
    have hrest : rest.length ≤ buf.bytes.length := by
      have := hheader.length_le
      omega
    obtain ⟨-, -, -, hbase⟩ := bounded _ _ _ _ hheader
    have hok : ∃ img' out', ppmLoad buf ⟨0, 0, 0, 0⟩ none = some (.ok, img', out') := by
      rw [ppmLoad_of_header hheader, if_neg (not_not.mpr (by rw [hmax]; rfl)), ppmRaster,
        if_neg (Buffer.raster_room_wrap hrest hbase hwrap)]
      exact ⟨_, _, rfl⟩
    obtain ⟨_, _, _, _, hheader', -, hlen⟩ :=
      ((h.accepts _ none fun _ ho => nomatch ho).mp hok).header
    obtain ⟨rfl, rfl, rfl, rfl⟩ := hheader.unique hheader'
    have haddr := buf.toNat_addr hrest
    have hfits := buf.fits
    omega

/-- The grammar is accepted exactly iff no sum of the checks wraps. -/
theorem ppm_load_exact_iff (bounded : PpmBounded buf) : PpmExact buf ↔ PpmSumsFit buf :=
  ⟨sums_of_exact bounded, exact_of_sums bounded⟩

end Exact

/-- An encoded image has the one header. -/
theorem forall_header_iff {w h : Nat} {raster : Bytes} {buf : Buffer}
    (hbuf : buf.bytes = ppmFile w h raster) (hraster : StopsBlank raster)
    (P : Nat → Nat → Nat → Bytes → Prop) (hP : P w h 255 raster) :
    ∀ width height clrmax rest, PpmHeader buf.bytes width height clrmax rest →
      P (digitsValue width) (digitsValue height) (digitsValue clrmax) rest := by
  intro width height clrmax rest hheader
  rw [hbuf] at hheader
  obtain ⟨rfl, rfl, rfl, rfl⟩ := (ppmHeader_ppmFile w h hraster).unique hheader
  rw [digitsValue_decimal, digitsValue_decimal, digitsValue_decimal]
  exact hP

theorem ppm_load_exact_one_pixel : PpmExact (onePixel 1 2 3) := by
  have hraster : StopsBlank [1, 2, 3] := by decide
  refine (ppm_load_exact_iff ?_).mpr ⟨by decide, ?_⟩
  · exact forall_header_iff rfl hraster (fun w h m _ => w < 2 ^ 32 ∧ h < 2 ^ 32 ∧ m < 2 ^ 32 ∧
      (onePixel 1 2 3).base.toNat + 3 * (w * h) < 2 ^ 32) (by decide)
  · exact forall_header_iff rfl hraster (fun w h m rest => m = 255 →
      ((onePixel 1 2 3).addr rest).toNat + 3 * (w * h) < 2 ^ 32) (by decide)

/-- 84 pixels are announced at the end of the address space, none is there. -/
def lastFile : Buffer where
  base := 0xFFFFFF00
  bytes := ppmFile 84 1 []
  fits := by decide +kernel

theorem ppm_load_accepts_short :
    ¬ ∀ buf : Buffer, PpmBounded buf → PpmExact buf := by
  intro claim
  have bounded : PpmBounded lastFile := forall_header_iff rfl stopsBlank_nil
    (fun w h m _ => w < 2 ^ 32 ∧ h < 2 ^ 32 ∧ m < 2 ^ 32 ∧
      lastFile.base.toNat + 3 * (w * h) < 2 ^ 32) (by decide)
  have hwrap := (sums_of_exact bounded (claim lastFile bounded)).raster _ _ _ _
    (ppmHeader_ppmFile 84 1 stopsBlank_nil) (digitsValue_decimal 255)
  rw [digitsValue_decimal, digitsValue_decimal] at hwrap
  exact absurd hwrap (by decide)

end DordOs
