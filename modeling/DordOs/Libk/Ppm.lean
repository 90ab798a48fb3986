import DordOs.Libk.Err
import DordOs.Libk.Io

/-!
The reader of binary PPM images of `libk/ppm.c`. A pointer into the file is given
by the bytes from it to the end of the file; where the code compares sums of
pointers, the addresses wrap as they do on the machine.
-/
namespace DordOs
open Lib

/-- The file in memory. -/
structure Buffer where
  base : Usz
  bytes : Bytes
  fits : base.toNat + bytes.length < 2 ^ 32

namespace Buffer

/-- The pointer `end`. -/
def stop (buf : Buffer) : Usz := buf.base + BitVec.ofNat 32 buf.bytes.length

/-- The pointer that has `it` in front of it. -/
def addr (buf : Buffer) (it : Bytes) : Usz :=
  buf.base + BitVec.ofNat 32 (buf.bytes.length - it.length)

end Buffer

/-- `img_t`. -/
structure Img where
  width : U32
  height : U32
  pxCount : Usz
  pxData : Usz
  deriving DecidableEq

/-- The array behind a pointer `out_data` that is not null. -/
structure PxBuf where
  addr : Usz
  cells : List U32
  deriving DecidableEq

def isspace (c : U8) : Bool := c = 0x20 || c = 0x09 || c = 0x0D || c = 0x0A

def isdigit (c : U8) : Bool := decide (0x30 ≤ c) && decide (c ≤ 0x39)

/-- The inner `while` over a comment. -/
def skipComment : Bytes → Bytes
  | [] => []
  | c :: it => if c ≠ 0x0A then skipComment it else c :: it

/-- The loop of `consume_whitespace`; each pass consumes a byte. -/
def consumeWhitespaceFrom : Nat → Bytes → Bool → Bytes × Bool
  | 0, it, success => (it, success)
  | _ + 1, [], success => ([], success)
  | fuel + 1, c :: it, success =>
      if isspace c then consumeWhitespaceFrom fuel it true
      else if c = 0x23 then consumeWhitespaceFrom fuel (skipComment (c :: it)) true
      else (c :: it, success)

def consumeWhitespace (it : Bytes) : Bytes × Bool := consumeWhitespaceFrom it.length it false

/-- What is left, and how many digits were consumed. -/
def consumeValue : Bytes → Bytes × Nat
  | [] => ([], 0)
  | c :: it =>
      if isdigit c then
        let (left, len) := consumeValue it
        (left, len + 1)
      else (c :: it, 0)

def parseUint32 (str : Bytes) (len : Nat) : U32 :=
  (str.take len).foldl (fun val c => val * 10 + (c.setWidth 32 - 0x30)) 0

/-- `consume_value` and `consume_whitespace` for one number of the header: where it
starts, its length, and what follows. -/
def ppmField (it : Bytes) : Option (Bytes × Nat × Bytes) :=
  let str := it
  let (it, len) := consumeValue it
  if len = 0 then none
  else
    let (it, success) := consumeWhitespace it
    if success then some (str, len, it) else none

/-- `(0xFF << 24) | (r << 16) | (g << 8) | b`. -/
def pixel (r g b : U8) : U32 :=
  (0xFF <<< 24) ||| (r.setWidth 32 <<< 16) ||| (g.setWidth 32 <<< 8) ||| b.setWidth 32

/-- The loop over the raster, `n` pixels left. -/
def storePixels : Nat → Nat → Bytes → List U32 → Option (List U32)
  | 0, _, _, cells => some cells
  | n + 1, i, r :: g :: b :: it, cells => do
      let cells ← store cells i (pixel r g b)
      storePixels n (i + 1) it cells
  | _ + 1, _, _, _ => none

/-- `*(u16*)it`. -/
def halfWord : Bytes → Option U16
  | a :: b :: _ => some (BitVec.ofNat 16 (leValue [a, b]))
  | _ => none

def ppmMagic : U16 := 0x3650

/-- The end of `ppm_load`, once the header has been read. -/
def ppmRaster (buf : Buffer) (outImg : Img) (outData : Option PxBuf) (w h : U32) (it : Bytes) :
    Option (Err × Img × Option PxBuf) :=
  let pxCount := w * h
  if buf.stop < buf.addr it + pxCount * 3 then some (.fmtInval, outImg, outData)
  else
    match outData with
    | none => some (.ok, ⟨w, h, pxCount, 0⟩, none)
    | some out => do
        let cells ← storePixels pxCount.toNat 0 it out.cells
        return (.ok, ⟨w, h, pxCount, out.addr⟩, some { out with cells := cells })

def ppmLoad (buf : Buffer) (outImg : Img) (outData : Option PxBuf) :
    Option (Err × Img × Option PxBuf) :=
  let fail := some (.fmtInval, outImg, outData)
  let it := buf.bytes
  if buf.stop < buf.addr it + 2 then fail
  else do
    let magic ← halfWord it
    if magic ≠ ppmMagic then fail
    else
      let (it, success) := consumeWhitespace (it.drop 2)
      if !success then fail
      else
        match ppmField it with
        | none => fail
        | some (widthStr, widthLen, it) =>
          match ppmField it with
          | none => fail
          | some (heightStr, heightLen, it) =>
            match ppmField it with
            | none => fail
            | some (clrmaxStr, clrmaxLen, it) =>
              if parseUint32 clrmaxStr clrmaxLen ≠ 255 then fail
              else
                ppmRaster buf outImg outData (parseUint32 widthStr widthLen)
                  (parseUint32 heightStr heightLen) it

/-- The bytes `consume_whitespace` consumes. -/
def blank (c : U8) : Bool := isspace c || decide (c = 0x23)

/-- No byte, or one that ends the white space. -/
def StopsBlank (it : Bytes) : Prop := ∀ c ∈ it.head?, blank c = false

instance (it : Bytes) : Decidable (StopsBlank it) := inferInstanceAs (Decidable (∀ c ∈ _, _))

theorem consumeWhitespaceFrom_of_stops {fuel : Nat} {it : Bytes} {success : Bool}
    (h : StopsBlank it) : consumeWhitespaceFrom fuel it success = (it, success) := by
  cases fuel with
  | zero => rfl
  | succ fuel =>
      cases it with
      | nil => rfl
      | cons c it =>
          have hc := h c rfl
          simp only [blank, Bool.or_eq_false_iff, decide_eq_false_iff_not] at hc
          simp only [consumeWhitespaceFrom, hc.1, hc.2, if_false, Bool.false_eq_true]

theorem length_skipComment_le (it : Bytes) : (skipComment it).length ≤ it.length := by
  induction it with
  | nil => exact Nat.le_refl _
  | cons c it ih =>
      simp only [skipComment]
      split
      next => exact Nat.le_succ_of_le ih
      next => exact Nat.le_refl _

theorem length_consumeWhitespaceFrom_le (fuel : Nat) (it : Bytes) (success : Bool) :
    (consumeWhitespaceFrom fuel it success).1.length ≤ it.length := by
  induction fuel generalizing it success with
  | zero => exact Nat.le_refl _
  | succ fuel ih =>
      cases it with
      | nil => exact Nat.le_refl _
      | cons c it =>
          simp only [consumeWhitespaceFrom]
          split
          next => exact Nat.le_succ_of_le (ih it true)
          next =>
            split
            next => exact Nat.le_trans (ih _ true) (length_skipComment_le _)
            next => exact Nat.le_refl _

theorem consumeWhitespace_one {c : U8} {it : Bytes} (hc : isspace c = true) (h : StopsBlank it) :
    consumeWhitespace (c :: it) = (it, true) := by
  rw [consumeWhitespace, List.length_cons, consumeWhitespaceFrom, if_pos hc,
    consumeWhitespaceFrom_of_stops h]

/-- Anything blank behind the separator is consumed with it. -/
theorem consumeWhitespace_more {c d : U8} {it : Bytes} (hc : isspace c = true)
    (hd : blank d = true) : (consumeWhitespace (c :: d :: it)).1.length ≤ it.length := by
  rw [consumeWhitespace, List.length_cons, List.length_cons, consumeWhitespaceFrom, if_pos hc,
    consumeWhitespaceFrom]
  by_cases hs : isspace d = true
  · rw [if_pos hs]
    exact length_consumeWhitespaceFrom_le _ _ _
  · have hhash : d = 0x23 := by
      simpa [blank, Bool.eq_false_iff.mpr hs] using hd
    rw [if_neg hs, if_pos hhash, skipComment, if_pos (by rw [hhash]; decide)]
    exact Nat.le_trans (length_consumeWhitespaceFrom_le _ _ _) (length_skipComment_le _)

theorem decimalChar_facts {d : Nat} (h : d < 10) :
    isdigit (decimalChar d) = true ∧ blank (decimalChar d) = false ∧
      (decimalChar d).toNat - 0x30 = d := by
  have hall : ∀ d : Fin 10, isdigit (decimalChar d.val) = true ∧
      blank (decimalChar d.val) = false ∧ (decimalChar d.val).toNat - 0x30 = d.val := by decide
  exact hall ⟨d, h⟩

theorem isdigit_of_blank {c : U8} (h : blank c = true) : isdigit c = false := by
  have hall : ∀ c : U8, blank c = true → isdigit c = false := by decide
  exact hall c h

theorem mem_decimal {n : Nat} {c : U8} (h : c ∈ decimal n) : ∃ d, d < 10 ∧ c = decimalChar d := by
  obtain ⟨d, hd, rfl⟩ := List.mem_map.mp h
  exact ⟨d, lt_of_mem_numeral (by decide) hd, rfl⟩

theorem decimal_ne_nil (n : Nat) : decimal n ≠ [] :=
  mt List.map_eq_nil_iff.mp (numeral_ne_nil (by decide))

theorem stopsBlank_decimal (n : Nat) (it : Bytes) : StopsBlank (decimal n ++ it) := by
  intro c hc
  cases hdec : decimal n with
  | nil => exact absurd hdec (decimal_ne_nil n)
  | cons a l =>
      rw [hdec] at hc
      obtain rfl := Option.some.inj hc
      obtain ⟨d, hd, rfl⟩ := mem_decimal (hdec ▸ List.mem_cons_self)
      exact (decimalChar_facts hd).2.1

theorem consumeValue_append {str it : Bytes} {c : U8} (hstr : ∀ a ∈ str, isdigit a = true)
    (hc : isdigit c = false) : consumeValue (str ++ c :: it) = (c :: it, str.length) := by
  induction str with
  | nil =>
      rw [List.nil_append, consumeValue, if_neg (by rw [hc]; exact Bool.false_ne_true)]
      rfl
  | cons a str ih =>
      rw [List.cons_append, consumeValue, if_pos (hstr a List.mem_cons_self),
        ih fun b hb => hstr b (List.mem_cons_of_mem a hb)]
      rfl

theorem ofNat_digit (v d : Nat) :
    BitVec.ofNat 32 v * 10 + BitVec.ofNat 32 d = BitVec.ofNat 32 (v * 10 + d) :=
  ((BitVec.ofNat_add (v * 10) d).trans
    (congrArg (· + BitVec.ofNat 32 d) (BitVec.ofNat_mul v 10))).symm

theorem isdigit_value {c : U8} (h : isdigit c = true) :
    c.setWidth 32 - 0x30 = BitVec.ofNat 32 (c.toNat - 0x30) := by
  have hall : ∀ c : U8, isdigit c = true →
      c.setWidth 32 - 0x30 = BitVec.ofNat 32 (c.toNat - 0x30) := by decide
  exact hall c h

/-- The value of a numeral. -/
def digitsValue (digits : Bytes) : Nat := digits.foldl (fun v c => v * 10 + (c.toNat - 0x30)) 0

theorem parseUint32_digits {digits : Bytes} (hdigits : ∀ d ∈ digits, isdigit d = true)
    (it : Bytes) :
    parseUint32 (digits ++ it) digits.length = BitVec.ofNat 32 (digitsValue digits) := by
  suffices hall : ∀ v : Nat,
      digits.foldl (fun val c => val * 10 + (c.setWidth 32 - 0x30)) (BitVec.ofNat 32 v) =
        BitVec.ofNat 32 (digits.foldl (fun v c => v * 10 + (c.toNat - 0x30)) v) by
    rw [parseUint32, List.take_left]
    exact hall 0
  intro v
  induction digits generalizing v with
  | nil => rfl
  | cons c digits ih =>
      obtain ⟨hc, hrest⟩ := List.forall_mem_cons.mp hdigits
      rw [List.foldl_cons, List.foldl_cons, isdigit_value hc, ofNat_digit]
      exact ih hrest _

theorem digitsValue_map {digits : List Nat} (h : ∀ d ∈ digits, d < 10) (v : Nat) :
    (digits.map decimalChar).foldl (fun v c => v * 10 + (c.toNat - 0x30)) v =
      digits.foldl (fun v d => v * 10 + d) v := by
  induction digits generalizing v with
  | nil => rfl
  | cons d digits ih =>
      obtain ⟨hd, hrest⟩ := List.forall_mem_cons.mp h
      rw [List.map_cons, List.foldl_cons, List.foldl_cons, (decimalChar_facts hd).2.2, ih hrest]

theorem digitsValue_decimal (n : Nat) : digitsValue (decimal n) = n :=
  (digitsValue_map (fun _ hd => lt_of_mem_numeral (by decide) hd) 0).trans
    (numeralValue_numeral (by decide))

theorem isdigit_decimal (n : Nat) : ∀ a ∈ decimal n, isdigit a = true := by
  intro a ha
  obtain ⟨d, hd, rfl⟩ := mem_decimal ha
  exact (decimalChar_facts hd).1

theorem parseUint32_decimal (n : Nat) (it : Bytes) :
    parseUint32 (decimal n ++ it) (decimal n).length = BitVec.ofNat 32 n := by
  rw [parseUint32_digits (isdigit_decimal n), digitsValue_decimal]

theorem ppmField_decimal {n : Nat} {sep : U8} {it : Bytes} (hsep : isspace sep = true) :
    ppmField (decimal n ++ sep :: it) =
      if (consumeWhitespace (sep :: it)).2 then
        some (decimal n ++ sep :: it, (decimal n).length, (consumeWhitespace (sep :: it)).1)
      else none := by
  have hblank : blank sep = true := by
    rw [blank, hsep]
    rfl
  have hne : (decimal n).length ≠ 0 := mt List.length_eq_zero_iff.mp (decimal_ne_nil n)
  simp only [ppmField]
  rw [consumeValue_append (isdigit_decimal n) (isdigit_of_blank hblank)]
  simp only [hne, if_false]

theorem ppmField_decimal_of_stops {n : Nat} {sep : U8} {it : Bytes} (hsep : isspace sep = true)
    (h : StopsBlank it) :
    ppmField (decimal n ++ sep :: it) =
      some (decimal n ++ sep :: it, (decimal n).length, it) := by
  rw [ppmField_decimal hsep, consumeWhitespace_one hsep h]
  rfl

theorem storePixels_eq_some {n i : Nat} {it : Bytes} {cells : List U32} (hit : 3 * n ≤ it.length)
    (hcells : i + n ≤ cells.length) :
    ∃ cells', storePixels n i it cells = some cells' ∧
      (∀ j, j < i → cells'[j]? = cells[j]?) ∧
      ∀ k, k < n → cells'[i + k]? =
        some (pixel (it.getD (3 * k) 0) (it.getD (3 * k + 1) 0) (it.getD (3 * k + 2) 0)) := by
  induction n generalizing i it cells with
  | zero => exact ⟨cells, rfl, fun _ _ => rfl, fun k hk => absurd hk (Nat.not_lt_zero k)⟩
  | succ n ih =>
      match it, hit with
      | r :: g :: b :: it, hit =>
          simp only [List.length_cons] at hit
          obtain ⟨cells', hrest, hbefore, hpix⟩ := @ih (i + 1) it (cells.set i (pixel r g b))
            (by omega) (by rw [List.length_set]; omega)
          refine ⟨cells', ?_, fun j hj => ?_, fun k hk => ?_⟩
          · rw [storePixels, store_of_lt (by omega), Option.bind_eq_bind, Option.bind_some, hrest]
          · rw [hbefore j (by omega), List.getElem?_set_ne (by omega)]
          · cases k with
            | zero =>
                rw [Nat.add_zero, hbefore i (by omega), List.getElem?_set_self (by omega)]
                rfl
            | succ k =>
                have h := hpix k (by omega)
                rw [Nat.add_right_comm] at h
                exact h
      | [], hit | [_], hit | [_, _], hit =>
          simp only [List.length_cons, List.length_nil] at hit
          omega

/-- The raster loop that runs off the file. -/
theorem storePixels_eq_none {n i : Nat} {it : Bytes} {cells : List U32}
    (h : it.length < 3 * n) : storePixels n i it cells = none := by
  induction n generalizing i it cells with
  | zero => exact absurd h (Nat.not_lt_zero _)
  | succ n ih =>
      match it, h with
      | r :: g :: b :: it, h =>
          simp only [List.length_cons] at h
          rw [storePixels]
          cases store cells i (pixel r g b) with
          | none => rfl
          | some cells' => exact ih (by omega)
      | [], _ | [_], _ | [_, _], _ => rfl

/-- The binary PPM of an image. -/
def ppmFile (w h : Nat) (raster : Bytes) : Bytes :=
  [0x50, 0x36, 0x0A] ++
    (decimal w ++ 0x20 :: (decimal h ++ 0x0A :: ([0x32, 0x35, 0x35] ++ 0x0A :: raster)))

/-- The check for room for the magic number, on machine words. -/
theorem Buffer.stop_lt_iff {buf : Buffer} : buf.stop < buf.addr buf.bytes + 2 ↔
    buf.base.toNat + buf.bytes.length < (buf.base.toNat + 2) % 2 ^ 32 := by
  have hfits := buf.fits
  have htwo : (2 : Usz).toNat = 2 := rfl
  rw [BitVec.lt_def]
  simp only [Buffer.stop, Buffer.addr, BitVec.toNat_add, BitVec.toNat_ofNat, htwo]
  omega

/-- The header read, up to the white space before the raster. -/
theorem ppmLoad_ppmFile {w h : Nat} {raster : Bytes} {buf : Buffer}
    (hbuf : buf.bytes = ppmFile w h raster) (img : Img) (out : Option PxBuf) :
    ppmLoad buf img out =
      if (consumeWhitespace (0x0A :: raster)).2 then
        ppmRaster buf img out (BitVec.ofNat 32 w) (BitVec.ofNat 32 h)
          (consumeWhitespace (0x0A :: raster)).1
      else some (.fmtInval, img, out) := by
  have hmax : [0x32, 0x35, 0x35] = decimal 255 := by decide
  have hfits := buf.fits
  have hlong : 2 ≤ buf.bytes.length := by
    rw [hbuf, ppmFile]
    simp only [List.length_append, List.length_cons]
    omega
  have hstop : ¬ buf.stop < buf.addr buf.bytes + 2 := by
    rw [Buffer.stop_lt_iff]
    omega
  have hfirst : consumeWhitespace ((ppmFile w h raster).drop 2) = (decimal w ++ 0x20 ::
      (decimal h ++ 0x0A :: ([0x32, 0x35, 0x35] ++ 0x0A :: raster)), true) :=
    consumeWhitespace_one (by decide) (stopsBlank_decimal w _)
  have hword : halfWord (ppmFile w h raster) = some ppmMagic := rfl
  rw [ppmLoad, if_neg hstop, hbuf, hword, Option.bind_eq_bind, Option.bind_some]
  simp only [hfirst, ne_eq, not_true_eq_false, if_false, Bool.not_true, Bool.false_eq_true]
  rw [ppmField_decimal_of_stops (by decide) (stopsBlank_decimal h _)]
  simp only [hmax]
  rw [ppmField_decimal_of_stops (by decide) (stopsBlank_decimal 255 _)]
  simp only []
  rw [ppmField_decimal (show isspace 0x0A = true by decide), parseUint32_decimal,
    parseUint32_decimal]
  split
  next hsome =>
    split at hsome
    next => exact nomatch hsome
    next hfalse => rw [if_neg hfalse]
  next hsome =>
    split at hsome
    next htrue =>
      obtain ⟨rfl, rfl, rfl⟩ : _ ∧ _ ∧ _ := by simpa using hsome
      rw [parseUint32_decimal, if_pos htrue]
      exact if_neg (by decide)
    next => exact nomatch hsome

/-- The image of that size with that raster was returned. -/
def DecodedAs (w h : Nat) (raster : Bytes) (result : Option (Err × Img × Option PxBuf)) : Prop :=
  ∃ img out, result = some (.ok, img, some out) ∧ img.width.toNat = w ∧ img.height.toNat = h ∧
    img.pxCount.toNat = w * h ∧ ∀ k, k < w * h → out.cells[k]? = some (pixel
      (raster.getD (3 * k) 0) (raster.getD (3 * k + 1) 0) (raster.getD (3 * k + 2) 0))

theorem toNat_pxCount {w h : Nat} (hfit : w * h < 2 ^ 32) :
    (BitVec.ofNat 32 w * BitVec.ofNat 32 h : U32).toNat = w * h := by
  rw [← BitVec.ofNat_mul, BitVec.toNat_ofNat]
  exact Nat.mod_eq_of_lt hfit

theorem ppmRaster_eq_some {w h : Nat} {raster : Bytes} {buf : Buffer} {out : PxBuf} (img : Img)
    (hraster : raster.length = 3 * (w * h)) (hin : raster.length ≤ buf.bytes.length)
    (hout : w * h ≤ out.cells.length) (hw : w < 2 ^ 32) (hh : h < 2 ^ 32) :
    DecodedAs w h raster
      (ppmRaster buf img (some out) (BitVec.ofNat 32 w) (BitVec.ofNat 32 h) raster) := by
  have hfits := buf.fits
  have hpx := @toNat_pxCount w h (by omega)
  obtain ⟨cells', hstore, -, hpixels⟩ := @storePixels_eq_some (w * h) 0 raster out.cells
    (by omega) (by omega)
  have hroom : ¬ buf.stop < buf.addr raster + BitVec.ofNat 32 w * BitVec.ofNat 32 h * 3 := by
    have hthree : (3 : U32).toNat = 3 := rfl
    rw [BitVec.lt_def, BitVec.toNat_add, BitVec.toNat_mul, hpx, hthree]
    simp only [Buffer.stop, Buffer.addr, BitVec.toNat_add, BitVec.toNat_ofNat]
    omega
  refine ⟨⟨BitVec.ofNat 32 w, BitVec.ofNat 32 h, BitVec.ofNat 32 w * BitVec.ofNat 32 h, out.addr⟩,
    { out with cells := cells' }, ?_, ?_, ?_, hpx, fun k hk => ?_⟩
  · simp only [ppmRaster]
    rw [if_neg hroom, hpx, hstore]
    rfl
  · exact (BitVec.toNat_ofNat w 32).trans (Nat.mod_eq_of_lt hw)
  · exact (BitVec.toNat_ofNat h 32).trans (Nat.mod_eq_of_lt hh)
  · have h := hpixels k hk
    rw [Nat.zero_add] at h
    exact h

/-- A raster that has lost bytes is refused or read past its end. -/
theorem ppmRaster_of_short {w h : Nat} {raster it : Bytes} {buf : Buffer} {out : PxBuf} (img : Img)
    (hfit : w * h < 2 ^ 32) (hshort : it.length < 3 * (w * h)) :
    ¬ DecodedAs w h raster
      (ppmRaster buf img (some out) (BitVec.ofNat 32 w) (BitVec.ofNat 32 h) it) := by
  rintro ⟨img', out', hresult, -⟩
  simp only [ppmRaster] at hresult
  split at hresult
  next =>
    have herr := congrArg Prod.fst (Option.some.inj hresult)
    exact nomatch herr
  next =>
    rw [toNat_pxCount hfit, storePixels_eq_none hshort] at hresult
    exact nomatch hresult

theorem ppm_load_undoes_encoding_iff {w h : Nat} {raster : Bytes} {buf : Buffer} {out : PxBuf}
    (img : Img) (hraster : raster.length = 3 * (w * h)) (hbuf : buf.bytes = ppmFile w h raster)
    (hout : w * h ≤ out.cells.length) :
    DecodedAs w h raster (ppmLoad buf img (some out)) ↔
      w < 2 ^ 32 ∧ h < 2 ^ 32 ∧ StopsBlank raster := by
  have hfits := buf.fits
  have hin : raster.length ≤ buf.bytes.length := by
    rw [hbuf, ppmFile]
    simp only [List.length_append, List.length_cons]
    omega
  rw [ppmLoad_ppmFile hbuf]
  constructor
  · intro hdecoded
    have ⟨img', out', _, hw, hh, _⟩ := hdecoded
    have hw' : w < 2 ^ 32 := hw ▸ img'.width.isLt
    have hh' : h < 2 ^ 32 := hh ▸ img'.height.isLt
    refine ⟨hw', hh', ?_⟩
    cases raster with
    | nil => exact fun c hc => nomatch hc
    | cons c l =>
        intro d hd
        obtain rfl := Option.some.inj hd
        by_contra hblank
        have hmore := @consumeWhitespace_more 0x0A c l (by decide)
          (Bool.eq_true_of_not_eq_false hblank)
        rw [List.length_cons] at hraster
        by_cases hsuccess : (consumeWhitespace (0x0A :: c :: l)).2 = true
        · rw [if_pos hsuccess] at hdecoded
          exact ppmRaster_of_short img (by omega) (by omega) hdecoded
        · rw [if_neg hsuccess] at hdecoded
          obtain ⟨_, _, hresult, -⟩ := hdecoded
          have herr := congrArg Prod.fst (Option.some.inj hresult)
          exact nomatch herr
  · rintro ⟨hw, hh, hstops⟩
    rw [consumeWhitespace_one (by decide) hstops, if_pos rfl]
    exact ppmRaster_eq_some img hraster hin hout hw hh

/-- A file at address 0 with one pixel. -/
def onePixel (r g b : U8) : Buffer where
  base := 0
  bytes := ppmFile 1 1 [r, g, b]
  fits := by
    simp only [ppmFile, List.length_append, List.length_cons, List.length_nil]
    decide +kernel

theorem ppm_load_one_pixel :
    DecodedAs 1 1 [1, 2, 3] (ppmLoad (onePixel 1 2 3) ⟨0, 0, 0, 0⟩ (some ⟨0x1000, [0]⟩)) :=
  (ppm_load_undoes_encoding_iff ⟨0, 0, 0, 0⟩ rfl rfl (by decide)).mpr (by decide)

/-- A pixel whose red value is a space character loses it. -/
theorem ppm_load_loses_byte :
    ¬ ∀ (w h : Nat) (raster : Bytes) (buf : Buffer) (img : Img) (out : PxBuf),
      w < 2 ^ 32 → h < 2 ^ 32 → raster.length = 3 * (w * h) → buf.bytes = ppmFile w h raster →
      w * h ≤ out.cells.length → DecodedAs w h raster (ppmLoad buf img (some out)) := by
  intro h
  obtain ⟨img, out, hresult, -⟩ := h 1 1 [0x20, 2, 3] (onePixel 0x20 2 3) ⟨0, 0, 0, 0⟩
    ⟨0x1000, [0]⟩ (by decide) (by decide) rfl rfl (by decide)
  have hrun : ppmLoad (onePixel 0x20 2 3) ⟨0, 0, 0, 0⟩ (some ⟨0x1000, [0]⟩) =
      some (.fmtInval, ⟨0, 0, 0, 0⟩, some ⟨0x1000, [0]⟩) := by decide
  have herr := congrArg Prod.fst (Option.some.inj (hrun.symm.trans hresult))
  exact nomatch herr

end DordOs
