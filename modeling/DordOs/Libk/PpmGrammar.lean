import DordOs.Libk.Ppm

/-!
The header of a binary PPM as a grammar, and the scanners of `libk/ppm.c` against
it: each of them finds the one split of its input that the grammar allows.
-/
namespace DordOs
open Lib

/-- White space and comments, and what follows them. A comment runs up to a newline or
the end. -/
inductive Blanks : Bytes → Bytes → Prop
  | done {rest : Bytes} : Blanks rest rest
  | space {c : U8} {it rest : Bytes} : isspace c = true → Blanks it rest → Blanks (c :: it) rest
  | comment {text it rest : Bytes} : (∀ b ∈ text, b ≠ 0x0A) → (∀ b ∈ it.head?, b = 0x0A) →
      Blanks it rest → Blanks (0x23 :: (text ++ it)) rest

/-- A separator, not empty and as long as possible, and what follows it. -/
structure Separator (it rest : Bytes) : Prop where
  blanks : Blanks it rest
  nonempty : it ≠ rest
  maximal : StopsBlank rest

/-- A numeral of the header and what follows its separator. -/
structure PpmNumeral (it digits rest : Bytes) : Prop where
  nonempty : digits ≠ []
  decimal : ∀ d ∈ digits, isdigit d = true
  separator : ∃ sep, it = digits ++ sep ∧ Separator sep rest

/-- The numerals of the header and what follows it. -/
structure PpmHeader (bytes width height clrmax rest : Bytes) : Prop where
  split : ∃ it it₁ it₂ it₃, bytes = 0x50 :: 0x36 :: it ∧ Separator it it₁ ∧
    PpmNumeral it₁ width it₂ ∧ PpmNumeral it₂ height it₃ ∧ PpmNumeral it₃ clrmax rest

section Blanks

variable {it rest rest' : Bytes}

theorem skipComment_eq {text : Bytes} (htext : ∀ b ∈ text, b ≠ 0x0A)
    (hstop : ∀ b ∈ it.head?, b = 0x0A) : skipComment (text ++ it) = it := by
  induction text with
  | nil =>
      cases it with
      | nil => rfl
      | cons c it =>
          have hc : c = 0x0A := hstop c rfl
          rw [List.nil_append, skipComment, if_neg (not_not.mpr hc)]
  | cons b text ih =>
      obtain ⟨hb, hrest⟩ := List.forall_mem_cons.mp htext
      rw [List.cons_append, skipComment, if_pos hb, ih hrest]

theorem skipComment_split (it : Bytes) :
    ∃ text, it = text ++ skipComment it ∧ (∀ b ∈ text, b ≠ 0x0A) ∧
      ∀ b ∈ (skipComment it).head?, b = 0x0A := by
  induction it with
  | nil => exact ⟨[], rfl, List.forall_mem_nil _, fun _ h => nomatch h⟩
  | cons c it ih =>
      rw [skipComment]
      split
      next hc =>
        obtain ⟨text, hit, htext, hstop⟩ := ih
        exact ⟨c :: text, congrArg (c :: ·) hit, List.forall_mem_cons.mpr ⟨hc, htext⟩, hstop⟩
      next hc =>
        refine ⟨[], rfl, List.forall_mem_nil _, fun b hb => ?_⟩
        rw [← Option.some.inj hb]
        exact not_not.mp hc

theorem stopsBlank_cons {c : U8} (h : StopsBlank (c :: it)) : isspace c = false ∧ c ≠ 0x23 := by
  have hc := h c rfl
  rw [blank, Bool.or_eq_false_iff, decide_eq_false_iff_not] at hc
  exact hc

theorem not_isspace_hash : isspace 0x23 ≠ true := by decide

theorem Blanks.unique (h : Blanks it rest) (hstop : StopsBlank rest) (h' : Blanks it rest')
    (hstop' : StopsBlank rest') : rest' = rest := by
  induction h with
  | done =>
      cases h' with
      | done => rfl
      | space hc => exact absurd hc (Bool.eq_false_iff.mp (stopsBlank_cons hstop).1)
      | comment => exact absurd rfl (stopsBlank_cons hstop).2
  | space hc _ ih =>
      cases h' with
      | done => exact absurd hc (Bool.eq_false_iff.mp (stopsBlank_cons hstop').1)
      | space _ h' => exact ih hstop h'
      | comment => exact absurd hc not_isspace_hash
  | @comment text it rest htext hend _ ih =>
      generalize hall : (0x23 : U8) :: (text ++ it) = all at h'
      cases h' with
      | done =>
          rw [← hall] at hstop'
          exact absurd rfl (stopsBlank_cons hstop').2
      | space hc =>
          rw [← (List.cons.inj hall).1] at hc
          exact absurd hc not_isspace_hash
      | comment htext' hend' h' =>
          have hsame := congrArg skipComment (List.cons.inj hall).2
          rw [skipComment_eq htext hend, skipComment_eq htext' hend'] at hsame
          exact ih hstop (hsame ▸ h')

theorem Blanks.length_le (h : Blanks it rest) : rest.length ≤ it.length := by
  induction h with
  | done => exact Nat.le_refl _
  | space _ _ ih => exact Nat.le_succ_of_le ih
  | comment _ _ _ ih =>
      rw [List.length_cons, List.length_append]
      omega

theorem stopsBlank_nil : StopsBlank [] := fun _ h => nomatch h

theorem stopsBlank_of_cons {c : U8} (hspace : ¬ isspace c = true) (hhash : c ≠ 0x23) :
    StopsBlank (c :: it) := by
  intro b hb
  rw [← Option.some.inj hb, blank, Bool.or_eq_false_iff, decide_eq_false_iff_not]
  exact ⟨Bool.eq_false_iff.mpr hspace, hhash⟩

theorem ne_of_length_lt {l l' : Bytes} (h : l'.length < l.length) : l ≠ l' := by
  rintro rfl
  exact Nat.lt_irrefl _ h

/-- The loop ends where no blank follows, and has met with success if it has moved. -/
theorem consumeWhitespaceFrom_blanks {fuel : Nat} (success : Bool) (hfuel : it.length ≤ fuel) :
    Blanks it (consumeWhitespaceFrom fuel it success).1 ∧
      StopsBlank (consumeWhitespaceFrom fuel it success).1 ∧
      ((consumeWhitespaceFrom fuel it success).2 = true ↔
        success = true ∨ it ≠ (consumeWhitespaceFrom fuel it success).1) := by
  induction fuel generalizing it success with
  | zero =>
      obtain rfl := List.length_eq_zero_iff.mp (Nat.le_zero.mp hfuel)
      exact ⟨.done, stopsBlank_nil, by simp [consumeWhitespaceFrom]⟩
  | succ fuel ih =>
      cases it with
      | nil => exact ⟨.done, stopsBlank_nil, by simp [consumeWhitespaceFrom]⟩
      | cons c it =>
          rw [List.length_cons] at hfuel
          rw [consumeWhitespaceFrom]
          by_cases hspace : isspace c = true
          · rw [if_pos hspace]
            obtain ⟨hblanks, hstop, hsuccess⟩ := @ih it true (by omega)
            have hmoved := Nat.lt_succ_of_le hblanks.length_le
            exact ⟨.space hspace hblanks, hstop,
              iff_of_true (hsuccess.mpr (Or.inl rfl)) (Or.inr (ne_of_length_lt hmoved))⟩
          rw [if_neg hspace]
          by_cases hhash : c = 0x23
          · rw [if_pos hhash, hhash, skipComment, if_pos (by decide)]
            obtain ⟨text, hit, htext, hend⟩ := skipComment_split it
            obtain ⟨hblanks, hstop, hsuccess⟩ := @ih (skipComment it) true
              (Nat.le_trans (length_skipComment_le it) (by omega))
            have hcomment := Blanks.comment htext hend hblanks
            rw [← hit] at hcomment
            have hmoved := Nat.lt_succ_of_le
              (Nat.le_trans hblanks.length_le (length_skipComment_le it))
            exact ⟨hcomment, hstop,
              iff_of_true (hsuccess.mpr (Or.inl rfl)) (Or.inr (ne_of_length_lt hmoved))⟩
          · rw [if_neg hhash]
            exact ⟨.done, stopsBlank_of_cons hspace hhash, by simp⟩

/-- `consume_whitespace` succeeds exactly on separators. -/
theorem consumeWhitespace_eq_iff : consumeWhitespace it = (rest, true) ↔ Separator it rest := by
  obtain ⟨hblanks, hstop, hsuccess⟩ := consumeWhitespaceFrom_blanks false (Nat.le_refl it.length)
  rw [← consumeWhitespace] at hblanks hstop hsuccess
  constructor
  · intro h
    rw [h] at hblanks hstop hsuccess
    exact ⟨hblanks, (hsuccess.mp rfl).resolve_left Bool.false_ne_true, hstop⟩
  · intro h
    have hrest := h.blanks.unique h.maximal hblanks hstop
    rw [hrest] at hsuccess
    exact Prod.ext hrest (hsuccess.mpr (Or.inr h.nonempty))

theorem Separator.unique (h : Separator it rest) (h' : Separator it rest') : rest' = rest :=
  h.blanks.unique h.maximal h'.blanks h'.maximal

theorem Separator.head (h : Separator it rest) : ∃ c it', it = c :: it' ∧ blank c = true := by
  obtain ⟨hblanks, hne, -⟩ := h
  cases hblanks with
  | done => exact absurd rfl hne
  | space hc => exact ⟨_, _, rfl, by rw [blank, hc]; rfl⟩
  | comment => exact ⟨_, _, rfl, rfl⟩

end Blanks

section Numeral

variable {it rest digits : Bytes}

theorem consumeValue_split (it : Bytes) : ∃ digits, it = digits ++ (consumeValue it).1 ∧
    (∀ d ∈ digits, isdigit d = true) ∧ (consumeValue it).2 = digits.length := by
  induction it with
  | nil => exact ⟨[], rfl, List.forall_mem_nil _, rfl⟩
  | cons c it ih =>
      rw [consumeValue]
      split
      next hc =>
        obtain ⟨digits, hit, hdigits, hlen⟩ := ih
        exact ⟨c :: digits, congrArg (c :: ·) hit, List.forall_mem_cons.mpr ⟨hc, hdigits⟩,
          congrArg (· + 1) hlen⟩
      next => exact ⟨[], rfl, List.forall_mem_nil _, rfl⟩

theorem PpmNumeral.consumeValue (h : PpmNumeral it digits rest) :
    ∃ sep, it = digits ++ sep ∧ Separator sep rest ∧
      DordOs.consumeValue it = (sep, digits.length) := by
  obtain ⟨sep, hit, hsep⟩ := h.separator
  obtain ⟨c, sep', rfl, hblank⟩ := hsep.head
  refine ⟨_, hit, hsep, ?_⟩
  rw [hit, consumeValue_append h.decimal (isdigit_of_blank hblank)]

theorem ppmField_of_numeral (h : PpmNumeral it digits rest) :
    ppmField it = some (it, digits.length, rest) := by
  obtain ⟨sep, -, hsep, hvalue⟩ := h.consumeValue
  have hlen : digits.length ≠ 0 := mt List.length_eq_zero_iff.mp h.nonempty
  have hspace := consumeWhitespace_eq_iff.mpr hsep
  simp only [ppmField]
  rw [hvalue]
  simp only [hlen, if_false, hspace, if_true]

theorem numeral_of_ppmField {r : Bytes × Nat × Bytes} (h : ppmField it = some r) :
    ∃ digits, PpmNumeral it digits r.2.2 := by
  obtain ⟨digits, hit, hdigits, hlen⟩ := consumeValue_split it
  simp only [ppmField] at h
  split at h
  next => cases h
  next hne =>
    split at h
    next hsuccess =>
      obtain rfl := Option.some.inj h
      refine ⟨digits, ?_, hdigits, _, hit, consumeWhitespace_eq_iff.mp (Prod.ext rfl hsuccess)⟩
      rintro rfl
      exact hne hlen
    next => cases h

theorem PpmNumeral.unique {digits' rest' : Bytes} (h : PpmNumeral it digits rest)
    (h' : PpmNumeral it digits' rest') : digits' = digits ∧ rest' = rest := by
  obtain ⟨sep, hit, hsep, hvalue⟩ := h.consumeValue
  obtain ⟨sep', hit', hsep', hvalue'⟩ := h'.consumeValue
  rw [hvalue] at hvalue'
  obtain ⟨rfl, hlen⟩ := Prod.mk.inj hvalue'
  exact ⟨List.append_cancel_right (hit'.symm.trans hit), hsep.unique hsep'⟩

end Numeral

section Header

variable {buf : Buffer} {bytes width height clrmax rest : Bytes}

theorem PpmHeader.unique {width' height' clrmax' rest' : Bytes}
    (h : PpmHeader bytes width height clrmax rest)
    (h' : PpmHeader bytes width' height' clrmax' rest') :
    width' = width ∧ height' = height ∧ clrmax' = clrmax ∧ rest' = rest := by
  obtain ⟨it, it₁, it₂, it₃, hbytes, hsep, hwidth, hheight, hclrmax⟩ := h.split
  obtain ⟨it', it₁', it₂', it₃', hbytes', hsep', hwidth', hheight', hclrmax'⟩ := h'.split
  obtain rfl : it' = it := (List.cons.inj (List.cons.inj (hbytes'.symm.trans hbytes)).2).2
  obtain rfl := hsep.unique hsep'
  obtain ⟨rfl, rfl⟩ := hwidth.unique hwidth'
  obtain ⟨rfl, rfl⟩ := hheight.unique hheight'
  obtain ⟨rfl, rfl⟩ := hclrmax.unique hclrmax'
  exact ⟨rfl, rfl, rfl, rfl⟩

theorem PpmNumeral.length_le {it digits : Bytes} (h : PpmNumeral it digits rest) :
    rest.length ≤ it.length := by
  obtain ⟨sep, rfl, hsep⟩ := h.separator
  rw [List.length_append]
  exact Nat.le_trans hsep.blanks.length_le (Nat.le_add_left _ _)

theorem PpmHeader.length_le (h : PpmHeader bytes width height clrmax rest) :
    rest.length + 2 ≤ bytes.length := by
  obtain ⟨it, it₁, it₂, it₃, rfl, hsep, hwidth, hheight, hclrmax⟩ := h.split
  have hle := Nat.le_trans hclrmax.length_le (Nat.le_trans hheight.length_le
    (Nat.le_trans hwidth.length_le hsep.blanks.length_le))
  rw [List.length_cons, List.length_cons]
  omega

theorem Buffer.magic_room (h : buf.base.toNat + 2 < 2 ^ 32) :
    buf.stop < buf.addr buf.bytes + 2 ↔ buf.bytes.length < 2 := by
  rw [Buffer.stop_lt_iff]
  omega

/-- The check wraps at the end of the address space. -/
theorem Buffer.no_magic_room (h : ¬ buf.base.toNat + 2 < 2 ^ 32) :
    ¬ buf.stop < buf.addr buf.bytes + 2 ∧ buf.bytes.length < 2 := by
  have hfits := buf.fits
  rw [Buffer.stop_lt_iff]
  omega

theorem halfWord_of_short {it : Bytes} (h : it.length < 2) : halfWord it = none := by
  match it, h with
  | [], _ | [_], _ => rfl
  | a :: b :: it, h =>
      rw [List.length_cons, List.length_cons] at h
      omega

/-- At the end of the address space the magic number is read past the file. -/
theorem ppmLoad_of_wrap (h : ¬ buf.base.toNat + 2 < 2 ^ 32) (img : Img) (out : Option PxBuf) :
    ppmLoad buf img out = none := by
  obtain ⟨hroom, hshort⟩ := Buffer.no_magic_room h
  rw [ppmLoad, if_neg hroom, halfWord_of_short hshort]
  rfl

theorem halfWord_eq_magic {it : Bytes} (h : halfWord it = some ppmMagic) :
    ∃ it', it = 0x50 :: 0x36 :: it' := by
  match it, h with
  | a :: b :: it, h =>
      have hword := congrArg BitVec.toNat (Option.some.inj h)
      have hmagic : ppmMagic.toNat = 0x3650 := rfl
      rw [BitVec.toNat_ofNat, leValue, leValue, leValue, hmagic] at hword
      have hbytes : a = 0x50 ∧ b = 0x36 := by bv_omega
      exact ⟨it, by rw [hbytes.1, hbytes.2]⟩

theorem ppmLoad_of_header (h : PpmHeader buf.bytes width height clrmax rest) (img : Img)
    (out : Option PxBuf) :
    ppmLoad buf img out =
      if BitVec.ofNat 32 (digitsValue clrmax) ≠ (255 : U32) then some (.fmtInval, img, out)
      else ppmRaster buf img out (BitVec.ofNat 32 (digitsValue width))
        (BitVec.ofNat 32 (digitsValue height)) rest := by
  have hlong : ¬ buf.stop < buf.addr buf.bytes + 2 := by
    have hlen := h.length_le
    have hfits := buf.fits
    rw [Buffer.magic_room (by omega)]
    omega
  obtain ⟨it, it₁, it₂, it₃, hbytes, hsep, hwidth, hheight, hclrmax⟩ := h.split
  have hword : halfWord buf.bytes = some ppmMagic := by
    rw [hbytes]
    rfl
  have hfirst : consumeWhitespace (buf.bytes.drop 2) = (it₁, true) := by
    rw [hbytes]
    exact consumeWhitespace_eq_iff.mpr hsep
  have hvalue {it digits rest : Bytes} (h : PpmNumeral it digits rest) :
      parseUint32 it digits.length = BitVec.ofNat 32 (digitsValue digits) := by
    obtain ⟨sep, rfl, -⟩ := h.separator
    exact parseUint32_digits h.decimal sep
  rw [ppmLoad, if_neg hlong, hword, Option.bind_eq_bind, Option.bind_some]
  simp only [hfirst, ne_eq, not_true_eq_false, if_false, Bool.not_true, Bool.false_eq_true,
    ppmField_of_numeral hwidth, ppmField_of_numeral hheight, ppmField_of_numeral hclrmax,
    hvalue hwidth, hvalue hheight, hvalue hclrmax]

/-- Without a header the file is refused. -/
theorem ppmLoad_of_no_header (hbase : buf.base.toNat + 2 < 2 ^ 32) (h : ∀ width height clrmax rest,
    ¬ PpmHeader buf.bytes width height clrmax rest) (img : Img) (out : Option PxBuf) :
    ppmLoad buf img out = some (.fmtInval, img, out) := by
  rw [ppmLoad]
  by_cases hshort : buf.bytes.length < 2
  · rw [if_pos ((Buffer.magic_room hbase).mpr hshort)]
  rw [if_neg (mt (Buffer.magic_room hbase).mp hshort)]
  obtain ⟨magic, hword⟩ : ∃ magic, halfWord buf.bytes = some magic := by
    cases hbytes : buf.bytes with
    | nil => simp [hbytes] at hshort
    | cons b l =>
        cases l with
        | nil => simp [hbytes] at hshort
        | cons b' l => exact ⟨_, rfl⟩
  rw [hword, Option.bind_eq_bind, Option.bind_some]
  by_cases hmagic : magic = ppmMagic
  swap
  · rw [if_pos hmagic]
  rw [if_neg (not_not.mpr hmagic)]
  obtain ⟨it, hit⟩ := halfWord_eq_magic (hmagic ▸ hword)
  have hdrop : buf.bytes.drop 2 = it := by
    rw [hit]
    rfl
  rw [hdrop]
  cases hfirst : consumeWhitespace it with
  | mk it₁ success =>
    cases success with
    | false => rfl
    | true =>
      cases hwidth : ppmField it₁ with
      | none => simp [hwidth]
      | some r₁ =>
        cases hheight : ppmField r₁.2.2 with
        | none => simp [hwidth, hheight]
        | some r₂ =>
          cases hclrmax : ppmField r₂.2.2 with
          | none => simp [hwidth, hheight, hclrmax]
          | some r₃ =>
            obtain ⟨width, hw⟩ := numeral_of_ppmField hwidth
            obtain ⟨height, hh⟩ := numeral_of_ppmField hheight
            obtain ⟨clrmax, hm⟩ := numeral_of_ppmField hclrmax
            exact absurd ⟨_, _, _, _, hit, consumeWhitespace_eq_iff.mp hfirst, hw, hh, hm⟩
              (fun hsplit => h width height clrmax r₃.2.2 ⟨hsplit⟩)

end Header

section Encoded

theorem separator_one {c : U8} {rest : Bytes} (hc : isspace c = true) (h : StopsBlank rest) :
    Separator (c :: rest) rest :=
  ⟨.space hc .done, ne_of_length_lt (Nat.lt_succ_self _), h⟩

theorem ppmNumeral_decimal (n : Nat) {c : U8} {rest : Bytes} (hc : isspace c = true)
    (h : StopsBlank rest) : PpmNumeral (decimal n ++ c :: rest) (decimal n) rest :=
  ⟨decimal_ne_nil n, isdigit_decimal n, _, rfl, separator_one hc h⟩

theorem ppmHeader_ppmFile (w h : Nat) {raster : Bytes} (hraster : StopsBlank raster) :
    PpmHeader (ppmFile w h raster) (decimal w) (decimal h) (decimal 255) raster := by
  have hmax : [0x32, 0x35, 0x35] = decimal 255 := by decide
  rw [ppmFile, hmax]
  exact ⟨_, _, _, _, rfl, separator_one (by decide) (stopsBlank_decimal w _),
    ppmNumeral_decimal w (by decide) (stopsBlank_decimal h _),
    ppmNumeral_decimal h (by decide) (stopsBlank_decimal 255 _),
    ppmNumeral_decimal 255 (by decide) hraster⟩

end Encoded

end DordOs
