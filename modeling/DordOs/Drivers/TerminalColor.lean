import Mathlib.Data.List.Infix
import DordOs.Drivers.Terminal

/-!
The colour of the text terminal. What is shown is followed by marks, one for each cell of
the page: the byte printed there, if any.
-/
namespace DordOs

namespace Terminal

variable {t : Terminal} {color : U16} {c : U8}

theorem getLsbD_printed {i : Nat} (hi : i < 16) (color : U16) (c : U8) :
    (printed color c).getLsbD i =
      if i < 8 then c.getLsbD i else c.msb || color.getLsbD (i - 8) := by
  rw [printed, BitVec.getLsbD_setWidth, BitVec.getLsbD_or, BitVec.getLsbD_signExtend,
    BitVec.getLsbD_shiftLeft, BitVec.getLsbD_setWidth]
  by_cases hlow : i < 8
  · simp [hlow, hi, show i < 32 by omega]
  · simp [hlow, hi, show i < 32 by omega, show i - 8 < 32 by omega]

theorem setWidth_printed (color : U16) (c : U8) : (printed color c).setWidth 8 = c := by
  apply BitVec.eq_of_getLsbD_eq
  intro i hi
  rw [BitVec.getLsbD_setWidth, getLsbD_printed (by omega), if_pos hi]
  simp [hi]

theorem getLsbD_ones {i : Nat} (hi : i < 16) : (0xFF : U16).getLsbD i = decide (i < 8) := by
  have hall : ∀ i : Fin 16, (0xFF : U16).getLsbD i.val = decide (i.val < 8) := by decide
  exact hall ⟨i, hi⟩

/-- The sign of `char` spreads over the colour. -/
theorem printed_high (hcolor : color < 256) (c : U8) :
    printed color c >>> 8 = if c < 0x80 then color else 0xFF := by
  have hsign : c.msb = decide (¬ c < 0x80) := by
    rw [BitVec.msb_eq_decide, decide_eq_decide, BitVec.not_lt, BitVec.le_def]
    rfl
  apply BitVec.eq_of_getLsbD_eq
  intro i hi
  rw [BitVec.getLsbD_ushiftRight]
  by_cases hlow : i < 8
  · rw [getLsbD_printed (by omega), if_neg (by omega), Nat.add_sub_cancel_left, hsign]
    split
    next hc => rw [decide_eq_false (not_not.mpr hc), Bool.false_or]
    next hc => rw [decide_eq_true hc, Bool.true_or, getLsbD_ones hi, decide_eq_true hlow]
  · have hhigh : color.getLsbD i = false :=
      Nat.testBit_lt_two_pow (Nat.lt_of_lt_of_le (BitVec.lt_def.mp hcolor)
        (Nat.pow_le_pow_right Nat.two_pos (Nat.not_lt.mp hlow)))
    rw [BitVec.getLsbD_of_ge _ _ (by omega)]
    split
    next => exact hhigh.symm
    next => rw [getLsbD_ones hi, decide_eq_false hlow]

/-- The cell that carries a mark. -/
def shown (color : U16) (mark : Option U8) : U16 := mark.elim 0 (printed color)

/-- The byte a mark stands for, in a cell without colour. -/
def byteCell (mark : Option U8) : U16 := mark.elim 0 (Page.glyph 0)

/-- The page printed on and the page of the bytes carry the same marks, of bytes in `P`. -/
structure Marked (color : U16) (P : U8 → Prop) (marks : List (Option U8)) (p q : Page) : Prop where
  cells : p.cells = marks.map (shown color)
  bytes : q.cells = marks.map byteCell
  cursor : p.cursor = q.cursor
  typed : ∀ c, some c ∈ marks → P c

variable {P : U8 → Prop} {marks : List (Option U8)} {p q : Page}

theorem Marked.length (h : Marked color P marks p q) :
    p.cells.length = marks.length ∧ q.cells.length = marks.length := by
  rw [h.cells, h.bytes]
  exact ⟨List.length_map _, List.length_map _⟩

theorem Marked.top (h : Marked color P marks p q) : p.top = q.top := by
  rw [Page.top, Page.top, h.length.1, h.length.2]

theorem Marked.move (h : Marked color P marks p q) (cursor : Nat) :
    Marked color P marks { p with cursor := cursor } { q with cursor := cursor } :=
  ⟨h.cells, h.bytes, rfl, h.typed⟩

theorem Marked.set (h : Marked color P marks p q) (hc : P c) (i cursor : Nat) :
    Marked color P (marks.set i (some c)) ⟨p.cells.set i (printed color c), cursor⟩
      ⟨q.cells.set i (Page.glyph 0 c), cursor⟩ where
  cells := by
    rw [List.map_set, ← h.cells]
    rfl
  bytes := by
    rw [List.map_set, ← h.bytes]
    rfl
  cursor := rfl
  typed d hd := by
    obtain hold | hnew := List.mem_or_eq_of_mem_set hd
    · exact h.typed d hold
    · rwa [Option.some.inj hnew]

theorem Marked.slide (h : Marked color P marks p q) :
    ∃ marks', Marked color P marks' p.slide q.slide := by
  rw [Page.slide, Page.slide, ← h.cursor, h.length.1, h.length.2]
  split
  next =>
    refine ⟨marks ++ List.replicate 80 none, ?_, ?_, rfl, fun c hc => ?_⟩
    · rw [List.map_append, List.map_replicate, ← h.cells]
      rfl
    · rw [List.map_append, List.map_replicate, ← h.bytes]
      rfl
    · obtain hold | hnew := List.mem_append.mp hc
      · exact h.typed c hold
      · exact absurd (List.eq_of_mem_replicate hnew) (Option.some_ne_none c)
  next => exact ⟨marks, h⟩

theorem Marked.typeAs (h : Marked color P marks p q) (hzero : P 0) (hc : P c) :
    ∃ marks', Marked color P marks' (p.typeAs color (printed color c) c)
      (q.typeAs 0 (Page.glyph 0 c) c) := by
  rw [Page.typeAs, Page.typeAs, ← h.cursor, ← h.top]
  split
  next => exact ⟨marks, h.move _⟩
  next =>
    split
    next => exact ⟨marks, h.move _⟩
    next =>
      split
      next =>
        rw [← printed_ascii (show (0 : U8) < 0x80 by decide)]
        exact ⟨_, h.set hzero _ _⟩
      next => exact ⟨_, h.set hc _ _⟩

theorem Marked.writeAs (h : Marked color P marks p q) (hzero : P 0) {data : List U8}
    (hdata : ∀ c ∈ data, P c) :
    ∃ marks', Marked color P marks' (p.writeAs color (printed color) data) (q.write 0 data) := by
  induction data generalizing marks p q with
  | nil => exact ⟨marks, h⟩
  | cons c data ih =>
      obtain ⟨_, htyped⟩ := h.typeAs hzero (hdata c List.mem_cons_self)
      obtain ⟨_, hslid⟩ := htyped.slide
      exact ih hslid fun d hd => hdata d (List.mem_cons_of_mem c hd)

theorem marked_blank : Marked color P (List.replicate terminalSize none) Page.blank Page.blank where
  cells := by
    rw [List.map_replicate, Page.blank, shown, Option.elim_none]
  bytes := by
    rw [List.map_replicate, Page.blank, byteCell, Option.elim_none]
  cursor := rfl
  typed c hc := absurd (List.eq_of_mem_replicate hc) (Option.some_ne_none c)

/-- Every cell of the buffer is blank or in the colour, and holds the byte that stands there
when `data` is typed on the page. -/
structure InColor (color : U16) (data : List U8) (t : Terminal) : Prop where
  high : ∀ v ∈ t.buf, v = 0 ∨ v >>> 8 = color
  low : t.buf.map (BitVec.setWidth 8) =
    (Page.blank.write 0 data).window.map (BitVec.setWidth 8)

theorem shown_low (color : U16) (mark : Option U8) :
    (shown color mark).setWidth 8 = (byteCell mark).setWidth 8 := by
  cases mark with
  | none => rfl
  | some c =>
      have hglyph : (Page.glyph 0 c).setWidth 8 = c := by
        have hblack : Page.glyph 0 c = c.setWidth 16 := BitVec.zero_or
        rw [hblack, BitVec.setWidth_setWidth_of_le _ (by decide), BitVec.setWidth_eq]
      exact (setWidth_printed color c).trans hglyph.symm

theorem Marked.window (h : Marked color P marks p q) :
    p.window = (marks.drop q.top).map (shown color) ∧
      q.window = (marks.drop q.top).map byteCell := by
  rw [Page.window, Page.window, h.top, h.cells, h.bytes, List.map_drop, List.map_drop]
  exact ⟨rfl, rfl⟩

/-- With bytes that keep the colour, what is shown is in the colour. -/
theorem Shows.inColor {data : List U8} (h : t.Shows (Page.blank.writeAs color (printed color) data))
    (hkeep : ∀ c ∈ data, printed color c >>> 8 = color) (hcolor : color < 256) :
    InColor color data t := by
  have hzero : printed color 0 >>> 8 = color := printed_high hcolor 0
  obtain ⟨marks, hmarked⟩ := (@marked_blank color fun c => printed color c >>> 8 = color).writeAs
    hzero hkeep
  obtain ⟨hshown, hbytes⟩ := hmarked.window
  refine ⟨fun v hv => ?_, ?_⟩
  · rw [h.buf, hshown] at hv
    obtain ⟨mark, hmark, rfl⟩ := List.mem_map.mp hv
    cases mark with
    | none => exact .inl rfl
    | some c => exact .inr (hmarked.typed c (List.mem_of_mem_drop hmark))
  · rw [h.buf, hshown, hbytes, List.map_map, List.map_map]
    exact List.map_congr_left fun mark _ => shown_low color mark

theorem mem_window {i : Nat} {v : U16} (hlo : p.top ≤ i) (hv : p.cells[i]? = some v) :
    v ∈ p.window := by
  refine List.mem_iff_getElem?.mpr ⟨i - p.top, ?_⟩
  rw [Page.window, List.getElem?_drop, Nat.add_sub_cancel' hlo, hv]

/-- What was printed last is in the window, also when the page has grown by a row. -/
theorem mem_window_printed (hc : ¬ c < 0x80) (hlo : p.top ≤ p.cursor)
    (hhi : p.cursor < p.cells.length) (v : U16) : v ∈ (p.typeAs color v c).slide.window := by
  have hplain : p.typeAs color v c = ⟨p.cells.set p.cursor v, p.cursor + 1⟩ := by
    rw [Page.typeAs, if_neg (by rintro rfl; exact hc (by decide)),
      if_neg (by rintro rfl; exact hc (by decide)), if_neg (by rintro rfl; exact hc (by decide))]
  have hlen : (p.cells.set p.cursor v).length = p.cells.length := List.length_set
  have hself : (p.cells.set p.cursor v)[p.cursor]? = some v := List.getElem?_set_self hhi
  have hsize : terminalSize = 25 * 80 := rfl
  rw [Page.top] at hlo
  rw [hplain, Page.slide]
  split
  next hend =>
    have hlast : p.cursor + 1 = (p.cells.set p.cursor v).length := hend
    refine mem_window ?_ ((List.getElem?_append_left (hlen.symm ▸ hhi)).trans hself)
    simp only [Page.top, List.length_append, List.length_replicate]
    omega
  next =>
    refine mem_window ?_ hself
    simp only [Page.top]
    omega

/-- A byte with the sign bit is shown in another colour. -/
theorem not_inColor_of_sign (hbuf : t.buf.length = terminalSize) (hcolor : t.color < 256)
    (hne : t.color ≠ 0xFF) (hc : ¬ c < 0x80) (before : List U8) {t₀ t' : Terminal}
    (hclear : clear t = some t₀) (hwrite : write t₀ (before ++ [c]) = some t') :
    ¬ InColor t.color (before ++ [c]) t' := by
  intro hin
  have hhigh : printed t.color c >>> 8 = 0xFF := (printed_high hcolor c).trans (if_neg hc)
  obtain ⟨s₀, s, hsclear, _, hshown, hspos⟩ := clear_write_shows hbuf before
  obtain ⟨s₀', s', hsclear', hswrite', hshown', _⟩ := clear_write_shows hbuf (before ++ [c])
  rw [hclear, Option.some.injEq] at hsclear hsclear'
  subst hsclear hsclear'
  rw [hwrite, Option.some.injEq] at hswrite'
  subst hswrite'
  have hmem : printed t.color c ∈ t'.buf := by
    have hcursor := hshown.pos
    have hfull := hshown.formed.full
    rw [hshown'.buf, Page.writeAs, List.foldl_append]
    refine mem_window_printed hc ?_ ?_ _
    · rw [Page.writeAs] at hcursor
      omega
    · rw [Page.writeAs, Page.top] at hcursor
      rw [Page.writeAs] at hfull
      omega
  obtain hzero | hsame := hin.high _ hmem
  · rw [hzero] at hhigh
    exact absurd hhigh (by decide)
  · exact hne (hsame.symm.trans hhigh)

theorem terminal_color_iff {t : Terminal} {data : List U8} (hbuf : t.buf.length = terminalSize)
    (hcolor : t.color < 256) :
    (∀ before, before <+: data → ∃ t₀ t', clear t = some t₀ ∧ write t₀ before = some t' ∧
      InColor t.color before t') ↔ t.color = 0xFF ∨ ∀ c ∈ data, c < 0x80 := by
  constructor
  · intro hall
    by_contra hnot
    obtain ⟨hne, hsome⟩ := not_or.mp hnot
    obtain ⟨c, hmem, hc⟩ : ∃ c ∈ data, ¬ c < 0x80 := by
      by_contra hnone
      exact hsome fun c hmem => by_contra fun hc => hnone ⟨c, hmem, hc⟩
    obtain ⟨before, after, rfl⟩ := List.append_of_mem hmem
    obtain ⟨t₀, t', hclear, hwrite, hin⟩ := hall (before ++ [c])
      ⟨after, by rw [List.append_assoc, List.singleton_append]⟩
    exact not_inColor_of_sign hbuf hcolor hne hc before hclear hwrite hin
  · intro hok before hbefore
    obtain ⟨t₀, t', hclear, hwrite, hshows, _⟩ := clear_write_shows hbuf before
    refine ⟨t₀, t', hclear, hwrite, hshows.inColor (fun c hmem => ?_) hcolor⟩
    rw [printed_high hcolor]
    obtain hones | hascii := hok
    · rw [hones]
      exact ite_self _
    · exact if_pos (hascii c (hbefore.subset hmem))

theorem terminal_color_iff_hello :
    (∀ before, before <+: [0x68, 0x09, 0x69, 0x0A, 0xE9] →
      ∃ t₀ t', clear ⟨List.replicate terminalSize 0x0720, 0, 0x0F, 0, 0⟩ = some t₀ ∧
        write t₀ before = some t' ∧ InColor 0x0F before t') ↔
      (0x0F : U16) = 0xFF ∨ ∀ c ∈ ([0x68, 0x09, 0x69, 0x0A, 0xE9] : List U8), c < 0x80 :=
  @terminal_color_iff ⟨List.replicate terminalSize 0x0720, 0, 0x0F, 0, 0⟩ _
    List.length_replicate (by decide)

theorem terminal_color_lost :
    ¬ ∀ (t : Terminal) (data : List U8), t.buf.length = terminalSize → t.color < 256 →
      ∃ t₀ t', clear t = some t₀ ∧ write t₀ data = some t' ∧ InColor t.color data t' := by
  intro hall
  obtain ⟨t₀, t', hclear, hwrite, hin⟩ := hall
    ⟨List.replicate terminalSize 0x0720, 0, 0x0F, 0, 0⟩ [0x80] List.length_replicate (by decide)
  exact not_inColor_of_sign List.length_replicate (by decide) (by decide) (by decide) []
    hclear hwrite hin

end Terminal

end DordOs
