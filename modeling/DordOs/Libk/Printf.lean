import DordOs.Libk.Io

/-!
Formats as lists of pieces, what they should render to, and what `io_vprintf`
prints for them.
-/
namespace DordOs
open Lib

/-- A byte of literal text, or a directive with its argument. -/
inductive Piece where
  | literal (b : U8) (plain : b ≠ 0 ∧ b ≠ 0x25)
  | str (s : CStr)
  | char (v : I32)
  | percent
  | iq (v : I64)
  | id (v : I32)
  | uq (v : U64)
  | ud (v : U32)
  | uz (v : Usz)
  | hq (v : U64)
  | hd (v : U32)
  | hz (v : Usz)

namespace Piece

/-- The piece as it stands in the format. -/
def spec : Piece → Bytes
  | literal b _ => [b]
  | str _ => [0x25, 0x73]
  | char _ => [0x25, 0x63]
  | percent => [0x25, 0x25]
  | iq _ => [0x25, 0x69, 0x71]
  | id _ => [0x25, 0x69, 0x64]
  | uq _ => [0x25, 0x75, 0x71]
  | ud _ => [0x25, 0x75, 0x64]
  | uz _ => [0x25, 0x75, 0x7A]
  | hq _ => [0x25, 0x68, 0x71]
  | hd _ => [0x25, 0x68, 0x64]
  | hz _ => [0x25, 0x68, 0x7A]

/-- The arguments it takes. -/
def args : Piece → List VaArg
  | literal _ _ | percent => []
  | str s => [.ptr s]
  | char v | id v | ud v | uz v | hd v | hz v => [.word v]
  | iq v | uq v | hq v => [.quad v]

/-- The reference rendering. -/
def text : Piece → Bytes
  | literal b _ => [b]
  | str s => s.bytes
  | char v => [v.setWidth 8]
  | percent => [0x25]
  | iq v | id v => signedDecimal v.toInt
  | uq v | ud v | uz v => decimal v.toNat
  | hq v | hd v | hz v => hexadecimal v.toNat

/-- The text after the conversions to `i64`: unsigned 32-bit arguments of width `d`
are fetched as signed ones, and the least `i64` cannot be negated. -/
def printed : Piece → Option Bytes
  | iq v => if v = BitVec.intMin 64 then none else some (signedDecimal v.toInt)
  | ud v => some (decimal (v.signExtend 64).toNat)
  | hd v => some (hexadecimal (v.signExtend 64).toNat)
  | p => some p.text

/-- The fetch of the argument keeps its value, and the value can be negated. -/
def Fits : Piece → Prop
  | iq v => v ≠ BitVec.intMin 64
  | ud v | hd v => v.toNat < 2 ^ 31
  | _ => True

instance (p : Piece) : Decidable p.Fits :=
  match p with
  | iq v => inferInstanceAs (Decidable (v ≠ BitVec.intMin 64))
  | ud v | hd v => inferInstanceAs (Decidable (v.toNat < 2 ^ 31))
  | literal _ _ | str _ | char _ | percent | id _ | uq _ | uz _ | hq _ | hz _ => isTrue trivial

theorem nonzero_of_mem_spec {p : Piece} {b : U8} (h : b ∈ p.spec) : b ≠ 0 := by
  cases p with
  | literal c plain =>
      rw [List.mem_singleton.mp h]
      exact plain.1
  | str | char | percent | iq | id | uq | ud | uz | hq | hd | hz =>
      simp only [spec, List.mem_cons, List.not_mem_nil, or_false] at h
      rcases h with rfl | rfl | rfl <;> decide

end Piece

/-- The format string. -/
def formatOf (pieces : List Piece) : CStr where
  bytes := pieces.flatMap Piece.spec
  nonzero _ hb := by
    obtain ⟨p, -, hp⟩ := List.mem_flatMap.mp hb
    exact Piece.nonzero_of_mem_spec hp

def argsOf (pieces : List Piece) : List VaArg := pieces.flatMap Piece.args

def render (pieces : List Piece) : Bytes := pieces.flatMap Piece.text

/-- What is printed for all of them, one after the other. -/
def printedAll : List Piece → Option Bytes
  | [] => some []
  | p :: ps => do
      let first ← p.printed
      let later ← printedAll ps
      return first ++ later

theorem CStr.getElem?_cells_add {str : CStr} {i : Nat} {rest : Bytes}
    (h : str.cells.drop i = rest) (k : Nat) : str.cells[i + k]? = rest[k]? := by
  rw [← h, List.getElem?_drop]

theorem CStr.span_eq {str : CStr} {i n : Nat} {rest : Bytes} (h : str.cells.drop i = rest) :
    str.span i (i + n) = rest.take n := by
  rw [span, slice, h, Nat.add_sub_cancel_left]

theorem CStr.drop_cells {str : CStr} {i : Nat} {rest : Bytes}
    (h : str.cells.drop i = rest ++ [0]) : str.bytes.drop i = rest := by
  have hlen := congrArg List.length h
  simp only [cells, List.length_drop, List.length_append, List.length_singleton] at hlen
  rw [cells, List.drop_append_of_le_length (by omega)] at h
  exact List.append_cancel_right h

section Width

variable {fmt : CStr} {start it : Nat} {argl : List VaArg}
  {print : I64 → Option (List Bytes × Usz)}

theorem printWidth_q {v : U64} (hw : fmt.cells[it]? = some 0x71) :
    printWidth fmt start it (.quad v :: argl) print =
      (print v).map fun r => (r.1, it + 1, argl) := by
  rw [printWidth, hw]
  exact (Option.map_eq_bind ..).symm

theorem printWidth_d {v : U32} (hw : fmt.cells[it]? = some 0x64) :
    printWidth fmt start it (.word v :: argl) print =
      (print (v.signExtend 64)).map fun r => (r.1, it + 1, argl) := by
  rw [printWidth, hw]
  exact (Option.map_eq_bind ..).symm

theorem printWidth_z {v : U32} (hw : fmt.cells[it]? = some 0x7A) :
    printWidth fmt start it (.word v :: argl) print =
      (print (v.setWidth 64)).map fun r => (r.1, it + 1, argl) := by
  rw [printWidth, hw]
  exact (Option.map_eq_bind ..).symm

/-- The three integer directives hand over to the switch on the width. -/
theorem printDirective_integer :
    (fmt.cells[it]? = some 0x69 →
      printDirective fmt start it argl = printWidth fmt start (it + 1) argl (ioPrintiq negI64)) ∧
    (fmt.cells[it]? = some 0x75 →
      printDirective fmt start it argl = printWidth fmt start (it + 1) argl ioPrintuq) ∧
    (fmt.cells[it]? = some 0x68 →
      printDirective fmt start it argl = printWidth fmt start (it + 1) argl ioPrinthq) := by
  refine ⟨fun h => ?_, fun h => ?_, fun h => ?_⟩ <;>
  · rw [printDirective, h]
    rfl

end Width

/-- The bytes of the chunks, for what else is handed on. -/
def flattened {α : Type} (r : List Bytes × α) : Bytes × α := (r.1.flatten, r.2)

theorem printDirective_piece {fmt : CStr} {it : Nat} {p : Piece} {rest : Bytes}
    (argl : List VaArg) (hdir : p.spec[0]? = some 0x25)
    (h : fmt.cells.drop it = p.spec ++ rest) :
    (printDirective fmt it (it + 1) (p.args ++ argl)).map flattened =
      p.printed.map fun text => (text, it + p.spec.length, argl) := by
  have h1 := CStr.getElem?_cells_add h 1
  have h2 := CStr.getElem?_cells_add h 2
  obtain ⟨hi, hu, hh⟩ := @printDirective_integer fmt it (it + 1) (p.args ++ argl)
  have hwide (v : U32) : (v.setWidth 64).toNat = v.toNat := BitVec.toNat_setWidth_of_le (by decide)
  have hchunk (text : Bytes) : [text].flatten = text := List.append_nil text
  have hnumber (text : Option Bytes) (call : Option (List Bytes × Usz))
      (hcall : call.map (fun r => r.1.flatten) = text) :
      (call.map fun r => (r.1, it + 3, argl)).map flattened =
        text.map fun text => (text, it + 3, argl) := by
    rw [← hcall, Option.map_map, Option.map_map]
    rfl
  cases p with
  | literal b plain => exact absurd (Option.some.inj hdir) plain.2
  | str s =>
      rw [printDirective, h1]
      exact congrArg (fun text => some (text, it + 2, argl)) (hchunk s.bytes)
  | char v =>
      rw [printDirective, h1]
      rfl
  | percent =>
      have hrest : fmt.cells.drop (it + 1) = 0x25 :: rest := by
        rw [← List.drop_drop, h]
        rfl
      have hspan := @CStr.span_eq fmt (it + 1) 1 _ hrest
      rw [printDirective, h1]
      change some ([fmt.span (it + 1) (it + 1 + 1)].flatten, it + 2, argl) = _
      rw [hspan]
      rfl
  | iq v =>
      refine (congrArg _ ((hi h1).trans (printWidth_q h2))).trans (hnumber _ _ ?_)
      exact ioPrintiq_eq v
  | id v =>
      refine (congrArg _ ((hi h1).trans (printWidth_d h2))).trans (hnumber _ _ ?_)
      have hleast : v.signExtend 64 ≠ BitVec.intMin 64 := by
        intro heq
        have hle := BitVec.le_toInt v
        have hvalue := congrArg BitVec.toInt heq
        rw [BitVec.toInt_signExtend_of_le (by decide)] at hvalue
        have hmin : (BitVec.intMin 64).toInt = -2 ^ 63 := by decide
        omega
      rw [ioPrintiq_eq, if_neg hleast, BitVec.toInt_signExtend_of_le (by decide)]
      rfl
  | uq v =>
      refine (congrArg _ ((hu h1).trans (printWidth_q h2))).trans (hnumber _ _ ?_)
      rw [ioPrintuq_eq]
      exact congrArg some (hchunk _)
  | ud v =>
      refine (congrArg _ ((hu h1).trans (printWidth_d h2))).trans (hnumber _ _ ?_)
      rw [ioPrintuq_eq]
      exact congrArg some (hchunk _)
  | uz v =>
      refine (congrArg _ ((hu h1).trans (printWidth_z h2))).trans (hnumber _ _ ?_)
      rw [ioPrintuq_eq, hwide]
      exact congrArg some (hchunk _)
  | hq v =>
      refine (congrArg _ ((hh h1).trans (printWidth_q h2))).trans (hnumber _ _ ?_)
      rw [ioPrinthq_eq]
      exact congrArg some (hchunk _)
  | hd v =>
      refine (congrArg _ ((hh h1).trans (printWidth_d h2))).trans (hnumber _ _ ?_)
      rw [ioPrinthq_eq]
      exact congrArg some (hchunk _)
  | hz v =>
      refine (congrArg _ ((hh h1).trans (printWidth_z h2))).trans (hnumber _ _ ?_)
      rw [ioPrinthq_eq, hwide]
      exact congrArg some (hchunk _)

theorem vprintfFrom_literal {fmt : CStr} {fuel it : Nat} {argl : List VaArg} {b : U8}
    {rest : Bytes} (hb : b ≠ 0 ∧ b ≠ 0x25) (h : fmt.cells.drop it = b :: rest ++ [0]) :
    vprintfFrom fmt (fuel + 1) it argl =
      (vprintfFrom fmt fuel (it + (literalRun rest + 1)) argl).map
        fun later => (b :: (rest ++ [0]).take (literalRun rest)) :: later := by
  have hread : fmt.cells[it]? = some b := CStr.getElem?_cells_add h 0
  have hrun : literalRun (fmt.bytes.drop it) = literalRun rest + 1 := by
    rw [CStr.drop_cells h, literalRun, if_neg hb.2]
  have hspan := @CStr.span_eq fmt it (literalRun rest + 1) _ h
  rw [vprintfFrom, hread, Option.bind_eq_bind, Option.bind_some, if_neg hb.1, if_pos hb.2, hrun]
  change (vprintfFrom fmt fuel (it + (literalRun rest + 1)) argl).bind
    (fun later => some ([fmt.span it (it + (literalRun rest + 1))] ++ later)) = _
  rw [hspan]
  exact (Option.map_eq_bind ..).symm

theorem vprintfFrom_directive {fmt : CStr} {fuel it : Nat} {p : Piece} {rest : Bytes}
    (argl : List VaArg) (hdir : p.spec[0]? = some 0x25)
    (h : fmt.cells.drop it = p.spec ++ rest) :
    (vprintfFrom fmt (fuel + 1) it (p.args ++ argl)).map List.flatten = do
      let first ← p.printed
      let later ← (vprintfFrom fmt fuel (it + p.spec.length) argl).map List.flatten
      return first ++ later := by
  have hpos : 0 < p.spec.length := (List.getElem?_eq_some_iff.mp hdir).1
  have hread : fmt.cells[it]? = some 0x25 := by
    rw [← Nat.add_zero it, CStr.getElem?_cells_add h, List.getElem?_append_left hpos, hdir]
  have hpiece := printDirective_piece argl hdir h
  rw [vprintfFrom, hread, Option.bind_eq_bind, Option.bind_some, if_neg (by decide),
    if_neg (by decide)]
  cases hdirective : printDirective fmt it (it + 1) (p.args ++ argl) with
  | none =>
      rw [hdirective, Option.map_none, eq_comm, Option.map_eq_none_iff] at hpiece
      rw [hpiece]
      rfl
  | some r =>
      rw [hdirective, Option.map_some, eq_comm, Option.map_eq_some_iff] at hpiece
      obtain ⟨text, htext, heq⟩ := hpiece
      obtain ⟨chunks, pos, left⟩ := r
      obtain ⟨rfl, rfl, rfl⟩ : text = chunks.flatten ∧ it + p.spec.length = pos ∧ argl = left := by
        simpa [flattened] using heq
      rw [htext]
      change ((vprintfFrom fmt fuel (it + p.spec.length) argl).bind _).map List.flatten =
        ((vprintfFrom fmt fuel (it + p.spec.length) argl).map List.flatten).bind _
      cases vprintfFrom fmt fuel (it + p.spec.length) argl with
      | none => rfl
      | some later => exact congrArg some List.flatten_append

theorem literalRun_pos {text : Bytes} (h : 0 < literalRun text) :
    ∃ c rest, text = c :: rest ∧ c ≠ 0x25 ∧ literalRun text = literalRun rest + 1 := by
  cases text with
  | nil => exact absurd h (Nat.lt_irrefl 0)
  | cons c rest =>
      rw [literalRun] at h ⊢
      split at h
      next => exact absurd h (Nat.lt_irrefl 0)
      next hc => exact ⟨c, rest, rfl, hc, if_neg hc⟩

/-- A literal byte joins the chunk that the loop prints from the next byte on. -/
theorem vprintfFrom_joins {fmt : CStr} {fuel it : Nat} {argl : List VaArg} {b : U8}
    {text : Bytes} {printed : Option Bytes} (hb : b ≠ 0 ∧ b ≠ 0x25) (htext : ∀ c ∈ text, c ≠ 0)
    (h : fmt.cells.drop it = b :: text ++ [0]) (hfuel : text.length < fuel)
    (hrun : ∀ n, text.length < n →
      (vprintfFrom fmt n (it + 1) argl).map List.flatten = printed) :
    (vprintfFrom fmt (fuel + 1) it argl).map List.flatten = printed.map (b :: ·) := by
  have hpass := @vprintfFrom_literal fmt fuel it argl b text hb h
  have hrest : fmt.cells.drop (it + 1) = text ++ [0] := by
    rw [← List.drop_drop, h]
    rfl
  obtain hzero | hpos := Nat.eq_zero_or_pos (literalRun text)
  · -- the run ends with this byte
    rw [hpass, hzero, Nat.zero_add, ← hrun fuel hfuel, Option.map_map, Option.map_map]
    rfl
  · -- the pass from the next byte on has the same end
    have hprinted := hrun (fuel + 1) (Nat.lt_succ_of_lt hfuel)
    obtain ⟨c, rest, rfl, hc, hlen⟩ := literalRun_pos hpos
    have hnext := @vprintfFrom_literal fmt fuel (it + 1) argl c rest
      ⟨htext c List.mem_cons_self, hc⟩ hrest
    have hend : it + (literalRun rest + 1 + 1) = it + 1 + (literalRun rest + 1) := by omega
    rw [hpass, hlen, hend, ← hprinted, hnext, Option.map_map, Option.map_map, Option.map_map]
    rfl

theorem vprintfFrom_pieces {fmt : CStr} {pieces : List Piece} {fuel it : Nat}
    (h : fmt.cells.drop it = pieces.flatMap Piece.spec ++ [0])
    (hfuel : (pieces.flatMap Piece.spec).length < fuel) :
    (vprintfFrom fmt fuel it (argsOf pieces)).map List.flatten = printedAll pieces := by
  induction pieces generalizing fuel it with
  | nil =>
      obtain ⟨fuel, rfl⟩ := Nat.exists_eq_add_of_le' (show 1 ≤ fuel by omega)
      have hread : fmt.cells[it]? = some 0 := CStr.getElem?_cells_add h 0
      rw [vprintfFrom, hread]
      rfl
  | cons p ps ih =>
      obtain ⟨fuel, rfl⟩ := Nat.exists_eq_add_of_le' (show 1 ≤ fuel by omega)
      rw [List.flatMap_cons, List.length_append] at hfuel
      rw [List.flatMap_cons, List.append_assoc] at h
      have hrest : fmt.cells.drop (it + p.spec.length) = ps.flatMap Piece.spec ++ [0] := by
        rw [← List.drop_drop, h, List.drop_left]
      by_cases hdir : p.spec[0]? = some 0x25
      · have hpos : 0 < p.spec.length := (List.getElem?_eq_some_iff.mp hdir).1
        have hlater := ih hrest (show _ < fuel by omega)
        exact (vprintfFrom_directive (argsOf ps) hdir h).trans (by rw [hlater]; rfl)
      · obtain ⟨b, hb, rfl⟩ : ∃ b, ∃ hb : b ≠ 0 ∧ b ≠ 0x25, p = .literal b hb := by
          cases p with
          | literal b hb => exact ⟨b, hb, rfl⟩
          | str | char | percent | iq | id | uq | ud | uz | hq | hd | hz => exact absurd rfl hdir
        have hlen : (Piece.literal b hb).spec.length = 1 := rfl
        have hnonzero : ∀ c ∈ ps.flatMap Piece.spec, c ≠ 0 := by
          intro c hc
          obtain ⟨q, -, hq⟩ := List.mem_flatMap.mp hc
          exact Piece.nonzero_of_mem_spec hq
        rw [hlen] at hfuel hrest
        have hjoined := @vprintfFrom_joins fmt fuel it _ b _ _ hb hnonzero h (by omega)
          fun n hn => ih hrest hn
        exact hjoined.trans (Option.map_eq_bind ..)

theorem ioVprintf_pieces (pieces : List Piece) :
    (ioVprintf (formatOf pieces) (argsOf pieces)).map List.flatten = printedAll pieces := by
  apply vprintfFrom_pieces
  · rfl
  · rw [CStr.cells, List.length_append]
    exact Nat.lt_of_le_of_lt (Nat.le_add_right _ _) (Nat.lt_succ_self _)

namespace Piece

theorem printed_of_fits {p : Piece} (h : p.Fits) : p.printed = some p.text := by
  cases p with
  | iq v => exact if_neg h
  | ud v | hd v =>
      have hmsb : v.msb = false := by
        rw [BitVec.msb_eq_false_iff_two_mul_lt]
        change v.toNat < 2 ^ 31 at h
        omega
      simp only [printed, text]
      rw [BitVec.signExtend_eq_setWidth_of_msb_false hmsb, BitVec.toNat_setWidth_of_le (by decide)]
  | literal | str | char | percent | id | uq | uz | hq | hz => rfl

/-- A negative fetch is beyond all 32-bit values. -/
theorem le_toNat_signExtend {v : U32} (h : ¬ v.toNat < 2 ^ 31) :
    2 ^ 63 ≤ (v.signExtend 64).toNat := by
  have hmsb : v.msb = true := by
    rw [BitVec.msb_eq_true_iff_two_mul_ge]
    omega
  have hlt := v.isLt
  rw [BitVec.toNat_signExtend, hmsb, BitVec.toNat_setWidth_of_le (by decide), if_pos rfl]
  omega

theorem length_map_numeral_lt {b : Nat} (hb : 1 < b) {k m n : Nat} (hk : 0 < k) (hm : m < b ^ k)
    (hn : b ^ k ≤ n) (char : Nat → U8) :
    ((numeral b m).map char).length < ((numeral b n).map char).length := by
  have hshort := (length_numeral_le_iff hb hk).mpr hm
  have hlong : ¬ (numeral b n).length ≤ k := fun hle =>
    Nat.not_lt.mpr hn ((length_numeral_le_iff hb hk).mp hle)
  rw [List.length_map, List.length_map]
  omega

/-- What is printed for an argument that does not fit is too long. -/
theorem length_text_lt {p : Piece} {out : Bytes} (h : ¬ p.Fits) (hout : p.printed = some out) :
    p.text.length < out.length := by
  cases p with
  | iq v => exact absurd (fun hv => Option.some_ne_none out (hout ▸ if_pos hv)) h
  | ud v =>
      rw [← Option.some.inj hout]
      exact length_map_numeral_lt (by decide) (k := 10) (by decide)
        (Nat.lt_trans v.isLt (by decide))
        (Nat.le_trans (by decide) (le_toNat_signExtend h)) decimalChar
  | hd v =>
      rw [← Option.some.inj hout]
      exact length_map_numeral_lt (by decide) (k := 8) (by decide) v.isLt
        (Nat.le_trans (by decide) (le_toNat_signExtend h)) hexChar
  | literal | str | char | percent | id | uq | uz | hq | hz => exact absurd trivial h

theorem length_text_le {p : Piece} {out : Bytes} (hout : p.printed = some out) :
    p.text.length ≤ out.length := by
  by_cases h : p.Fits
  · rw [printed_of_fits h] at hout
    rw [Option.some.inj hout]
  · exact Nat.le_of_lt (length_text_lt h hout)

end Piece

theorem printedAll_cons {p : Piece} {ps : List Piece} {out : Bytes}
    (h : printedAll (p :: ps) = some out) :
    ∃ first later, p.printed = some first ∧ printedAll ps = some later ∧ out = first ++ later := by
  obtain ⟨first, hfirst, h⟩ := Option.bind_eq_some_iff.mp h
  obtain ⟨later, hlater, h⟩ := Option.bind_eq_some_iff.mp h
  exact ⟨first, later, hfirst, hlater, (Option.some.inj h).symm⟩

theorem printedAll_of_fits {pieces : List Piece} (h : ∀ p ∈ pieces, p.Fits) :
    printedAll pieces = some (render pieces) := by
  induction pieces with
  | nil => rfl
  | cons p ps ih =>
      rw [printedAll, Piece.printed_of_fits (h p List.mem_cons_self),
        ih fun q hq => h q (List.mem_cons_of_mem p hq)]
      rfl

theorem length_render_le {pieces : List Piece} {out : Bytes} (hout : printedAll pieces = some out) :
    (render pieces).length ≤ out.length := by
  induction pieces generalizing out with
  | nil => exact Nat.zero_le _
  | cons p ps ih =>
      obtain ⟨first, later, hfirst, hlater, rfl⟩ := printedAll_cons hout
      simp only [render, List.flatMap_cons, List.length_append] at ih ⊢
      exact Nat.add_le_add (Piece.length_text_le hfirst) (ih hlater)

theorem length_render_lt {pieces : List Piece} {p : Piece} {out : Bytes} (hp : p ∈ pieces)
    (h : ¬ p.Fits) (hout : printedAll pieces = some out) :
    (render pieces).length < out.length := by
  induction pieces generalizing out with
  | nil => exact absurd hp List.not_mem_nil
  | cons q qs ih =>
      obtain ⟨first, later, hfirst, hlater, rfl⟩ := printedAll_cons hout
      have hle := length_render_le hlater
      simp only [render, List.flatMap_cons, List.length_append] at ih hle ⊢
      obtain rfl | hmem := List.mem_cons.mp hp
      · exact Nat.add_lt_add_of_lt_of_le (Piece.length_text_lt h hfirst) hle
      · exact Nat.add_lt_add_of_le_of_lt (Piece.length_text_le hfirst) (ih hmem hlater)

theorem vprintf_renders_iff (pieces : List Piece) :
    (∃ chunks, ioVprintf (formatOf pieces) (argsOf pieces) = some chunks ∧
      chunks.flatten = render pieces) ↔ ∀ p ∈ pieces, p.Fits := by
  have hprint := ioVprintf_pieces pieces
  constructor
  · rintro ⟨chunks, hchunks, heq⟩ p hp
    rw [hchunks, Option.map_some, heq] at hprint
    by_contra hfits
    exact Nat.lt_irrefl _ (length_render_lt hp hfits hprint.symm)
  · intro hall
    rw [printedAll_of_fits hall] at hprint
    exact Option.map_eq_some_iff.mp hprint

/-- `%ud` of 2147483648 prints 18446744071562067968. -/
theorem vprintf_ud_wrong :
    ¬ ∀ pieces : List Piece, ∃ chunks,
      ioVprintf (formatOf pieces) (argsOf pieces) = some chunks ∧
        chunks.flatten = render pieces := by
  intro h
  obtain ⟨chunks, hchunks, heq⟩ := h [.ud 0x80000000]
  have hrun : (ioVprintf (formatOf [.ud 0x80000000]) (argsOf [.ud 0x80000000])).map List.flatten =
      some (decimal 18446744071562067968) := by decide
  rw [hchunks, Option.map_some, heq] at hrun
  exact absurd hrun (by decide)

end DordOs
