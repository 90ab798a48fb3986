import DordOs.Libk.Printf

/-!
What `io_vprintf` reads of its format and gives of it to the callback, whatever the
arguments are. The cursor moves past each byte of a directive before it is known whether
that was the terminator, so a directive cut off at the end is read past it.
-/
namespace DordOs
open Lib

/-- Byte `i` is read, or the bytes from `start` up to `stop` are given to the callback. -/
inductive FmtUse
  | read (i : Nat)
  | pass (start stop : Nat)
  deriving DecidableEq

/-- The memory from the format on; any bytes stand behind its terminator. -/
def fmtMem (fmt : CStr) (behind : Nat → U8) (i : Nat) : U8 := fmt.cells.getD i (behind i)

/-- The inner `while` on literal text. -/
def literalUse (mem : Nat → U8) : Nat → Nat → Option (List FmtUse × Nat)
  | 0, _ => none
  | fuel + 1, it =>
      if mem it ≠ 0 ∧ mem it ≠ 0x25 then do
        let (uses, stop) ← literalUse mem fuel (it + 1)
        return (.read it :: uses, stop)
      else some ([.read it], it)

/-- The inner `switch` on the width. -/
def widthUse (mem : Nat → U8) (start it : Nat) : List FmtUse × Nat :=
  let width := mem it
  let it := it + 1
  if width = 0x71 ∨ width = 0x64 ∨ width = 0x7A then ([.read (it - 1)], it)
  else ([.read (it - 1), .pass start it], it)

/-- `'i'`, `'u'` and `'h'` are followed by a width. -/
def FmtWide (c : U8) : Prop := c = 0x69 ∨ c = 0x75 ∨ c = 0x68

instance (c : U8) : Decidable (FmtWide c) := inferInstanceAs (Decidable (_ ∨ _))

/-- The outer `switch`, after the `'%'` at `start`. -/
def directiveUse (mem : Nat → U8) (start it : Nat) : List FmtUse × Nat :=
  let c := mem it
  let it := it + 1
  if c = 0x73 ∨ c = 0x63 then ([.read (it - 1)], it)
  else if c = 0x25 then ([.read (it - 1), .pass (it - 1) it], it)
  else if FmtWide c then
    let (uses, stop) := widthUse mem start it
    (.read (it - 1) :: uses, stop)
  else ([.read (it - 1), .pass start it], it)

/-- The loop from position `it` on. -/
def vprintfUse (mem : Nat → U8) : Nat → Nat → Option (List FmtUse)
  | 0, _ => none
  | fuel + 1, it =>
      if mem it = 0 then some [.read it]
      else if mem it ≠ 0x25 then do
        let (uses, stop) ← literalUse mem (fuel + 1) it
        let later ← vprintfUse mem fuel stop
        return .read it :: uses ++ .pass it stop :: later
      else do
        let (uses, stop) := directiveUse mem it (it + 1)
        let later ← vprintfUse mem fuel stop
        return .read it :: uses ++ later

/-- Nothing behind the terminator at `n` is used. -/
def FmtUse.Inside (n : Nat) : FmtUse → Prop
  | .read i => i ≤ n
  | .pass _ stop => stop ≤ n + 1

/-- The function ends and stays in front of what follows the terminator. -/
def VprintfInside (fmt : CStr) (behind : Nat → U8) : Prop :=
  ∃ fuel uses, vprintfUse (fmtMem fmt behind) fuel 0 = some uses ∧
    ∀ u ∈ uses, u.Inside fmt.bytes.length

/-- A format of literal bytes and of directives none of which is cut off. -/
inductive FmtWhole : Bytes → Prop
  | nil : FmtWhole []
  | literal {b : U8} {l : Bytes} (hb : b ≠ 0x25) : FmtWhole l → FmtWhole (b :: l)
  | short {c : U8} {l : Bytes} (hc : ¬ FmtWide c) : FmtWhole l → FmtWhole (0x25 :: c :: l)
  | wide {c d : U8} {l : Bytes} (hc : FmtWide c) : FmtWhole l → FmtWhole (0x25 :: c :: d :: l)

/-- The bytes before the terminator, from position `it` on. -/
structure FmtAt (fmt : CStr) (it : Nat) (l : Bytes) : Prop where
  rest : fmt.bytes.drop it = l
  room : it + l.length = fmt.bytes.length

section Whole

variable {b c d : U8} {l : Bytes}

theorem fmtWhole_literal (hb : b ≠ 0x25) : FmtWhole (b :: l) ↔ FmtWhole l := by
  constructor
  · intro h
    cases h with
    | literal _ h => exact h
    | short | wide => exact absurd rfl hb
  · exact .literal hb

theorem fmtWhole_short (hc : ¬ FmtWide c) : FmtWhole (0x25 :: c :: l) ↔ FmtWhole l := by
  constructor
  · intro h
    cases h with
    | literal hb => exact absurd rfl hb
    | short _ h => exact h
    | wide h => exact absurd h hc
  · exact .short hc

theorem fmtWhole_wide (hc : FmtWide c) : FmtWhole (0x25 :: c :: d :: l) ↔ FmtWhole l := by
  constructor
  · intro h
    cases h with
    | literal hb => exact absurd rfl hb
    | short h => exact absurd hc h
    | wide _ h => exact h
  · exact .wide hc

theorem not_fmtWhole_percent : ¬ FmtWhole [0x25] := by
  intro h
  cases h with
  | literal hb => exact absurd rfl hb

theorem not_fmtWhole_width (hc : FmtWide c) : ¬ FmtWhole [0x25, c] := by
  intro h
  cases h with
  | literal hb => exact absurd rfl hb
  | short h => exact absurd hc h

end Whole

section At

variable {fmt : CStr} {behind : Nat → U8} {it : Nat} {b : U8} {l : Bytes}

theorem FmtAt.le (h : FmtAt fmt it l) : it ≤ fmt.bytes.length := by
  rw [← h.room]
  exact Nat.le_add_right _ _

theorem FmtAt.cells (h : FmtAt fmt it l) : fmt.cells.drop it = l ++ [0] := by
  rw [CStr.cells, List.drop_append_of_le_length h.le, h.rest]

theorem FmtAt.mem_head (h : FmtAt fmt it (b :: l)) : fmtMem fmt behind it = b := by
  have hread := CStr.getElem?_cells_add h.cells 0
  rw [fmtMem, List.getD_eq_getElem?_getD, ← Nat.add_zero it, hread]
  rfl

theorem FmtAt.mem_end (h : FmtAt fmt it []) : fmtMem fmt behind it = 0 := by
  have hread := CStr.getElem?_cells_add h.cells 0
  rw [fmtMem, List.getD_eq_getElem?_getD, ← Nat.add_zero it, hread]
  rfl

theorem FmtAt.tail (h : FmtAt fmt it (b :: l)) : FmtAt fmt (it + 1) l := by
  constructor
  · rw [← List.drop_drop, h.rest]
    rfl
  · rw [← h.room, List.length_cons]
    omega

theorem FmtAt.nonzero (h : FmtAt fmt it (b :: l)) : b ≠ 0 :=
  fmt.nonzero b (List.mem_of_mem_drop (h.rest ▸ List.mem_cons_self))

theorem fmtWhole_run (l : Bytes) : FmtWhole (l.drop (literalRun l)) ↔ FmtWhole l := by
  induction l with
  | nil => exact Iff.rfl
  | cons b l ih =>
      rw [literalRun]
      split
      · exact Iff.rfl
      · rename_i hb
        rw [List.drop_succ_cons, ih, fmtWhole_literal hb]

theorem FmtAt.run (h : FmtAt fmt it l) : FmtAt fmt (it + literalRun l) (l.drop (literalRun l)) := by
  induction l generalizing it with
  | nil => exact h
  | cons b l ih =>
      rw [literalRun]
      split
      · exact h
      · rw [List.drop_succ_cons, Nat.add_comm (literalRun l), ← Nat.add_assoc]
        exact ih h.tail

theorem literalUse_spec {fuel stop : Nat} {uses : List FmtUse} (hat : FmtAt fmt it l)
    (h : literalUse (fmtMem fmt behind) fuel it = some (uses, stop)) :
    stop = it + literalRun l ∧ ∀ u ∈ uses, u.Inside fmt.bytes.length := by
  induction fuel generalizing it l uses with
  | zero => exact nomatch h
  | succ fuel ih =>
      have hhere : (FmtUse.read it).Inside fmt.bytes.length := hat.le
      rw [literalUse] at h
      split at h
      · rename_i hliteral
        obtain ⟨⟨later, stop'⟩, hlater, hsome⟩ := Option.bind_eq_some_iff.mp h
        cases hsome
        cases l with
        | nil => exact absurd hat.mem_end hliteral.1
        | cons b l =>
            rw [hat.mem_head] at hliteral
            obtain ⟨hstop, hinside⟩ := ih hat.tail hlater
            constructor
            · rw [hstop, literalRun, if_neg hliteral.2]
              omega
            · exact List.forall_mem_cons.mpr ⟨hhere, hinside⟩
      · rename_i hstop
        cases h
        refine ⟨?_, List.forall_mem_singleton.mpr hhere⟩
        cases l with
        | nil => rfl
        | cons b l =>
            rw [hat.mem_head, not_and_not_right] at hstop
            rw [literalRun, if_pos (hstop hat.nonzero)]
            rfl

theorem literalUse_some {fuel : Nat} (hat : FmtAt fmt it l) (hfuel : l.length < fuel) :
    ∃ uses stop, literalUse (fmtMem fmt behind) fuel it = some (uses, stop) := by
  induction fuel generalizing it l with
  | zero => exact absurd hfuel (Nat.not_lt_zero _)
  | succ fuel ih =>
      rw [literalUse]
      split
      · rename_i hliteral
        cases l with
        | nil => exact absurd hat.mem_end hliteral.1
        | cons b l =>
            obtain ⟨uses, stop, hlater⟩ := ih hat.tail (Nat.lt_of_succ_lt_succ hfuel)
            exact ⟨_, _, by rw [hlater]; rfl⟩
      · exact ⟨_, _, rfl⟩

theorem widthUse_next (mem : Nat → U8) (start it : Nat) : (widthUse mem start it).2 = it + 1 := by
  rw [widthUse]
  split <;> rfl

/-- The width is the terminator, or it is a byte of the format. -/
theorem widthUse_inside {start : Nat} (hat : FmtAt fmt it l) :
    ∀ u ∈ (widthUse (fmtMem fmt behind) start it).1, u.Inside fmt.bytes.length := by
  have hread : (FmtUse.read it).Inside fmt.bytes.length := hat.le
  have hpass : (FmtUse.pass start (it + 1)).Inside fmt.bytes.length := Nat.succ_le_succ hat.le
  rw [widthUse]
  split
  · exact List.forall_mem_singleton.mpr hread
  · exact List.forall_mem_cons.mpr ⟨hread, List.forall_mem_singleton.mpr hpass⟩

theorem directiveUse_short (hat : FmtAt fmt (it + 1) l)
    (hshort : ¬ FmtWide (fmtMem fmt behind (it + 1))) :
    (directiveUse (fmtMem fmt behind) it (it + 1)).2 = it + 1 + 1 ∧
      ∀ u ∈ (directiveUse (fmtMem fmt behind) it (it + 1)).1, u.Inside fmt.bytes.length := by
  have hread : (FmtUse.read (it + 1)).Inside fmt.bytes.length := hat.le
  have hpass (start : Nat) : (FmtUse.pass start (it + 1 + 1)).Inside fmt.bytes.length :=
    Nat.succ_le_succ hat.le
  rw [directiveUse]
  dsimp only
  split
  · exact ⟨rfl, List.forall_mem_singleton.mpr hread⟩
  · split
    · exact ⟨rfl, List.forall_mem_cons.mpr ⟨hread, List.forall_mem_singleton.mpr (hpass _)⟩⟩
    · exact ⟨rfl, List.forall_mem_cons.mpr ⟨hread, List.forall_mem_singleton.mpr (hpass _)⟩⟩

theorem directiveUse_wide {c : U8} (hat : FmtAt fmt (it + 1) (c :: l)) (hwide : FmtWide c) :
    directiveUse (fmtMem fmt behind) it (it + 1) =
      (.read (it + 1) :: (widthUse (fmtMem fmt behind) it (it + 1 + 1)).1,
        (widthUse (fmtMem fmt behind) it (it + 1 + 1)).2) := by
  have hs : ¬ (c = 0x73 ∨ c = 0x63) := by
    rintro (rfl | rfl) <;> exact absurd hwide (by decide)
  have hpercent : c ≠ 0x25 := by
    rintro rfl
    exact absurd hwide (by decide)
  rw [directiveUse, hat.mem_head, if_neg hs, if_neg hpercent, if_pos hwide]
  rfl

/-- What is left of a format after a directive, or that it was cut off. -/
theorem directiveUse_spec (hat : FmtAt fmt it (0x25 :: l)) {use : List FmtUse × Nat}
    (h : use = directiveUse (fmtMem fmt behind) it (it + 1)) :
    (∀ u ∈ use.1, u.Inside fmt.bytes.length) ∧
      ((∃ l', FmtAt fmt use.2 l' ∧ l'.length < l.length ∧
          (FmtWhole (0x25 :: l) ↔ FmtWhole l')) ∨
        use.2 = fmt.bytes.length + 1 ∧ ¬ FmtWhole (0x25 :: l)) := by
  subst h
  have htail := hat.tail
  cases l with
  | nil =>
      have hend : it + 1 = fmt.bytes.length := htail.room
      have hshort : ¬ FmtWide (fmtMem fmt behind (it + 1)) := by
        rw [htail.mem_end]
        decide
      obtain ⟨hstop, hinside⟩ := directiveUse_short htail hshort
      exact ⟨hinside, .inr ⟨by rw [hstop, hend], not_fmtWhole_percent⟩⟩
  | cons c l =>
      by_cases hwide : FmtWide c
      · rw [directiveUse_wide htail hwide, widthUse_next]
        refine ⟨List.forall_mem_cons.mpr ⟨htail.le, widthUse_inside htail.tail⟩, ?_⟩
        cases l with
        | nil =>
            have hend : it + 1 + 1 = fmt.bytes.length := htail.tail.room
            exact .inr ⟨congrArg Nat.succ hend, not_fmtWhole_width hwide⟩
        | cons d l =>
            refine .inl ⟨l, htail.tail.tail, ?_, fmtWhole_wide hwide⟩
            simp only [List.length_cons]
            omega
      · have hshort : ¬ FmtWide (fmtMem fmt behind (it + 1)) := by
          rw [htail.mem_head]
          exact hwide
        obtain ⟨hstop, hinside⟩ := directiveUse_short htail hshort
        rw [hstop]
        exact ⟨hinside, .inl ⟨l, htail.tail, Nat.lt_succ_self _, fmtWhole_short hwide⟩⟩

/-- Every pass begins by reading where it is. -/
theorem vprintfUse_read {mem : Nat → U8} {fuel : Nat} {uses : List FmtUse}
    (h : vprintfUse mem fuel it = some uses) : FmtUse.read it ∈ uses := by
  cases fuel with
  | zero => exact nomatch h
  | succ fuel =>
      rw [vprintfUse] at h
      split at h
      · cases h
        exact List.mem_singleton_self _
      · split at h
        · obtain ⟨⟨first, stop⟩, -, h⟩ := Option.bind_eq_some_iff.mp h
          obtain ⟨later, -, h⟩ := Option.bind_eq_some_iff.mp h
          cases h
          exact List.mem_append_left _ List.mem_cons_self
        · obtain ⟨later, -, h⟩ := Option.bind_eq_some_iff.mp h
          cases h
          exact List.mem_append_left _ List.mem_cons_self

theorem vprintfUse_literal {fuel stop : Nat} {first later : List FmtUse}
    (hat : FmtAt fmt it (b :: l)) (hb : b ≠ 0x25)
    (hfirst : literalUse (fmtMem fmt behind) (fuel + 1) it = some (first, stop))
    (hlater : vprintfUse (fmtMem fmt behind) fuel stop = some later) :
    vprintfUse (fmtMem fmt behind) (fuel + 1) it =
      some (.read it :: first ++ .pass it stop :: later) := by
  rw [vprintfUse, hat.mem_head, if_neg hat.nonzero, if_pos hb, hfirst]
  simp only [Option.bind_eq_bind, Option.bind_some, hlater]
  rfl

theorem vprintfUse_directive {fuel : Nat} {later : List FmtUse} (hat : FmtAt fmt it (0x25 :: l))
    {use : List FmtUse × Nat} (huse : use = directiveUse (fmtMem fmt behind) it (it + 1))
    (hlater : vprintfUse (fmtMem fmt behind) fuel use.2 = some later) :
    vprintfUse (fmtMem fmt behind) (fuel + 1) it = some (.read it :: use.1 ++ later) := by
  subst huse
  rw [vprintfUse, hat.mem_head, if_neg (by decide), if_neg (not_not.mpr rfl)]
  dsimp only
  rw [hlater]
  rfl

theorem vprintfUse_whole {fuel : Nat} {uses : List FmtUse} (hat : FmtAt fmt it l)
    (h : vprintfUse (fmtMem fmt behind) fuel it = some uses)
    (inside : ∀ u ∈ uses, u.Inside fmt.bytes.length) : FmtWhole l := by
  induction fuel generalizing it l uses with
  | zero => exact nomatch h
  | succ fuel ih =>
      cases l with
      | nil => exact .nil
      | cons b l =>
          rw [vprintfUse, hat.mem_head, if_neg hat.nonzero] at h
          split at h
          · obtain ⟨⟨first, stop⟩, hfirst, h⟩ := Option.bind_eq_some_iff.mp h
            obtain ⟨later, hlater, h⟩ := Option.bind_eq_some_iff.mp h
            cases h
            obtain ⟨rfl, -⟩ := literalUse_spec hat hfirst
            rw [← fmtWhole_run]
            exact ih hat.run hlater fun u hu =>
              inside u (List.mem_append_right _ (List.mem_cons_of_mem _ hu))
          · rename_i hpercent
            obtain rfl := not_not.mp hpercent
            obtain ⟨use, huse⟩ : ∃ use, use = directiveUse (fmtMem fmt behind) it (it + 1) :=
              ⟨_, rfl⟩
            rw [← huse] at h
            obtain ⟨later, hlater, h⟩ := Option.bind_eq_some_iff.mp h
            cases h
            have hin : ∀ u ∈ later, u.Inside fmt.bytes.length := fun u hu =>
              inside u (List.mem_append_right _ hu)
            obtain ⟨-, ⟨l', hat', -, hwhole⟩ | ⟨hstop, -⟩⟩ := directiveUse_spec hat huse
            · exact hwhole.mpr (ih hat' hlater hin)
            · have hread : use.2 ≤ fmt.bytes.length := hin _ (vprintfUse_read hlater)
              omega

theorem vprintfUse_inside {fuel : Nat} (hat : FmtAt fmt it l) (whole : FmtWhole l)
    (hfuel : l.length < fuel) :
    ∃ uses, vprintfUse (fmtMem fmt behind) fuel it = some uses ∧
      ∀ u ∈ uses, u.Inside fmt.bytes.length := by
  induction fuel generalizing it l with
  | zero => exact absurd hfuel (Nat.not_lt_zero _)
  | succ fuel ih =>
      have hhere : (FmtUse.read it).Inside fmt.bytes.length := hat.le
      cases l with
      | nil =>
          rw [vprintfUse, if_pos hat.mem_end]
          exact ⟨_, rfl, List.forall_mem_singleton.mpr hhere⟩
      | cons b l =>
          by_cases hb : b ≠ 0x25
          · obtain ⟨first, stop, hfirst⟩ := literalUse_some hat hfuel
            obtain ⟨rfl, hin⟩ := literalUse_spec hat hfirst
            have hrun : ((b :: l).drop (literalRun (b :: l))).length < fuel := by
              rw [literalRun, if_neg hb, List.drop_succ_cons, List.length_drop]
              exact Nat.lt_of_le_of_lt (Nat.sub_le _ _) (Nat.lt_of_succ_lt_succ hfuel)
            obtain ⟨later, hlater, hinlater⟩ := ih hat.run ((fmtWhole_run _).mpr whole) hrun
            refine ⟨_, vprintfUse_literal hat hb hfirst hlater, ?_⟩
            rw [List.cons_append, List.forall_mem_cons, List.forall_mem_append,
              List.forall_mem_cons]
            exact ⟨hhere, hin, Nat.le_succ_of_le hat.run.le, hinlater⟩
          · obtain rfl := not_not.mp hb
            obtain ⟨use, huse⟩ : ∃ use, use = directiveUse (fmtMem fmt behind) it (it + 1) :=
              ⟨_, rfl⟩
            obtain ⟨hin, ⟨l', hat', hlen, hwhole⟩ | ⟨-, hcut⟩⟩ := directiveUse_spec hat huse
            · obtain ⟨later, hlater, hinlater⟩ := ih hat' (hwhole.mp whole)
                (hlen.trans (Nat.lt_of_succ_lt_succ hfuel))
              refine ⟨_, vprintfUse_directive hat huse hlater, ?_⟩
              rw [List.cons_append, List.forall_mem_cons, List.forall_mem_append]
              exact ⟨hhere, hin, hinlater⟩
            · exact absurd whole hcut

theorem printWidth_next {start : Nat} {argl : List VaArg} {print : I64 → Option (List Bytes × Usz)}
    {r : Printed} (h : printWidth fmt start it argl print = some r) : r.2.1 = it + 1 := by
  obtain ⟨width, -, h⟩ := Option.bind_eq_some_iff.mp h
  dsimp only at h
  split_ifs at h
  case neg =>
      cases h
      rfl
  all_goals
    split at h
    · obtain ⟨_, -, h⟩ := Option.bind_eq_some_iff.mp h
      cases h
      rfl
    · exact nomatch h

/-- The printing directive moves the cursor like the one that is only looked at. -/
theorem printDirective_next {start : Nat} {argl : List VaArg} {r : Printed}
    (h : printDirective fmt start it argl = some r) :
    r.2.1 = (directiveUse (fmtMem fmt behind) start it).2 := by
  obtain ⟨c, hread, h⟩ := Option.bind_eq_some_iff.mp h
  have hmem : fmtMem fmt behind it = c := by
    rw [fmtMem, List.getD_eq_getElem?_getD, hread, Option.getD_some]
  rw [directiveUse, hmem]
  dsimp only at h ⊢
  split_ifs at h with hs hc hpercent hi hu hh
  · split at h
    · cases h
      rw [if_pos (.inl hs)]
    · exact nomatch h
  · split at h
    · cases h
      rw [if_pos (.inr hc)]
    · exact nomatch h
  · cases h
    rw [if_neg (not_or.mpr ⟨hs, hc⟩), if_pos hpercent]
  · rw [if_neg (not_or.mpr ⟨hs, hc⟩), if_neg hpercent, if_pos (show FmtWide c from .inl hi),
      printWidth_next h]
    exact (widthUse_next _ _ _).symm
  · rw [if_neg (not_or.mpr ⟨hs, hc⟩), if_neg hpercent,
      if_pos (show FmtWide c from .inr (.inl hu)), printWidth_next h]
    exact (widthUse_next _ _ _).symm
  · rw [if_neg (not_or.mpr ⟨hs, hc⟩), if_neg hpercent,
      if_pos (show FmtWide c from .inr (.inr hh)), printWidth_next h]
    exact (widthUse_next _ _ _).symm
  · cases h
    rw [if_neg (not_or.mpr ⟨hs, hc⟩), if_neg hpercent,
      if_neg (show ¬ FmtWide c from not_or.mpr ⟨hi, not_or.mpr ⟨hu, hh⟩⟩)]

theorem vprintfFrom_behind {fuel : Nat} (argl : List VaArg) {chunks : List Bytes} :
    vprintfFrom fmt fuel (fmt.bytes.length + 1) argl ≠ some chunks := by
  intro h
  cases fuel with
  | zero => exact nomatch h
  | succ fuel =>
      obtain ⟨c, hread, -⟩ := Option.bind_eq_some_iff.mp h
      have hlt := (List.getElem?_eq_some_iff.mp hread).1
      rw [CStr.cells, List.length_append, List.length_singleton] at hlt
      exact Nat.lt_irrefl _ hlt

theorem vprintfFrom_whole {fuel : Nat} {argl : List VaArg} {chunks : List Bytes}
    (hat : FmtAt fmt it l) (h : vprintfFrom fmt fuel it argl = some chunks) : FmtWhole l := by
  induction fuel generalizing it l argl chunks with
  | zero => exact nomatch h
  | succ fuel ih =>
      obtain ⟨c, hread, h⟩ := Option.bind_eq_some_iff.mp h
      cases l with
      | nil => exact .nil
      | cons b l =>
          obtain rfl : b = c := Option.some.inj
            ((CStr.getElem?_cells_add hat.cells 0).symm.trans hread)
          rw [if_neg hat.nonzero] at h
          split at h
          · obtain ⟨later, hlater, -⟩ := Option.bind_eq_some_iff.mp h
            rw [hat.rest] at hlater
            exact (fmtWhole_run _).mp (ih hat.run hlater)
          · rename_i hpercent
            obtain rfl := not_not.mp hpercent
            obtain ⟨r, hr, h⟩ := Option.bind_eq_some_iff.mp h
            obtain ⟨later, hlater, -⟩ := Option.bind_eq_some_iff.mp h
            have hnext := @printDirective_next fmt (fun _ => 0) _ _ _ _ hr
            obtain ⟨-, ⟨l', hat', -, hwhole⟩ | ⟨hstop, -⟩⟩ :=
              @directiveUse_spec fmt (fun _ => 0) it l hat _ rfl
            · exact hwhole.mpr (ih (hnext ▸ hat') hlater)
            · rw [hnext, hstop] at hlater
              exact absurd hlater (vprintfFrom_behind _)

end At

/-- Nothing behind the terminator is used iff no directive is cut off by it. -/
theorem vprintf_inside_iff (fmt : CStr) (behind : Nat → U8) :
    VprintfInside fmt behind ↔ FmtWhole fmt.bytes := by
  have hat : FmtAt fmt 0 fmt.bytes := ⟨rfl, Nat.zero_add _⟩
  constructor
  · rintro ⟨fuel, uses, hrun, inside⟩
    exact vprintfUse_whole hat hrun inside
  · intro whole
    exact ⟨_, vprintfUse_inside hat whole (Nat.lt_succ_self _)⟩

/-- Chunks come out of a whole format only. -/
theorem ioVprintf_whole {fmt : CStr} {argl : List VaArg} {chunks : List Bytes}
    (h : ioVprintf fmt argl = some chunks) : FmtWhole fmt.bytes :=
  vprintfFrom_whole ⟨rfl, Nat.zero_add _⟩ h

/-- A lone `'%'`. -/
theorem vprintf_percent : ¬ ∀ fmt behind, VprintfInside fmt behind := by
  intro claim
  obtain ⟨fuel, uses, hrun, inside⟩ := claim ⟨[0x25], by decide⟩ fun _ => 0
  exact not_fmtWhole_percent (vprintfUse_whole ⟨rfl, rfl⟩ hrun inside)

end DordOs
