import DordOs.Drivers.Keymap
import DordOs.Lib.Loop
import Mathlib.Data.List.Infix
import Mathlib.Logic.Function.Basic

/-!
The keyboard interrupt: bytes are collected until one that is no prefix completes a
code. Both shift keys set and clear the same flag, so it follows the keys held as long
as no shift key comes up under the other one; nothing but a complete code empties the
buffer.
-/
namespace DordOs
open Lib

structure KbState where
  scanBuf : Vector U8 16
  scanLen : Usz
  shiftPressed : Bool

def KbPrefix (scanCode : U8) : Prop := scanCode = 0xF0 ∨ scanCode = 0xE0 ∨ scanCode = 0xE1

instance (scanCode : U8) : Decidable (KbPrefix scanCode) := inferInstanceAs (Decidable (_ ∨ _))

/-- What is printed of the key `c`. -/
def kbPrint (press : Bool) (c : U32) : List U8 :=
  if c ≠ 0 ∧ press ∧ c < 256 then [c.setWidth 8] else []

/-- The bytes collected make up a code. -/
def kbDecode (scanBuf : Vector U8 16) (shiftPressed : Bool) : Bool × List U8 :=
  let it : Fin 2 := if scanBuf[(0 : Fin 16)] = 0xE0 then 1 else 0
  let keymap := if scanBuf[(0 : Fin 16)] = 0xE0 then kbKeymap2 else kbKeymap1
  let press := decide (scanBuf[it.val] ≠ 0xF0)
  let it : Fin 3 := if press then it.castSucc else it.succ
  let c := (keymap scanBuf[it.val]).column shiftPressed
  (if isShiftKey c then press else shiftPressed, kbPrint press c)

/-- One interrupt, with the characters it prints; a write outside `scan_buf` is `none`. -/
def kbHandleInterrupt (scanCode : U8) (s : KbState) : Option (KbState × List U8) :=
  if h : s.scanLen.toNat < 16 then
    let scanBuf := s.scanBuf.set s.scanLen.toNat scanCode h
    if KbPrefix scanCode then some ({ s with scanBuf, scanLen := s.scanLen + 1 }, [])
    else
      let (shiftPressed, printed) := kbDecode scanBuf s.shiftPressed
      some (⟨scanBuf, 0, shiftPressed⟩, printed)
  else none

/-- One interrupt for each byte. -/
def kbFeed : List U8 → KbState → Option (KbState × List U8)
  | [], s => some (s, [])
  | scanCode :: later, s => do
      let (s, printed) ← kbHandleInterrupt scanCode s
      let (s, printed') ← kbFeed later s
      return (s, printed ++ printed')

def kbBoot : KbState := ⟨Vector.replicate 16 0, 0, false⟩

/-- A key by its scan code, and whether that stands behind 0xE0. -/
abbrev KbKey := Bool × U8

def kbLshift : KbKey := (false, 0x12)
def kbRshift : KbKey := (false, 0x59)

/-- A complete code. -/
structure KbCode where
  extended : Bool
  make : Bool
  code : U8
  complete : ¬ KbPrefix code

namespace KbCode

def key (c : KbCode) : KbKey := (c.extended, c.code)

def prefixes (c : KbCode) : List U8 :=
  (if c.extended then [0xE0] else []) ++ if c.make then [] else [0xF0]

def bytes (c : KbCode) : List U8 := c.prefixes ++ [c.code]

/-- What the code is to print while a shift key is held or not. -/
def shown (c : KbCode) (shift : Bool) : List U8 :=
  kbPrint c.make (((if c.extended then kbKeymap2 else kbKeymap1) c.code).column shift)

end KbCode

/-- Made and not yet broken. -/
def kbHeld (codes : List KbCode) : KbKey → Bool :=
  codes.foldl (fun held c => Function.update held c.key c.make) fun _ => false

def kbShiftHeld (codes : List KbCode) : Bool := kbHeld codes kbLshift || kbHeld codes kbRshift

def kbRun (codes : List KbCode) : Option (KbState × List U8) :=
  kbFeed (codes.flatMap KbCode.bytes) kbBoot

/-- After each code the flag tells whether a shift key is held, and each code prints the
character of that column. -/
structure KbFollows (codes : List KbCode) : Prop where
  shift : ∀ before, before <+: codes →
    ∃ s printed, kbRun before = some (s, printed) ∧ s.shiftPressed = kbShiftHeld before
  shown : ∀ before c, before ++ [c] <+: codes →
    ∃ s s' printed, kbRun before = some (s, printed) ∧
      kbRun (before ++ [c]) = some (s', printed ++ c.shown (kbShiftHeld before))

/-- A shift key comes up only while the other one is not held. -/
def KbCode.LastShift (c : KbCode) (held : KbKey → Bool) : Prop :=
  c.make = false → (c.key = kbLshift → held kbRshift = false) ∧
    (c.key = kbRshift → held kbLshift = false)

/-- Between calls there is room for a byte, and every byte went into the buffer. -/
def KbInside (bytes : List U8) : Prop :=
  ∀ before, before <+: bytes →
    ∃ s printed, kbFeed before kbBoot = some (s, printed) ∧ s.scanLen.toNat < 16

/-- Sixteen prefix bytes come in a row. -/
def KbPrefixRow (bytes : List U8) : Prop :=
  ∃ row, row <:+: bytes ∧ row.length = 16 ∧ ∀ b ∈ row, KbPrefix b

/-- The buffer holds the prefix bytes at the end of `bytes`. -/
structure KbTail (bytes : List U8) (s : KbState) : Prop where
  room : s.scanLen.toNat < 16
  row : ∃ row, row <:+ bytes ∧ row.length = s.scanLen.toNat ∧ ∀ b ∈ row, KbPrefix b

section Codes

variable {s s' : KbState} {bytes bytes' printed printed' : List U8} {c : KbCode}
  {codes : List KbCode}

theorem kbFeed_cons {b : U8} (h : kbHandleInterrupt b s = some (s', printed)) :
    kbFeed (b :: bytes) s = (kbFeed bytes s').map fun r => (r.1, printed ++ r.2) := by
  simp only [kbFeed, h, Option.bind_eq_bind, Option.bind_some]
  cases kbFeed bytes s' <;> rfl

theorem kbFeed_append (h : kbFeed bytes s = some (s', printed)) :
    kbFeed (bytes ++ bytes') s = (kbFeed bytes' s').map fun r => (r.1, printed ++ r.2) := by
  induction bytes generalizing s printed with
  | nil =>
      cases h
      simp
  | cons b bytes ih =>
      obtain ⟨⟨u, first⟩, hfirst, -⟩ := Option.bind_eq_some_iff.mp h
      rw [kbFeed_cons hfirst] at h
      obtain ⟨⟨v, rest⟩, hfeed, hpair⟩ := Option.map_eq_some_iff.mp h
      cases hpair
      rw [List.cons_append, kbFeed_cons hfirst, ih hfeed]
      cases kbFeed bytes' v <;> simp

/-- The bytes of the code so far. -/
def KbState.collected (s : KbState) : List U8 := s.scanBuf.toList.take s.scanLen.toNat

theorem take_set_succ {l : List U8} {i : Nat} (hi : i < l.length) (b : U8) :
    (l.set i b).take (i + 1) = l.take i ++ [b] := by
  rw [List.take_succ_eq_append_getElem (by rw [List.length_set]; exact hi), List.take_set,
    List.set_eq_of_length_le (List.length_take_le i l), List.getElem_set_self]

theorem collected_set (hlen : s.scanLen.toNat < 16) (b : U8) :
    (s.scanBuf.set s.scanLen.toNat b hlen).toList.take (s.scanLen.toNat + 1) =
      s.collected ++ [b] := by
  rw [Vector.toList_set, take_set_succ (by rw [Vector.length_toList]; exact hlen)]
  rfl

theorem not_prefix {b : U8} (h : ¬ KbPrefix b) : b ≠ 0xF0 ∧ b ≠ 0xE0 :=
  ⟨fun heq => h (Or.inl heq), fun heq => h (Or.inr (Or.inl heq))⟩

theorem isShiftKey_column (c : KbCode) (shift : Bool) :
    isShiftKey (((if c.extended then kbKeymap2 else kbKeymap1) c.code).column shift) ↔
      c.key = kbLshift ∨ c.key = kbRshift := by
  obtain ⟨extended, make, code, complete⟩ := c
  cases extended with
  | false =>
      rw [if_neg Bool.false_ne_true, kbKeymap1_shift]
      simp [KbCode.key, kbLshift, kbRshift]
  | true =>
      rw [if_pos rfl]
      exact iff_of_false (kbKeymap2_shift code shift) (by simp [KbCode.key, kbLshift, kbRshift])

/-- A buffer that begins with the bytes of a code. -/
theorem kbDecode_code {scanBuf : Vector U8 16} (c : KbCode) (hbuf : c.bytes <+: scanBuf.toList)
    (shift : Bool) : kbDecode scanBuf shift =
      (if c.key = kbLshift ∨ c.key = kbRshift then c.make else shift, c.shown shift) := by
  have hshift := isShiftKey_column c shift
  have hcell (k : Nat) (b : U8) (hb : c.bytes[k]? = some b) : scanBuf[k]? = some b := by
    obtain ⟨rest, hrest⟩ := hbuf
    rw [← Vector.getElem?_toList, ← hrest,
      List.getElem?_append_left (List.getElem?_eq_some_iff.mp hb).1]
    exact hb
  obtain ⟨hbreak, hextended⟩ := not_prefix c.complete
  obtain ⟨extended, make, code, complete⟩ := c
  have h0 := hcell 0
  have h1 := hcell 1
  have h2 := hcell 2
  cases extended <;> cases make
  all_goals
    simp [KbCode.bytes, KbCode.prefixes] at h0 h1 h2 hshift hbreak hextended
    simp [kbDecode, KbCode.shown, *]

theorem kbHandle_prefix {b : U8} (hlen : s.scanLen.toNat < 16) (hb : KbPrefix b) :
    kbHandleInterrupt b s = some (⟨s.scanBuf.set s.scanLen.toNat b hlen, s.scanLen + 1,
      s.shiftPressed⟩, []) := by
  rw [kbHandleInterrupt, dif_pos hlen]
  exact if_pos hb

theorem kbHandle_complete {b : U8} (hlen : s.scanLen.toNat < 16) (hb : ¬ KbPrefix b) :
    kbHandleInterrupt b s = some (⟨s.scanBuf.set s.scanLen.toNat b hlen, 0,
        (kbDecode (s.scanBuf.set s.scanLen.toNat b hlen) s.shiftPressed).1⟩,
      (kbDecode (s.scanBuf.set s.scanLen.toNat b hlen) s.shiftPressed).2) := by
  rw [kbHandleInterrupt, dif_pos hlen]
  exact if_neg hb

theorem kbFeed_singleton (b : U8) (s : KbState) : kbFeed [b] s = kbHandleInterrupt b s := by
  simp only [kbFeed, Option.bind_eq_bind]
  cases kbHandleInterrupt b s <;> simp

/-- Prefix bytes are laid into the buffer one after the other. -/
theorem kbFeed_prefixes (h : ∀ b ∈ bytes, KbPrefix b)
    (hroom : s.scanLen.toNat + bytes.length ≤ 16) :
    ∃ s', kbFeed bytes s = some (s', []) ∧ s'.scanLen.toNat = s.scanLen.toNat + bytes.length ∧
      s'.shiftPressed = s.shiftPressed ∧ s'.collected = s.collected ++ bytes := by
  induction bytes generalizing s with
  | nil => exact ⟨s, rfl, rfl, rfl, (List.append_nil _).symm⟩
  | cons b bytes ih =>
      obtain ⟨hb, hrest⟩ := List.forall_mem_cons.mp h
      rw [List.length_cons] at hroom
      have hlen : s.scanLen.toNat < 16 := by omega
      have hsucc : (s.scanLen + 1).toNat = s.scanLen.toNat + 1 :=
        toNat_succ_of_lt (BitVec.lt_def.mpr (show s.scanLen.toNat < (16 : Usz).toNat from hlen))
      have hfirst := kbHandle_prefix hlen hb
      generalize hu : KbState.mk _ _ _ = u at hfirst
      have hlast : u.scanLen.toNat = s.scanLen.toNat + 1 := by rw [← hu, ← hsucc]
      have hcollected : u.collected = s.collected ++ [b] := by
        rw [KbState.collected, hlast, ← hu]
        exact collected_set hlen b
      obtain ⟨s', hfeed, hlen', hshift, hbuf⟩ := @ih u hrest (by omega)
      refine ⟨s', ?_, by rw [hlen', List.length_cons]; omega, by rw [hshift, ← hu], ?_⟩
      · rw [kbFeed_cons hfirst, hfeed]
        rfl
      · rw [hbuf, hcollected, List.append_assoc]
        rfl

theorem KbCode.mem_prefixes (c : KbCode) : ∀ b ∈ c.prefixes, KbPrefix b := by
  cases hextended : c.extended <;> cases hmake : c.make <;>
    simp [prefixes, hextended, hmake, KbPrefix]

theorem KbCode.length_prefixes (c : KbCode) : c.prefixes.length ≤ 2 := by
  cases hextended : c.extended <;> cases hmake : c.make <;> simp [prefixes, hextended, hmake]

theorem kbFeed_code (hlen : s.scanLen = 0) (c : KbCode) :
    ∃ s', kbFeed c.bytes s = some (s', c.shown s.shiftPressed) ∧ s'.scanLen = 0 ∧
      s'.shiftPressed =
        if c.key = kbLshift ∨ c.key = kbRshift then c.make else s.shiftPressed := by
  have hshort := c.length_prefixes
  have hzero : s.scanLen.toNat = 0 := by
    rw [hlen]
    rfl
  obtain ⟨u, hu, hulen, hushift, hucollected⟩ := kbFeed_prefixes (s := s) c.mem_prefixes (by omega)
  have hroom : u.scanLen.toNat < 16 := by omega
  have hempty : s.collected = [] := by
    rw [KbState.collected, hzero]
    rfl
  have hbuf : c.bytes <+: (u.scanBuf.set u.scanLen.toNat c.code hroom).toList := by
    rw [hempty, List.nil_append] at hucollected
    rw [KbCode.bytes, ← hucollected, ← collected_set hroom]
    exact List.take_prefix _ _
  have hcode := kbHandle_complete hroom c.complete
  rw [kbDecode_code c hbuf, hushift] at hcode
  have hfeed : kbFeed c.bytes s = some (⟨u.scanBuf.set u.scanLen.toNat c.code hroom, 0,
      if c.key = kbLshift ∨ c.key = kbRshift then c.make else s.shiftPressed⟩,
      c.shown s.shiftPressed) := by
    rw [KbCode.bytes, kbFeed_append hu, kbFeed_singleton, hcode]
    rfl
  exact ⟨_, hfeed, rfl, rfl⟩

theorem kbRun_concat (h : kbRun codes = some (s, printed)) (hlen : s.scanLen = 0) (c : KbCode) :
    ∃ s', kbRun (codes ++ [c]) = some (s', printed ++ c.shown s.shiftPressed) ∧ s'.scanLen = 0 ∧
      s'.shiftPressed =
        if c.key = kbLshift ∨ c.key = kbRshift then c.make else s.shiftPressed := by
  obtain ⟨s', hfeed, hlen', hshift⟩ := kbFeed_code hlen c
  refine ⟨s', ?_, hlen', hshift⟩
  rw [kbRun, List.flatMap_append, List.flatMap_singleton, kbFeed_append h, hfeed]
  rfl

/-- Complete codes leave the buffer empty. -/
theorem kbRun_some (codes : List KbCode) :
    ∃ s printed, kbRun codes = some (s, printed) ∧ s.scanLen = 0 := by
  induction codes using List.reverseRecOn with
  | nil => exact ⟨kbBoot, [], rfl, rfl⟩
  | append_singleton codes c ih =>
      obtain ⟨s, printed, hrun, hlen⟩ := ih
      obtain ⟨s', hrun', hlen', -⟩ := kbRun_concat hrun hlen c
      exact ⟨s', _, hrun', hlen'⟩

theorem kbHeld_concat (codes : List KbCode) (c : KbCode) :
    kbHeld (codes ++ [c]) = Function.update (kbHeld codes) c.key c.make := by
  rw [kbHeld, List.foldl_append]
  rfl

/-- What a code does to the keys held, and what the driver makes of it. -/
theorem kbShiftHeld_concat_iff (codes : List KbCode) (c : KbCode) :
    (if c.key = kbLshift ∨ c.key = kbRshift then c.make else kbShiftHeld codes) =
      kbShiftHeld (codes ++ [c]) ↔ c.LastShift (kbHeld codes) := by
  have hne : kbLshift ≠ kbRshift := by decide
  rw [kbShiftHeld, kbShiftHeld, kbHeld_concat]
  by_cases hleft : c.key = kbLshift
  · rw [if_pos (Or.inl hleft), hleft, Function.update_self, Function.update_of_ne hne.symm]
    cases hmake : c.make <;> simp [KbCode.LastShift, hmake, hleft, hne]
  · by_cases hright : c.key = kbRshift
    · rw [if_pos (Or.inr hright), hright, Function.update_self, Function.update_of_ne hne]
      cases hmake : c.make <;> simp [KbCode.LastShift, hmake, hright, hne.symm]
    · rw [if_neg (not_or.mpr ⟨hleft, hright⟩), Function.update_of_ne (Ne.symm hleft),
        Function.update_of_ne (Ne.symm hright)]
      simp [KbCode.LastShift, hleft, hright]

end Codes

/-- The flag follows the shift keys along a sequence of codes iff in no place a shift key
is broken while the other one is held. -/
theorem kb_shift_follows_iff (codes : List KbCode) :
    KbFollows codes ↔
      ∀ before c, before ++ [c] <+: codes → c.LastShift (kbHeld before) := by
  constructor
  · intro follows before c hcodes
    obtain ⟨s, printed, hrun, hlen⟩ := kbRun_some before
    obtain ⟨s', hrun', -, hshift'⟩ := kbRun_concat hrun hlen c
    obtain ⟨t, _, ht, hbefore⟩ := follows.shift before ((List.prefix_append _ _).trans hcodes)
    obtain ⟨t', _, ht', hafter⟩ := follows.shift (before ++ [c]) hcodes
    cases hrun.symm.trans ht
    cases hrun'.symm.trans ht'
    rw [hshift', hbefore] at hafter
    exact (kbShiftHeld_concat_iff before c).mp hafter
  · intro last
    have hshift (before : List KbCode) (hcodes : before <+: codes) :
        ∃ s printed, kbRun before = some (s, printed) ∧ s.scanLen = 0 ∧
          s.shiftPressed = kbShiftHeld before := by
      induction before using List.reverseRecOn with
      | nil => exact ⟨kbBoot, [], rfl, rfl, rfl⟩
      | append_singleton before c ih =>
          obtain ⟨s, printed, hrun, hlen, hheld⟩ := ih ((List.prefix_append _ _).trans hcodes)
          obtain ⟨s', hrun', hlen', hshift'⟩ := kbRun_concat hrun hlen c
          refine ⟨s', _, hrun', hlen', ?_⟩
          rw [hshift', hheld]
          exact (kbShiftHeld_concat_iff before c).mpr (last before c hcodes)
    constructor
    · intro before hcodes
      obtain ⟨s, printed, hrun, -, hheld⟩ := hshift before hcodes
      exact ⟨s, printed, hrun, hheld⟩
    · intro before c hcodes
      obtain ⟨s, printed, hrun, hlen, hheld⟩ :=
        hshift before ((List.prefix_append _ _).trans hcodes)
      obtain ⟨s', hrun', -⟩ := kbRun_concat hrun hlen c
      exact ⟨s, s', printed, hrun, hheld ▸ hrun'⟩

/-- Both shift keys are pressed and the right one is let go. -/
def bothShifts : List KbCode :=
  [⟨false, true, 0x12, by decide⟩, ⟨false, true, 0x59, by decide⟩, ⟨false, false, 0x59, by decide⟩]

theorem kb_shift_lost : ¬ ∀ codes, KbFollows codes := by
  intro claim
  obtain ⟨s, printed, hrun, hshift⟩ := (claim bothShifts).shift bothShifts (List.prefix_refl _)
  have hflag : (kbRun bothShifts).map (fun r => r.1.shiftPressed) = some false := by
    decide
  rw [hrun, Option.map_some, hshift] at hflag
  exact absurd hflag (by decide)

theorem KbTail.collect {before : List U8} {b : U8} (h : KbTail before s) (hb : KbPrefix b)
    (norow : ¬ KbPrefixRow (before ++ [b])) :
    ∃ s', kbHandleInterrupt b s = some (s', []) ∧ KbTail (before ++ [b]) s' := by
  obtain ⟨row, ⟨old, hold⟩, hlen, hrow⟩ := h.row
  have hroom := h.room
  have hsucc : (s.scanLen + 1).toNat = s.scanLen.toNat + 1 := toNat_succ_of_lt
    (BitVec.lt_def.mpr (show s.scanLen.toNat < (16 : Usz).toNat from hroom))
  have hlen' : (row ++ [b]).length = s.scanLen.toNat + 1 := by
    rw [List.length_append, List.length_singleton, hlen]
  have hsuffix : row ++ [b] <:+ before ++ [b] := ⟨old, by rw [← hold, List.append_assoc]⟩
  have hrow' : ∀ x ∈ row ++ [b], KbPrefix x := by
    intro x hx
    obtain hx | hx := List.mem_append.mp hx
    · exact hrow x hx
    · exact List.mem_singleton.mp hx ▸ hb
  have hshort : s.scanLen.toNat + 1 ≠ 16 := fun hfull =>
    norow ⟨row ++ [b], hsuffix.isInfix, hlen'.trans hfull, hrow'⟩
  refine ⟨_, kbHandle_prefix hroom hb, ⟨?_, row ++ [b], hsuffix, ?_, hrow'⟩⟩
  · dsimp only
    omega
  · rw [hlen']
    exact hsucc.symm

theorem KbTail.complete {before : List U8} {b : U8} (h : KbTail before s) (hb : ¬ KbPrefix b) :
    ∃ s' printed, kbHandleInterrupt b s = some (s', printed) ∧ KbTail (before ++ [b]) s' :=
  ⟨_, _, kbHandle_complete h.room hb,
    ⟨show (0 : Usz).toNat < 16 by decide, [], List.nil_suffix, rfl, List.forall_mem_nil _⟩⟩

theorem kbFeed_tail (bytes : List U8) (norow : ¬ KbPrefixRow bytes) :
    ∃ s printed, kbFeed bytes kbBoot = some (s, printed) ∧ KbTail bytes s := by
  induction bytes using List.reverseRecOn with
  | nil =>
      exact ⟨kbBoot, [], rfl, ⟨by decide, [], List.suffix_refl _, rfl, List.forall_mem_nil _⟩⟩
  | append_singleton before b ih =>
      obtain ⟨s, printed, hfeed, htail⟩ := ih fun ⟨row, hin, hrow⟩ =>
        norow ⟨row, hin.trans (List.prefix_append _ _).isInfix, hrow⟩
      obtain ⟨s', printed', hnext, htail'⟩ : ∃ s' printed',
          kbHandleInterrupt b s = some (s', printed') ∧ KbTail (before ++ [b]) s' := by
        by_cases hb : KbPrefix b
        · obtain ⟨s', hnext, htail'⟩ := htail.collect hb norow
          exact ⟨s', [], hnext, htail'⟩
        · exact htail.complete hb
      refine ⟨s', printed ++ printed', ?_, htail'⟩
      rw [kbFeed_append hfeed, kbFeed_singleton, hnext]
      rfl

/-- The buffer is never overrun iff no sixteen prefix bytes come in a row. -/
theorem kb_scan_buf_inside_iff (bytes : List U8) : KbInside bytes ↔ ¬ KbPrefixRow bytes := by
  constructor
  · rintro inside ⟨row, ⟨before, after, rfl⟩, hlen, hrow⟩
    obtain ⟨s, printed, hfeed, hroom⟩ := inside before ⟨row ++ after, by rw [List.append_assoc]⟩
    -- the prefixes that fill the buffer up
    have htake : (row.take (16 - s.scanLen.toNat)).length = 16 - s.scanLen.toNat := by
      rw [List.length_take, hlen]
      omega
    obtain ⟨u, hu, hulen, -⟩ := kbFeed_prefixes (s := s)
      (fun b hb => hrow b (List.mem_of_mem_take hb)) (by rw [htake]; omega)
    obtain ⟨v, _, hv, hfull⟩ := inside (before ++ row.take (16 - s.scanLen.toNat))
      ⟨row.drop (16 - s.scanLen.toNat) ++ after, by
        rw [List.append_assoc, ← List.append_assoc (row.take _), List.take_append_drop,
          List.append_assoc]⟩
    rw [kbFeed_append hfeed, hu] at hv
    cases hv
    dsimp only at hfull
    omega
  · intro norow before hbefore
    obtain ⟨s, printed, hfeed, htail⟩ := kbFeed_tail before fun ⟨row, hin, hrow⟩ =>
      norow ⟨row, hin.trans hbefore.isInfix, hrow⟩
    exact ⟨s, printed, hfeed, htail.room⟩

/-- A device that sends nothing but prefixes. -/
theorem kb_scan_buf_overrun : ¬ ∀ bytes, KbInside bytes := by
  intro claim
  obtain ⟨s, printed, hfeed, hroom⟩ :=
    claim (List.replicate 16 0xE0) (List.replicate 16 0xE0) (List.prefix_refl _)
  have hlen : (kbFeed (List.replicate 16 0xE0) kbBoot).map (fun r => r.1.scanLen.toNat) =
      some 16 := by
    decide
  rw [hfeed, Option.map_some] at hlen
  exact absurd (Option.some.inj hlen) (Nat.ne_of_lt hroom)

end DordOs
