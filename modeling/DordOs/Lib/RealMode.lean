import DordOs.Lib.Elements

/-!
Byte strings that lie in memory under stores of words, and a stack of 16-bit words that
grows down towards lower addresses.
-/
namespace DordOs.Lib

variable {m : Mem} {base dst : Addr} {l l' before old new after : Bytes}

theorem Holds.append (h : Holds m base l) (h' : Holds m (base + BitVec.ofNat 32 l.length) l')
    (hfits : base.toNat + (l ++ l').length ≤ 2 ^ 32) : Holds m base (l ++ l') := by
  refine ⟨hfits, fun k hk => ?_⟩
  rw [List.length_append] at hk
  by_cases hlt : k < l.length
  · rw [h.cell k hlt, List.getD_append _ _ _ _ hlt]
  · have hcell := h'.cell (k - l.length) (by omega)
    rw [addr_add_add, Nat.add_sub_cancel' (Nat.not_lt.mp hlt)] at hcell
    rw [hcell, List.getD_append_right _ _ _ _ (Nat.not_lt.mp hlt)]

theorem Holds.of_writeBytes (m : Mem) (hfits : base.toNat + l.length ≤ 2 ^ 32) :
    Holds (writeBytes m base l) base l := by
  refine ⟨hfits, fun k hk => ?_⟩
  have hcell := @writeBytes_inside m base l k hfits hk
  rw [List.getD_eq_getElem?_getD, ← hcell, Option.getD_some]

/-- A store elsewhere. -/
theorem Holds.write_apart (h : Holds m base l) (hfits : dst.toNat + l'.length ≤ 2 ^ 32)
    (hapart : base.toNat + l.length ≤ dst.toNat ∨ dst.toNat + l'.length ≤ base.toNat) :
    Holds (writeBytes m dst l') base l :=
  h.of_eq fun a ha => writeBytes_outside_range hfits fun hin => by
    obtain ⟨hlo, hhi⟩ := ha
    obtain ⟨hlo', hhi'⟩ := hin
    omega

/-- A store of as many bytes over some of those that lie there. -/
theorem Holds.write (h : Holds m base (before ++ old ++ after)) (hlen : old.length = new.length) :
    Holds (writeBytes m (base + BitVec.ofNat 32 before.length) new) base
      (before ++ new ++ after) := by
  have hfits := h.fits
  rw [List.length_append, List.length_append] at hfits
  by_cases hnil : new = []
  · subst hnil
    rw [List.length_eq_zero_iff.mp hlen] at h
    exact h
  · have hpos : 0 < new.length := List.length_pos_of_ne_nil hnil
    have hat : (base + BitVec.ofNat 32 before.length).toNat = base.toNat + before.length :=
      toNat_addr_add (by omega)
    have hend : (base + BitVec.ofNat 32 (before ++ new).length).toNat =
        base.toNat + (before ++ new).length ∨ after = [] := by
      by_cases hafter : after = []
      · exact .inr hafter
      · have := List.length_pos_of_ne_nil hafter
        exact .inl (toNat_addr_add (by rw [List.length_append]; omega))
    have hbefore : Holds (writeBytes m (base + BitVec.ofNat 32 before.length) new) base before :=
      h.left.left.write_apart (by omega) (.inl (by omega))
    have hnew := @Holds.of_writeBytes (base + BitVec.ofNat 32 before.length) new m (by omega)
    have htail : Holds (writeBytes m (base + BitVec.ofNat 32 before.length) new)
        (base + BitVec.ofNat 32 (before ++ new).length) after := by
      have hright := h.right
      have hsame : (before ++ old).length = (before ++ new).length := by
        rw [List.length_append, List.length_append, hlen]
      rw [hsame] at hright
      obtain hend | rfl := hend
      · rw [List.length_append] at hend
        exact hright.write_apart (by omega) (.inr (by rw [List.length_append, hend]; omega))
      · exact ⟨Nat.le_of_lt (BitVec.isLt _), fun k hk => absurd hk (Nat.not_lt_zero k)⟩
    refine (hbefore.append hnew (by rw [List.length_append]; omega)).append htail ?_
    rw [List.length_append, List.length_append]
    omega

theorem Holds.readBytes_self (h : Holds m base l) : readBytes m base l.length = l := by
  have hread := h.readBytes_eq (n := l.length) (i := 0) (by omega)
  have hzero : base + BitVec.ofNat 32 0 = base := BitVec.add_zero base
  rw [hzero, slice, List.drop_zero, List.take_length] at hread
  exact hread

/-- The two bytes of a word. -/
def wordBytes (v : BitVec 16) : Bytes := leBytes 2 v.toNat

@[simp] theorem length_wordBytes (v : BitVec 16) : (wordBytes v).length = 2 := rfl

def storeWord (m : Mem) (a : Addr) (v : BitVec 16) : Mem := writeBytes m a (wordBytes v)

def loadWord (m : Mem) (a : Addr) : BitVec 16 := BitVec.ofNat 16 (leValue (readBytes m a 2))

theorem Holds.loadWord {v : BitVec 16} (h : Holds m base (wordBytes v)) :
    loadWord m base = v := by
  have hread : readBytes m base 2 = wordBytes v := h.readBytes_self
  rw [Lib.loadWord, hread, wordBytes, leValue_leBytes v.isLt, BitVec.ofNat_toNat,
    BitVec.setWidth_eq]

/-- The words of a stack, the innermost first. -/
def stackBytes (words : List (BitVec 16)) : Bytes := words.flatMap wordBytes

theorem length_stackBytes (words : List (BitVec 16)) :
    (stackBytes words).length = 2 * words.length :=
  length_flatMap_of_const length_wordBytes words

theorem stackBytes_cons (v : BitVec 16) (words : List (BitVec 16)) :
    stackBytes (v :: words) = wordBytes v ++ stackBytes words := List.flatMap_cons

/-- A word is pushed in front of a stack that begins at `sp`. -/
theorem Holds.push {sp sp' : Addr} {words : List (BitVec 16)} (h : Holds m sp (stackBytes words))
    (v : BitVec 16) (hsp : sp'.toNat + 2 = sp.toNat) :
    Holds (storeWord m sp' v) sp' (stackBytes (v :: words)) := by
  have hfits := h.fits
  have hlt := sp.isLt
  have hnext : sp' + BitVec.ofNat 32 (wordBytes v).length = sp := by
    apply BitVec.eq_of_toNat_eq
    rw [length_wordBytes, toNat_addr_add (by omega), hsp]
  rw [stackBytes_cons]
  refine (Holds.of_writeBytes m (by rw [length_wordBytes]; omega)).append ?_ ?_
  · rw [hnext]
    exact h.write_apart (by rw [length_wordBytes]; omega) (.inr (by rw [length_wordBytes]; omega))
  · rw [List.length_append, length_wordBytes]
    omega

/-- The innermost word of a stack, and the rest of it. -/
theorem Holds.pop {sp : Addr} {v : BitVec 16} {words : List (BitVec 16)}
    (h : Holds m sp (stackBytes (v :: words))) :
    Lib.loadWord m sp = v ∧ Holds m (sp + 2) (stackBytes words) := by
  rw [stackBytes_cons] at h
  exact ⟨h.left.loadWord, h.right⟩

end DordOs.Lib
