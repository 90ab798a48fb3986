import DordOs.Drivers.Acpi
import Mathlib.Data.List.Range
import Mathlib.Data.Nat.Find

/-!
The search for the root pointer. The word at 0x040E is a real-mode segment; the search
uses it as an address, so the first KiB it looks at is not that of the EBDA.
-/
namespace DordOs
open Lib

/-- The sum of `n` bytes, modulo 256. -/
def byteSum (m : Mem) (a : Addr) (n : Nat) : Nat := ((readBytes m a n).map BitVec.toNat).sum % 256

/-- A root pointer lies at `a`. -/
structure RsdpValid (m : Mem) (a : Addr) : Prop where
  signature : readBytes m a 8 = rsdPtr
  checksum : byteSum m a 20 = 0
  revision : m (a + 15) = 0 ∨ m (a + 15) = 2 ∧ byteSum m a 36 = 0

/-- The word at 0x040E. -/
def ebdaWord (m : Mem) : Addr := (read16 m 0x040E).setWidth 32

/-- The EBDA starts 16 times the word into memory. -/
def ebdaStart (m : Mem) : Addr := 16 * ebdaWord m

/-- A 16-byte-aligned address between 0xE0000 and 0xFFFFF. -/
def BiosPlace (a : Addr) : Prop := 0xE0000 ≤ a.toNat ∧ a.toNat ≤ 0xFFFFF ∧ a.toNat % 16 = 0

/-- The places where a root pointer may lie. -/
def RsdpPlace (m : Mem) (a : Addr) : Prop :=
  (∃ k < 1024, k % 16 = 0 ∧ a = ebdaStart m + BitVec.ofNat 32 k) ∨ BiosPlace a

/-- The search is complete and sound. -/
structure RsdpFound (m : Mem) : Prop where
  complete : (∃ a, RsdpPlace m a ∧ RsdpValid m a) →
    acpiFindRsdp m ≠ 0 ∧ RsdpPlace m (acpiFindRsdp m) ∧ RsdpValid m (acpiFindRsdp m)
  sound : acpiFindRsdp m ≠ 0 → RsdpValid m (acpiFindRsdp m)

/-- The first root pointer in the KiB at the address `word`. -/
structure RsdpLow (m : Mem) (a : Addr) : Prop where
  place : ∃ i < 64, a = ebdaWord m + BitVec.ofNat 32 (16 * i) ∧
    ∀ j < i, ¬ RsdpValid m (ebdaWord m + BitVec.ofNat 32 (16 * j))
  valid : RsdpValid m a

/-- If there is a root pointer to be found, then the first one in the KiB at the address
`word` is one to be found, or that KiB has none and the BIOS area has one. -/
def RsdpReached (m : Mem) : Prop :=
  (∃ a, RsdpPlace m a ∧ RsdpValid m a) →
    (∃ a, RsdpLow m a ∧ a ≠ 0 ∧ RsdpPlace m a) ∨
      (∀ a, ¬ RsdpLow m a) ∧ ∃ a, BiosPlace a ∧ RsdpValid m a

section Validate

variable {m : Mem} {a : Addr}

theorem readBytes_succ (m : Mem) (a : Addr) (n : Nat) :
    readBytes m a (n + 1) = readBytes m a n ++ [m (a + BitVec.ofNat 32 n)] := by
  rw [readBytes, List.range_succ, List.map_append]
  rfl

theorem byteSum_succ (m : Mem) (a : Addr) (n : Nat) :
    byteSum m a (n + 1) = (byteSum m a n + (m (a + BitVec.ofNat 32 n)).toNat) % 256 := by
  rw [byteSum, readBytes_succ, List.map_append, List.sum_append, byteSum, Nat.mod_add_mod]
  rfl

/-- The loop carries the sum of the bytes before its counter on. -/
theorem checksumLoop_eq {lo hi : U32} (hle : lo.toNat ≤ hi.toNat) {checksum : U8}
    (h : checksum.toNat = byteSum m a lo.toNat) :
    (checksumLoop m a lo hi checksum).toNat = byteSum m a hi.toNat := by
  refine forUp_invariant (fun n (checksum : U8) => checksum.toNat = byteSum m a n) _ hle ?_ _ h
  rintro i checksum - - hsum
  rw [BitVec.toNat_add, hsum, byteSum_succ, BitVec.ofNat_toNat, BitVec.setWidth_eq]

theorem checksumLoop_zero_iff {lo hi : U32} (hle : lo.toNat ≤ hi.toNat) {checksum : U8}
    (h : checksum.toNat = byteSum m a lo.toNat) :
    checksumLoop m a lo hi checksum = 0 ↔ byteSum m a hi.toNat = 0 := by
  rw [← BitVec.toNat_inj, checksumLoop_eq hle h]
  rfl

theorem readBytes_eq_iff {n : Nat} {l : Bytes} (hn : l.length = n) :
    readBytes m a n = l ↔ ∀ k < n, strAt m a k = strOf l k := by
  subst hn
  constructor
  · intro h k hk
    have hread : (readBytes m a l.length).getD k 0 = l.getD k 0 := by rw [h]
    rw [strOf, ← hread, readBytes, List.getD_eq_getElem?_getD, List.getElem?_map,
      List.getElem?_range hk]
    rfl
  · intro h
    apply List.ext_getElem
    · rw [readBytes, List.length_map, List.length_range]
    · intro k hk hk'
      have hcell := h k hk'
      rw [strOf, List.getD_eq_getElem?_getD, List.getElem?_eq_getElem hk',
        Option.getD_some] at hcell
      rw [← hcell]
      simp only [readBytes, List.getElem_map, List.getElem_range, strAt]

theorem strneq_readBytes {l : Bytes} {maxlen : U32} (hn : l.length = maxlen.toNat)
    (hnonzero : ∀ b ∈ l, b ≠ 0) :
    strneq (strAt m a) (strOf l) maxlen = true ↔ readBytes m a maxlen.toNat = l := by
  rw [strneq_iff, readBytes_eq_iff hn]
  intro k hk
  rw [← hn] at hk
  rw [strOf, List.getD_eq_getElem?_getD, List.getElem?_eq_getElem hk, Option.getD_some]
  exact hnonzero _ (List.getElem_mem hk)

theorem rsdPtr_nonzero : ∀ b ∈ rsdPtr, b ≠ 0 := by simp [rsdPtr]

theorem acpiRsdpValidate_iff : acpiRsdpValidate m a = true ↔ RsdpValid m a := by
  have hsig : strneq (strAt m a) (strOf rsdPtr) 8 = true ↔ readBytes m a 8 = rsdPtr :=
    strneq_readBytes rfl rsdPtr_nonzero
  have hsum : checksumLoop m a 0 acpiRsdpSize 0 = 0 ↔ byteSum m a 20 = 0 :=
    checksumLoop_zero_iff (by decide) rfl
  have hsum2 : checksumLoop m a acpiRsdpSize acpiRsdp2Size (checksumLoop m a 0 acpiRsdpSize 0) = 0 ↔
      byteSum m a 36 = 0 :=
    checksumLoop_zero_iff (by decide) (checksumLoop_eq (by decide) rfl)
  rw [acpiRsdpValidate]
  dsimp only
  by_cases h1 : readBytes m a 8 = rsdPtr
  case neg =>
      rw [if_pos (mt hsig.mp h1)]
      exact iff_of_false Bool.false_ne_true fun h => h1 h.signature
  rw [if_neg (not_not.mpr (hsig.mpr h1))]
  by_cases h2 : byteSum m a 20 = 0
  case neg =>
      rw [if_pos (mt hsum.mp h2)]
      exact iff_of_false Bool.false_ne_true fun h => h2 h.checksum
  rw [if_neg (not_not.mpr (hsum.mpr h2))]
  by_cases h3 : m (a + 15) = 2
  · rw [if_pos h3, decide_eq_true_iff, hsum2]
    constructor
    · exact fun h => ⟨h1, h2, .inr ⟨h3, h⟩⟩
    · intro h
      obtain hrev | hrev := h.revision
      · exact absurd (h3.symm.trans hrev) (by decide)
      · exact hrev.2
  · rw [if_neg h3, decide_eq_true_iff]
    constructor
    · exact fun h => ⟨h1, h2, .inl h⟩
    · exact fun h => h.revision.resolve_right fun hrev => h3 hrev.1

theorem RsdpValid.first (h : RsdpValid m a) : m a = 0x52 := by
  have hfirst := (readBytes_eq_iff (show rsdPtr.length = 8 from rfl)).mp h.signature 0
    (by decide)
  rw [strAt, BitVec.add_zero] at hfirst
  exact hfirst

end Validate

section Scan

variable {m : Mem} {it a : Addr} {n : Nat}

theorem rsdpScan_succ : rsdpScan m (n + 1) it =
    if acpiRsdpValidate m it then some it else rsdpScan m n (it + 16) := by
  rw [rsdpScan]
  by_cases hfirst : m it = 0x52
  · rw [if_neg (not_not.mpr hfirst)]
  · rw [if_pos hfirst, if_neg fun h => hfirst (acpiRsdpValidate_iff.1 h).first]

theorem scan_next (it : Addr) (i : Nat) :
    it + 16 + BitVec.ofNat 32 (16 * i) = it + BitVec.ofNat 32 (16 * (i + 1)) := by
  rw [Nat.mul_succ, Nat.add_comm (16 * i), ← addr_add_add]
  rfl

/-- The scan returns the first root pointer of its places. -/
theorem rsdpScan_some : rsdpScan m n it = some a ↔
    (∃ i < n, a = it + BitVec.ofNat 32 (16 * i) ∧
      ∀ j < i, ¬ RsdpValid m (it + BitVec.ofNat 32 (16 * j))) ∧ RsdpValid m a := by
  induction n generalizing it with
  | zero => exact iff_of_false (fun h => nomatch h) fun ⟨⟨i, hi, _⟩, _⟩ => Nat.not_lt_zero i hi
  | succ n ih =>
      have hzero : it + BitVec.ofNat 32 (16 * 0) = it := BitVec.add_zero it
      rw [rsdpScan_succ]
      by_cases hvalid : RsdpValid m it
      · rw [if_pos (acpiRsdpValidate_iff.2 hvalid), Option.some_inj]
        constructor
        · rintro rfl
          exact ⟨⟨0, Nat.succ_pos n, hzero.symm, fun j hj => absurd hj (Nat.not_lt_zero j)⟩, hvalid⟩
        · rintro ⟨⟨_ | i, hi, ha, hfirst⟩, -⟩
          · exact (ha.trans hzero).symm
          · exact absurd (hzero.symm ▸ hvalid) (hfirst 0 (Nat.succ_pos i))
      · rw [if_neg (mt acpiRsdpValidate_iff.1 hvalid), ih]
        refine and_congr_left fun ha => ?_
        constructor
        · rintro ⟨i, hi, rfl, hfirst⟩
          refine ⟨i + 1, Nat.succ_lt_succ hi, scan_next it i, ?_⟩
          rintro (_ | j) hj
          · exact hzero.symm ▸ hvalid
          · rw [← scan_next]
            exact hfirst j (Nat.lt_of_succ_lt_succ hj)
        · rintro ⟨_ | i, hi, rfl, hfirst⟩
          · exact absurd (hzero ▸ ha) hvalid
          · refine ⟨i, Nat.lt_of_succ_lt_succ hi, (scan_next it i).symm, fun j hj => ?_⟩
            rw [scan_next]
            exact hfirst (j + 1) (Nat.succ_lt_succ hj)

theorem rsdpScan_none : rsdpScan m n it = none ↔
    ∀ i < n, ¬ RsdpValid m (it + BitVec.ofNat 32 (16 * i)) := by
  classical
  constructor
  · intro hnone i hi hvalid
    have hex : ∃ i, RsdpValid m (it + BitVec.ofNat 32 (16 * i)) := ⟨i, hvalid⟩
    have hlt : Nat.find hex < n := Nat.lt_of_le_of_lt (Nat.find_min' hex hvalid) hi
    have hscan := rsdpScan_some.2
      ⟨⟨Nat.find hex, hlt, rfl, fun j hj => Nat.find_min hex hj⟩, Nat.find_spec hex⟩
    exact nomatch hnone.symm.trans hscan
  · intro hall
    cases hscan : rsdpScan m n it with
    | none => rfl
    | some a =>
        obtain ⟨⟨i, hi, rfl, -⟩, hvalid⟩ := rsdpScan_some.1 hscan
        exact absurd hvalid (hall i hi)

theorem rsdpLow_iff : rsdpScan m 64 (ebdaWord m) = some a ↔ RsdpLow m a :=
  rsdpScan_some.trans ⟨fun h => ⟨h.1, h.2⟩, fun h => ⟨h.place, h.valid⟩⟩

theorem biosPlace_iff : BiosPlace a ↔ ∃ i < 8192, a = 0xE0000 + BitVec.ofNat 32 (16 * i) := by
  constructor
  · rintro ⟨hlo, hhi, hmod⟩
    refine ⟨(a.toNat - 0xE0000) / 16, by omega, ?_⟩
    rw [← BitVec.toNat_inj, BitVec.toNat_add, BitVec.toNat_ofNat]
    change a.toNat = (0xE0000 + _) % 2 ^ 32
    omega
  · rintro ⟨i, hi, rfl⟩
    have ha : (0xE0000 + BitVec.ofNat 32 (16 * i)).toNat = 0xE0000 + 16 * i :=
      toNat_addr_add (a := 0xE0000) (show 0xE0000 + 16 * i < 2 ^ 32 by omega)
    rw [BiosPlace, ha]
    omega

theorem biosScan_some (h : rsdpScan m 8192 0xE0000 = some a) : BiosPlace a ∧ RsdpValid m a := by
  obtain ⟨⟨i, hi, ha, -⟩, hvalid⟩ := rsdpScan_some.1 h
  exact ⟨biosPlace_iff.2 ⟨i, hi, ha⟩, hvalid⟩

theorem biosScan_none (h : rsdpScan m 8192 0xE0000 = none) (ha : BiosPlace a) :
    ¬ RsdpValid m a := by
  obtain ⟨i, hi, rfl⟩ := biosPlace_iff.1 ha
  exact rsdpScan_none.1 h i hi

theorem BiosPlace.ne_zero (h : BiosPlace a) : a ≠ 0 := by
  rintro rfl
  exact absurd h.1 (by decide)

theorem acpiFindRsdp_low (h : RsdpLow m a) : acpiFindRsdp m = a := by
  have hscan : rsdpScan m 64 ((read16 m 0x040E).setWidth 32) = some a := rsdpLow_iff.2 h
  rw [acpiFindRsdp, hscan]

theorem acpiFindRsdp_bios (h : ∀ a, ¬ RsdpLow m a) :
    acpiFindRsdp m = (rsdpScan m 8192 0xE0000).getD 0 := by
  have hscan : rsdpScan m 64 ((read16 m 0x040E).setWidth 32) = none :=
    Option.eq_none_iff_forall_ne_some.mpr fun a ha => h a (rsdpLow_iff.1 ha)
  rw [acpiFindRsdp, hscan]

end Scan

section Found

variable {m : Mem} {a : Addr}

/-- A root pointer of the first KiB is the one returned. -/
theorem rsdpFound_low (hlow : RsdpLow m a) : RsdpFound m ↔ RsdpReached m := by
  have hfind := acpiFindRsdp_low hlow
  constructor
  · intro found hthere
    obtain ⟨hne, hplace, -⟩ := found.complete hthere
    rw [hfind] at hne hplace
    exact .inl ⟨a, hlow, hne, hplace⟩
  · intro reached
    constructor
    · intro hthere
      obtain ⟨b, hb, hne, hplace⟩ | ⟨hnone, -⟩ := reached hthere
      · rw [acpiFindRsdp_low hb]
        exact ⟨hne, hplace, hb.valid⟩
      · exact absurd hlow (hnone a)
    · rw [hfind]
      exact fun _ => hlow.valid

/-- Otherwise it is one of the BIOS area, if there is one. -/
theorem rsdpFound_bios (hnone : ∀ a, ¬ RsdpLow m a) : RsdpFound m ↔ RsdpReached m := by
  have hfind := acpiFindRsdp_bios hnone
  cases hscan : rsdpScan m 8192 0xE0000 with
  | none =>
      rw [hscan] at hfind
      have hnull : acpiFindRsdp m = 0 := hfind
      constructor
      · intro found hthere
        exact absurd hnull (found.complete hthere).1
      · intro reached
        refine ⟨fun hthere => ?_, fun hne => absurd hnull hne⟩
        obtain ⟨a, ha, -⟩ | ⟨-, a, ha, hvalid⟩ := reached hthere
        · exact absurd ha (hnone a)
        · exact absurd hvalid (biosScan_none hscan ha)
  | some a =>
      rw [hscan] at hfind
      have hfound : acpiFindRsdp m = a := hfind
      obtain ⟨ha, hvalid⟩ := biosScan_some hscan
      constructor
      · exact fun _ _ => .inr ⟨hnone, a, ha, hvalid⟩
      · intro
        rw [← hfound] at ha hvalid
        exact ⟨fun _ => ⟨ha.ne_zero, .inr ha, hvalid⟩, fun _ => hvalid⟩

end Found

/-- The search is complete and sound iff no root pointer of its own KiB takes the place
of one to be found, and none is to be found in the EBDA only. -/
theorem rsdp_found_iff (m : Mem) : RsdpFound m ↔ RsdpReached m := by
  by_cases hlow : ∃ a, RsdpLow m a
  · obtain ⟨a, hlow⟩ := hlow
    exact rsdpFound_low hlow
  · exact rsdpFound_bios (not_exists.mp hlow)

/-- A root pointer at the start of an EBDA at 0x9FC00. -/
def ebdaMem : Mem := fun a =>
  if a = 0x040E then 0xC0
  else if a = 0x040F then 0x9F
  else if 0x9FC00 ≤ a.toNat ∧ a.toNat < 0x9FC00 + 8 then strOf rsdPtr (a.toNat - 0x9FC00)
  else if a = 0x9FC08 then 0xE1
  else 0

theorem ebdaMem_bios {a : Addr} (h : BiosPlace a) : ebdaMem a = 0 := by
  have hne (b : Addr) (hb : b.toNat < 0xE0000) : a ≠ b := by
    rintro rfl
    exact absurd h.1 (Nat.not_le.mpr hb)
  have hlo := h.1
  rw [ebdaMem, if_neg (hne _ (by decide)), if_neg (hne _ (by decide)), if_neg (by omega),
    if_neg (hne _ (by decide))]

theorem acpiFindRsdp_ebdaMem : acpiFindRsdp ebdaMem = 0 := by
  have hlow : rsdpScan ebdaMem 64 (ebdaWord ebdaMem) = none := by decide
  have hnone : ∀ a, ¬ RsdpLow ebdaMem a := fun a ha =>
    absurd (hlow.symm.trans (rsdpLow_iff.2 ha)) (by simp)
  rw [acpiFindRsdp_bios hnone]
  cases hscan : rsdpScan ebdaMem 8192 0xE0000 with
  | none => rfl
  | some a =>
      obtain ⟨ha, hvalid⟩ := biosScan_some hscan
      exact absurd ((ebdaMem_bios ha).symm.trans hvalid.first) (by decide)

theorem rsdp_missed : ¬ ∀ m, RsdpFound m := by
  intro claim
  have hvalid : RsdpValid ebdaMem 0x9FC00 := acpiRsdpValidate_iff.1 (by decide)
  have hplace : RsdpPlace ebdaMem 0x9FC00 :=
    .inl ⟨0, by decide, rfl, by decide⟩
  exact ((claim ebdaMem).complete ⟨_, hplace, hvalid⟩).1 acpiFindRsdp_ebdaMem

end DordOs
