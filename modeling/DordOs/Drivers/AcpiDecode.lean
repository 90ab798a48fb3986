import DordOs.Drivers.AcpiMadt
import DordOs.Drivers.AcpiRsdp
import DordOs.Lib.BitWords
import Mathlib.Data.List.GetD
import Mathlib.Data.List.Induction

/-!
What `acpi_initialize` makes of a well-formed APIC table: a list of records, each as long
as its length byte says, that fill the table. Processors are appended, of the other
records the last one counts.
-/
namespace DordOs
open Lib
open Relation

/-- A record of an APIC table, by its bytes. -/
abbrev MadtRec := Bytes

namespace MadtRec

def type (r : MadtRec) : U8 := r.getD 0 0

def size (r : MadtRec) : Nat :=
  if r.type = 0 ∨ r.type = 1 ∨ r.type = 5 then 8 else if r.type = 2 then 5 else 2

/-- A processor with flag bit 0 or 1 set. -/
def Usable (r : MadtRec) : Prop :=
  r.type = 0 ∧ ((word r 4).getLsbD 0 ∨ (word r 4).getLsbD 1)

instance (r : MadtRec) : Decidable r.Usable := inferInstanceAs (Decidable (_ ∧ _))

/-- The APIC id of a processor, and the source of an override. -/
def id (r : MadtRec) : U8 := r.getD 3 0

/-- The interrupt an override is for. -/
def gsi (r : MadtRec) : U8 := r.getD 4 0

/-- The low half of the 64-bit address of a type-5 record. -/
def address (r : MadtRec) : U32 := BitVec.ofNat 32 (leValue (slice r 4 8))

/-- Fields are within the record, and the length byte is right. -/
structure Formed (r : MadtRec) : Prop where
  length : (r.getD 1 0).toNat = r.length
  fields : r.size ≤ r.length

end MadtRec

/-- The last of the records that meet a condition. -/
def lastWith (records : List MadtRec) (p : MadtRec → Bool) : Option MadtRec :=
  (records.filter p).getLast?

/-- The records fill the table at `sdt`, and the arrays have room for them. -/
structure MadtFilled (m : Mem) (sdt : Addr) (records : List MadtRec) : Prop where
  length : (sdtLen m sdt).toNat = 44 + records.flatten.length
  fits : sdt.toNat + (sdtLen m sdt).toNat < 2 ^ 32
  holds : Holds m (madtStart sdt) records.flatten
  formed : ∀ r ∈ records, r.Formed
  processors : records.countP (fun r => r.Usable) ≤ 64
  mappings : ∀ r ∈ records, r.type = 2 → r.gsi.toNat < 24

/-- The table at `sdt` is the only APIC table of the RSDT that passes its check. -/
def MadtOnly (m : Mem) (rsdt sdt : Addr) : Prop :=
  ∃ i < sdtAddrCount m rsdt, sdtAddr m rsdt i = sdt ∧ apicAt m rsdt i ∧
    ∀ j < sdtAddrCount m rsdt, apicAt m rsdt j → j = i

/-- What is to be known of the table afterwards. -/
structure MadtDecoded (m : Mem) (sdt : Addr) (records : List MadtRec) (acpi : Acpi) : Prop where
  lapicIds : acpi.acpiLapicIds.get 0 acpi.acpiCpuCount.toNat =
    (records.filter fun r => r.Usable).map MadtRec.id
  mappings : ∀ g < 24, acpi.acpiIntrMappings g =
    ((lastWith records fun r => r.type = 2 ∧ r.gsi.toNat = g).map MadtRec.id).getD
      (BitVec.ofNat 8 g)
  ioapic : acpi.acpiIoapic =
    ((lastWith records fun r => r.type = 1).map fun r => word r 4).getD 0
  lapic : acpi.acpiLapic =
    ((lastWith records fun r => r.type = 5).map MadtRec.address).getD (read32 m (sdt + 36))

section Records

variable {m : Mem} {rsdt it stop : Addr} {r : MadtRec} {rest : Bytes} {records : List MadtRec}
  {acpi : Acpi} {i : U32}

theorem MadtRec.two_le_size (r : MadtRec) : 2 ≤ r.size := by
  rw [size]
  split_ifs <;> decide

/-- A record as the `switch` sees it. -/
def MadtRec.decode (r : MadtRec) (acpi : Acpi) : Acpi :=
  if r.type = 0 then
    if r.Usable then
      { acpi with
        acpiLapicIds := acpi.acpiLapicIds.put acpi.acpiCpuCount.toNat [r.id]
        acpiCpuCount := acpi.acpiCpuCount + 1 }
    else acpi
  else if r.type = 1 then { acpi with ioapic := word r 4 }
  else if r.type = 2 then
    { acpi with acpiIntrMappings := acpi.acpiIntrMappings.put r.gsi.toNat [r.id] }
  else if r.type = 5 then { acpi with lapic := word r 4 }
  else acpi

theorem madtUsable_iff (h : Holds m it r) (hr : r.Formed) (hzero : r.type = 0) :
    madtUsable m it ↔ r.Usable := by
  have hfields := hr.fields
  rw [MadtRec.size, if_pos (.inl hzero)] at hfields
  have hflags : read32 m (it + 4) = word r 4 := Stage2.read32_of_holds h hfields
  rw [madtUsable, hflags, show (1 : U32) = BitVec.twoPow 32 0 from rfl,
    show (2 : U32) = BitVec.twoPow 32 1 from rfl, and_twoPow_ne_zero _ (by decide),
    and_twoPow_ne_zero _ (by decide), MadtRec.Usable, and_iff_right hzero]

theorem madtEffect_eq (h : Holds m it r) (hr : r.Formed) (acpi : Acpi) :
    madtEffect m it acpi = r.decode acpi := by
  have hfields := hr.fields
  have hsize := r.two_le_size
  have hcell {k : Nat} (hk : k < r.length) : m (it + BitVec.ofNat 32 k) = r.getD k 0 := h.cell k hk
  have htype : m it = r.type := by
    have hfirst := hcell (show 0 < r.length by omega)
    rwa [show it + BitVec.ofNat 32 0 = it from BitVec.add_zero it] at hfirst
  have hword (h8 : r.type = 0 ∨ r.type = 1 ∨ r.type = 5) : read32 m (it + 4) = word r 4 := by
    rw [MadtRec.size, if_pos h8] at hfields
    exact Stage2.read32_of_holds h hfields
  rw [madtEffect, MadtRec.decode, htype]
  by_cases h0 : r.type = 0
  · rw [MadtRec.size, if_pos (.inl h0)] at hfields
    have hid : m (it + 3) = r.id := hcell (show 3 < r.length by omega)
    rw [if_pos h0, if_pos h0, hid]
    exact if_congr (madtUsable_iff h hr h0) rfl rfl
  rw [if_neg h0, if_neg h0]
  by_cases h1 : r.type = 1
  · rw [if_pos h1, if_pos h1, hword (.inr (.inl h1))]
  rw [if_neg h1, if_neg h1]
  by_cases h2 : r.type = 2
  · have h5 : 5 ≤ r.length := by
      rw [MadtRec.size, if_neg (by rw [h2]; decide), if_pos h2] at hfields
      exact hfields
    have hid : m (it + 3) = r.id := hcell (show 3 < r.length by omega)
    have hgsi : m (it + 4) = r.gsi := hcell (show 4 < r.length by omega)
    rw [if_pos h2, if_pos h2, hid, hgsi]
  rw [if_neg h2, if_neg h2]
  by_cases h5 : r.type = 5
  · rw [if_pos h5, if_pos h5, hword (.inr (.inr h5))]
  · rw [if_neg h5, if_neg h5]

theorem madtNext_eq (h : Holds m it r) (hr : r.Formed) :
    madtNext m it = it + BitVec.ofNat 32 r.length := by
  have hsize := r.two_le_size
  have hfields := hr.fields
  have hlen : m (it + 1) = r.getD 1 0 := h.cell 1 (by omega)
  rw [madtNext, hlen, ← hr.length, BitVec.ofNat_toNat]

theorem acpiStep_record (h : Holds m it r) (hr : r.Formed) (hlt : it < stop) (acpi : Acpi) :
    acpiStep m rsdt (.record i it stop, acpi) =
      some (.record i (it + BitVec.ofNat 32 r.length) stop, r.decode acpi) := by
  rw [acpiStep_eq, carry, acpiNext_record hlt, acpiEffect, if_pos hlt, madtNext_eq h hr,
    madtEffect_eq h hr]
  rfl

theorem acpiStep_records (h : Holds m it records.flatten)
    (hstop : stop.toNat = it.toNat + records.flatten.length) (hformed : ∀ r ∈ records, r.Formed)
    (acpi : Acpi) :
    ReflTransGen (fun st st' => acpiStep m rsdt st = some st') (.record i it stop, acpi)
      (.record i stop stop, records.foldl (fun acpi r => r.decode acpi) acpi) := by
  induction records generalizing it acpi with
  | nil =>
      obtain rfl : stop = it := BitVec.eq_of_toNat_eq hstop
      exact .refl
  | cons r records ih =>
      rw [List.flatten_cons] at h hstop
      rw [List.length_append] at hstop
      have hr := h.left
      have hrest := h.right
      have hform := hformed r List.mem_cons_self
      have hfields := hform.fields
      have hsize := r.two_le_size
      have hstoplt := stop.isLt
      have hnext : (it + BitVec.ofNat 32 r.length).toNat = it.toNat + r.length :=
        toNat_addr_add (by omega)
      refine .head (acpiStep_record hr hform (BitVec.lt_def.mpr (by omega)) acpi) ?_
      exact ih hrest (by omega) (fun r hr => hformed r (List.mem_cons_of_mem _ hr)) _

end Records

section Fold

variable {r : MadtRec} {records : List MadtRec} {acpi : Acpi} {p : MadtRec → Bool}

theorem decode_cpuCount : (r.decode acpi).acpiCpuCount =
    acpi.acpiCpuCount + if r.Usable then 1 else 0 := by
  unfold MadtRec.decode MadtRec.Usable
  split_ifs <;> simp_all

theorem decode_lapicIds : (r.decode acpi).acpiLapicIds =
    if r.Usable then acpi.acpiLapicIds.put acpi.acpiCpuCount.toNat [r.id]
    else acpi.acpiLapicIds := by
  unfold MadtRec.decode MadtRec.Usable
  split_ifs <;> simp_all

theorem decode_mappings : (r.decode acpi).acpiIntrMappings =
    if r.type = 2 then acpi.acpiIntrMappings.put r.gsi.toNat [r.id]
    else acpi.acpiIntrMappings := by
  unfold MadtRec.decode
  split_ifs <;> simp_all

theorem decode_mapping {g : Nat} : (r.decode acpi).acpiIntrMappings g =
    if decide (r.type = 2 ∧ r.gsi.toNat = g) = true then r.id else acpi.acpiIntrMappings g := by
  rw [decode_mappings]
  by_cases htype : r.type = 2
  · rw [if_pos htype, Region.put_singleton]
    by_cases hg : g = r.gsi.toNat
    · rw [if_pos hg, if_pos (decide_eq_true ⟨htype, hg.symm⟩)]
    · rw [if_neg hg, if_neg (mt of_decide_eq_true fun h => hg h.2.symm)]
  · rw [if_neg htype, if_neg (mt of_decide_eq_true fun h => htype h.1)]

theorem decode_ioapic : (r.decode acpi).ioapic =
    if r.type = 1 then word r 4 else acpi.ioapic := by
  unfold MadtRec.decode
  split_ifs <;> simp_all

theorem decode_lapic : (r.decode acpi).lapic = if r.type = 5 then word r 4 else acpi.lapic := by
  unfold MadtRec.decode
  split_ifs <;> simp_all

theorem lastWith_concat : lastWith (records ++ [r]) p =
    if p r then some r else lastWith records p := by
  rw [lastWith, List.filter_append, List.filter_cons, List.filter_nil]
  split
  · exact List.getLast?_concat
  · rw [List.append_nil]
    rfl

/-- What a record overwrites if it meets a condition and leaves alone otherwise is, at the
end, what the last such record made of it. -/
theorem foldl_lastWith {β : Type} (get : Acpi → β) {f : MadtRec → β}
    (hstep : ∀ acpi r, get (r.decode acpi) = if p r then f r else get acpi)
    (records : List MadtRec) (acpi : Acpi) :
    get (records.foldl (fun acpi r => r.decode acpi) acpi) =
      ((lastWith records p).map f).getD (get acpi) := by
  induction records using List.reverseRecOn with
  | nil => rfl
  | append_singleton records r ih =>
      rw [List.foldl_append, List.foldl_cons, List.foldl_nil, hstep, ih, lastWith_concat]
      split <;> rfl

/-- The accumulators after the records, from the ones before. -/
structure MadtFolded (records : List MadtRec) (acpi acpi' : Acpi) : Prop where
  cpuCount : acpi'.acpiCpuCount = BitVec.ofNat 8 (records.countP fun r => r.Usable)
  lapicIds : acpi'.acpiLapicIds.get 0 (records.countP fun r => r.Usable) =
    (records.filter fun r => r.Usable).map MadtRec.id
  mappings : ∀ g, acpi'.acpiIntrMappings g =
    ((lastWith records fun r => r.type = 2 ∧ r.gsi.toNat = g).map MadtRec.id).getD
      (acpi.acpiIntrMappings g)
  ioapic : acpi'.ioapic =
    ((lastWith records fun r => r.type = 1).map fun r => word r 4).getD acpi.ioapic
  lapic : acpi'.lapic =
    ((lastWith records fun r => r.type = 5).map fun r => word r 4).getD acpi.lapic

theorem decode_processors (hzero : acpi.acpiCpuCount = 0)
    (hroom : records.countP (fun r => r.Usable) ≤ 64) {acpi' : Acpi}
    (hdone : records.foldl (fun acpi r => r.decode acpi) acpi = acpi') :
    acpi'.acpiCpuCount = BitVec.ofNat 8 (records.countP fun r => r.Usable) ∧
      acpi'.acpiLapicIds.get 0 (records.countP fun r => r.Usable) =
        (records.filter fun r => r.Usable).map MadtRec.id := by
  induction records using List.reverseRecOn generalizing acpi' with
  | nil =>
      subst hdone
      exact ⟨hzero, rfl⟩
  | append_singleton records r ih =>
      rw [List.countP_append, List.countP_singleton] at hroom
      rw [List.foldl_append] at hdone
      obtain ⟨hcount, hids⟩ := ih (by omega) rfl
      subst hdone
      rw [List.foldl_cons, List.foldl_nil, decode_cpuCount, decode_lapicIds, hcount,
        List.countP_append, List.countP_singleton, List.filter_append, List.map_append,
        List.filter_cons, List.filter_nil]
      by_cases husable : r.Usable
      · have hc : (BitVec.ofNat 8 (records.countP fun r => r.Usable)).toNat =
            0 + records.countP fun r => r.Usable := by
          rw [BitVec.toNat_ofNat]
          omega
        rw [if_pos husable, if_pos husable, if_pos (decide_eq_true husable),
          if_pos (decide_eq_true husable), hc, Region.get_put_singleton, hids, BitVec.ofNat_add]
        exact ⟨rfl, rfl⟩
      · have hnot := mt of_decide_eq_true husable
        rw [if_neg husable, if_neg husable, if_neg hnot, if_neg hnot, Nat.add_zero, hids]
        exact ⟨BitVec.add_zero _, (List.append_nil _).symm⟩

theorem decode_records (hzero : acpi.acpiCpuCount = 0)
    (hroom : records.countP (fun r => r.Usable) ≤ 64) :
    MadtFolded records acpi (records.foldl (fun acpi r => r.decode acpi) acpi) := by
  obtain ⟨hcount, hids⟩ := decode_processors hzero hroom rfl
  constructor
  case cpuCount => exact hcount
  case lapicIds => exact hids
  case mappings =>
      intro g
      exact foldl_lastWith (fun acpi => acpi.acpiIntrMappings g) (fun _ _ => decode_mapping)
        records acpi
  case ioapic =>
      refine foldl_lastWith Acpi.ioapic (fun acpi r => ?_) records acpi
      rw [decode_ioapic]
      simp
  case lapic =>
      refine foldl_lastWith Acpi.lapic (fun acpi r => ?_) records acpi
      rw [decode_lapic]
      simp

theorem MadtRec.address_eq (h : 8 ≤ r.length) : r.address = word r 4 := by
  have hslice : slice r 4 8 = slice r 4 4 ++ slice r 8 4 := by
    have htake := List.take_add (l := r.drop 4) (i := 4) (j := 4)
    rw [List.drop_drop] at htake
    exact htake
  have hlen : (slice r 4 4).length = 4 := by
    rw [slice, List.length_take, List.length_drop]
    omega
  apply BitVec.eq_of_toNat_eq
  rw [address, word, hslice, leValue_append, hlen, BitVec.toNat_ofNat, BitVec.toNat_ofNat]
  exact Nat.add_mul_mod_self_left _ _ _

theorem mem_of_lastWith (h : lastWith records p = some r) : r ∈ records ∧ p r = true :=
  List.mem_filter.mp (List.mem_of_getLast? h)

theorem lastWith_address (hformed : ∀ r ∈ records, r.Formed) :
    (lastWith records fun r => r.type = 5).map (fun r => word r 4) =
      (lastWith records fun r => r.type = 5).map MadtRec.address := by
  cases hlast : lastWith records fun r => r.type = 5 with
  | none => rfl
  | some r =>
      obtain ⟨hmem, htype⟩ := mem_of_lastWith hlast
      have hfields := (hformed r hmem).fields
      rw [MadtRec.size, if_pos (.inr (.inr (of_decide_eq_true htype)))] at hfields
      rw [Option.map_some, Option.map_some, MadtRec.address_eq hfields]

end Fold

section Tables

variable {m : Mem} {rsdt sdt : Addr} {i : U32} {acpi : Acpi} {records : List MadtRec}

theorem acpiStep_skip (hi : i < sdtAddrCount m rsdt) (hnot : ¬ apicAt m rsdt i) (acpi : Acpi) :
    ∃ f, acpiStep m rsdt (.table i, acpi) = some (.table (i + 1), { acpi with fadt := f }) := by
  have hnext : acpiNext m rsdt (.table i) = some (.table (i + 1)) := by
    rw [acpiNext, if_pos hi, if_neg hnot]
  rw [acpiStep_eq, carry, hnext, acpiEffect]
  dsimp only
  by_cases hvalid : acpiValidateSdt m (sdtAddr m rsdt i)
  · rw [if_neg (not_not.mpr hvalid), if_neg fun hapic => hnot ⟨hvalid, hapic⟩]
    split
    · exact ⟨_, rfl⟩
    · exact ⟨acpi.fadt, rfl⟩
  · rw [if_pos hvalid]
    exact ⟨acpi.fadt, rfl⟩

theorem acpiStep_apic (hi : i < sdtAddrCount m rsdt) (h : apicAt m rsdt i) (acpi : Acpi) :
    acpiStep m rsdt (.table i, acpi) =
      some (.record i (madtStart (sdtAddr m rsdt i)) (madtStop m (sdtAddr m rsdt i)),
        { acpi with lapic := read32 m (sdtAddr m rsdt i + 36), ioapic := 0 }) := by
  rw [acpiStep_eq, carry, acpiNext, if_pos hi, if_pos h, acpiEffect]
  dsimp only
  rw [if_neg (not_not.mpr h.1), if_pos h.2]
  rfl

theorem acpiStep_tables {i j : U32} (hij : i.toNat ≤ j.toNat)
    (hj : j.toNat ≤ (sdtAddrCount m rsdt).toNat)
    (hnone : ∀ k : U32, i.toNat ≤ k.toNat → k.toNat < j.toNat → ¬ apicAt m rsdt k) (acpi : Acpi) :
    ∃ f, ReflTransGen (fun st st' => acpiStep m rsdt st = some st') (.table i, acpi)
      (.table j, { acpi with fadt := f }) := by
  obtain ⟨n, hn⟩ := Nat.exists_eq_add_of_le hij
  induction n generalizing j with
  | zero =>
      obtain rfl : j = i := BitVec.eq_of_toNat_eq hn
      exact ⟨acpi.fadt, .refl⟩
  | succ n ih =>
      have hone : (1 : U32).toNat = 1 := rfl
      have hjlt := j.isLt
      have hprev : (j - 1).toNat = i.toNat + n := by
        rw [BitVec.toNat_sub, hone]
        omega
      obtain ⟨f, hsteps⟩ := ih (by omega) (by omega) (fun k hlo hhi => hnone k hlo (by omega)) hprev
      obtain ⟨f', hstep⟩ := acpiStep_skip (BitVec.lt_def.mpr (show (j - 1).toNat < _ by omega))
        (hnone (j - 1) (by omega) (by omega)) { acpi with fadt := f }
      rw [BitVec.sub_add_cancel] at hstep
      exact ⟨f', hsteps.tail hstep⟩

theorem toNat_madtStop (h : MadtFilled m sdt records) :
    (madtStop m sdt).toNat = (madtStart sdt).toNat + records.flatten.length := by
  have hlength := h.length
  have hfits := h.fits
  have hsize : acpiMadtSize.toNat = 44 := rfl
  have hstart : (madtStart sdt).toNat = sdt.toNat + 44 := toNat_addr_add (k := 44) (by omega)
  rw [madtStop, BitVec.toNat_sub, BitVec.toNat_add, hstart, hlength, hsize]
  omega

theorem acpiReset_mappings : ∀ g < 24,
    (acpiReset acpiBoot).value.acpiIntrMappings g = BitVec.ofNat 8 g := by
  decide

theorem acpiStep_end (m : Mem) (rsdt : Addr) (acpi : Acpi) :
    acpiStep m rsdt (.table (sdtAddrCount m rsdt), acpi) = none := by
  rw [acpiStep, acpiRound, if_neg (BitVec.lt_irrefl _)]
  rfl

/-- From the first table to behind the last one. -/
theorem acpi_run (honly : MadtOnly m rsdt sdt) (hfilled : MadtFilled m sdt records) (acpi : Acpi) :
    ∃ f f' acpi',
      acpi' = records.foldl (fun acpi r => r.decode acpi)
        { acpi with fadt := f, lapic := read32 m (sdt + 36), ioapic := 0 } ∧
      ReflTransGen (fun st st' => acpiStep m rsdt st = some st') (.table 0, acpi)
        (.table (sdtAddrCount m rsdt),
          { acpi' with fadt := f', acpiLapic := acpi'.lapic, acpiIoapic := acpi'.ioapic }) := by
  obtain ⟨i, hi, rfl, hapic, hunique⟩ := honly
  have hilt := BitVec.lt_def.mp hi
  have hcount := (sdtAddrCount m rsdt).isLt
  have hnext : (i + 1).toNat = i.toNat + 1 := toNat_succ_of_lt hi
  have hother (j : U32) (hj : j.toNat < (sdtAddrCount m rsdt).toNat) (hne : j.toNat ≠ i.toNat) :
      ¬ apicAt m rsdt j := fun happ =>
    hne (congrArg BitVec.toNat (hunique j (BitVec.lt_def.mpr hj) happ))
  obtain ⟨f, hbefore⟩ := acpiStep_tables (m := m)
    (show (0 : U32).toNat ≤ i.toNat from Nat.zero_le _) (Nat.le_of_lt hilt)
    (fun j _ hj => hother j (by omega) (by omega)) acpi
  obtain ⟨start, hstart⟩ : ∃ start, ({ acpi with
    fadt := f, lapic := read32 m (sdtAddr m rsdt i + 36), ioapic := 0 } : Acpi) = start := ⟨_, rfl⟩
  have happ := acpiStep_apic hi hapic { acpi with fadt := f }
  have hrecords := @acpiStep_records m rsdt _ _ records i hfilled.holds (toNat_madtStop hfilled)
    hfilled.formed start
  obtain ⟨done, hdone⟩ : ∃ done, records.foldl (fun acpi r => r.decode acpi) start = done :=
    ⟨_, rfl⟩
  rw [hdone] at hrecords
  have hlast : acpiStep m rsdt (.record i (madtStop m (sdtAddr m rsdt i))
      (madtStop m (sdtAddr m rsdt i)), done) = some (.table (i + 1),
        { done with acpiLapic := done.lapic, acpiIoapic := done.ioapic }) := by
    rw [acpiStep_eq, carry, acpiNext_last (BitVec.lt_irrefl _), acpiEffect,
      if_neg (BitVec.lt_irrefl _)]
    rfl
  obtain ⟨f', hafter⟩ := acpiStep_tables (m := m) (show (i + 1).toNat ≤ _ by omega) (Nat.le_refl _)
    (fun j hlo hj => hother j hj (by omega))
    { done with acpiLapic := done.lapic, acpiIoapic := done.ioapic }
  refine ⟨f, f', done, (hstart ▸ hdone).symm, ?_⟩
  rw [← hstart] at hrecords
  exact (((hbefore.tail happ).trans hrecords).tail hlast).trans hafter

end Tables

/-- `acpi_initialize` ends, with the records folded into its data. -/
theorem acpiInitialize_folded {m : Mem} {sdt : Addr} {records : List MadtRec}
    (hfind : acpiFindRsdp m ≠ 0) (honly : MadtOnly m (rsdtAddr m (acpiFindRsdp m)) sdt)
    (hfilled : MadtFilled m sdt records) :
    ∃ k place f f' acpi, acpiInitialize m acpiBoot k =
        some (place, { acpi with fadt := f', acpiLapic := acpi.lapic, acpiIoapic := acpi.ioapic }) ∧
      (∀ acpi, acpiStep m (rsdtAddr m (acpiFindRsdp m)) (place, acpi) = none) ∧
      MadtFolded records { (acpiReset acpiBoot).value with
        fadt := f, lapic := read32 m (sdt + 36), ioapic := 0 } acpi := by
  obtain ⟨rsdt, hrsdt⟩ : ∃ rsdt, rsdtAddr m (acpiFindRsdp m) = rsdt := ⟨_, rfl⟩
  rw [hrsdt] at honly ⊢
  obtain ⟨f, f', acpi, hacpi, hrun⟩ := acpi_run honly hfilled (acpiReset acpiBoot).value
  obtain ⟨k, hk⟩ := reflTransGen_iff_walk.mp hrun
  have hinit : acpiInitialize m acpiBoot k =
      acpiRun m rsdt k (.table 0, (acpiReset acpiBoot).value) := by
    rw [acpiInitialize, if_neg hfind, hrsdt]
  exact ⟨k, _, f, f', acpi, hinit.trans hk, acpiStep_end m rsdt,
    hacpi ▸ decode_records (show _ = (0 : U8) from rfl) hfilled.processors⟩

/-- A well-formed APIC table, the only valid one, is decoded faithfully. -/
theorem madt_decoded (m : Mem) (sdt : Addr) (records : List MadtRec) (hfind : acpiFindRsdp m ≠ 0)
    (honly : MadtOnly m (rsdtAddr m (acpiFindRsdp m)) sdt) (hfilled : MadtFilled m sdt records) :
    ∃ k place acpi, acpiInitialize m acpiBoot k = some (place, acpi) ∧
      acpiStep m (rsdtAddr m (acpiFindRsdp m)) (place, acpi) = none ∧
      MadtDecoded m sdt records acpi := by
  obtain ⟨k, place, _, _, acpi, hinit, hend, hfolded⟩ := acpiInitialize_folded hfind honly hfilled
  obtain ⟨hcount, hids, hmaps, hioapic, hlapic⟩ := hfolded
  have hroom := hfilled.processors
  refine ⟨k, place, _, hinit, hend _, ?_⟩
  constructor
  case lapicIds =>
      have htoNat : acpi.acpiCpuCount.toNat = records.countP fun r => r.Usable := by
        rw [hcount, BitVec.toNat_ofNat]
        omega
      dsimp only
      rw [htoNat, hids]
  case mappings =>
      intro g hg
      dsimp only
      rw [hmaps g]
      exact congrArg _ (acpiReset_mappings g hg)
  case ioapic => exact hioapic
  case lapic =>
      dsimp only
      rw [hlapic, lastWith_address hfilled.formed]

/-- Two processors, the second one not usable, a controller, an override, a record of
another type and an address override. -/
def someRecords : List MadtRec :=
  [[0, 8, 0, 7, 1, 0, 0, 0], [0, 8, 1, 9, 0, 0, 0, 0],
    [1, 12, 2, 0, 0, 0, 0xC0, 0xFE, 0, 0, 0, 0], [2, 10, 0, 0, 2, 0, 0, 0, 0, 0],
    [4, 6, 0xFF, 0, 0, 1], [5, 12, 0, 0, 0, 0, 0xE0, 0xFE, 0, 0, 0, 0]]

/-- An RSDT with one table, which holds these records. -/
def someTables : Bytes :=
  [0x52, 0x53, 0x44, 0x54, 40, 0, 0, 0, 0, 0x6D] ++ List.replicate 26 0 ++ [0x28, 0x06, 0, 0] ++
    [0x41, 0x50, 0x49, 0x43, 100, 0, 0, 0, 0, 0xAB] ++ List.replicate 26 0 ++
    [0, 0, 0xE0, 0xFE, 0, 0, 0, 0] ++ someRecords.flatten

theorem someTables_rsdt :
    rsdtAddr (acpiMem someTables) (acpiFindRsdp (acpiMem someTables)) = 0x600 := by
  decide +kernel

theorem someTables_only : MadtOnly (acpiMem someTables)
    (rsdtAddr (acpiMem someTables) (acpiFindRsdp (acpiMem someTables))) 0x628 := by
  have hcount : sdtAddrCount (acpiMem someTables) 0x600 = 1 := by decide +kernel
  rw [someTables_rsdt]
  refine ⟨0, by rw [hcount]; decide, by decide +kernel, by decide +kernel, fun j hj _ => ?_⟩
  rw [hcount, BitVec.lt_def] at hj
  exact BitVec.eq_of_toNat_eq (Nat.lt_one_iff.mp hj)

theorem someTables_filled : MadtFilled (acpiMem someTables) 0x628 someRecords := by
  constructor
  case length => decide +kernel
  case fits => decide +kernel
  case holds => exact ⟨by decide +kernel, by decide +kernel⟩
  case formed =>
      have hall : ∀ r ∈ someRecords, (r.getD 1 0).toNat = r.length ∧ r.size ≤ r.length := by
        decide +kernel
      exact fun r hr => ⟨(hall r hr).1, (hall r hr).2⟩
  case processors => decide +kernel
  case mappings => decide +kernel

theorem madt_decoded_someTables :
    ∃ k place acpi, acpiInitialize (acpiMem someTables) acpiBoot k = some (place, acpi) ∧
      acpiStep (acpiMem someTables)
        (rsdtAddr (acpiMem someTables) (acpiFindRsdp (acpiMem someTables))) (place, acpi) = none ∧
      MadtDecoded (acpiMem someTables) 0x628 someRecords acpi :=
  madt_decoded (acpiMem someTables) 0x628 someRecords (by decide +kernel) someTables_only
    someTables_filled

end DordOs
