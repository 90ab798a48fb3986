import DordOs.Drivers.Acpi
import DordOs.Lib.Trail
import Mathlib.Data.Fintype.EquivFin

/-!
Where `acpi_initialize` goes. The places of its loops depend on the tables alone, and the
loop over the records of a table ends unless the length bytes lead from a record back to
it, which a length of 0 does.
-/
namespace DordOs
open Lib
open Relation

/-- `it`, before the loop over the records. -/
def madtStart (sdt : Addr) : Addr := sdt + acpiMadtSize

/-- `end`. -/
def madtStop (m : Mem) (sdt : Addr) : Addr := madtStart sdt + sdtLen m sdt - acpiMadtSize

/-- Table `i` is an APIC table that passes its check. -/
def apicAt (m : Mem) (rsdt : Addr) (i : U32) : Prop :=
  acpiValidateSdt m (sdtAddr m rsdt i) ∧ isApic m (sdtAddr m rsdt i)

instance (m : Mem) (rsdt : Addr) (i : U32) : Decidable (apicAt m rsdt i) :=
  inferInstanceAs (Decidable (_ ∧ _))

/-- `flags` of a processor record. -/
def madtUsable (m : Mem) (it : Addr) : Prop :=
  read32 m (it + 4) &&& 1 ≠ 0 ∨ read32 m (it + 4) &&& 2 ≠ 0

instance (m : Mem) (it : Addr) : Decidable (madtUsable m it) := inferInstanceAs (Decidable (_ ∨ _))

/-- What the `switch` does for the record at `it`. -/
def madtEffect (m : Mem) (it : Addr) (acpi : Acpi) : Acpi :=
  if m it = 0 then
    if madtUsable m it then
      { acpi with
        acpiLapicIds := acpi.acpiLapicIds.put acpi.acpiCpuCount.toNat [m (it + 3)]
        acpiCpuCount := acpi.acpiCpuCount + 1 }
    else acpi
  else if m it = 1 then { acpi with ioapic := read32 m (it + 4) }
  else if m it = 2 then
    { acpi with acpiIntrMappings := acpi.acpiIntrMappings.put (m (it + 4)).toNat [m (it + 3)] }
  else if m it = 5 then { acpi with lapic := read32 m (it + 4) }
  else acpi

/-- `it += it[1]`. -/
def madtNext (m : Mem) (it : Addr) : Addr := it + (m (it + 1)).setWidth 32

/-- Where a round leads. -/
def acpiNext (m : Mem) (rsdt : Addr) : AcpiPlace → Option AcpiPlace
  | .table i =>
      if i < sdtAddrCount m rsdt then
        if apicAt m rsdt i then
          some (.record i (madtStart (sdtAddr m rsdt i)) (madtStop m (sdtAddr m rsdt i)))
        else some (.table (i + 1))
      else none
  | .record i it stop =>
      if it < stop then some (.record i (madtNext m it) stop) else some (.table (i + 1))

/-- What a round does. -/
def acpiEffect (m : Mem) (rsdt : Addr) : AcpiPlace → Acpi → Acpi
  | .table i, acpi =>
      let header := sdtAddr m rsdt i
      if ¬ acpiValidateSdt m header then acpi
      else if isApic m header then { acpi with lapic := read32 m (header + 36), ioapic := 0 }
      else if isFacp m header then { acpi with fadt := header }
      else acpi
  | .record _ it stop, acpi =>
      if it < stop then madtEffect m it acpi
      else { acpi with acpiLapic := acpi.lapic, acpiIoapic := acpi.ioapic }

section Values

variable (m : Mem) (rsdt it stop : Addr) (acpi : Acpi)

theorem value_madtType : (madtByte m it stop 0).value = m it :=
  congrArg m (BitVec.add_zero it)

theorem value_madtWord : (madtWord m it stop).value = read32 m (it + 4) := by
  have hbyte (off : Nat) : (madtByte m it stop (4 + off)).value =
      m (it + 4 + BitVec.ofNat 32 off) := congrArg m (addr_add_add it 4 off).symm
  exact congrArg (fun bytes => BitVec.ofNat 32 (leValue bytes))
    (congrArg₂ List.cons (hbyte 0) (congrArg₂ List.cons (hbyte 1)
      (congrArg₂ List.cons (hbyte 2) (congrArg₂ List.cons (hbyte 3) rfl))))

theorem value_madtRecord : (madtRecord m it stop acpi).value = madtEffect m it acpi := by
  have hword := value_madtWord m it stop
  rw [madtRecord, Traced.value_bind, value_madtType, madtEffect]
  split
  · rw [Traced.value_bind, hword]
    by_cases husable : madtUsable m it
    · rw [if_pos husable]
      exact congrArg Traced.value (if_pos husable)
    · rw [if_neg husable]
      exact congrArg Traced.value (if_neg husable)
  · split
    · rw [Traced.value_bind, hword]
      rfl
    · split
      · rfl
      · split
        · rw [Traced.value_bind, hword]
          rfl
        · rfl

end Values

theorem acpiStep_eq (m : Mem) (rsdt : Addr) :
    acpiStep m rsdt = carry (acpiNext m rsdt) (acpiEffect m rsdt) := by
  funext ⟨place, acpi⟩
  cases place with
  | table i =>
      rw [carry, acpiStep, acpiRound, acpiNext]
      by_cases hi : i < sdtAddrCount m rsdt
      · rw [if_pos hi, if_pos hi, acpiEffect, Option.map_some, Traced.value_bind]
        dsimp only
        have hheader : (sdtEntry m rsdt i).value = sdtAddr m rsdt i := rfl
        rw [hheader]
        by_cases hvalid : acpiValidateSdt m (sdtAddr m rsdt i)
        · by_cases hapic : isApic m (sdtAddr m rsdt i)
          · rw [if_neg (not_not.mpr hvalid), if_pos hapic, if_neg (not_not.mpr hvalid),
              if_pos hapic, if_pos (show apicAt m rsdt i from ⟨hvalid, hapic⟩)]
            rfl
          · rw [if_neg (not_not.mpr hvalid), if_neg hapic, if_neg (not_not.mpr hvalid),
              if_neg hapic, if_neg (show ¬ apicAt m rsdt i from fun h => hapic h.2)]
            split <;> rfl
        · rw [if_pos hvalid, if_pos hvalid,
            if_neg (show ¬ apicAt m rsdt i from fun h => hvalid h.1)]
          rfl
      · rw [if_neg hi, if_neg hi]
        rfl
  | record i it stop =>
      rw [carry, acpiStep, acpiRound, acpiNext, acpiEffect]
      split
      · rw [Option.map_some, Traced.value_bind, Traced.value_bind, value_madtRecord]
        rfl
      · rfl

/-- The places after `k` rounds, and the data folded over the rounds before. -/
theorem acpiRun_eq (m : Mem) (rsdt : Addr) (k : Nat) (place : AcpiPlace) (acpi : Acpi) :
    acpiRun m rsdt k (place, acpi) = (walk (acpiNext m rsdt) k place).map fun p =>
      (p, (visits (acpiNext m rsdt) k place).foldl
        (fun acpi p => acpiEffect m rsdt p acpi) acpi) := by
  rw [acpiRun, acpiStep_eq]
  exact walk_carry k place acpi

/-- The data after `k` rounds of `acpi_initialize`. -/
def acpiAfter (m : Mem) (rsdt : Addr) (acpi : Acpi) (k : Nat) : Acpi :=
  (visits (acpiNext m rsdt) k (.table 0)).foldl (fun acpi p => acpiEffect m rsdt p acpi)
    (acpiReset acpi).value

theorem acpiInitialize_eq {m : Mem} {rsdt : Addr} (hfind : acpiFindRsdp m ≠ 0)
    (hrsdt : rsdtAddr m (acpiFindRsdp m) = rsdt) (acpi : Acpi) (k : Nat) :
    acpiInitialize m acpi k = (walk (acpiNext m rsdt) k (.table 0)).map fun p =>
      (p, acpiAfter m rsdt acpi k) := by
  rw [acpiInitialize, if_neg hfind, acpiRun_eq, hrsdt]
  rfl

/-- The record at `a` lies before `stop`, and the loop goes on with `b`. -/
def MadtLink (m : Mem) (stop a b : Addr) : Prop := a < stop ∧ b = madtNext m a

/-- A record of the table: the loop gets to it. -/
structure MadtRecordAt (m : Mem) (sdt a : Addr) : Prop where
  reached : ReflTransGen (MadtLink m (madtStop m sdt)) (madtStart sdt) a
  inside : a < madtStop m sdt

/-- The loop over the records of the table ends, whatever it found before. -/
def MadtEnds (m : Mem) (rsdt sdt : Addr) : Prop :=
  ∀ i acpi, ∃ k acpi', acpiRun m rsdt k (.record i (madtStart sdt) (madtStop m sdt), acpi) =
    some (.table (i + 1), acpi')

section Ends

variable {m : Mem} {rsdt sdt a b it stop : Addr} {i : U32}

theorem madtLink_rightUnique : Relator.RightUnique (MadtLink m stop) :=
  fun _ _ _ h h' => h.2.trans h'.2.symm

theorem acpiNext_record (h : it < stop) :
    acpiNext m rsdt (.record i it stop) = some (.record i (madtNext m it) stop) := if_pos h

theorem acpiNext_last (h : ¬ it < stop) :
    acpiNext m rsdt (.record i it stop) = some (.table (i + 1)) := if_neg h

theorem walk_records (rsdt : Addr) (i : U32) (h : ReflTransGen (MadtLink m stop) it a) :
    ∃ k, walk (acpiNext m rsdt) k (.record i it stop) = some (.record i a stop) := by
  induction h with
  | refl => exact ⟨0, rfl⟩
  | tail _ hlink ih =>
      obtain ⟨k, hk⟩ := ih
      exact ⟨k + 1, (walk_succ hk).trans (hlink.2 ▸ acpiNext_record hlink.1)⟩

/-- From a record the walk gets to records, until it gets out of the loop. -/
theorem walk_from_record {k : Nat} {place : AcpiPlace}
    (h : walk (acpiNext m rsdt) k (.record i it stop) = some place) :
    (∃ a, ReflTransGen (MadtLink m stop) it a ∧ place = .record i a stop) ∨
      ∃ a, ReflTransGen (MadtLink m stop) it a ∧ ¬ a < stop := by
  induction k generalizing place with
  | zero =>
      cases h
      exact .inl ⟨it, .refl, rfl⟩
  | succ k ih =>
      obtain ⟨before, hbefore, hstep⟩ := walk_of_succ h
      obtain ⟨a, ha, rfl⟩ | hout := ih hbefore
      · by_cases hlt : a < stop
        · rw [acpiNext_record hlt] at hstep
          cases hstep
          exact .inl ⟨_, ha.tail ⟨hlt, rfl⟩, rfl⟩
        · exact .inr ⟨a, ha, hlt⟩
      · exact .inr hout

theorem madtEnds_iff : MadtEnds m rsdt sdt ↔
    ∃ a, ReflTransGen (MadtLink m (madtStop m sdt)) (madtStart sdt) a ∧ ¬ a < madtStop m sdt := by
  constructor
  · intro ends
    obtain ⟨k, acpi', hrun⟩ := ends 0 acpiBoot
    rw [acpiRun_eq] at hrun
    obtain ⟨place, hwalk, hplace⟩ := Option.map_eq_some_iff.mp hrun
    cases hplace
    obtain ⟨a, -, hrecord⟩ | hout := walk_from_record hwalk
    · exact nomatch hrecord
    · exact hout
  · rintro ⟨a, ha, hout⟩ i acpi
    obtain ⟨k, hk⟩ := walk_records rsdt i ha
    have hrun : ∃ acpi', acpiRun m rsdt (k + 1)
        (.record i (madtStart sdt) (madtStop m sdt), acpi) = some (.table (i + 1), acpi') := by
      rw [acpiRun_eq, walk_succ hk, acpiNext_last hout]
      exact ⟨_, rfl⟩
    exact ⟨k + 1, hrun⟩

theorem madtLink_end : (∀ c, ¬ MadtLink m stop b c) ↔ ¬ b < stop :=
  ⟨fun h hlt => h _ ⟨hlt, rfl⟩, fun h _ hlink => h hlink.1⟩

/-- The loop ends unless a record leads back to itself. -/
theorem madtEnds_acyclic : MadtEnds m rsdt sdt ↔
    ∀ a, MadtRecordAt m sdt a → ¬ TransGen (MadtLink m (madtStop m sdt)) a a := by
  have hfinite : Finite Addr := Finite.of_injective BitVec.toFin fun _ _ => BitVec.eq_of_toFin_eq
  have hends := ends_iff_acyclic (r := MadtLink m (madtStop m sdt)) madtLink_rightUnique
    (madtStart sdt)
  simp only [madtLink_end] at hends
  rw [madtEnds_iff, hends]
  constructor
  · exact fun h a ha => h a ha.reached
  · intro h a ha cycle
    obtain ⟨b, hlink, -⟩ := TransGen.head'_iff.mp cycle
    exact h a ⟨ha, hlink.1⟩ cycle

theorem MadtRecordAt.cycle (h : MadtRecordAt m sdt a) (hzero : m (a + 1) = 0) :
    TransGen (MadtLink m (madtStop m sdt)) a a := by
  refine .single ⟨h.inside, ?_⟩
  rw [madtNext, hzero]
  exact (BitVec.add_zero a).symm

/-- Away from the top of memory every other record leads on. -/
theorem MadtLink.lt (hroom : stop.toNat + 255 ≤ 2 ^ 32) (h : MadtLink m stop a b)
    (hlen : m (a + 1) ≠ 0) : a.toNat < b.toNat := by
  have hlt := BitVec.lt_def.mp h.1
  have hbyte := (m (a + 1)).isLt
  have hpos : 0 < (m (a + 1)).toNat := Nat.pos_of_ne_zero fun hzero =>
    hlen (BitVec.eq_of_toNat_eq hzero)
  rw [h.2, madtNext, BitVec.toNat_add, BitVec.toNat_setWidth, Nat.mod_eq_of_lt (by omega),
    Nat.mod_eq_of_lt (by omega)]
  omega

end Ends

/-- The loop over the records of a table ends iff no record leads back to itself; for a
table that ends 255 bytes below the top of memory, iff no record has length 0. -/
theorem madt_ends_iff (m : Mem) (rsdt sdt : Addr) :
    (MadtEnds m rsdt sdt ↔
        ∀ a, MadtRecordAt m sdt a → ¬ TransGen (MadtLink m (madtStop m sdt)) a a) ∧
      ((madtStop m sdt).toNat + 255 ≤ 2 ^ 32 →
        (MadtEnds m rsdt sdt ↔ ∀ a, MadtRecordAt m sdt a → m (a + 1) ≠ 0)) := by
  refine ⟨madtEnds_acyclic, fun hroom => ?_⟩
  rw [madtEnds_acyclic]
  constructor
  · exact fun acyclic a ha hzero => acyclic a ha (ha.cycle hzero)
  · intro nonzero a ha cycle
    have hmono : ∀ b, TransGen (MadtLink m (madtStop m sdt)) a b → a.toNat < b.toNat := by
      intro b hb
      induction hb with
      | single hlink => exact hlink.lt hroom (nonzero a ha)
      | @tail b c hab hlink ih =>
          have hb : MadtRecordAt m sdt b := ⟨ha.reached.trans hab.to_reflTransGen, hlink.1⟩
          exact ih.trans (hlink.lt hroom (nonzero b hb))
    exact Nat.lt_irrefl _ (hmono a cycle)

/-- An APIC table with one record, of type 9 and length 0. -/
def zeroLength : Bytes :=
  [0x41, 0x50, 0x49, 0x43, 46, 0, 0, 0, 0, 0xAC] ++ List.replicate 34 0 ++ [9, 0]

theorem madt_zero_length : ¬ ∀ m rsdt sdt, isApic m sdt → acpiValidateSdt m sdt →
    MadtEnds m rsdt sdt := by
  intro claim
  have ends := claim (memOf 0x1000 zeroLength) 0 0x1000 (by decide) (by decide)
  have hrecord : MadtRecordAt (memOf 0x1000 zeroLength) 0x1000 (madtStart 0x1000) :=
    ⟨.refl, by decide⟩
  exact madtEnds_acyclic.mp ends _ hrecord (hrecord.cycle (by decide))

end DordOs
