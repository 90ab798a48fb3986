import DordOs.Drivers.AcpiDecode

/-!
What `acpi_initialize` reads of the tables and where it writes. Lengths, interrupt numbers
and the number of processors come from the firmware and none of them is checked.
-/
namespace DordOs
open Lib

/-- Entries within the length the RSDT declares, of an RSDT that passes its check; fields
below the end of their table; indices within the arrays. -/
def AcpiUse.Inside (m : Mem) (rsdt : Addr) : AcpiUse → Prop
  | .entry i => 36 + 4 * (i.toNat + 1) ≤ (sdtLen m rsdt).toNat ∧ acpiValidateSdt m rsdt
  | .field it stop off => it.toNat + off < stop.toNat
  | .lapicId i => i < 64
  | .mapping i => i < 24

/-- `acpi_initialize` stays inside the tables and the arrays: what it uses before the
loops and in each of their rounds is inside. -/
structure AcpiInside (m : Mem) : Prop where
  reset : ∀ u ∈ (acpiReset acpiBoot).uses, u.Inside m (rsdtAddr m (acpiFindRsdp m))
  rounds : ∀ k st round, acpiInitialize m acpiBoot k = some st →
    acpiRound m (rsdtAddr m (acpiFindRsdp m)) st = some round →
      ∀ u ∈ round.uses, u.Inside m (rsdtAddr m (acpiFindRsdp m))

/-- The loops get to a record at `a` of a table that ends at `stop`. -/
def AcpiRecordAt (m : Mem) (rsdt a stop : Addr) : Prop :=
  (∃ k i, walk (acpiNext m rsdt) k (.table 0) = some (.record i a stop)) ∧ a < stop

/-- The size of the fields read of a record. -/
def madtSize (m : Mem) (a : Addr) : Nat :=
  if m a = 0 ∨ m a = 1 ∨ m a = 5 then 8 else if m a = 2 then 5 else 2

/-- A usable processor. -/
def acpiProcessor (m : Mem) : AcpiPlace → Bool
  | .table _ => false
  | .record _ it stop => it < stop ∧ m it = 0 ∧ madtUsable m it

/-- The tables are ones the code is safe on. -/
structure AcpiSound (m : Mem) (rsdt : Addr) : Prop where
  header : 36 ≤ (sdtLen m rsdt).toNat
  checksum : acpiValidateSdt m rsdt ∨ sdtAddrCount m rsdt = 0
  fields : ∀ a stop, AcpiRecordAt m rsdt a stop → a.toNat + madtSize m a ≤ stop.toNat
  mappings : ∀ a stop, AcpiRecordAt m rsdt a stop → m a = 2 → (m (a + 4)).toNat < 24
  processors : ∀ k, (visits (acpiNext m rsdt) k (.table 0)).countP (acpiProcessor m) ≤ 64

/-- The bytes of a record that a round reads. -/
def madtOffsets (m : Mem) (it : Addr) : List Nat :=
  if m it = 0 then
    if madtUsable m it then [0, 4, 5, 6, 7, 3, 1] else [0, 4, 5, 6, 7, 1]
  else if m it = 1 then [0, 4, 5, 6, 7, 1]
  else if m it = 2 then [0, 4, 3, 1]
  else if m it = 5 then [0, 4, 5, 6, 7, 1]
  else [0, 1]

/-- The entries it writes for a record. -/
def madtWrites (m : Mem) (it : Addr) (acpi : Acpi) : List AcpiUse :=
  if m it = 0 then if madtUsable m it then [.lapicId acpi.acpiCpuCount.toNat] else []
  else if m it = 2 then [.mapping (m (it + 4)).toNat]
  else []

/-- What a round uses, as a list of the bytes read and one of the entries written. -/
def acpiUses (m : Mem) (rsdt : Addr) : AcpiPlace → Acpi → List AcpiUse
  | .table i, _ => if i < sdtAddrCount m rsdt then [.entry i] else []
  | .record _ it stop, acpi =>
      if it < stop then (madtOffsets m it).map (.field it stop) ++ madtWrites m it acpi else []

section Uses

variable {m : Mem} {rsdt it stop a : Addr} {acpi : Acpi} {place : AcpiPlace} {k : Nat}

theorem mem_madtRecord_uses {u : AcpiUse} :
    (u ∈ (madtRecord m it stop acpi).uses ∨ u = .field it stop 1) ↔
      u ∈ (madtOffsets m it).map (.field it stop) ++ madtWrites m it acpi := by
  have hword : (madtWord m it stop).uses =
      [.field it stop 4, .field it stop 5, .field it stop 6, .field it stop 7] := rfl
  have hbyte (off : Nat) : (madtByte m it stop off).uses = [.field it stop off] := rfl
  have hgsi : (madtByte m it stop 4).value = m (it + 4) := rfl
  have hlapicId (i : Nat) (id : U8) (acpi : Acpi) :
      (putLapicId i id acpi).uses = [.lapicId i] := rfl
  have hmapping (i : Nat) (id : U8) (acpi : Acpi) :
      (putMapping i id acpi).uses = [.mapping i] := rfl
  rw [madtRecord, Traced.uses_bind, hbyte, value_madtType, madtOffsets, madtWrites]
  by_cases h0 : m it = 0
  · rw [if_pos h0, if_pos h0, if_pos h0, Traced.uses_bind, hword, value_madtWord]
    by_cases husable : madtUsable m it
    · rw [if_pos husable, if_pos husable, if_pos (show _ ∨ _ from husable)]
      simp only [Traced.uses_bind, Traced.uses_pure, hbyte, hlapicId, List.mem_append, List.mem_map]
      grind
    · rw [if_neg husable, if_neg husable, if_neg (show ¬ (_ ∨ _) from husable)]
      simp only [Traced.uses_pure, List.mem_append, List.mem_map]
      grind
  rw [if_neg h0, if_neg h0, if_neg h0]
  by_cases h1 : m it = 1
  · rw [if_pos h1, if_pos h1, if_neg (by rw [h1]; decide), Traced.uses_bind, hword]
    simp only [Traced.uses_pure, List.mem_append, List.mem_map]
    grind
  rw [if_neg h1, if_neg h1]
  by_cases h2 : m it = 2
  · rw [if_pos h2, if_pos h2, if_pos h2]
    simp only [Traced.uses_bind, Traced.uses_pure, hbyte, hmapping, hgsi, List.mem_append,
      List.mem_map]
    grind
  rw [if_neg h2, if_neg h2, if_neg h2]
  by_cases h5 : m it = 5
  · rw [if_pos h5, if_pos h5, Traced.uses_bind, hword]
    simp only [Traced.uses_pure, List.mem_append, List.mem_map]
    grind
  · rw [if_neg h5, if_neg h5]
    simp only [Traced.uses_pure, List.mem_append, List.mem_map]
    grind

/-- What a round notes is what the lists say. -/
theorem mem_acpiRound_uses {round : Traced AcpiUse (AcpiPlace × Acpi)} {u : AcpiUse}
    (h : acpiRound m rsdt (place, acpi) = some round) :
    u ∈ round.uses ↔ u ∈ acpiUses m rsdt place acpi := by
  cases place with
  | table i =>
      rw [acpiRound] at h
      split at h
      · rename_i hi
        obtain rfl := Option.some.inj h
        have hentry : (sdtEntry m rsdt i).uses = [.entry i] := rfl
        rw [acpiUses, if_pos hi, Traced.uses_bind, hentry]
        dsimp only
        split_ifs <;> rfl
      · exact absurd h.symm (Option.some_ne_none round)
  | record i it stop =>
      rw [acpiRound] at h
      split at h
      · rename_i hlt
        obtain rfl := Option.some.inj h
        have hlen : (madtByte m it stop 1).uses = [.field it stop 1] := rfl
        rw [acpiUses, if_pos hlt, ← mem_madtRecord_uses, Traced.uses_bind, Traced.uses_bind, hlen,
          Traced.uses_pure, List.append_nil, List.mem_append, List.mem_singleton]
      · rename_i hlt
        obtain rfl := Option.some.inj h
        rw [acpiUses, if_neg hlt]
        rfl

theorem acpiUses_of_none {u : AcpiUse} (h : acpiRound m rsdt (place, acpi) = none) :
    u ∉ acpiUses m rsdt place acpi := by
  cases place with
  | table i =>
      rw [acpiRound] at h
      split at h
      · exact absurd h (Option.some_ne_none _)
      · rename_i hi
        rw [acpiUses, if_neg hi]
        exact List.not_mem_nil
  | record i it stop =>
      rw [acpiRound] at h
      split at h <;> exact absurd h (Option.some_ne_none _)

/-- The fields of a record are below the end iff the last of them is. -/
theorem madtOffsets_inside (it stop : Addr) :
    (∀ off ∈ madtOffsets m it, it.toNat + off < stop.toNat) ↔
      it.toNat + madtSize m it ≤ stop.toNat := by
  unfold madtOffsets madtSize
  split_ifs <;> simp_all <;> omega

theorem madtEffect_cpuCount (it : Addr) (acpi : Acpi) : (madtEffect m it acpi).acpiCpuCount =
    acpi.acpiCpuCount + if m it = 0 ∧ madtUsable m it then 1 else 0 := by
  unfold madtEffect
  split_ifs <;> simp_all

theorem acpiCpuCount_effect (place : AcpiPlace) (acpi : Acpi) :
    (acpiEffect m rsdt place acpi).acpiCpuCount =
      acpi.acpiCpuCount + if acpiProcessor m place then 1 else 0 := by
  cases place with
  | table i =>
      refine Eq.trans ?_ (BitVec.add_zero acpi.acpiCpuCount).symm
      rw [acpiEffect]
      split_ifs <;> rfl
  | record i it stop =>
      rw [acpiEffect]
      by_cases hlt : it < stop
      · rw [if_pos hlt, madtEffect_cpuCount]
        simp [acpiProcessor, hlt]
      · rw [if_neg hlt]
        simp [acpiProcessor, hlt]

theorem acpiCpuCount_fold (places : List AcpiPlace) (acpi : Acpi) :
    (places.foldl (fun acpi p => acpiEffect m rsdt p acpi) acpi).acpiCpuCount =
      acpi.acpiCpuCount + BitVec.ofNat 8 (places.countP (acpiProcessor m)) := by
  induction places generalizing acpi with
  | nil => exact (BitVec.add_zero _).symm
  | cons place places ih =>
      rw [List.foldl_cons, ih, acpiCpuCount_effect, List.countP_cons, Nat.add_comm,
        BitVec.ofNat_add, BitVec.add_assoc]
      split <;> rfl

theorem acpiCpuCount_after (k : Nat) : (acpiAfter m rsdt acpiBoot k).acpiCpuCount =
    BitVec.ofNat 8 ((visits (acpiNext m rsdt) k (.table 0)).countP (acpiProcessor m)) :=
  (acpiCpuCount_fold _ _).trans (BitVec.zero_add _)

theorem toNat_sdtAddrCount (h : 36 ≤ (sdtLen m rsdt).toNat) :
    (sdtAddrCount m rsdt).toNat = ((sdtLen m rsdt).toNat - 36) / 4 := by
  have hlt := (sdtLen m rsdt).isLt
  have hsize : sdtHeaderSize.toNat = 36 := rfl
  have hfour : (4 : U32).toNat = 4 := rfl
  rw [sdtAddrCount, BitVec.toNat_udiv, BitVec.toNat_sub, hsize, hfour]
  omega

theorem sdtAddrCount_entry (h : 36 ≤ (sdtLen m rsdt).toNat) {i : U32}
    (hi : i < sdtAddrCount m rsdt) : 36 + 4 * (i.toNat + 1) ≤ (sdtLen m rsdt).toNat := by
  have hlt := BitVec.lt_def.mp hi
  rw [toNat_sdtAddrCount h] at hlt
  omega

/-- The subtraction wraps for an RSDT shorter than its header. -/
theorem sdtAddrCount_short (h : (sdtLen m rsdt).toNat < 36) : 0 < sdtAddrCount m rsdt := by
  have hsize : sdtHeaderSize.toNat = 36 := rfl
  have hfour : (4 : U32).toNat = 4 := rfl
  rw [BitVec.lt_def, sdtAddrCount, BitVec.toNat_udiv, BitVec.toNat_sub, hsize, hfour]
  change 0 < _
  omega

theorem mem_madtWrites_processor (h : acpiProcessor m place = true) :
    AcpiUse.lapicId acpi.acpiCpuCount.toNat ∈ acpiUses m rsdt place acpi := by
  cases place with
  | table i => exact absurd h Bool.false_ne_true
  | record i it stop =>
      obtain ⟨hlt, hzero, husable⟩ := of_decide_eq_true h
      rw [acpiUses, if_pos hlt, madtWrites, if_pos hzero, if_pos husable]
      exact List.mem_append_right _ (List.mem_singleton_self _)

/-- The uses of all rounds are inside. -/
def AcpiUsesInside (m : Mem) (rsdt : Addr) : Prop :=
  ∀ k place, walk (acpiNext m rsdt) k (.table 0) = some place →
    ∀ u ∈ acpiUses m rsdt place (acpiAfter m rsdt acpiBoot k), u.Inside m rsdt

theorem AcpiUsesInside.entry (inside : AcpiUsesInside m rsdt) (h : 0 < sdtAddrCount m rsdt) :
    (AcpiUse.entry 0).Inside m rsdt :=
  inside 0 (.table 0) rfl _ (by rw [acpiUses, if_pos h]; exact List.mem_singleton_self _)

theorem AcpiUsesInside.processors (inside : AcpiUsesInside m rsdt) (k : Nat) :
    (visits (acpiNext m rsdt) k (.table 0)).countP (acpiProcessor m) ≤ 64 := by
  induction k with
  | zero => exact Nat.zero_le _
  | succ k ih =>
      cases hwalk : walk (acpiNext m rsdt) k (.table 0) with
      | none =>
          rw [visits, hwalk]
          exact (List.append_nil _).symm ▸ ih
      | some place =>
          cases hstep : acpiNext m rsdt place with
          | none =>
              rw [visits, hwalk, Option.filter_some, hstep]
              exact (List.append_nil _).symm ▸ ih
          | some next =>
              rw [visits_succ hwalk hstep, List.countP_append, List.countP_singleton]
              split
              · rename_i hprocessor
                have hroom : (acpiAfter m rsdt acpiBoot k).acpiCpuCount.toNat < 64 :=
                  inside k place hwalk _ (mem_madtWrites_processor hprocessor)
                rw [acpiCpuCount_after, BitVec.toNat_ofNat] at hroom
                omega
              · exact ih

theorem AcpiUsesInside.sound (inside : AcpiUsesInside m rsdt) : AcpiSound m rsdt := by
  have hrecord {a stop : Addr} (h : AcpiRecordAt m rsdt a stop) : ∃ acpi,
      ∀ u ∈ (madtOffsets m a).map (.field a stop) ++ madtWrites m a acpi, u.Inside m rsdt := by
    obtain ⟨⟨k, i, hwalk⟩, hlt⟩ := h
    have huses := inside k _ hwalk
    rw [acpiUses, if_pos hlt] at huses
    exact ⟨_, huses⟩
  constructor
  case header =>
      by_contra hshort
      have hentry := (inside.entry (sdtAddrCount_short (Nat.not_le.mp hshort))).1
      omega
  case checksum =>
      by_cases hcount : sdtAddrCount m rsdt = 0
      · exact .inr hcount
      · have hpos : 0 < sdtAddrCount m rsdt := (BitVec.pos_iff_ne_zero _).mpr hcount
        exact .inl (inside.entry hpos).2
  case fields =>
      intro a stop h
      obtain ⟨acpi, huses⟩ := hrecord h
      exact (madtOffsets_inside a stop).mp fun off hoff =>
        huses _ (List.mem_append_left _ (List.mem_map_of_mem hoff))
  case mappings =>
      intro a stop h htype
      obtain ⟨acpi, huses⟩ := hrecord h
      refine huses (.mapping (m (a + 4)).toNat) (List.mem_append_right _ ?_)
      rw [madtWrites, if_neg (by rw [htype]; decide), if_pos htype]
      exact List.mem_singleton_self _
  case processors => exact inside.processors

theorem AcpiSound.usesInside (sound : AcpiSound m rsdt) : AcpiUsesInside m rsdt := by
  intro k place hwalk u hu
  cases place with
  | table i =>
      rw [acpiUses] at hu
      split at hu
      · rename_i hi
        obtain rfl := List.mem_singleton.mp hu
        refine ⟨sdtAddrCount_entry sound.header hi, sound.checksum.resolve_right ?_⟩
        intro hnone
        rw [hnone] at hi
        exact absurd hi (BitVec.not_lt_zero)
      · exact absurd hu List.not_mem_nil
  | record i it stop =>
      rw [acpiUses] at hu
      split at hu
      · rename_i hlt
        have hat : AcpiRecordAt m rsdt it stop := ⟨⟨k, i, hwalk⟩, hlt⟩
        obtain hu | hu := List.mem_append.mp hu
        · obtain ⟨off, hoff, rfl⟩ := List.mem_map.mp hu
          exact (madtOffsets_inside it stop).mpr (sound.fields it stop hat) off hoff
        · rw [madtWrites] at hu
          split_ifs at hu with hzero husable htwo
          · obtain rfl := List.mem_singleton.mp hu
            have hprocessor : acpiProcessor m (.record i it stop) = true :=
              decide_eq_true ⟨hlt, hzero, husable⟩
            have hcount := sound.processors (k + 1)
            rw [visits_succ hwalk (acpiNext_record hlt), List.countP_append, List.countP_singleton,
              if_pos hprocessor] at hcount
            rw [AcpiUse.Inside, acpiCpuCount_after, BitVec.toNat_ofNat]
            omega
          · exact absurd hu List.not_mem_nil
          · obtain rfl := List.mem_singleton.mp hu
            exact sound.mappings it stop hat htwo
          · exact absurd hu List.not_mem_nil
      · exact absurd hu List.not_mem_nil

end Uses

theorem acpiReset_inside (m : Mem) (rsdt : Addr) :
    ∀ u ∈ (acpiReset acpiBoot).uses, u.Inside m rsdt := by
  have huses : (acpiReset acpiBoot).uses = (List.range 24).map .mapping := rfl
  rw [huses]
  intro u hu
  obtain ⟨i, hi, rfl⟩ := List.mem_map.mp hu
  exact List.mem_range.mp hi

theorem acpiInside_iff_uses {m : Mem} (hfind : acpiFindRsdp m ≠ 0) :
    AcpiInside m ↔ AcpiUsesInside m (rsdtAddr m (acpiFindRsdp m)) := by
  have hrun := acpiInitialize_eq hfind rfl acpiBoot
  constructor
  · intro inside k place hwalk u hu
    have hat : acpiInitialize m acpiBoot k =
        some (place, acpiAfter m (rsdtAddr m (acpiFindRsdp m)) acpiBoot k) := by
      rw [hrun, hwalk]
      rfl
    cases hround : acpiRound m (rsdtAddr m (acpiFindRsdp m))
        (place, acpiAfter m (rsdtAddr m (acpiFindRsdp m)) acpiBoot k) with
    | none => exact absurd hu (acpiUses_of_none hround)
    | some round => exact inside.rounds k _ _ hat hround u ((mem_acpiRound_uses hround).mpr hu)
  · intro inside
    refine ⟨acpiReset_inside m _, fun k st round hat hround u hu => ?_⟩
    rw [hrun] at hat
    obtain ⟨place, hwalk, rfl⟩ := Option.map_eq_some_iff.mp hat
    exact inside k place hwalk u ((mem_acpiRound_uses hround).mp hu)

/-- `acpi_initialize` stays inside iff the tables are ones it is safe on. -/
theorem acpi_inside_iff (m : Mem) (hfind : acpiFindRsdp m ≠ 0) :
    AcpiInside m ↔ AcpiSound m (rsdtAddr m (acpiFindRsdp m)) :=
  (acpiInside_iff_uses hfind).trans ⟨AcpiUsesInside.sound, AcpiSound.usesInside⟩

/-- A record that is safe to decode. -/
def safePlace (m : Mem) : AcpiPlace → Bool
  | .table _ => true
  | .record _ a stop => a < stop → a.toNat + madtSize m a ≤ stop.toNat ∧
      (m a = 2 → (m (a + 4)).toNat < 24)

theorem acpi_inside_someTables : acpiFindRsdp (acpiMem someTables) ≠ 0 ∧
    AcpiInside (acpiMem someTables) := by
  have hfind : acpiFindRsdp (acpiMem someTables) ≠ 0 := by decide +kernel
  have hend : walk (acpiNext (acpiMem someTables) 0x600) 9 (.table 0) = none := by decide +kernel
  have hsafe : ∀ k < 9, (walk (acpiNext (acpiMem someTables) 0x600) k (.table 0)).all
      (safePlace (acpiMem someTables)) = true := by decide +kernel
  have hrecord {a stop : Addr} (h : AcpiRecordAt (acpiMem someTables) 0x600 a stop) :
      a.toNat + madtSize (acpiMem someTables) a ≤ stop.toNat ∧
        (acpiMem someTables a = 2 → (acpiMem someTables (a + 4)).toNat < 24) := by
    obtain ⟨⟨k, i, hwalk⟩, hlt⟩ := h
    have hplace := hsafe k (walk_lt hend hwalk)
    rw [hwalk] at hplace
    exact of_decide_eq_true hplace hlt
  refine ⟨hfind, (acpi_inside_iff (acpiMem someTables) hfind).mpr (someTables_rsdt.symm ▸ ?_)⟩
  constructor
  case header => decide +kernel
  case checksum => exact .inl (by decide +kernel)
  case fields => exact fun a stop h => (hrecord h).1
  case mappings => exact fun a stop h => (hrecord h).2
  case processors =>
      intro k
      have hvisits := (length_visits_le hend k).1
      exact Nat.le_trans List.countP_le_length (Nat.le_trans hvisits (by decide))

/-- An RSDT that says it is shorter than its header. -/
theorem acpi_short_rsdt : ¬ ∀ m, acpiFindRsdp m ≠ 0 → AcpiInside m := by
  intro claim
  have hfind : acpiFindRsdp (acpiMem []) ≠ 0 := by decide
  have hentry := ((acpiInside_iff_uses hfind).mp (claim _ hfind)).entry (by decide)
  exact absurd hentry.1 (by decide)

end DordOs
