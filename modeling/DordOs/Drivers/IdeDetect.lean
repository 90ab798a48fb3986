import DordOs.Drivers.Ide
import DordOs.Drivers.Pci

/-!
Drive detection: `ide_check_and_add_drive` and `ide_initialize` as the loop over the PCI
devices in `kernel_enter` calls them. What lies behind the ports when a drive is probed is
up to the environment; a probe that waits for a status that never comes has no result.
-/
namespace DordOs
open Lib

inductive AtaCh
  | primary
  | secondary
  deriving DecidableEq

/-- `ide_channel_t`. -/
structure IdeChannel where
  basePort : U16
  ctrlPort : U16
  bmidePort : U16
  deriving DecidableEq

/-- The two ports a drive is addressed through. -/
structure AtaPorts where
  base : U16
  ctrl : U16
  deriving DecidableEq

/-- What the ports give while a drive is probed: the status register at each reading of
it, the LBA registers after IDENTIFY, and the words of the data port. -/
structure AtaProbe where
  status : List U8
  lba1 : U8
  lba2 : U8
  data : Nat → U16

def ideAta : U8 := 0x00
def ideAtapi : U8 := 0x01

/-- `ide_wait_bsy`, with the readings that are left. -/
def ideWaitBsy : List U8 → Option (List U8)
  | [] => none
  | status :: rest => if status &&& ataSrBsy ≠ 0 then ideWaitBsy rest else some rest

def ideAwaitDrq : List U8 → Option (List U8)
  | [] => none
  | status :: rest => if status &&& ataSrDrq = 0 then ideAwaitDrq rest else some rest

/-- The loop that polls for ERR or DRQ: whether it was DRQ. -/
def idePollIdentify : List U8 → Option Bool
  | [] => none
  | status :: rest =>
      if status &&& ataSrErr ≠ 0 then some false
      else if status &&& ataSrDrq ≠ 0 then some true
      else idePollIdentify rest

/-- `ide_check_and_add_drive` up to `found`: the type of the drive that answers. -/
def AtaProbe.identify (p : AtaProbe) : Option (Option U8) :=
  match p.status with
  | [] => none
  | status :: rest =>
      if status = 0 then some none
      else
        match ideWaitBsy rest with
        | none => none
        | some rest =>
            if (p.lba1 = 0x14 ∧ p.lba2 = 0xEB) ∨ (p.lba1 = 0x69 ∧ p.lba2 = 0x96) then
              (ideAwaitDrq rest).map fun _ => some ideAtapi
            else if p.lba1 ≠ 0 ∨ p.lba2 ≠ 0 then some none
            else (idePollIdentify rest).map fun drq => if drq then some ideAta else none

def ataIdentDevicetype : Nat := 0
def ataIdentModel : Nat := 54
def ataIdentCapabilities : Nat := 98
def ataIdentMaxLba : Nat := 120
def ataIdentCommandsets : Nat := 164
def ataIdentMaxLbaExt : Nat := 200

/-- `ide_drive_t`, but for the callback, which is `ide_read_drive` in all of them. -/
structure IdeDrive where
  channel : AtaCh
  bus : AtaBus
  type : U8
  name : Bytes
  signature : U16
  capabilities : U16
  cmdSets : U32
  size : U32
  deriving DecidableEq

/-- `id_buf`. -/
def AtaProbe.idBuf (p : AtaProbe) : Bytes :=
  (List.range 256).flatMap fun i => leBytes 2 (p.data i).toNat

/-- Ends the name after the last character from position `i` down that is no space. -/
def trimName : Nat → Bytes → Bytes
  | 0, name => name
  | i + 1, name => if name.getD (i + 1) 0 ≠ 0x20 then name.set (i + 2) 0 else trimName i name

/-- The model number, two characters to a word, high byte first. -/
def driveName (idBuf : Bytes) : Bytes :=
  trimName 39 (((List.range 20).flatMap fun k =>
    [idBuf.getD (ataIdentModel + 2 * k + 1) 0, idBuf.getD (ataIdentModel + 2 * k) 0]) ++ [0])

def identifiedDrive (channel : AtaCh) (bus : AtaBus) (type : U8) (idBuf : Bytes) : IdeDrive :=
  let cmdSets : U32 := BitVec.ofNat 32 (leValue (slice idBuf ataIdentCommandsets 4))
  { channel, bus, type
    name := driveName idBuf
    signature := BitVec.ofNat 16 (leValue (slice idBuf ataIdentDevicetype 2))
    capabilities := BitVec.ofNat 16 (leValue (slice idBuf ataIdentCapabilities 2))
    cmdSets
    size := BitVec.ofNat 32 (leValue (slice idBuf
      (if cmdSets &&& (1 <<< 26) ≠ 0 then ataIdentMaxLbaExt else ataIdentMaxLba) 4)) }

/-- A write to `ide_drives`, with the ports the drive answered on. -/
structure IdeWrite where
  index : U32
  drive : IdeDrive
  ports : AtaPorts
  deriving DecidableEq

/-- `ide_channels`, `ide_drive_count` and what has been written to `ide_drives`. -/
structure IdeTables where
  channels : AtaCh → IdeChannel
  driveCount : U32
  writes : List IdeWrite

/-- The environment of a controller: the probe that drive `bus` behind some ports meets. -/
abbrev AtaWorld := AtaPorts → AtaBus → AtaProbe

/-- The ports `ide_read_drive` uses for a drive on that channel. -/
def IdeTables.ports (st : IdeTables) (channel : AtaCh) : AtaPorts :=
  ⟨(st.channels channel).basePort, (st.channels channel).ctrlPort⟩

def ideCheckAndAddDrive (world : AtaWorld) (channel : AtaCh) (bus : AtaBus) (st : IdeTables) :
    Option IdeTables :=
  let p := world (st.ports channel) bus
  match p.identify with
  | none => none
  | some none => some st
  | some (some type) =>
      some { st with
        driveCount := st.driveCount + 1
        writes := st.writes ++
          [⟨st.driveCount, identifiedDrive channel bus type p.idBuf, st.ports channel⟩] }

def ideAtaStandardPrimaryPort : U32 := 0x1F0
def ideAtaStandardPrimaryControlPort : U32 := 0x3F6
def ideAtaStandardSecondaryPort : U32 := 0x170
def ideAtaStandardSecondaryControlPort : U32 := 0x376

/-- A base address register, or the standard port where it names none. -/
def barOr (bar standard : U32) : U32 := if bar = 0 ∨ bar = 1 then standard else bar

/-- The channels of a controller with these base address registers. -/
def barChannels (bar0 bar1 bar2 bar3 bar4 : U32) : AtaCh → IdeChannel
  | .primary =>
      { basePort := (barOr bar0 ideAtaStandardPrimaryPort).setWidth 16
        ctrlPort := (barOr bar1 ideAtaStandardPrimaryControlPort).setWidth 16
        bmidePort := bar4.setWidth 16 }
  | .secondary =>
      { basePort := (barOr bar2 ideAtaStandardSecondaryPort).setWidth 16
        ctrlPort := (barOr bar3 ideAtaStandardSecondaryControlPort).setWidth 16
        bmidePort := (bar4 + 8).setWidth 16 }

/-- The four probes, in order. -/
def ataProbeOrder : List (AtaCh × AtaBus) :=
  [(.primary, .master), (.primary, .slave), (.secondary, .master), (.secondary, .slave)]

def ideInitialize (world : AtaWorld) (bar0 bar1 bar2 bar3 bar4 : U32) (st : IdeTables) :
    Option IdeTables :=
  ataProbeOrder.foldlM (fun st probe => ideCheckAndAddDrive world probe.1 probe.2 st)
    { st with channels := barChannels bar0 bar1 bar2 bar3 bar4 }

def pciHcSubclass : Nat := 0x0A
def pciHcClass : Nat := 0x0B
def pciHcHeaderType : Nat := 0x0E
def pciH0Bar0 : Nat := 0x10
def pciH0Bar1 : Nat := 0x14
def pciH0Bar2 : Nat := 0x18
def pciH0Bar3 : Nat := 0x1C
def pciH0Bar4 : Nat := 0x20

def pciReg32 (dev : PciDev) (offset : Nat) : U32 :=
  BitVec.ofNat 32 (leValue (slice dev.regData offset 4))

/-- The test for an IDE controller in `kernel_enter`. -/
def PciDev.isIde (dev : PciDev) : Prop :=
  dev.regData.getD pciHcHeaderType 0 = 0 ∧ dev.regData.getD pciHcClass 0 = 1 ∧
    dev.regData.getD pciHcSubclass 0 = 1

instance (dev : PciDev) : Decidable dev.isIde := inferInstanceAs (Decidable (_ ∧ _))

/-- A device of the list and what lies behind the ports when its turn comes. -/
structure PciSlot where
  dev : PciDev
  world : AtaWorld

/-- The body of the loop in `kernel_enter`. -/
def kernelEnterDevice (st : IdeTables) (slot : PciSlot) : Option IdeTables :=
  if slot.dev.isIde then
    ideInitialize slot.world (pciReg32 slot.dev pciH0Bar0) (pciReg32 slot.dev pciH0Bar1)
      (pciReg32 slot.dev pciH0Bar2) (pciReg32 slot.dev pciH0Bar3) (pciReg32 slot.dev pciH0Bar4) st
  else some st

/-- The variables before the loop. -/
def IdeTables.start : IdeTables := ⟨fun _ => ⟨0, 0, 0⟩, 0, []⟩

/-- The loop over the PCI devices in `kernel_enter`. -/
def kernelEnterDevices (slots : List PciSlot) (st : IdeTables) : Option IdeTables :=
  slots.foldlM kernelEnterDevice st

/-- There is room for every drive, and each is read where it answered. -/
structure IdeTables.Bound (st : IdeTables) : Prop where
  count : st.driveCount.toNat ≤ 4
  index : ∀ w ∈ st.writes, w.index.toNat < 4
  ports : ∀ w ∈ st.writes, st.ports w.drive.channel = w.ports

/-- A drive that answers. -/
def AtaProbe.Answers (p : AtaProbe) : Prop := ∃ type, p.identify = some (some type)

instance (p : AtaProbe) : Decidable p.Answers :=
  match h : p.identify with
  | some (some type) => isTrue ⟨type, h⟩
  | some none => isFalse fun ⟨_, h'⟩ => nomatch h.symm.trans h'
  | none => isFalse fun ⟨_, h'⟩ => nomatch h.symm.trans h'

namespace PciSlot

/-- The channels `ide_initialize` sets up for a controller. -/
def channels (slot : PciSlot) : AtaCh → IdeChannel :=
  barChannels (pciReg32 slot.dev pciH0Bar0) (pciReg32 slot.dev pciH0Bar1)
    (pciReg32 slot.dev pciH0Bar2) (pciReg32 slot.dev pciH0Bar3) (pciReg32 slot.dev pciH0Bar4)

/-- The ports of a channel of the controller. -/
def ports (slot : PciSlot) (channel : AtaCh) : AtaPorts :=
  ⟨(slot.channels channel).basePort, (slot.channels channel).ctrlPort⟩

/-- The drives of the controller that answer. -/
def answering (slot : PciSlot) : List (AtaCh × AtaBus) :=
  ataProbeOrder.filter fun probe => (slot.world (slot.ports probe.1) probe.2).Answers

end PciSlot

/-- The IDE controllers among some devices. -/
def ideControllers (slots : List PciSlot) : List PciSlot := slots.filter fun slot => slot.dev.isIde

/-- The drives that answer on them. -/
def answeringDrives (slots : List PciSlot) : List (AtaCh × AtaPorts) :=
  (ideControllers slots).flatMap fun slot =>
    slot.answering.map fun probe => (probe.1, slot.ports probe.1)

/-- What a write says about where its drive is. -/
def IdeWrite.place (w : IdeWrite) : AtaCh × AtaPorts := (w.drive.channel, w.ports)

namespace IdeTables

/-- Drives at these places have been added to the table, at the next indices. -/
def Adds (st st' : IdeTables) (places : List (AtaCh × AtaPorts)) : Prop :=
  ∃ added : List IdeWrite, st'.writes = st.writes ++ added ∧ added.map IdeWrite.place = places ∧
    added.map IdeWrite.index =
      (List.range places.length).map (fun i => st.driveCount + BitVec.ofNat 32 i) ∧
    st'.driveCount = st.driveCount + BitVec.ofNat 32 places.length

variable {st st' st'' : IdeTables} {places places' : List (AtaCh × AtaPorts)}

theorem Adds.nil (hwrites : st'.writes = st.writes) (hcount : st'.driveCount = st.driveCount) :
    st.Adds st' [] :=
  ⟨[], hwrites.trans (List.append_nil _).symm, rfl, rfl, hcount.trans (BitVec.add_zero _).symm⟩

theorem Adds.trans (h : st.Adds st' places) (h' : st'.Adds st'' places') :
    st.Adds st'' (places ++ places') := by
  obtain ⟨added, hwrites, hplaces, hindex, hcount⟩ := h
  obtain ⟨added', hwrites', hplaces', hindex', hcount'⟩ := h'
  refine ⟨added ++ added', ?_, ?_, ?_, ?_⟩
  · rw [hwrites', hwrites, List.append_assoc]
  · rw [List.map_append, hplaces, hplaces']
  · rw [List.map_append, hindex, hindex', List.length_append, List.range_add, List.map_append,
      List.map_map, hcount]
    congr 1
    refine List.map_congr_left fun i _ => ?_
    rw [BitVec.add_assoc, ← BitVec.ofNat_add]
    rfl
  · rw [hcount', hcount, BitVec.add_assoc, ← BitVec.ofNat_add, List.length_append]

end IdeTables

/-- One probe adds its drive if it answers. -/
theorem ideCheckAndAddDrive_adds {world : AtaWorld} {channel : AtaCh} {bus : AtaBus}
    {st st' : IdeTables} (h : ideCheckAndAddDrive world channel bus st = some st') :
    st'.channels = st.channels ∧
      st.Adds st' (if (world (st.ports channel) bus).Answers then [(channel, st.ports channel)]
        else []) := by
  simp only [ideCheckAndAddDrive] at h
  cases hid : (world (st.ports channel) bus).identify with
  | none =>
      rw [hid] at h
      cases h
  | some answer =>
      rw [hid] at h
      cases answer with
      | none =>
          cases h
          have hnot : ¬ (world (st.ports channel) bus).Answers := by
            rintro ⟨type, htype⟩
            cases hid.symm.trans htype
          rw [if_neg hnot]
          exact ⟨rfl, .nil rfl rfl⟩
      | some type =>
          cases h
          rw [if_pos ⟨type, hid⟩]
          refine ⟨rfl, _, rfl, rfl, ?_, rfl⟩
          exact congrArg (fun index => [index]) (BitVec.add_zero _).symm

/-- The drives that answer to some probes of a controller are added in that order. -/
theorem probes_add {slot : PciSlot} {probes : List (AtaCh × AtaBus)} {st st' : IdeTables}
    (hchannels : st.channels = slot.channels)
    (h : probes.foldlM (fun st probe => ideCheckAndAddDrive slot.world probe.1 probe.2 st) st =
      some st') :
    st'.channels = slot.channels ∧
      st.Adds st' ((probes.filter fun probe =>
        (slot.world (slot.ports probe.1) probe.2).Answers).map fun probe =>
          (probe.1, slot.ports probe.1)) := by
  induction probes generalizing st with
  | nil =>
      cases h
      exact ⟨hchannels, .nil rfl rfl⟩
  | cons probe probes ih =>
      obtain ⟨mid, hmid, hrest⟩ := Option.bind_eq_some_iff.mp h
      obtain ⟨hsame, hadds⟩ := ideCheckAndAddDrive_adds hmid
      have hports : st.ports probe.1 = slot.ports probe.1 := by
        rw [IdeTables.ports, PciSlot.ports, hchannels]
      obtain ⟨hlast, hrest⟩ := ih (hsame.trans hchannels) hrest
      refine ⟨hlast, ?_⟩
      rw [hports] at hadds
      rw [List.filter_cons]
      by_cases hanswers : (slot.world (slot.ports probe.1) probe.2).Answers
      · rw [if_pos hanswers] at hadds
        rw [if_pos (decide_eq_true hanswers)]
        exact hadds.trans hrest
      · rw [if_neg hanswers] at hadds
        rw [if_neg (by simpa using hanswers)]
        exact hadds.trans hrest

/-- A controller takes the channel table over and adds its drives; other devices change
nothing. -/
theorem kernelEnterDevice_adds {slot : PciSlot} {st st' : IdeTables}
    (h : kernelEnterDevice st slot = some st') :
    (slot.dev.isIde ∧ st'.channels = slot.channels ∧
        st.Adds st' (slot.answering.map fun probe => (probe.1, slot.ports probe.1))) ∨
      (¬ slot.dev.isIde ∧ st' = st) := by
  rw [kernelEnterDevice] at h
  by_cases hide : slot.dev.isIde
  · rw [if_pos hide] at h
    obtain ⟨hchannels, hadds⟩ := @probes_add slot _ { st with channels := slot.channels } _ rfl h
    exact .inl ⟨hide, hchannels, hadds⟩
  · rw [if_neg hide] at h
    exact .inr ⟨hide, (Option.some.inj h).symm⟩

/-- The whole loop: all drives are added, and the channels are those of the last controller. -/
theorem kernelEnterDevices_adds {slots : List PciSlot} {st st' : IdeTables}
    (h : kernelEnterDevices slots st = some st') :
    st.Adds st' (answeringDrives slots) ∧
      st'.channels = ((ideControllers slots).getLast?.map PciSlot.channels).getD st.channels := by
  induction slots generalizing st with
  | nil =>
      cases h
      exact ⟨.nil rfl rfl, rfl⟩
  | cons slot slots ih =>
      obtain ⟨mid, hmid, hrest⟩ := Option.bind_eq_some_iff.mp h
      obtain ⟨hrest, hlast⟩ := ih hrest
      rw [answeringDrives, ideControllers, List.filter_cons]
      obtain ⟨hide, hchannels, hadds⟩ | ⟨hide, rfl⟩ := kernelEnterDevice_adds hmid
      · rw [if_pos (decide_eq_true hide), List.flatMap_cons, List.getLast?_cons]
        refine ⟨hadds.trans hrest, ?_⟩
        rw [hlast, hchannels, ideControllers]
        cases (slots.filter fun slot => slot.dev.isIde).getLast? <;> rfl
      · rw [if_neg (by simpa using hide)]
        exact ⟨hrest, hlast⟩

theorem kernelEnterDevices_start {slots : List PciSlot} {st : IdeTables}
    (h : kernelEnterDevices slots .start = some st) :
    st.writes.map IdeWrite.place = answeringDrives slots ∧
      st.writes.map IdeWrite.index =
        (List.range (answeringDrives slots).length).map (BitVec.ofNat 32) ∧
      st.driveCount = BitVec.ofNat 32 (answeringDrives slots).length := by
  obtain ⟨⟨added, hwrites, hplaces, hindex, hcount⟩, -⟩ := kernelEnterDevices_adds h
  have hzero (x : U32) : IdeTables.start.driveCount + x = x := BitVec.zero_add x
  obtain rfl : st.writes = added := hwrites
  simp only [hzero] at hindex hcount
  exact ⟨hplaces, hindex, hcount⟩

theorem index_lt_iff {slots : List PciSlot} {st : IdeTables}
    (h : kernelEnterDevices slots .start = some st) :
    (∀ w ∈ st.writes, w.index.toNat < 4) ↔ (answeringDrives slots).length ≤ 4 := by
  obtain ⟨-, hindex, -⟩ := kernelEnterDevices_start h
  constructor
  · intro hall
    by_contra hmany
    have hfifth : (4 : U32) ∈ st.writes.map IdeWrite.index := by
      rw [hindex]
      exact List.mem_map.mpr ⟨4, List.mem_range.mpr (Nat.not_le.mp hmany), rfl⟩
    obtain ⟨w, hw, hfour⟩ := List.mem_map.mp hfifth
    have hlt := hall w hw
    rw [hfour] at hlt
    exact absurd hlt (by decide)
  · intro hfew w hw
    have hmem := List.mem_map_of_mem (f := IdeWrite.index) hw
    rw [hindex] at hmem
    obtain ⟨i, hi, heq⟩ := List.mem_map.mp hmem
    have hi := List.mem_range.mp hi
    rw [← heq, BitVec.toNat_ofNat]
    omega

/-- Every drive is read where it answered exactly if the last controller has the same ports
for it. -/
theorem ports_eq_iff {slots : List PciSlot} {st : IdeTables}
    (h : kernelEnterDevices slots .start = some st) :
    (∀ w ∈ st.writes, st.ports w.drive.channel = w.ports) ↔
      ∀ slot ∈ ideControllers slots, ∀ probe ∈ slot.answering,
        ∀ last ∈ (ideControllers slots).getLast?, slot.ports probe.1 = last.ports probe.1 := by
  obtain ⟨hplaces, -, -⟩ := kernelEnterDevices_start h
  obtain ⟨-, hchannels⟩ := kernelEnterDevices_adds h
  have hlast {last : PciSlot} (hlast : last ∈ (ideControllers slots).getLast?) (channel : AtaCh) :
      st.ports channel = last.ports channel := by
    rw [Option.mem_def.mp hlast] at hchannels
    rw [IdeTables.ports, PciSlot.ports, hchannels]
    rfl
  constructor
  · intro hall slot hslot probe hprobe last hmem
    have hplace : (probe.1, slot.ports probe.1) ∈ st.writes.map IdeWrite.place := by
      rw [hplaces]
      exact List.mem_flatMap.mpr ⟨slot, hslot, List.mem_map_of_mem hprobe⟩
    obtain ⟨w, hw, heq⟩ := List.mem_map.mp hplace
    obtain ⟨hchannel, hports⟩ := Prod.mk.inj heq
    rw [← hports, ← hall w hw, hchannel, hlast hmem]
  · intro hall w hw
    have hplace := List.mem_map_of_mem (f := IdeWrite.place) hw
    rw [hplaces] at hplace
    obtain ⟨slot, hslot, hprobe⟩ := List.mem_flatMap.mp hplace
    obtain ⟨probe, hprobe, heq⟩ := List.mem_map.mp hprobe
    obtain ⟨hchannel, hports⟩ := Prod.mk.inj heq
    obtain ⟨last, hmem⟩ : ∃ last, last ∈ (ideControllers slots).getLast? :=
      Option.isSome_iff_exists.mp (List.getLast?_isSome.mpr (List.ne_nil_of_mem hslot))
    rw [← hports, ← hchannel, hlast hmem, hall slot hslot probe hprobe last hmem]

/-- After the loop every drive has room and is read where it answered, exactly if at most
four drives answered and each did so on ports that the last controller has, too. -/
theorem detected_drives_bound_iff (slots : List PciSlot) (st : IdeTables)
    (h : kernelEnterDevices slots .start = some st) :
    st.Bound ↔ (answeringDrives slots).length ≤ 4 ∧
      ∀ slot ∈ ideControllers slots, ∀ probe ∈ slot.answering,
        ∀ last ∈ (ideControllers slots).getLast?, slot.ports probe.1 = last.ports probe.1 := by
  obtain ⟨-, -, hcount⟩ := kernelEnterDevices_start h
  constructor
  · intro hbound
    exact ⟨(index_lt_iff h).mp hbound.index, (ports_eq_iff h).mp hbound.ports⟩
  · rintro ⟨hfew, hports⟩
    refine ⟨?_, (index_lt_iff h).mpr hfew, (ports_eq_iff h).mpr hports⟩
    rw [hcount, BitVec.toNat_ofNat]
    exact Nat.le_trans (Nat.mod_le _ _) hfew

/-- An IDE controller with these base address registers. -/
def ideControllerDev (bars : List U32) : PciDev where
  bus := 0
  dev := 1
  func := 1
  classStr := 0
  regData := zeros 10 ++ [1, 1] ++ zeros 4 ++ bars.flatMap (fun bar => leBytes 4 bar.toNat) ++
    zeros 32

/-- One drive, the master behind this base port. -/
def masterAt (base : U16) : AtaWorld := fun ports bus =>
  if ports.base = base ∧ bus = .master then ⟨[0x58, 0x58, 0x58], 0, 0, fun _ => 0x2020⟩
  else ⟨[0], 0, 0, fun _ => 0⟩

/-- A controller on the standard ports with one drive. -/
def standardSlot : PciSlot := ⟨ideControllerDev [0, 0, 0, 0, 0], masterAt 0x1F0⟩

/-- A controller on ports of its own with one drive. -/
def nativeSlot : PciSlot :=
  ⟨ideControllerDev [0xC001, 0xC009, 0xC011, 0xC019, 0xC021], masterAt 0xC001⟩

/-- Two controllers that answer on the same ports. -/
theorem detected_drives_bound_standard :
    ∃ st, kernelEnterDevices [standardSlot, standardSlot] .start = some st ∧
      st.driveCount = 2 ∧ st.Bound := by
  have hcount : (kernelEnterDevices [standardSlot, standardSlot] .start).map
      IdeTables.driveCount = some 2 := by decide
  obtain ⟨st, hst, htwo⟩ := Option.map_eq_some_iff.mp hcount
  exact ⟨st, hst, htwo, (detected_drives_bound_iff [standardSlot, standardSlot] st hst).mpr
    (by decide)⟩

/-- The drive of the first controller would be read through the ports of the second. -/
theorem detected_drives_lost_native :
    ∃ st, kernelEnterDevices [nativeSlot, standardSlot] .start = some st ∧ ¬ st.Bound := by
  have hsome : (kernelEnterDevices [nativeSlot, standardSlot] .start).isSome = true := by
    decide
  obtain ⟨st, hst⟩ := Option.isSome_iff_exists.mp hsome
  refine ⟨st, hst, fun hbound => ?_⟩
  have hports := (ports_eq_iff hst).mp hbound.ports
  exact absurd hports (by decide)

end DordOs
