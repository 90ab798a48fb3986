import DordOs.Drivers.IdeDetect
import DordOs.Lib.Search

/-!
`enumerate_and_initialize` of the second boot stage. Its PCI functions and `ide_initialize`
are those of the kernel, but the scan stops at the first IDE controller.
-/
namespace DordOs
open Lib

/-- What has been copied into `regs`. -/
def stage2Regs (space : PciSpace) (bus device func : U8) : Bytes :=
  forUp (0 : U32) 20 (fun i regs =>
    regs ++ leBytes 4 (readReg space bus device func ((i <<< 2).setWidth 8)).toNat) []

def stage2Reg32 (regs : Bytes) (offset : Nat) : U32 :=
  BitVec.ofNat 32 (leValue (slice regs offset 4))

/-- The body of the innermost loop, which returns with what `ide_initialize` leaves. -/
def stage2Probe (space : PciSpace) (world : AtaWorld) (bus device func : U8) :
    Option (Option IdeTables) :=
  let res : U16 := (readReg space bus device func 0).setWidth 16
  if res ≠ 0xFFFF then
    let regs := stage2Regs space bus device func
    if regs.getD pciHcHeaderType 0 = 0 ∧ regs.getD pciHcClass 0 = 1 ∧
        regs.getD pciHcSubclass 0 = 1 then
      some (ideInitialize world (stage2Reg32 regs pciH0Bar0) (stage2Reg32 regs pciH0Bar1)
        (stage2Reg32 regs pciH0Bar2) (stage2Reg32 regs pciH0Bar3) (stage2Reg32 regs pciH0Bar4)
        .start)
    else none
  else none

/-- `none` is the panic. -/
def enumerateAndInitialize (space : PciSpace) (world : AtaWorld) : Option (Option IdeTables) :=
  firstUp (0 : U16) pciMaxBus fun bus =>
    firstUp (0 : U8) pciMaxDevice fun device =>
      firstUp (0 : U8) pciMaxFunc fun func =>
        stage2Probe space world (bus.setWidth 8) device func

/-- `ide_initialize` for a device of the kernel's list. -/
def PciDev.ideSetUp (world : AtaWorld) (dev : PciDev) : Option IdeTables :=
  ideInitialize world (pciReg32 dev pciH0Bar0) (pciReg32 dev pciH0Bar1) (pciReg32 dev pciH0Bar2)
    (pciReg32 dev pciH0Bar3) (pciReg32 dev pciH0Bar4) .start

/-- What the scan returns with at a function. -/
def PciSpace.found (space : PciSpace) (pciGetClassStr : PciClassStr) (world : AtaWorld)
    (fn : PciFn) : Option (Option IdeTables) :=
  if (space fn).isSome ∧ (space.entry pciGetClassStr fn).isIde then
    some ((space.entry pciGetClassStr fn).ideSetUp world)
  else none

theorem leBytes_four (w : U32) :
    leBytes 4 w.toNat = (List.range 4).map fun k => w.extractLsb' (8 * k) 8 := by
  apply List.ext_getElem
  · rw [length_leBytes, List.length_map, List.length_range]
  · intro k hk hk'
    rw [length_leBytes] at hk
    have hword := getD_leBytes_word w hk
    rw [List.getD_eq_getElem?_getD, List.getElem?_eq_getElem (by rw [length_leBytes]; exact hk),
      Option.getD_some] at hword
    rw [hword, List.getElem_map, List.getElem_range]

section Scan

variable {space : PciSpace} {world : AtaWorld} {bus device func : U8}

/-- The registers are the first 80 bytes of the function's configuration space. -/
theorem stage2Regs_eq (space : PciSpace) (hdevice : device < 16) (hfunc : func < 8) :
    stage2Regs space bus device func =
      (List.range 80).map (space.byte ⟨bus, device.setWidth 5, func.setWidth 3⟩) := by
  refine @forUp_invariant Bytes 32 (fun n regs => regs =
    (List.range (4 * n)).map (space.byte ⟨bus, device.setWidth 5, func.setWidth 3⟩))
    0 20 _ (by decide) ?_ [] rfl
  rintro i regs - hi rfl
  have hi : i.toNat < 20 := hi
  obtain ⟨hreg, hwhole⟩ := register_offset i.toNat hi
  rw [BitVec.ofNat_toNat, BitVec.setWidth_eq] at hreg hwhole
  have hword : readReg space bus device func ((i <<< 2).setWidth 8) =
      space.dword ⟨bus, device.setWidth 5, func.setWidth 3⟩ (BitVec.ofNat 6 i.toNat) := by
    rw [readReg_eq space hdevice hfunc, hreg, hwhole]
    exact BitVec.ushiftRight_zero _
  rw [hword, leBytes_four, Nat.mul_add, List.range_add, List.map_append, List.map_map]
  congr 1
  refine List.map_congr_left fun k hk => ?_
  have hk := List.mem_range.mp hk
  have hdiv : (4 * i.toNat + k) / 4 = i.toNat := by omega
  have hmod : (4 * i.toNat + k) % 4 = k := by omega
  rw [Function.comp_apply, PciSpace.byte, hdiv, hmod]

/-- Where the two copies overlap they agree. -/
theorem slice_regData (fn : PciFn) (pciGetClassStr : PciClassStr) {offset n : Nat}
    (hin : offset + n ≤ pciHeaderMaxSize) :
    slice ((List.range 80).map (space.byte fn)) offset n =
      slice (space.entry pciGetClassStr fn).regData offset n := by
  refine slice_congr fun r hr => ?_
  have hlt : offset + r < pciHeaderMaxSize := by omega
  have hlt' : offset + r < 80 := Nat.lt_trans hlt (by decide)
  rw [PciSpace.entry, List.getElem?_map, List.getElem?_map, List.getElem?_range hlt',
    List.getElem?_range hlt]

theorem getD_regData (fn : PciFn) (pciGetClassStr : PciClassStr) (offset : Nat)
    (hin : offset < pciHeaderMaxSize) :
    ((List.range 80).map (space.byte fn)).getD offset 0 =
      (space.entry pciGetClassStr fn).regData.getD offset 0 := by
  have hlt : offset < 80 := Nat.lt_trans hin (by decide)
  rw [PciSpace.entry, List.getD_eq_getElem?_getD, List.getD_eq_getElem?_getD, List.getElem?_map,
    List.getElem?_map, List.getElem?_range hlt, List.getElem?_range hin]

/-- A probe returns for an IDE controller, and then as the kernel would set it up. -/
theorem stage2Probe_eq (pciGetClassStr : PciClassStr) (hdevice : device < 16) (hfunc : func < 8)
    {fn : PciFn} (hfn : fn = ⟨bus, device.setWidth 5, func.setWidth 3⟩) :
    stage2Probe space world bus device func = space.found pciGetClassStr world fn := by
  have hreg : (0 : U8).extractLsb' 2 6 = (0 : BitVec 6) := by decide
  have hshift : ((0 : U8) &&& 2).toNat * 8 = 0 := by decide
  have hvendor : readReg space bus device func 0 = space.dword fn 0 := by
    rw [readReg_eq space hdevice hfunc, hreg, hshift, ← hfn]
    exact BitVec.ushiftRight_zero _
  have hide : ((stage2Regs space bus device func).getD pciHcHeaderType 0 = 0 ∧
      (stage2Regs space bus device func).getD pciHcClass 0 = 1 ∧
      (stage2Regs space bus device func).getD pciHcSubclass 0 = 1) ↔
        (space.entry pciGetClassStr fn).isIde := by
    rw [stage2Regs_eq space hdevice hfunc, ← hfn,
      getD_regData fn pciGetClassStr pciHcHeaderType (by decide),
      getD_regData fn pciGetClassStr pciHcClass (by decide),
      getD_regData fn pciGetClassStr pciHcSubclass (by decide)]
    exact Iff.rfl
  have hbar {offset : Nat} (hin : offset + 4 ≤ pciHeaderMaxSize) :
      stage2Reg32 (stage2Regs space bus device func) offset =
        pciReg32 (space.entry pciGetClassStr fn) offset := by
    rw [stage2Reg32, stage2Regs_eq space hdevice hfunc, ← hfn,
      slice_regData fn pciGetClassStr hin, pciReg32]
  rw [stage2Probe, PciSpace.found]
  dsimp only
  rw [hvendor]
  by_cases hsome : (space fn).isSome
  · rw [if_pos ((vendor_iff space fn).mpr hsome)]
    by_cases hdev : (space.entry pciGetClassStr fn).isIde
    · rw [if_pos (hide.mpr hdev), if_pos ⟨hsome, hdev⟩, PciDev.ideSetUp, hbar (by decide),
        hbar (by decide), hbar (by decide), hbar (by decide), hbar (by decide)]
    · rw [if_neg (mt hide.mp hdev), if_neg fun h => hdev h.2]
  · rw [if_neg (mt (vendor_iff space fn).mp hsome), if_neg fun h => hsome h.1]

/-- The scan finds the first IDE controller of the kernel's list. -/
theorem enumerateAndInitialize_eq (space : PciSpace) (world : AtaWorld)
    (pciGetClassStr : PciClassStr) (table : Region) :
    enumerateAndInitialize space world =
      ((pciEnumerate space pciGetClassStr table).devices.find? fun dev => dev.isIde).map
        (PciDev.ideSetUp world) := by
  have hbus (i : Nat) : (BitVec.ofNat 16 i).setWidth 8 = BitVec.ofNat 8 i :=
    BitVec.setWidth_ofNat_of_le (by decide) i
  have hbounds : pciMaxBus.toNat = 255 ∧ pciMaxDevice.toNat = 16 ∧ pciMaxFunc.toNat = 4 := by decide
  have hprobe : ∀ place ∈ pciPlaces 255 16 4,
      stage2Probe space world (BitVec.ofNat 8 place.1) (BitVec.ofNat 8 place.2.1)
        (BitVec.ofNat 8 place.2.2) =
          space.found pciGetClassStr world (PciFn.ofNats place) := by
    intro place hplace
    obtain ⟨-, hdevice, hfunc⟩ := mem_pciPlaces.mp hplace
    exact stage2Probe_eq pciGetClassStr (ofNat_lt (by decide) hdevice)
      (ofNat_lt (by decide) (Nat.lt_trans hfunc (by decide))) (PciFn.ofNats_setWidth place).symm
  have hplaces : enumerateAndInitialize space world = (pciPlaces 255 16 4).findSome?
      fun place => space.found pciGetClassStr world (PciFn.ofNats place) := by
    rw [← findSome?_congr hprobe]
    simp only [enumerateAndInitialize, firstUp_zero_eq_findSome, hbus, hbounds.1, hbounds.2.1,
      hbounds.2.2, pciPlaces, findSome?_product]
  have hpresent : (pciPlaces 255 16 4).findSome?
      (fun place => space.found pciGetClassStr world (PciFn.ofNats place)) =
        (space.presentAt (pciPlaces 255 16 4)).findSome? (space.found pciGetClassStr world) := by
    rw [PciSpace.presentAt, findSome?_filter, List.findSome?_map]
    · rfl
    · intro fn _ habsent
      exact if_neg fun h => absurd (h.1.symm.trans habsent) (by decide)
  have hdevices : (space.presentAt (pciPlaces 255 16 4)).findSome?
      (space.found pciGetClassStr world) =
        (pciEnumerate space pciGetClassStr table).devices.findSome? fun dev =>
          if dev.isIde then some (dev.ideSetUp world) else none := by
    rw [pciEnumerate_devices, List.findSome?_map]
    refine findSome?_congr fun fn hfn => ?_
    have hsome : (space fn).isSome := (List.mem_filter.mp hfn).2
    rw [PciSpace.found, Function.comp_apply]
    by_cases hdev : (space.entry pciGetClassStr fn).isIde
    · rw [if_pos ⟨hsome, hdev⟩, if_pos hdev]
    · rw [if_neg fun h => hdev h.2, if_neg hdev]
  rw [hplaces, hpresent, hdevices, findSome?_ite]

end Scan

/-- The kernel's loop over its devices adds to what the first controller has. -/
theorem kernelEnterDevices_prefix {slots : List PciSlot} {st st' : IdeTables}
    (h : kernelEnterDevices slots st = some st') : st.writes <+: st'.writes := by
  obtain ⟨⟨added, hwrites, -⟩, -⟩ := kernelEnterDevices_adds h
  exact ⟨added, hwrites.symm⟩

/-- Devices that are no IDE controllers change nothing. -/
theorem kernelEnterDevices_append {before after : List PciSlot} {slot : PciSlot} {st : IdeTables}
    (hbefore : ∀ s ∈ before, ¬ s.dev.isIde) :
    kernelEnterDevices (before ++ slot :: after) st =
      kernelEnterDevices (slot :: after) st := by
  induction before with
  | nil => rfl
  | cons s before ih =>
      have hskip : kernelEnterDevice st s = some st := if_neg (hbefore s List.mem_cons_self)
      rw [List.cons_append, kernelEnterDevices, List.foldlM_cons, hskip]
      exact ih fun s hs => hbefore s (List.mem_cons_of_mem _ hs)

theorem kernelEnterDevices_skip {slots : List PciSlot} {st : IdeTables}
    (h : ∀ s ∈ slots, ¬ s.dev.isIde) : kernelEnterDevices slots st = some st := by
  induction slots with
  | nil => rfl
  | cons s slots ih =>
      have hskip : kernelEnterDevice st s = some st := if_neg (h s List.mem_cons_self)
      rw [kernelEnterDevices, List.foldlM_cons, hskip]
      exact ih fun s hs => h s (List.mem_cons_of_mem _ hs)

/-- Stage 2 panics iff the kernel would find no IDE controller. Otherwise, as long as the
ports answer the same in both scans, its drives are the first ones of the kernel's table, and
all of them when there is one controller. -/
theorem enumerate_agrees_with_kernel (space : PciSpace) (world : AtaWorld)
    (pciGetClassStr : PciClassStr) (table : Region) (slots : List PciSlot)
    (devices : slots.map PciSlot.dev = (pciEnumerate space pciGetClassStr table).devices)
    (ports : ∀ slot ∈ slots, slot.world = world) :
    (enumerateAndInitialize space world = none ↔ ideControllers slots = []) ∧
      ∀ st, ideControllers slots ≠ [] → kernelEnterDevices slots .start = some st →
        ∃ st', enumerateAndInitialize space world = some (some st') ∧ st'.writes <+: st.writes ∧
          ((ideControllers slots).length = 1 → st' = st) := by
  have hscan := enumerateAndInitialize_eq space world pciGetClassStr table
  rw [← devices, List.find?_map] at hscan
  cases hfind : slots.find? fun slot => slot.dev.isIde with
  | none =>
      have hnone := List.find?_eq_none.mp hfind
      have hempty : ideControllers slots = [] := List.filter_eq_nil_iff.mpr hnone
      rw [show slots.find? ((fun dev : PciDev => decide dev.isIde) ∘ PciSlot.dev) = none from hfind]
        at hscan
      exact ⟨⟨fun _ => hempty, fun _ => hscan⟩, fun st hne => absurd hempty hne⟩
  | some slot =>
      obtain ⟨hide, before, after, hslots, hbefore⟩ := List.find?_eq_some_iff_append.mp hfind
      have hide := of_decide_eq_true hide
      have hskip : ∀ s ∈ before, ¬ s.dev.isIde := fun s hs => by simpa using hbefore s hs
      have hcontrollers : ideControllers slots = slot :: ideControllers after := by
        rw [hslots, ideControllers, List.filter_append,
          List.filter_eq_nil_iff.mpr (by simpa using hskip), List.nil_append,
          @List.filter_cons_of_pos _ (fun slot : PciSlot => decide slot.dev.isIde) _ _
            (decide_eq_true hide)]
        rfl
      have hworld : slot.world = world := ports slot (by rw [hslots]; simp)
      rw [show slots.find? ((fun dev : PciDev => decide dev.isIde) ∘ PciSlot.dev) = some slot
        from hfind] at hscan
      have hscan : enumerateAndInitialize space world = some (slot.dev.ideSetUp world) := hscan
      refine ⟨⟨fun h => ?_, fun h => ?_⟩, fun st _ hkernel => ?_⟩
      · rw [hscan] at h
        cases h
      · rw [hcontrollers] at h
        cases h
      · rw [hslots, kernelEnterDevices_append hskip] at hkernel
        obtain ⟨mid, hmid, hrest⟩ := Option.bind_eq_some_iff.mp hkernel
        have hmid : slot.dev.ideSetUp world = some mid := by
          rw [← hmid, kernelEnterDevice, if_pos hide, hworld]
          rfl
        refine ⟨mid, by rw [hscan, hmid], kernelEnterDevices_prefix hrest, fun hone => ?_⟩
        rw [hcontrollers, List.length_cons] at hone
        have hlast : ideControllers after = [] := List.length_eq_zero_iff.mp (by omega)
        have hafter : ∀ s ∈ after, ¬ s.dev.isIde := fun s hs => by
          simpa using List.filter_eq_nil_iff.mp hlast s hs
        have hsame := (kernelEnterDevices_skip hafter).symm.trans hrest
        exact Option.some.inj hsame

/-- An IDE controller without base addresses of its own. -/
def legacyConfig : PciConfig where
  reg reg := if reg = 0 then 0x70108086 else if reg = 2 then 0x01010000 else 0
  vendor := by decide

/-- Two such controllers. -/
def legacySpace : PciSpace := onlyFunctions legacyConfig [⟨0, 2, 0⟩, ⟨0, 1, 1⟩]

/-- Both of them as the kernel lists them, with one drive at their ports. -/
def legacySlots : List PciSlot :=
  [⟨0, 1, 1⟩, ⟨0, 2, 0⟩].map fun fn => ⟨legacySpace.entry (fun _ _ _ => 0) fn, masterAt 0x1F0⟩

theorem presentAt_legacySpace :
    legacySpace.presentAt (pciPlaces 255 16 4) = [⟨0, 1, 1⟩, ⟨0, 2, 0⟩] :=
  (@presentAt_bus0 legacySpace (bus_onlyFunctions (by decide)) 254 (by decide) 16 4).trans
    (by decide +kernel)

theorem devices_legacySpace (pciGetClassStr : PciClassStr) (table : Region) :
    (pciEnumerate legacySpace pciGetClassStr table).devices =
      [legacySpace.entry pciGetClassStr ⟨0, 1, 1⟩, legacySpace.entry pciGetClassStr ⟨0, 2, 0⟩] := by
  rw [pciEnumerate_devices, presentAt_legacySpace]
  rfl

/-- The kernel has a drive of each of the two, stage 2 only that of the first. -/
theorem enumerate_agrees_with_kernel_legacy :
    ∃ st st', kernelEnterDevices legacySlots .start = some st ∧
      enumerateAndInitialize legacySpace (masterAt 0x1F0) = some (some st') ∧
      st'.writes <+: st.writes ∧ st.writes.length = 2 := by
  have devices : legacySlots.map PciSlot.dev =
      (pciEnumerate legacySpace (fun _ _ _ => 0) (fun _ => 0)).devices := by
    rw [devices_legacySpace]
    rfl
  have ports : ∀ slot ∈ legacySlots, slot.world = masterAt 0x1F0 := by
    intro slot hslot
    obtain ⟨fn, -, rfl⟩ := List.mem_map.mp hslot
    rfl
  have htwo : (kernelEnterDevices legacySlots .start).map (fun st => st.writes.length) =
      some 2 := by decide
  obtain ⟨st, hst, hlength⟩ := Option.map_eq_some_iff.mp htwo
  have hagree := enumerate_agrees_with_kernel legacySpace (masterAt 0x1F0) (fun _ _ _ => 0)
    (fun _ => 0) legacySlots devices ports
  obtain ⟨st', hscan, hprefix, -⟩ := hagree.2 st (by decide) hst
  exact ⟨st, st', hst, hscan, hprefix, hlength⟩

end DordOs
