import DordOs.Lib.Loop
import DordOs.Lib.Region
import DordOs.Libk.Align
import Mathlib.Data.List.Flatten
import Mathlib.Data.List.Nodup
import Mathlib.Data.List.Perm.Subperm
import Mathlib.Data.List.ProdSigma

/-!
`pci_enumerate`: the functions of the configuration space that answer are listed in
`pci_devices`, a table of 76-byte entries. `pci_read_registers` copies 80 bytes into a
field of 68, so the end of each entry's copy lies over the beginning of the next entry.
-/
namespace DordOs
open Lib

/-- The place of a function. -/
structure PciFn where
  bus : U8
  device : BitVec 5
  func : BitVec 3
  deriving DecidableEq

/-- The registers of a function that is present: its vendor id is a valid one. -/
structure PciConfig where
  reg : BitVec 6 → U32
  vendor : (reg 0).setWidth 16 ≠ (0xFFFF : U16)

abbrev PciSpace := PciFn → Option PciConfig

/-- What reads of a register give; nothing drives the bus for an absent function. -/
def PciSpace.dword (space : PciSpace) (fn : PciFn) (reg : BitVec 6) : U32 :=
  match space fn with
  | none => 0xFFFFFFFF
  | some config => config.reg reg

/-- The data port while `addr` is in the address port. -/
def PciSpace.inl (space : PciSpace) (addr : U32) : U32 :=
  if addr.getLsbD 31 then
    space.dword ⟨addr.extractLsb' 16 8, addr.extractLsb' 11 5, addr.extractLsb' 8 3⟩
      (addr.extractLsb' 2 6)
  else 0xFFFFFFFF

def pciMaxBus : U16 := 0xFF
def pciMaxDevice : U8 := 0x10
def pciMaxFunc : U8 := 0x04
def pciHeaderMaxSize : Nat := 0x44

def makeAddr (bus device func offset : U8) : U32 :=
  1 <<< 31 ||| bus.setWidth 32 <<< 16 ||| (device.setWidth 32 &&& 0xF) <<< 11 |||
    (func.setWidth 32 &&& 0xF) <<< 8 ||| (offset &&& 0xFC).setWidth 32

def readReg (space : PciSpace) (bus device func offset : U8) : U32 :=
  space.inl (makeAddr bus device func offset) >>> ((offset &&& 2).toNat * 8)

/-- `sizeof(pci_dev_t)`; `class_str` is at 4 and `reg_data` at 8. -/
def pciDevSize : Nat := 76

/-- `pci_get_class_str`: the addresses of its strings. -/
abbrev PciClassStr := U8 → U8 → U8 → U32

/-- The entry at offset `dev`. -/
def pciReadRegisters (space : PciSpace) (pciGetClassStr : PciClassStr) (dev : Nat)
    (m : Region) : Region :=
  let m := forUp (0 : U32) 20 (fun i m => m.put (dev + 8 + 4 * i.toNat) (leBytes 4
    (readReg space (m dev) (m (dev + 1)) (m (dev + 2)) ((i <<< 2).setWidth 8)).toNat)) m
  m.put (dev + 4) (leBytes 4
    (pciGetClassStr (m (dev + 8 + 0x0B)) (m (dev + 8 + 0x0A)) (m (dev + 8 + 0x09))).toNat)

/-- The memory from `pci_devices` on, and `dev_count`. -/
structure PciScan where
  table : Region
  devCount : U32

/-- The body of the innermost loop. -/
def pciProbe (space : PciSpace) (pciGetClassStr : PciClassStr) (bus device func : U8)
    (st : PciScan) : PciScan :=
  let res : U16 := (readReg space bus device func 0).setWidth 16
  if res ≠ 0xFFFF then
    let dev := pciDevSize * st.devCount.toNat
    { table := pciReadRegisters space pciGetClassStr dev (st.table.put dev [bus, device, func])
      devCount := st.devCount + 1 }
  else st

def pciEnumerate (space : PciSpace) (pciGetClassStr : PciClassStr) (table : Region) : PciScan :=
  forUp (0 : U16) pciMaxBus (fun bus st =>
    forUp (0 : U8) pciMaxDevice (fun device st =>
      forUp (0 : U8) pciMaxFunc (fun func st =>
        pciProbe space pciGetClassStr (bus.setWidth 8) device func st) st) st) ⟨table, 0⟩

/-- `pci_dev_t`. -/
structure PciDev where
  bus : U8
  dev : U8
  func : U8
  classStr : U32
  regData : Bytes
  deriving DecidableEq

/-- The entry at offset `dev`, as it is read from the table. -/
def pciDevAt (m : Region) (dev : Nat) : PciDev where
  bus := m dev
  dev := m (dev + 1)
  func := m (dev + 2)
  classStr := BitVec.ofNat 32 (leValue (m.get (dev + 4) 4))
  regData := m.get (dev + 8) pciHeaderMaxSize

/-- The list `pci_enumerate` returns. -/
def PciScan.devices (st : PciScan) : List PciDev :=
  (List.range st.devCount.toNat).map fun i => pciDevAt st.table (pciDevSize * i)

namespace PciSpace

/-- Byte `k` of the configuration space of a function. -/
def byte (space : PciSpace) (fn : PciFn) (k : Nat) : U8 :=
  (space.dword fn (BitVec.ofNat 6 (k / 4))).extractLsb' (8 * (k % 4)) 8

/-- What the list should hold for a function. -/
def entry (space : PciSpace) (pciGetClassStr : PciClassStr) (fn : PciFn) : PciDev where
  bus := fn.bus
  dev := fn.device.setWidth 8
  func := fn.func.setWidth 8
  classStr := pciGetClassStr (space.byte fn 0x0B) (space.byte fn 0x0A) (space.byte fn 0x09)
  regData := (List.range pciHeaderMaxSize).map (space.byte fn)

end PciSpace

/-- A function by numbers. -/
def PciFn.ofNats (place : Nat × Nat × Nat) : PciFn :=
  ⟨BitVec.ofNat 8 place.1, BitVec.ofNat 5 place.2.1, BitVec.ofNat 3 place.2.2⟩

/-- The places below some bounds, in scan order. -/
def pciPlaces (buses devices funcs : Nat) : List (Nat × Nat × Nat) :=
  List.range buses ×ˢ (List.range devices ×ˢ List.range funcs)

/-- The functions present at some places. -/
def PciSpace.presentAt (space : PciSpace) (places : List (Nat × Nat × Nat)) : List PciFn :=
  (places.map PciFn.ofNats).filter fun fn => (space fn).isSome

/-- The present functions of the whole space, in scan order. -/
def PciSpace.present (space : PciSpace) : List PciFn := space.presentAt (pciPlaces 256 32 8)

/-- The functions `pci_enumerate` looks at. -/
def PciFn.Scanned (fn : PciFn) : Prop :=
  fn.bus.toNat < pciMaxBus.toNat ∧ fn.device.toNat < pciMaxDevice.toNat ∧
    fn.func.toNat < pciMaxFunc.toNat

section Address

variable {bus device func offset : U8}

theorem makeAddr_enabled : (makeAddr bus device func offset).getLsbD 31 = true := by
  simp [makeAddr]

theorem makeAddr_bus : (makeAddr bus device func offset).extractLsb' 16 8 = bus := by
  apply BitVec.eq_of_getLsbD_eq
  intro i hi
  have hbits : i = 0 ∨ i = 1 ∨ i = 2 ∨ i = 3 ∨ i = 4 ∨ i = 5 ∨ i = 6 ∨ i = 7 := by omega
  rcases hbits with rfl | rfl | rfl | rfl | rfl | rfl | rfl | rfl <;> simp [makeAddr]

/-- Only 4 of the 5 bits of a device number are kept, and a function number of 4 bits
would reach into them. -/
theorem makeAddr_device (hdevice : device < 16) (hfunc : func < 8) :
    (makeAddr bus device func offset).extractLsb' 11 5 = device.setWidth 5 := by
  have hdevice4 : device[4] = false := Nat.testBit_lt_two_pow (BitVec.lt_def.mp hdevice)
  have hfunc3 : func[3] = false := Nat.testBit_lt_two_pow (BitVec.lt_def.mp hfunc)
  apply BitVec.eq_of_getLsbD_eq
  intro i hi
  have hbits : i = 0 ∨ i = 1 ∨ i = 2 ∨ i = 3 ∨ i = 4 := by omega
  rcases hbits with rfl | rfl | rfl | rfl | rfl <;> simp [makeAddr, hdevice4, hfunc3]

theorem makeAddr_func : (makeAddr bus device func offset).extractLsb' 8 3 = func.setWidth 3 := by
  apply BitVec.eq_of_getLsbD_eq
  intro i hi
  have hbits : i = 0 ∨ i = 1 ∨ i = 2 := by omega
  rcases hbits with rfl | rfl | rfl <;> simp [makeAddr]

theorem makeAddr_offset :
    (makeAddr bus device func offset).extractLsb' 2 6 = offset.extractLsb' 2 6 := by
  apply BitVec.eq_of_getLsbD_eq
  intro i hi
  have hbits : i = 0 ∨ i = 1 ∨ i = 2 ∨ i = 3 ∨ i = 4 ∨ i = 5 := by omega
  rcases hbits with rfl | rfl | rfl | rfl | rfl | rfl <;> simp [makeAddr]

theorem readReg_eq (space : PciSpace) (hdevice : device < 16) (hfunc : func < 8) :
    readReg space bus device func offset =
      space.dword ⟨bus, device.setWidth 5, func.setWidth 3⟩ (offset.extractLsb' 2 6) >>>
        ((offset &&& 2).toNat * 8) := by
  rw [readReg, PciSpace.inl, if_pos makeAddr_enabled, makeAddr_bus,
    makeAddr_device hdevice hfunc, makeAddr_func, makeAddr_offset]

end Address

theorem register_offset : ∀ i < 20,
    ((BitVec.ofNat 32 i <<< 2).setWidth 8 : U8).extractLsb' 2 6 = BitVec.ofNat 6 i ∧
      (BitVec.ofNat 32 i <<< 2).setWidth 8 &&& (2 : U8) = 0 := by
  decide

theorem getD_leBytes_word (w : U32) {k : Nat} (hk : k < 4) :
    (leBytes 4 w.toNat).getD k 0 = w.extractLsb' (8 * k) 8 := by
  have hpow : 256 ^ k = 2 ^ (8 * k) := (Nat.pow_mul 2 8 k).symm
  apply BitVec.eq_of_toNat_eq
  rw [getD_leBytes hk, BitVec.toNat_ofNat, BitVec.extractLsb'_toNat, Nat.shiftRight_eq_div_pow,
    hpow]

section Registers

variable {space : PciSpace} {pciGetClassStr : PciClassStr} {m : Region} {dev : Nat}

/-- The place an entry names. -/
def entryFn (m : Region) (dev : Nat) : PciFn :=
  ⟨m dev, (m (dev + 1)).setWidth 5, (m (dev + 2)).setWidth 3⟩

/-- The loop of `pci_read_registers`: 80 bytes of the function's own registers, over
nothing before them. -/
theorem registers_loop (space : PciSpace) (hdevice : m (dev + 1) < 16) (hfunc : m (dev + 2) < 8)
    {m' : Region} (hm' : m' = forUp (0 : U32) 20 (fun i m =>
      m.put (dev + 8 + 4 * i.toNat) (leBytes 4
        (readReg space (m dev) (m (dev + 1)) (m (dev + 2)) ((i <<< 2).setWidth 8)).toNat)) m) :
    (∀ a, a < dev + 8 → m' a = m a) ∧
      ∀ k, k < 80 → m' (dev + 8 + k) = space.byte (entryFn m dev) k := by
  subst hm'
  refine @forUp_invariant Region 32 (fun n m' => (∀ a, a < dev + 8 → m' a = m a) ∧
      ∀ k, k < 4 * n → m' (dev + 8 + k) = space.byte (entryFn m dev) k)
    0 20 _ (by decide) ?_ m ⟨fun _ _ => rfl, fun k hk => absurd hk (Nat.not_lt_zero k)⟩
  rintro i s - hi ⟨hbefore, hwords⟩
  have hi : i.toNat < 20 := hi
  obtain ⟨hreg, hwhole⟩ := register_offset i.toNat hi
  rw [BitVec.ofNat_toNat, BitVec.setWidth_eq] at hreg hwhole
  have hword : readReg space (s dev) (s (dev + 1)) (s (dev + 2)) ((i <<< 2).setWidth 8) =
      space.dword (entryFn m dev) (BitVec.ofNat 6 i.toNat) := by
    rw [hbefore dev (by omega), hbefore (dev + 1) (by omega), hbefore (dev + 2) (by omega),
      readReg_eq space hdevice hfunc, hreg, hwhole]
    exact BitVec.ushiftRight_zero _
  rw [hword]
  refine ⟨fun a ha => ?_, fun k hk => ?_⟩
  · rw [Region.put_outside (by omega), hbefore a ha]
  · by_cases hlt : k < 4 * i.toNat
    · rw [Region.put_outside (by omega), hwords k hlt]
    · obtain ⟨j, rfl⟩ := Nat.exists_eq_add_of_le (Nat.not_lt.mp hlt)
      have hj : j < 4 := by omega
      have hdiv : (4 * i.toNat + j) / 4 = i.toNat := by omega
      have hmod : (4 * i.toNat + j) % 4 = j := by omega
      rw [← Nat.add_assoc, Region.put_inside (by rw [length_leBytes]; exact hj),
        getD_leBytes_word _ hj, PciSpace.byte, hdiv, hmod]

/-- The copy loop, and the class string stored over what it leaves. -/
theorem pciReadRegisters_loop (space : PciSpace) (pciGetClassStr : PciClassStr) (m : Region)
    (dev : Nat) :
    ∃ loop, loop = forUp (0 : U32) 20 (fun i m => m.put (dev + 8 + 4 * i.toNat) (leBytes 4
        (readReg space (m dev) (m (dev + 1)) (m (dev + 2)) ((i <<< 2).setWidth 8)).toNat)) m ∧
      pciReadRegisters space pciGetClassStr dev m = loop.put (dev + 4) (leBytes 4 (pciGetClassStr
        (loop (dev + 8 + 0x0B)) (loop (dev + 8 + 0x0A)) (loop (dev + 8 + 0x09))).toNat) :=
  ⟨_, rfl, rfl⟩

theorem pciReadRegisters_spec (space : PciSpace) (pciGetClassStr : PciClassStr)
    (hdevice : m (dev + 1) < 16) (hfunc : m (dev + 2) < 8) {m' : Region}
    (hm' : m' = pciReadRegisters space pciGetClassStr dev m) :
    (∀ a, a < dev + 4 → m' a = m a) ∧
      (pciDevAt m' dev).classStr = (space.entry pciGetClassStr (entryFn m dev)).classStr ∧
      (pciDevAt m' dev).regData = (space.entry pciGetClassStr (entryFn m dev)).regData := by
  obtain ⟨loop, hloop, hread⟩ := pciReadRegisters_loop space pciGetClassStr m dev
  obtain ⟨hbefore, hwords⟩ := registers_loop space hdevice hfunc hloop
  rw [hread, hwords 0x0B (by decide), hwords 0x0A (by decide), hwords 0x09 (by decide)] at hm'
  subst hm'
  refine ⟨fun a ha => ?_, ?_, ?_⟩
  · rw [Region.put_outside (by omega), hbefore a (by omega)]
  · obtain ⟨cls, hcls⟩ : ∃ cls, pciGetClassStr (space.byte (entryFn m dev) 0x0B)
        (space.byte (entryFn m dev) 0x0A) (space.byte (entryFn m dev) 0x09) = cls := ⟨_, rfl⟩
    have hget := Region.get_put_self loop (dev + 4) (leBytes 4 cls.toNat)
    rw [length_leBytes] at hget
    simp only [pciDevAt, PciSpace.entry, hcls]
    rw [hget, leValue_leBytes cls.isLt, BitVec.ofNat_toNat, BitVec.setWidth_eq]
  · refine List.map_congr_left fun k hk => ?_
    have hk : k < 68 := List.mem_range.mp hk
    rw [Region.put_outside (by rw [length_leBytes]; omega), hwords k (by omega)]

theorem pciDevAt_congr {m' : Region} (h : ∀ a, dev ≤ a → a < dev + pciDevSize → m' a = m a) :
    pciDevAt m' dev = pciDevAt m dev := by
  have hsize : pciDevSize = 76 := rfl
  have hheader : pciHeaderMaxSize = 68 := rfl
  have hcls : m'.get (dev + 4) 4 = m.get (dev + 4) 4 :=
    Region.get_congr fun k hk => h _ (by omega) (by omega)
  have hdata : m'.get (dev + 8) pciHeaderMaxSize = m.get (dev + 8) pciHeaderMaxSize :=
    Region.get_congr fun k hk => h _ (by omega) (by omega)
  simp only [pciDevAt]
  rw [h dev (by omega) (by omega), h (dev + 1) (by omega) (by omega),
    h (dev + 2) (by omega) (by omega), hcls, hdata]

end Registers

section Scan

variable {space : PciSpace} {pciGetClassStr : PciClassStr} {st : PciScan} {fns : List PciFn}

/-- The table lists these functions. -/
structure PciScan.Lists (space : PciSpace) (pciGetClassStr : PciClassStr) (st : PciScan)
    (fns : List PciFn) : Prop where
  count : st.devCount.toNat = fns.length
  devices : st.devices = fns.map (space.entry pciGetClassStr)

/-- Functions that are absent answer with the vendor id 0xFFFF, and only these. -/
theorem vendor_iff (space : PciSpace) (fn : PciFn) :
    ((space.dword fn 0).setWidth 16 : U16) ≠ 0xFFFF ↔ (space fn).isSome = true := by
  cases hfn : space fn with
  | none => simp [PciSpace.dword, hfn]
  | some config => simpa [PciSpace.dword, hfn] using config.vendor

theorem setWidth_setWidth {w : Nat} (x : U8) (h : x.toNat < 2 ^ w) :
    (x.setWidth w).setWidth 8 = x := by
  apply BitVec.eq_of_toNat_eq
  rw [BitVec.toNat_setWidth, BitVec.toNat_setWidth, Nat.mod_eq_of_lt h, Nat.mod_eq_of_lt x.isLt]

theorem fill_entry (space : PciSpace) (pciGetClassStr : PciClassStr) (table : Region) (dev : Nat)
    {bus device func : U8} (hdevice : device < 16) (hfunc : func < 8) {m' : Region}
    (hm' : m' = pciReadRegisters space pciGetClassStr dev (table.put dev [bus, device, func])) :
    (∀ a, a < dev → m' a = table a) ∧
      pciDevAt m' dev =
        space.entry pciGetClassStr ⟨bus, device.setWidth 5, func.setWidth 3⟩ := by
  obtain ⟨m, hm⟩ : ∃ m, table.put dev [bus, device, func] = m := ⟨_, rfl⟩
  have h0 : m dev = bus := hm ▸ Region.put_inside (k := 0) (show 0 < 3 by decide)
  have h1 : m (dev + 1) = device := hm ▸ Region.put_inside (show 1 < 3 by decide)
  have h2 : m (dev + 2) = func := hm ▸ Region.put_inside (show 2 < 3 by decide)
  rw [hm] at hm'
  obtain ⟨hbefore, hcls, hdata⟩ := pciReadRegisters_spec space pciGetClassStr (h1 ▸ hdevice)
    (h2 ▸ hfunc) hm'
  refine ⟨fun a ha => ?_, ?_⟩
  · rw [hbefore a (by omega), ← hm, Region.put_outside (.inl ha)]
  · have hdevice5 : device.toNat < 2 ^ 5 := Nat.lt_trans (BitVec.lt_def.mp hdevice) (by decide)
    rw [entryFn, h0, h1, h2] at hcls hdata
    simp only [PciSpace.entry] at hcls hdata ⊢
    rw [setWidth_setWidth device hdevice5, setWidth_setWidth func (BitVec.lt_def.mp hfunc), ← hcls,
      ← hdata, ← h0, ← h1, ← h2, ← hbefore dev (by omega), ← hbefore (dev + 1) (by omega),
      ← hbefore (dev + 2) (by omega)]
    rfl

/-- A function that answers is listed after the others, one that does not changes nothing. -/
theorem PciScan.Lists.probe (h : st.Lists space pciGetClassStr fns) {bus device func : U8}
    (hdevice : device < 16) (hfunc : func < 8) (hroom : fns.length + 1 < 2 ^ 32) :
    (pciProbe space pciGetClassStr bus device func st).Lists space pciGetClassStr
      (fns ++ if (space ⟨bus, device.setWidth 5, func.setWidth 3⟩).isSome then
        [⟨bus, device.setWidth 5, func.setWidth 3⟩] else []) := by
  obtain ⟨fn, hfn⟩ : ∃ fn, (⟨bus, device.setWidth 5, func.setWidth 3⟩ : PciFn) = fn := ⟨_, rfl⟩
  have hres : readReg space bus device func 0 = space.dword fn 0 := by
    rw [readReg_eq space hdevice hfunc, hfn]
    exact BitVec.ushiftRight_zero _
  rw [hfn, pciProbe, hres]
  dsimp only
  by_cases hpresent : (space fn).isSome = true
  · rw [if_pos ((vendor_iff space fn).mpr hpresent), if_pos hpresent]
    have hcount := h.count
    obtain ⟨hbefore, hentry⟩ := fill_entry space pciGetClassStr st.table
      (pciDevSize * st.devCount.toNat) hdevice hfunc rfl
    have hone : (1 : U32).toNat = 1 := rfl
    have hsucc : (st.devCount + 1).toNat = fns.length + 1 := by
      rw [BitVec.toNat_add, hcount, hone]
      exact Nat.mod_eq_of_lt hroom
    refine ⟨?_, ?_⟩
    · rw [hsucc, List.length_append]
      rfl
    · have hdevices := h.devices
      simp only [PciScan.devices] at hdevices ⊢
      rw [hsucc, List.range_succ, List.map_append, List.map_append, ← hdevices, hcount]
      congr 1
      · refine List.map_congr_left fun i hi => pciDevAt_congr fun a _ ha => ?_
        have hi : i < fns.length := List.mem_range.mp hi
        have hsize : pciDevSize = 76 := rfl
        rw [hsize] at ha
        rw [← hcount]
        exact hbefore a (by rw [hsize]; omega)
      · rw [List.map_singleton, List.map_singleton, ← hcount, hentry, hfn]
  · rw [if_neg (mt (vendor_iff space fn).mp hpresent), if_neg hpresent, List.append_nil]
    exact h

/-- The body of the innermost loop at a place. -/
def pciProbeAt (space : PciSpace) (pciGetClassStr : PciClassStr) (st : PciScan)
    (place : Nat × Nat × Nat) : PciScan :=
  pciProbe space pciGetClassStr (BitVec.ofNat 8 place.1) (BitVec.ofNat 8 place.2.1)
    (BitVec.ofNat 8 place.2.2) st

theorem presentAt_cons (space : PciSpace) (place : Nat × Nat × Nat)
    (places : List (Nat × Nat × Nat)) :
    space.presentAt (place :: places) =
      (if (space (PciFn.ofNats place)).isSome then [PciFn.ofNats place] else []) ++
        space.presentAt places := by
  rw [PciSpace.presentAt, List.map_cons, List.filter_cons]
  split <;> rfl

theorem ofNat_lt {n k : Nat} (hk : k < 2 ^ 8) (h : n < k) :
    (BitVec.ofNat 8 n) < (BitVec.ofNat 8 k) := by
  rw [BitVec.lt_def, BitVec.toNat_ofNat, BitVec.toNat_ofNat, Nat.mod_eq_of_lt hk,
    Nat.mod_eq_of_lt (Nat.lt_trans h hk)]
  exact h

theorem PciFn.ofNats_setWidth (place : Nat × Nat × Nat) :
    PciFn.mk (BitVec.ofNat 8 place.1) ((BitVec.ofNat 8 place.2.1).setWidth 5)
      ((BitVec.ofNat 8 place.2.2).setWidth 3) = PciFn.ofNats place := by
  rw [BitVec.setWidth_ofNat_of_le (by decide), BitVec.setWidth_ofNat_of_le (by decide)]
  rfl

/-- The scan lists the functions at the places it visits, in the order of its visits. -/
theorem PciScan.Lists.run (h : st.Lists space pciGetClassStr fns)
    {places : List (Nat × Nat × Nat)} (hplaces : ∀ p ∈ places, p.2.1 < 16 ∧ p.2.2 < 8)
    (hroom : fns.length + places.length < 2 ^ 32) :
    (places.foldl (pciProbeAt space pciGetClassStr) st).Lists space pciGetClassStr
      (fns ++ space.presentAt places) := by
  induction places generalizing st fns with
  | nil =>
      rw [PciSpace.presentAt, List.map_nil, List.filter_nil, List.append_nil]
      exact h
  | cons place places ih =>
      obtain ⟨hdevice, hfunc⟩ := hplaces place List.mem_cons_self
      rw [List.length_cons] at hroom
      have hprobe := @PciScan.Lists.probe space pciGetClassStr st fns h (BitVec.ofNat 8 place.1) _ _
        (ofNat_lt (by decide) hdevice) (ofNat_lt (by decide) hfunc) (by omega)
      rw [PciFn.ofNats_setWidth] at hprobe
      rw [List.foldl_cons, presentAt_cons, ← List.append_assoc]
      refine ih hprobe (fun p hp => hplaces p (List.mem_cons_of_mem _ hp)) ?_
      rw [List.length_append]
      split <;> simp only [List.length_cons, List.length_nil] <;> omega

theorem mem_pciPlaces {buses devices funcs : Nat} {p : Nat × Nat × Nat} :
    p ∈ pciPlaces buses devices funcs ↔ p.1 < buses ∧ p.2.1 < devices ∧ p.2.2 < funcs := by
  obtain ⟨b, d, f⟩ := p
  simp only [pciPlaces, List.mem_product, List.mem_range]

/-- The three loops are a pass over the places below their bounds. -/
theorem pciEnumerate_eq (space : PciSpace) (pciGetClassStr : PciClassStr) (table : Region) :
    pciEnumerate space pciGetClassStr table =
      (pciPlaces 255 16 4).foldl (pciProbeAt space pciGetClassStr) ⟨table, 0⟩ := by
  have hbus (i : Nat) : (BitVec.ofNat 16 i).setWidth 8 = BitVec.ofNat 8 i :=
    BitVec.setWidth_ofNat_of_le (by decide) i
  have hbounds : pciMaxBus.toNat = 255 ∧ pciMaxDevice.toNat = 16 ∧ pciMaxFunc.toNat = 4 := by decide
  simp only [pciEnumerate, forUp_zero_eq_foldl, hbus, hbounds.1, hbounds.2.1, hbounds.2.2,
    pciPlaces, foldl_product, pciProbeAt]

theorem length_pciPlaces : (pciPlaces 255 16 4).length = 16320 := by
  simp only [pciPlaces, List.length_product, List.length_range]

theorem pciEnumerate_devices (space : PciSpace) (pciGetClassStr : PciClassStr) (table : Region) :
    (pciEnumerate space pciGetClassStr table).devices =
      (space.presentAt (pciPlaces 255 16 4)).map (space.entry pciGetClassStr) := by
  have hnil : PciScan.Lists space pciGetClassStr ⟨table, 0⟩ [] := ⟨rfl, rfl⟩
  rw [pciEnumerate_eq]
  refine (hnil.run (fun p hp => ?_) ?_).devices
  · obtain ⟨-, hdevice, hfunc⟩ := mem_pciPlaces.mp hp
    exact ⟨hdevice, Nat.lt_trans hfunc (by decide)⟩
  · rw [length_pciPlaces]
    decide

theorem pciPlaces_sublist {buses buses' devices devices' funcs funcs' : Nat} (hb : buses ≤ buses')
    (hd : devices ≤ devices') (hf : funcs ≤ funcs') :
    (pciPlaces buses devices funcs).Sublist (pciPlaces buses' devices' funcs') := by
  have hproduct {α β : Type} {l₁ l₂ : List α} {k₁ k₂ : List β} (h : l₁.Sublist l₂)
      (h' : k₁.Sublist k₂) : (l₁ ×ˢ k₁).Sublist (l₂ ×ˢ k₂) :=
    (h.flatMap _).trans (List.Sublist.flatMap_right l₂ fun a _ => h'.map (Prod.mk a))
  exact hproduct (List.range_sublist.mpr hb)
    (hproduct (List.range_sublist.mpr hd) (List.range_sublist.mpr hf))

theorem PciFn.ofNats_inj {p q : Nat × Nat × Nat} (hp : p ∈ pciPlaces 256 32 8)
    (hq : q ∈ pciPlaces 256 32 8) (h : PciFn.ofNats p = PciFn.ofNats q) : p = q := by
  obtain ⟨hpb, hpd, hpf⟩ := mem_pciPlaces.mp hp
  obtain ⟨hqb, hqd, hqf⟩ := mem_pciPlaces.mp hq
  simp only [PciFn.ofNats, PciFn.mk.injEq] at h
  obtain ⟨hb, hd, hf⟩ := h
  have hb := congrArg BitVec.toNat hb
  have hd := congrArg BitVec.toNat hd
  have hf := congrArg BitVec.toNat hf
  rw [BitVec.toNat_ofNat, BitVec.toNat_ofNat] at hb hd hf
  rw [Nat.mod_eq_of_lt hpb, Nat.mod_eq_of_lt hqb] at hb
  rw [Nat.mod_eq_of_lt hpd, Nat.mod_eq_of_lt hqd] at hd
  rw [Nat.mod_eq_of_lt hpf, Nat.mod_eq_of_lt hqf] at hf
  exact Prod.ext hb (Prod.ext hd hf)

theorem PciFn.ofNats_toNat (fn : PciFn) :
    PciFn.ofNats (fn.bus.toNat, fn.device.toNat, fn.func.toNat) = fn := by
  simp only [PciFn.ofNats, BitVec.ofNat_toNat, BitVec.setWidth_eq]

/-- Every present function is listed in the space, once. -/
theorem PciSpace.mem_present (space : PciSpace) (fn : PciFn) :
    fn ∈ space.present ↔ (space fn).isSome = true := by
  rw [PciSpace.present, PciSpace.presentAt, List.mem_filter]
  refine ⟨And.right, fun h => ⟨List.mem_map.mpr ⟨_, mem_pciPlaces.mpr ?_, fn.ofNats_toNat⟩, h⟩⟩
  exact ⟨fn.bus.isLt, fn.device.isLt, fn.func.isLt⟩

theorem PciSpace.nodup_present (space : PciSpace) : space.present.Nodup := by
  have hplaces : (pciPlaces 256 32 8).Nodup :=
    List.nodup_range.product (List.nodup_range.product List.nodup_range)
  exact List.Nodup.filter _
    (List.Nodup.map_on (fun _ hp _ hq h => PciFn.ofNats_inj hp hq h) hplaces)

theorem PciSpace.mem_scanned (space : PciSpace) (fn : PciFn) :
    fn ∈ space.presentAt (pciPlaces 255 16 4) ↔ (space fn).isSome = true ∧ fn.Scanned := by
  rw [PciSpace.presentAt, List.mem_filter, and_comm]
  refine and_congr_right fun _ => ?_
  rw [List.mem_map]
  constructor
  · rintro ⟨p, hp, rfl⟩
    obtain ⟨hb, hd, hf⟩ := mem_pciPlaces.mp hp
    have hle {n w : Nat} : (BitVec.ofNat w n).toNat ≤ n := by
      rw [BitVec.toNat_ofNat]
      exact Nat.mod_le _ _
    exact ⟨Nat.lt_of_le_of_lt hle hb, Nat.lt_of_le_of_lt hle hd, Nat.lt_of_le_of_lt hle hf⟩
  · intro h
    exact ⟨(fn.bus.toNat, fn.device.toNat, fn.func.toNat), mem_pciPlaces.mpr h, fn.ofNats_toNat⟩

theorem PciSpace.scanned_sublist (space : PciSpace) :
    (space.presentAt (pciPlaces 255 16 4)).Sublist space.present :=
  ((pciPlaces_sublist (by decide) (by decide) (by decide)).map _).filter _

theorem PciSpace.scanned_eq_present_iff (space : PciSpace) :
    space.presentAt (pciPlaces 255 16 4) = space.present ↔
      ∀ fn, (space fn).isSome = true → fn.Scanned := by
  constructor
  · intro heq fn hfn
    exact ((space.mem_scanned fn).mp (heq ▸ (space.mem_present fn).mpr hfn)).2
  · intro h
    refine space.scanned_sublist.eq_of_length_le (List.Subperm.length_le ?_)
    refine List.Nodup.subperm space.nodup_present fun fn hfn => ?_
    have hfn := (space.mem_present fn).mp hfn
    exact (space.mem_scanned fn).mpr ⟨hfn, h fn hfn⟩

/-- A space of which only bus 0 is wired shows its functions on the first bus of a scan. -/
theorem presentAt_bus0 (h : ∀ fn, (space fn).isSome = true → fn.bus = 0) {buses : Nat}
    (hbuses : buses < 2 ^ 8) (devices funcs : Nat) :
    space.presentAt (pciPlaces (1 + buses) devices funcs) =
      space.presentAt (pciPlaces 1 devices funcs) := by
  have hsplit : pciPlaces (1 + buses) devices funcs = pciPlaces 1 devices funcs ++
      ((List.range buses).map (1 + ·)) ×ˢ (List.range devices ×ˢ List.range funcs) := by
    rw [pciPlaces, List.range_add]
    exact List.flatMap_append
  have hrest : ((((List.range buses).map (1 + ·)) ×ˢ (List.range devices ×ˢ
      List.range funcs)).map PciFn.ofNats).filter (fun fn => (space fn).isSome) = [] := by
    refine List.filter_eq_nil_iff.mpr fun fn hfn hsome => ?_
    obtain ⟨⟨bus, device, func⟩, hplace, rfl⟩ := List.mem_map.mp hfn
    obtain ⟨hbus, -⟩ := List.mem_product.mp hplace
    obtain ⟨n, hn, rfl⟩ := List.mem_map.mp hbus
    have hn := List.mem_range.mp hn
    have hzero := congrArg BitVec.toNat (h _ hsome)
    rw [PciFn.ofNats, BitVec.toNat_ofNat, Nat.mod_eq_of_lt (by omega)] at hzero
    exact absurd hzero (by simp)
  rw [hsplit, PciSpace.presentAt, List.map_append, List.filter_append, hrest, List.append_nil]
  rfl

end Scan

/-- The list is that of all present functions exactly if each of them lies within the
bounds of the three loops. -/
theorem pciEnumerate_complete_iff (space : PciSpace) (pciGetClassStr : PciClassStr)
    (table : Region) (_ : space.present.length ≤ 128) :
    (pciEnumerate space pciGetClassStr table).devices =
        space.present.map (space.entry pciGetClassStr) ↔
      ∀ fn, (space fn).isSome = true →
        fn.bus.toNat < 255 ∧ fn.device.toNat < 16 ∧ fn.func.toNat < 4 := by
  rw [pciEnumerate_devices]
  refine Iff.trans ⟨fun h => ?_, fun h => congrArg _ h⟩ space.scanned_eq_present_iff
  have hlength := congrArg List.length h
  rw [List.length_map, List.length_map] at hlength
  exact space.scanned_sublist.eq_of_length hlength

/-- A function whose registers all hold the ids of an IDE controller. -/
def ideConfig : PciConfig := ⟨fun _ => 0x70108086, by decide⟩

/-- A space with only these functions, all with the same registers. -/
def onlyFunctions (config : PciConfig) (fns : List PciFn) : PciSpace := fun g =>
  if g ∈ fns then some config else none

theorem isSome_onlyFunctions {config : PciConfig} {fns : List PciFn} {g : PciFn} :
    (onlyFunctions config fns g).isSome = true ↔ g ∈ fns := by
  unfold onlyFunctions
  split <;> simp_all

/-- A space with one function. -/
def oneFunction (fn : PciFn) : PciSpace := onlyFunctions ideConfig [fn]

theorem isSome_oneFunction {fn g : PciFn} : (oneFunction fn g).isSome = true ↔ g = fn := by
  rw [oneFunction, isSome_onlyFunctions, List.mem_singleton]

theorem present_oneFunction (fn : PciFn) : (oneFunction fn).present = [fn] := by
  refine List.perm_singleton.mp ((List.perm_ext_iff_of_nodup (oneFunction fn).nodup_present
    (List.nodup_singleton fn)).mpr fun g => ?_)
  rw [PciSpace.mem_present, isSome_oneFunction, List.mem_singleton]

/-- A space with two controllers, in devices 1 and 2 of bus 0. -/
def twoFunctions : PciSpace := onlyFunctions ideConfig [⟨0, 2, 0⟩, ⟨0, 1, 1⟩]

theorem bus_onlyFunctions {config : PciConfig} {fns : List PciFn} (h : ∀ fn ∈ fns, fn.bus = 0)
    (fn : PciFn) (hfn : (onlyFunctions config fns fn).isSome = true) : fn.bus = 0 :=
  h fn (isSome_onlyFunctions.mp hfn)

theorem pciEnumerate_complete_two :
    (pciEnumerate twoFunctions (fun _ _ _ => 0) (fun _ => 0)).devices =
      [twoFunctions.entry (fun _ _ _ => 0) ⟨0, 1, 1⟩,
        twoFunctions.entry (fun _ _ _ => 0) ⟨0, 2, 0⟩] := by
  have hpresent : twoFunctions.present = [⟨0, 1, 1⟩, ⟨0, 2, 0⟩] :=
    (@presentAt_bus0 twoFunctions (bus_onlyFunctions (by decide)) 255 (by decide) 32 8).trans
      (by decide +kernel)
  have hscanned : ∀ fn ∈ [(⟨0, 2, 0⟩ : PciFn), ⟨0, 1, 1⟩],
      fn.bus.toNat < 255 ∧ fn.device.toNat < 16 ∧ fn.func.toNat < 4 := by decide
  have hlist := (pciEnumerate_complete_iff twoFunctions (fun _ _ _ => 0) (fun _ => 0)
    (by rw [hpresent]; decide)).mpr fun fn hfn => hscanned fn (isSome_onlyFunctions.mp hfn)
  rw [hpresent] at hlist
  exact hlist

/-- A controller in device 31 is present and is not found. -/
theorem pciEnumerate_misses_device31 :
    (oneFunction ⟨0, 31, 1⟩).present = [⟨0, 31, 1⟩] ∧
      (pciEnumerate (oneFunction ⟨0, 31, 1⟩) (fun _ _ _ => 0) (fun _ => 0)).devices = [] ∧
      (pciEnumerate (oneFunction ⟨0, 31, 1⟩) (fun _ _ _ => 0) (fun _ => 0)).devices ≠
        (oneFunction ⟨0, 31, 1⟩).present.map
          ((oneFunction ⟨0, 31, 1⟩).entry fun _ _ _ => 0) := by
  have hpresent := present_oneFunction ⟨0, 31, 1⟩
  have hnone : (oneFunction ⟨0, 31, 1⟩).presentAt (pciPlaces 255 16 4) = [] := by
    refine List.eq_nil_iff_forall_not_mem.mpr fun fn hfn => ?_
    obtain ⟨hsome, hscanned⟩ := ((oneFunction ⟨0, 31, 1⟩).mem_scanned fn).mp hfn
    rw [isSome_oneFunction.mp hsome] at hscanned
    exact absurd hscanned.2.1 (by decide)
  rw [pciEnumerate_devices, hnone, hpresent]
  exact ⟨rfl, rfl, (List.cons_ne_nil _ _).symm⟩

end DordOs
