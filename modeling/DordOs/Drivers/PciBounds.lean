import DordOs.Drivers.Pci
import Mathlib.Data.List.Infix
import Mathlib.Data.List.Induction

/-!
Where the scan of the configuration space writes. The copy loop counts 20 registers and
the field it fills is sized for 17, so three registers of each function go behind its
entry, and behind the table for the last one.
-/
namespace DordOs
open Lib

/-- `pci_enumerate` writes inside the entries it counts, whatever the memory held
before, and there are at most 128 of them. -/
def PciEnumerateInside (space : PciSpace) (pciGetClassStr : PciClassStr) : Prop :=
  ∀ table, (pciEnumerate space pciGetClassStr table).devCount.toNat ≤ 128 ∧
    ∀ a, pciDevSize * (pciEnumerate space pciGetClassStr table).devCount.toNat ≤ a →
      (pciEnumerate space pciGetClassStr table).table a = table a

/-- `pci_read_registers` changes no byte outside the entry at `dev`. -/
def PciReadInside (space : PciSpace) (pciGetClassStr : PciClassStr) (m : Region) (dev : Nat) :
    Prop :=
  ∀ a, a < dev ∨ dev + pciDevSize ≤ a → pciReadRegisters space pciGetClassStr dev m a = m a

/-- The three registers that do not fit `reg_data`. -/
def pciSpill (space : PciSpace) (bus device func : U8) : Bytes :=
  [(68 : U8), 72, 76].flatMap fun offset => leBytes 4 (readReg space bus device func offset).toNat

theorem spill_offset : ∀ i < 20,
    ((BitVec.ofNat 32 i <<< 2).setWidth 8 : U8) = BitVec.ofNat 8 (4 * i) := by
  decide

section Registers

variable {space : PciSpace} {pciGetClassStr : PciClassStr} {m m' : Region} {dev : Nat}

/-- The copy loop, for any numbers in the entry. -/
theorem registers_words
    (hm' : m' = forUp (0 : U32) 20 (fun i m => m.put (dev + 8 + 4 * i.toNat) (leBytes 4
      (readReg space (m dev) (m (dev + 1)) (m (dev + 2)) ((i <<< 2).setWidth 8)).toNat)) m) :
    (∀ a, a < dev + 8 ∨ dev + 88 ≤ a → m' a = m a) ∧
      ∀ i, i < 20 → m'.get (dev + 8 + 4 * i) 4 = leBytes 4
        (readReg space (m dev) (m (dev + 1)) (m (dev + 2)) (BitVec.ofNat 8 (4 * i))).toNat := by
  subst hm'
  refine @forUp_invariant Region 32 (fun n m' => (∀ a, a < dev + 8 ∨ dev + 88 ≤ a → m' a = m a) ∧
      ∀ i, i < n → m'.get (dev + 8 + 4 * i) 4 = leBytes 4
        (readReg space (m dev) (m (dev + 1)) (m (dev + 2)) (BitVec.ofNat 8 (4 * i))).toNat)
    0 20 _ (by decide) ?_ m ⟨fun _ _ => rfl, fun i hi => absurd hi (Nat.not_lt_zero i)⟩
  rintro i s - hi ⟨houtside, hwords⟩
  have hi : i.toNat < 20 := hi
  have hoffset := spill_offset i.toNat hi
  rw [BitVec.ofNat_toNat, BitVec.setWidth_eq] at hoffset
  rw [houtside dev (by omega), houtside (dev + 1) (by omega), houtside (dev + 2) (by omega),
    hoffset]
  obtain ⟨word, hword⟩ : ∃ word, (readReg space (m dev) (m (dev + 1)) (m (dev + 2))
      (BitVec.ofNat 8 (4 * i.toNat))).toNat = word := ⟨_, rfl⟩
  rw [hword]
  refine ⟨fun a ha => ?_, fun j hj => ?_⟩
  · rw [Region.put_outside (by rw [length_leBytes]; omega), houtside a ha]
  · obtain hlt | rfl := Nat.lt_succ_iff_lt_or_eq.mp hj
    · rw [← hwords j hlt]
      exact Region.get_congr fun k hk =>
        Region.put_outside (by rw [length_leBytes]; omega)
    · have hself := Region.get_put_self s (dev + 8 + 4 * i.toNat) (leBytes 4 word)
      rw [length_leBytes] at hself
      rw [hself, hword]

theorem pciReadRegisters_behind (space : PciSpace) (pciGetClassStr : PciClassStr) (m : Region)
    (dev : Nat) :
    (∀ a, a < dev ∨ dev + 88 ≤ a → pciReadRegisters space pciGetClassStr dev m a = m a) ∧
      (pciReadRegisters space pciGetClassStr dev m).get (dev + pciDevSize) 12 =
        pciSpill space (m dev) (m (dev + 1)) (m (dev + 2)) := by
  obtain ⟨loop, hloop, hread⟩ := pciReadRegisters_loop space pciGetClassStr m dev
  obtain ⟨houtside, hwords⟩ := registers_words hloop
  rw [hread]
  have hput {a : Nat} (l : U32) (ha : a < dev + 4 ∨ dev + 8 ≤ a) :
      loop.put (dev + 4) (leBytes 4 l.toNat) a = loop a :=
    Region.put_outside (by rw [length_leBytes]; omega)
  have hsize : pciDevSize = 76 := rfl
  constructor
  · intro a ha
    rw [hput _ (by omega), houtside a (by omega)]
  · have hget : (loop.put (dev + 4) (leBytes 4 (pciGetClassStr (loop (dev + 8 + 0x0B))
          (loop (dev + 8 + 0x0A)) (loop (dev + 8 + 0x09))).toNat)).get (dev + 76) 12 =
        loop.get (dev + 76) 12 :=
      Region.get_congr fun k _ => hput _ (by omega)
    rw [hsize, hget, show 12 = 4 + (4 + 4) from rfl, Region.get_add, Region.get_add]
    simp only [pciSpill, List.flatMap_cons, List.flatMap_nil, List.append_nil]
    exact congrArg₂ _ (hwords 17 (by decide))
      (congrArg₂ _ (hwords 18 (by decide)) (hwords 19 (by decide)))

theorem pciReadInside_iff : PciReadInside space pciGetClassStr m dev ↔
    m.get (dev + pciDevSize) 12 = pciSpill space (m dev) (m (dev + 1)) (m (dev + 2)) := by
  obtain ⟨houtside, hbehind⟩ := pciReadRegisters_behind space pciGetClassStr m dev
  rw [← hbehind]
  constructor
  · intro inside
    exact Region.get_congr fun k _ => (inside _ (.inr (by omega))).symm
  · intro heq a ha
    by_cases hfar : a < dev ∨ dev + 88 ≤ a
    · exact houtside a hfar
    · have hsize : pciDevSize = 76 := rfl
      obtain ⟨k, rfl⟩ := Nat.exists_eq_add_of_le (show dev + pciDevSize ≤ a by omega)
      exact (Region.get_inj heq k (by omega)).symm

end Registers

section Scan

variable {space : PciSpace} {pciGetClassStr : PciClassStr} {places : List (Nat × Nat × Nat)}

theorem probes_count (space : PciSpace) (pciGetClassStr : PciClassStr)
    (hplaces : ∀ p ∈ places, p.2.1 < 16 ∧ p.2.2 < 8)
    (hroom : places.length < 2 ^ 32) (table : Region) :
    (places.foldl (pciProbeAt space pciGetClassStr) ⟨table, 0⟩).devCount.toNat =
      (space.presentAt places).length := by
  have hnil : PciScan.Lists space pciGetClassStr ⟨table, 0⟩ [] := ⟨rfl, rfl⟩
  have hrun := hnil.run hplaces (by rw [List.length_nil, Nat.zero_add]; exact hroom)
  rw [hrun.count, List.nil_append]

theorem presentAt_append (before after : List (Nat × Nat × Nat)) :
    space.presentAt (before ++ after) = space.presentAt before ++ space.presentAt after := by
  rw [PciSpace.presentAt, List.map_append, List.filter_append]
  rfl

/-- A probe that finds a function writes behind the entry it fills. -/
theorem pciProbe_spill {bus device func : U8} {st : PciScan}
    (hres : ((readReg space bus device func 0).setWidth 16 : U16) ≠ 0xFFFF) :
    (pciProbe space pciGetClassStr bus device func st).table
        (pciDevSize * (st.devCount.toNat + 1)) =
      (pciSpill space bus device func).getD 0 0 := by
  rw [pciProbe]
  dsimp only
  rw [if_pos hres]
  obtain ⟨dev, hdev⟩ : ∃ dev, pciDevSize * st.devCount.toNat = dev := ⟨_, rfl⟩
  obtain ⟨m, hm⟩ : ∃ m, st.table.put dev [bus, device, func] = m := ⟨_, rfl⟩
  have h0 : m dev = bus := hm ▸ Region.put_inside (k := 0) (show 0 < 3 by decide)
  have h1 : m (dev + 1) = device := hm ▸ Region.put_inside (show 1 < 3 by decide)
  have h2 : m (dev + 2) = func := hm ▸ Region.put_inside (show 2 < 3 by decide)
  have hbehind := (pciReadRegisters_behind space pciGetClassStr m dev).2
  rw [h0, h1, h2] at hbehind
  rw [Nat.mul_succ, hdev, hm, ← hbehind]
  rfl

theorem pciProbe_absent {bus device func : U8} {st : PciScan}
    (hres : ¬ ((readReg space bus device func 0).setWidth 16 : U16) ≠ 0xFFFF) :
    pciProbe space pciGetClassStr bus device func st = st := by
  rw [pciProbe]
  exact if_neg hres

theorem readReg_vendor (space : PciSpace) {place : Nat × Nat × Nat} (hdevice : place.2.1 < 16)
    (hfunc : place.2.2 < 8) :
    ((readReg space (BitVec.ofNat 8 place.1) (BitVec.ofNat 8 place.2.1)
        (BitVec.ofNat 8 place.2.2) 0).setWidth 16 : U16) ≠ 0xFFFF ↔
      (space (PciFn.ofNats place)).isSome = true := by
  rw [readReg_eq space (ofNat_lt (by decide) hdevice) (ofNat_lt (by decide) hfunc),
    PciFn.ofNats_setWidth, ← vendor_iff]
  rfl

/-- The byte behind the last entry comes from the function of that entry. -/
theorem probes_spill (pciGetClassStr : PciClassStr)
    (hplaces : ∀ p ∈ places, p.2.1 < 16 ∧ p.2.2 < 8)
    (hroom : places.length < 2 ^ 32) (hpresent : space.presentAt places ≠ []) :
    ∃ byte, ∀ table, (places.foldl (pciProbeAt space pciGetClassStr) ⟨table, 0⟩).table
      (pciDevSize * (space.presentAt places).length) = byte := by
  induction places using List.reverseRecOn with
  | nil => exact absurd rfl hpresent
  | append_singleton before place ih =>
      have hbefore : ∀ p ∈ before, p.2.1 < 16 ∧ p.2.2 < 8 := fun p hp =>
        hplaces p (List.mem_append_left _ hp)
      rw [List.length_append, List.length_singleton] at hroom
      have hcount := probes_count space pciGetClassStr hbefore
        (by omega)
      obtain ⟨hdevice, hfunc⟩ := hplaces place (List.mem_append_right _ (List.mem_singleton_self _))
      have hvendor := readReg_vendor space hdevice hfunc
      simp only [List.foldl_append, List.foldl_cons, List.foldl_nil, pciProbeAt]
      by_cases hfound : (space (PciFn.ofNats place)).isSome = true
      · have hlength : (space.presentAt (before ++ [place])).length =
            (space.presentAt before).length + 1 := by
          rw [presentAt_append, presentAt_cons, if_pos hfound, List.length_append]
          rfl
        refine ⟨(pciSpill space (BitVec.ofNat 8 place.1) (BitVec.ofNat 8 place.2.1)
          (BitVec.ofNat 8 place.2.2)).getD 0 0, fun table => ?_⟩
        rw [hlength, ← hcount table]
        exact pciProbe_spill (hvendor.mpr hfound)
      · have hsame : space.presentAt (before ++ [place]) = space.presentAt before := by
          rw [presentAt_append, presentAt_cons, if_neg hfound]
          exact List.append_nil _
        rw [hsame] at hpresent ⊢
        obtain ⟨byte, hbyte⟩ := ih hbefore (by omega) hpresent
        refine ⟨byte, fun table => ?_⟩
        rw [pciProbe_absent (mt hvendor.mp hfound)]
        exact hbyte table

theorem probes_absent (hplaces : ∀ p ∈ places, p.2.1 < 16 ∧ p.2.2 < 8)
    (habsent : space.presentAt places = []) (st : PciScan) :
    places.foldl (pciProbeAt space pciGetClassStr) st = st := by
  induction places with
  | nil => rfl
  | cons place places ih =>
      obtain ⟨hdevice, hfunc⟩ := hplaces place List.mem_cons_self
      rw [presentAt_cons, List.append_eq_nil_iff] at habsent
      have hnone : ¬ (space (PciFn.ofNats place)).isSome = true := fun hfound => by
        rw [if_pos hfound] at habsent
        exact List.cons_ne_nil _ _ habsent.1
      rw [List.foldl_cons, pciProbeAt,
        pciProbe_absent (mt (readReg_vendor space hdevice hfunc).mp hnone)]
      exact ih (fun p hp => hplaces p (List.mem_cons_of_mem _ hp)) habsent.2

theorem pciEnumerateInside_iff : PciEnumerateInside space pciGetClassStr ↔
    ∀ fn : PciFn, fn.Scanned → space fn = none := by
  have hplaces : ∀ p ∈ pciPlaces 255 16 4, p.2.1 < 16 ∧ p.2.2 < 8 := fun p hp =>
    have hp := mem_pciPlaces.mp hp
    ⟨hp.2.1, Nat.lt_trans hp.2.2 (by decide)⟩
  have hroom : (pciPlaces 255 16 4).length < 2 ^ 32 := by
    rw [length_pciPlaces]
    decide
  have hnone : space.presentAt (pciPlaces 255 16 4) = [] ↔
      ∀ fn : PciFn, fn.Scanned → space fn = none := by
    rw [List.eq_nil_iff_forall_not_mem]
    refine forall_congr' fun fn => ?_
    rw [PciSpace.mem_scanned, not_and', Bool.not_eq_true, Option.isSome_eq_false_iff,
      Option.isNone_iff_eq_none]
  rw [← hnone]
  constructor
  · intro inside
    by_contra hpresent
    obtain ⟨byte, hbyte⟩ := probes_spill pciGetClassStr hplaces hroom hpresent
    have hcount := probes_count space pciGetClassStr hplaces hroom
    -- memory that held another byte there
    have hchanged := (inside fun _ => byte + 1).2 _ (Nat.le_refl _)
    rw [pciEnumerate_eq, hcount, hbyte] at hchanged
    exact absurd hchanged.symm (by simp)
  · intro habsent table
    rw [pciEnumerate_eq, probes_absent hplaces habsent]
    exact ⟨Nat.zero_le _, fun _ _ => rfl⟩

end Scan

/-- The scan stays inside the table iff it finds nothing, and the registers of one entry
stay inside it iff the bytes behind it hold the last three of them already. -/
theorem pci_inside_iff (space : PciSpace) (pciGetClassStr : PciClassStr) :
    (PciEnumerateInside space pciGetClassStr ↔ ∀ fn : PciFn, fn.Scanned → space fn = none) ∧
      ∀ m dev, PciReadInside space pciGetClassStr m dev ↔
        m.get (dev + pciDevSize) 12 = pciSpill space (m dev) (m (dev + 1)) (m (dev + 2)) :=
  ⟨pciEnumerateInside_iff, fun _ _ => pciReadInside_iff⟩

/-- The entry of the one function of a space, with zeros behind it. -/
theorem pci_spills : ¬ ∀ space pciGetClassStr, PciEnumerateInside space pciGetClassStr ∧
    ∀ m dev, PciReadInside space pciGetClassStr m dev := by
  intro claim
  have hread := pciReadInside_iff.mp
    ((claim (oneFunction ⟨0, 1, 1⟩) fun _ _ _ => 0).2
      (fun a => if a = 1 ∨ a = 2 then 1 else 0) 0)
  exact absurd hread (by decide)

end DordOs
