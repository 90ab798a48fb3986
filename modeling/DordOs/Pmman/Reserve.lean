import DordOs.Pmman.Isolation

/-!
The three reservations `kernel_enter` makes after `pmman_initialize`: the kernel
image, low memory and the firmware's memory map. A range's first block is found
by truncation and its block count by rounding the length up, so the two together
fall one block short when the offset in the first block pushes the end over.
-/
namespace DordOs
open Lib

def kernelEnterReserve (pmkmap : PmmanMap) (kernelStart kernelEnd memmap : Usz)
    (memmapEntryCount : U16) : PmmanMap :=
  let kernelLen := kernelEnd - kernelStart
  let pmkmap := pmmanMarkRange pmkmap (pmmanToBlock pmkmap kernelStart)
    (pmmanToBlocks pmkmap kernelLen)
  let pmkmap := pmmanMarkRange pmkmap 0 (pmmanToBlocks pmkmap 0x7C00)
  pmmanMarkRange pmkmap (pmmanToBlock pmkmap memmap)
    (pmmanToBlocks pmkmap (24 * memmapEntryCount.setWidth 32))

/-- The blocks marked for `len` bytes at `start`. -/
def MarkedFor (start len b : Nat) : Prop :=
  start / 16384 ≤ b ∧ b < start / 16384 + (len + 16383) / 16384

/-- The range reaches into the block after the ones marked for it. -/
def Spills (start len : Nat) : Prop :=
  0 < len ∧ (len + 16383) / 16384 * 16384 < start % 16384 + len

instance (start len b : Nat) : Decidable (MarkedFor start len b) :=
  inferInstanceAs (Decidable (_ ∧ _))

instance (start len : Nat) : Decidable (Spills start len) :=
  inferInstanceAs (Decidable (_ ∧ _))

def spillBlock (start len : Nat) : Nat := start / 16384 + (len + 16383) / 16384

theorem block_of_byte {start len a : Nat} (hlo : start ≤ a) (hhi : a < start + len) :
    MarkedFor start len (a / 16384) ∨ Spills start len ∧ a / 16384 = spillBlock start len := by
  simp only [MarkedFor, Spills, spillBlock]
  omega

theorem last_byte_of_spill {start len : Nat} (h : Spills start len) :
    start ≤ start + len - 1 ∧ start + len - 1 < start + len ∧
      (start + len - 1) / 16384 = spillBlock start len := by
  obtain ⟨hpos, hover⟩ := h
  simp only [spillBlock]
  omega

/-- A range is covered exactly when the block it spills into, if any, is. -/
theorem range_covered_iff {start len : Nat} {covered : Nat → Prop}
    (marked : ∀ b, MarkedFor start len b → covered b) :
    (∀ a, start ≤ a → a < start + len → covered (a / 16384)) ↔
      (Spills start len → covered (spillBlock start len)) := by
  constructor
  · intro h hspill
    obtain ⟨hlo, hhi, hblock⟩ := last_byte_of_spill hspill
    rw [← hblock]
    exact h _ hlo hhi
  · intro h a hlo hhi
    obtain hm | ⟨hspill, hblock⟩ := block_of_byte hlo hhi
    · exact marked _ hm
    · rw [hblock]
      exact h hspill

theorem PmmanMap.Kernel.eq_kernelMap {map : PmmanMap} (h : map.Kernel) :
    map = pmmanKernelMap map.bits := by
  obtain ⟨blockSize, base, bits⟩ := map
  obtain ⟨rfl, rfl⟩ := h
  rfl

theorem marked_reserve_range {map : PmmanMap} (h : map.Kernel) (start len : Usz)
    (hend : start.toNat + len.toNat ≤ 2 ^ 24) (b : Nat) :
    (pmmanMarkRange map (pmmanToBlock map start) (pmmanToBlocks map len)).marked b = true ↔
      map.marked b = true ∨ MarkedFor start.toNat len.toNat b := by
  have hstart := h.toNat_toBlock start
  have hlen := h.toNat_toBlocks len
  rw [Nat.mod_eq_of_lt (by omega)] at hlen
  have hsum : (pmmanToBlock map start + pmmanToBlocks map len).toNat =
      start.toNat / 16384 + (len.toNat + 16383) / 16384 := by
    rw [BitVec.toNat_add, hstart, hlen]
    exact Nat.mod_eq_of_lt (by omega)
  rw [marked_markRange, hstart, hsum, Bool.or_eq_true, decide_eq_true_iff]
  rfl

section

variable (bits : Nat → U32) (kernelStart kernelEnd memmap : Usz) (memmapEntryCount : U16)

/-- A byte of the kernel image, of the memory-map array or of `[0, 0x7C00)`. -/
def ReservedByte (a : Nat) : Prop :=
  kernelStart.toNat ≤ a ∧ a < kernelEnd.toNat ∨
    memmap.toNat ≤ a ∧ a < memmap.toNat + 24 * memmapEntryCount.toNat ∨ a < 0x7C00

/-- What the reservations are for: every reserved byte is in a marked block, and
no allocation of any later run is given a block with a reserved byte. -/
structure ReservationsHold (map : PmmanMap) : Prop where
  covered : ∀ a, ReservedByte kernelStart kernelEnd memmap memmapEntryCount a →
    map.marked (a / 16384) = true
  respected : ∀ ops s, Run AllocStep ⟨map, []⟩ ops s → ∀ alloc ∈ s.live,
    ∀ a, ReservedByte kernelStart kernelEnd memmap memmapEntryCount a →
      a / 16384 ∉ alloc.blocks

/-- A block is accounted for before its own range is: it was not free to begin
with, or it belongs to low memory or to the other range's marked blocks. -/
def OtherwiseMarked (start len b : Nat) : Prop :=
  bitAt bits b = true ∨ b < 2 ∨ MarkedFor start len b

/-- The block each range spills into, if any, is marked for another reason. -/
def SpillsAccounted : Prop :=
  (Spills kernelStart.toNat (kernelEnd.toNat - kernelStart.toNat) →
    OtherwiseMarked bits memmap.toNat (24 * memmapEntryCount.toNat)
      (spillBlock kernelStart.toNat (kernelEnd.toNat - kernelStart.toNat))) ∧
  (Spills memmap.toNat (24 * memmapEntryCount.toNat) →
    OtherwiseMarked bits kernelStart.toNat (kernelEnd.toNat - kernelStart.toNat)
      (spillBlock memmap.toNat (24 * memmapEntryCount.toNat)))

variable {kernelStart kernelEnd memmap memmapEntryCount}

theorem reserve_kernel {map : PmmanMap} (h : map.Kernel) :
    (kernelEnterReserve map kernelStart kernelEnd memmap memmapEntryCount).Kernel :=
  ((h.markRange _ _).markRange _ _).markRange _ _

theorem marked_reserve {map : PmmanMap} (hk : map.Kernel) (hkernel : kernelStart ≤ kernelEnd)
    (hkend : kernelEnd.toNat ≤ 2 ^ 24)
    (hmend : memmap.toNat + 24 * memmapEntryCount.toNat ≤ 2 ^ 24) (b : Nat) :
    (kernelEnterReserve map kernelStart kernelEnd memmap memmapEntryCount).marked b = true ↔
      map.marked b = true ∨
        MarkedFor kernelStart.toNat (kernelEnd.toNat - kernelStart.toNat) b ∨ b < 2 ∨
          MarkedFor memmap.toNat (24 * memmapEntryCount.toNat) b := by
  have hle := BitVec.le_def.mp hkernel
  have hklen : (kernelEnd - kernelStart).toNat = kernelEnd.toNat - kernelStart.toNat :=
    BitVec.toNat_sub_of_le hkernel
  have hmlen : ((24 : Usz) * memmapEntryCount.setWidth 32).toNat =
      24 * memmapEntryCount.toNat := by
    have hc : (memmapEntryCount.setWidth 32).toNat = memmapEntryCount.toNat := by
      rw [BitVec.toNat_setWidth]
      exact Nat.mod_eq_of_lt (by have := memmapEntryCount.isLt; omega)
    rw [BitVec.toNat_mul, hc]
    exact Nat.mod_eq_of_lt (by change 24 * memmapEntryCount.toNat < 2 ^ 32; omega)
  have hlow : ∀ m : PmmanMap, m.Kernel →
      ((pmmanMarkRange m 0 (pmmanToBlocks m 0x7C00)).marked b = true ↔
        m.marked b = true ∨ b < 2) := by
    intro m hm
    have hzero : pmmanToBlock m 0 = 0 :=
      BitVec.eq_of_toNat_eq (by rw [hm.toNat_toBlock]; rfl)
    rw [← hzero, marked_reserve_range hm 0 0x7C00 (by decide)]
    change _ ∨ (0 ≤ b ∧ b < 2) ↔ _
    simp
  unfold kernelEnterReserve
  dsimp only
  rw [marked_reserve_range ((hk.markRange _ _).markRange _ _) _ _ (by rw [hmlen]; exact hmend),
    hlow _ (hk.markRange _ _), marked_reserve_range hk _ _ (by rw [hklen]; omega), hklen, hmlen]
  exact or_assoc.trans or_assoc

theorem not_markedFor_spillBlock (start len : Nat) :
    ¬ MarkedFor start len (spillBlock start len) := by
  simp only [MarkedFor, spillBlock]
  omega

theorem reserved_covered_iff (hkernel : kernelStart ≤ kernelEnd)
    (hkend : kernelEnd.toNat ≤ 2 ^ 24)
    (hmend : memmap.toNat + 24 * memmapEntryCount.toNat ≤ 2 ^ 24) :
    (∀ a, ReservedByte kernelStart kernelEnd memmap memmapEntryCount a →
      (kernelEnterReserve (pmmanKernelMap bits) kernelStart kernelEnd memmap
        memmapEntryCount).marked (a / 16384) = true) ↔
      SpillsAccounted bits kernelStart kernelEnd memmap memmapEntryCount := by
  have hle := BitVec.le_def.mp hkernel
  have hmarked := marked_reserve (kernel_kernelMap bits) hkernel hkend hmend
  have hbits : ∀ b, (pmmanKernelMap bits).marked b = bitAt bits b := fun _ => rfl
  simp only [hbits] at hmarked
  generalize kernelEnterReserve (pmmanKernelMap bits) kernelStart kernelEnd memmap
    memmapEntryCount = map at hmarked
  have kernelRange := @range_covered_iff _ _ (fun b => map.marked b = true)
    fun b hb => (hmarked b).mpr (Or.inr (Or.inl hb))
  have memmapRange := @range_covered_iff _ _ (fun b => map.marked b = true)
    fun b hb => (hmarked b).mpr (Or.inr (Or.inr (Or.inr hb)))
  constructor
  · intro h
    constructor
    · intro hspill
      have hb := kernelRange.mp (fun a hlo hhi => h a (Or.inl ⟨hlo, by omega⟩)) hspill
      obtain hb | hb | hb := (hmarked _).mp hb
      · exact Or.inl hb
      · exact absurd hb (not_markedFor_spillBlock _ _)
      · exact Or.inr hb
    · intro hspill
      have hb := memmapRange.mp (fun a hlo hhi => h a (Or.inr (Or.inl ⟨hlo, hhi⟩))) hspill
      obtain hb | hb | hb | hb := (hmarked _).mp hb
      · exact Or.inl hb
      · exact Or.inr (Or.inr hb)
      · exact Or.inr (Or.inl hb)
      · exact absurd hb (not_markedFor_spillBlock _ _)
  · intro ⟨hkspill, hmspill⟩ a ha
    obtain ⟨hlo, hhi⟩ | ⟨hlo, hhi⟩ | hlow := ha
    · refine kernelRange.mpr (fun hspill => (hmarked _).mpr ?_) a hlo (by omega)
      obtain hb | hb | hb := hkspill hspill
      · exact Or.inl hb
      · exact Or.inr (Or.inr (Or.inl hb))
      · exact Or.inr (Or.inr (Or.inr hb))
    · refine memmapRange.mpr (fun hspill => (hmarked _).mpr ?_) a hlo hhi
      obtain hb | hb | hb := hmspill hspill
      · exact Or.inl hb
      · exact Or.inr (Or.inr (Or.inl hb))
      · exact Or.inr (Or.inl hb)
    · exact (hmarked _).mpr (Or.inr (Or.inr (Or.inl (by omega))))

/-- What is marked when a run starts is given to nobody during the run. -/
theorem covered_respected {map : PmmanMap} (hk : map.Kernel) (h0 : map.marked 0 = true)
    {ops : List (AllocState × AllocOp)} {s : AllocState} (run : Run AllocStep ⟨map, []⟩ ops s)
    {b : Nat} (hb : map.marked b = true) {alloc : Allocation} (halloc : alloc ∈ s.live) :
    b ∉ alloc.blocks := by
  rw [hk.eq_kernelMap] at run
  intro hin
  have hfree := (AllocInvariant.of_run h0 run).isolated.fresh alloc halloc b hin
  rw [PmmanMap.marked, hfree] at hb
  cases hb

/-- The reservations do their job exactly when every block a range spills into
is marked for another reason. -/
theorem reservations_iff_spills_accounted (hkernel : kernelStart ≤ kernelEnd)
    (hkend : kernelEnd.toNat ≤ 2 ^ 24)
    (hmend : memmap.toNat + 24 * memmapEntryCount.toNat ≤ 2 ^ 24) :
    ReservationsHold kernelStart kernelEnd memmap memmapEntryCount
        (kernelEnterReserve (pmmanKernelMap bits) kernelStart kernelEnd memmap memmapEntryCount) ↔
      SpillsAccounted bits kernelStart kernelEnd memmap memmapEntryCount := by
  rw [← reserved_covered_iff bits hkernel hkend hmend]
  constructor
  · intro h
    exact h.covered
  · intro hcovered
    refine ⟨hcovered, fun ops s run alloc halloc a ha => ?_⟩
    have hlow := hcovered 0 (Or.inr (Or.inr (by decide)))
    exact covered_respected (reserve_kernel (kernel_kernelMap bits)) hlow run (hcovered a ha)
      halloc

end

/-- An image and an array that both start on a block boundary never spill. -/
theorem reservations_iff_spills_accounted_aligned :
    ReservationsHold 0x100000 0x123456 0x8000 20
      (kernelEnterReserve (pmmanKernelMap fun _ => 0) 0x100000 0x123456 0x8000 20) := by
  refine (reservations_iff_spills_accounted (fun _ => 0) (by decide) (by decide)
    (by decide)).mpr ⟨fun hspill => ?_, fun hspill => ?_⟩
  · exact absurd hspill.2 (by decide)
  · exact absurd hspill.2 (by decide)

/-- A memory map of 20 entries placed 100 bytes before a block boundary: block 3
holds most of the array and stays free. -/
theorem reserve_misses_straddling_memmap :
    ¬ ∀ (bits : Nat → U32) (kernelStart kernelEnd memmap : Usz) (memmapEntryCount : U16),
      kernelStart ≤ kernelEnd → kernelEnd.toNat ≤ 2 ^ 24 →
      memmap.toNat + 24 * memmapEntryCount.toNat ≤ 2 ^ 24 →
      ReservationsHold kernelStart kernelEnd memmap memmapEntryCount
        (kernelEnterReserve (pmmanKernelMap bits) kernelStart kernelEnd memmap
          memmapEntryCount) := by
  intro claim
  have hcovered := (claim (fun _ => 0) 0x100000 0x123456 0xBF9C 20 (by decide) (by decide)
    (by decide)).covered
  have hspills := (reserved_covered_iff (fun _ => 0) (by decide) (by decide)
    (by decide)).mp hcovered
  obtain hb | hb | hb := hspills.2 (by decide)
  · exact absurd hb (by decide)
  · exact absurd hb (by decide)
  · exact absurd hb (by decide)

end DordOs
