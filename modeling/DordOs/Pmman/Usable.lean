import DordOs.Pmman.Firmware

/-!
No usable memory is lost at boot, and nothing outside the bitmap is written, as
long as no entry of the firmware's map reaches the end of the address space.
-/
namespace DordOs
open Lib

/-- The bytes of block `b` all belong to the entry. -/
def Memmap.Covers (e : Memmap) (b : Nat) : Prop := ∀ a, a / 16384 = b → e.Contains a

/-- Some byte of block `b` belongs to the entry. -/
def Memmap.Meets (e : Memmap) (b : Nat) : Prop := ∃ a, a / 16384 = b ∧ e.Contains a

section

variable {e : Memmap} {b : Nat}

/-- Rounding the start down and the length up loses no whole block below 16 MiB. -/
theorem Memmap.Covers.clears (h : e.Covers b) (usable : e.type = memmapUsable)
    (hend : e.base.toNat + e.len.toNat < 2 ^ 64) (hb : b < 1024) : e.Clears b := by
  obtain ⟨hlo, _⟩ := h (b * 16384) (by omega)
  obtain ⟨_, hhi⟩ := h (b * 16384 + 16383) (by omega)
  simp only [Clears, firstCleared, clearedCount]
  rw [if_neg (fun hc => absurd hc.1 (Nat.ne_of_lt hend))]
  refine ⟨usable, by omega, by omega, by omega⟩

theorem Memmap.Clears.meets (h : e.Clears b) : e.Meets b := by
  obtain ⟨_, hbase, hlo, hhi⟩ := h
  simp only [firstCleared, clearedCount] at hlo hhi
  split at hhi
  · omega
  · refine ⟨max e.base.toNat (b * 16384), by omega, by omega, by omega⟩

end

section

variable {map : PmmanMap} {e : Memmap}

theorem clearRange_bits (map : PmmanMap) {start size : Usz} {k : Nat}
    (hend : (start + size).toNat ≤ 32 * k) :
    (pmmanClearRange map start size).bits k = map.bits k := by
  simp only [pmmanClearRange]
  by_cases hle : start.toNat ≤ (start + size).toNat
  · refine forUp_invariant (fun _ bits => bits k = map.bits k) _ hle ?_ map.bits rfl
    intro i bits _ hi hbits
    have hne : k ≠ (i >>> 5).toNat := by
      rw [toNat_block_index]
      omega
    exact (Function.update_of_ne hne _ bits).trans hbits
  · rw [forUp_of_not_lt (fun hlt => hle (Nat.le_of_lt (BitVec.lt_def.mp hlt)))]

/-- What an entry clears lies inside the bitmap. -/
theorem clearUsable_bits (h : map.Kernel) (hend : e.base.toNat + e.len.toNat < 2 ^ 64) {k : Nat}
    (hk : 32 ≤ k) : (pmmanClearUsable e map).bits k = map.bits k := by
  unfold pmmanClearUsable
  dsimp only
  split
  case isTrue => rfl
  case isFalse hskip =>
    have hbase : e.base.toNat < 2 ^ 24 := by
      rw [← toNat_pmmanSize64]
      exact BitVec.lt_def.mp (BitVec.not_le.mp fun hge => hskip (Or.inr hge))
    obtain ⟨_, hle⟩ := clearUsable_blocks_of_lt h e hbase hend
    refine clearRange_bits map ?_
    rw [BitVec.toNat_add, toNat_firstCleared h e hbase, Nat.mod_eq_of_lt (by omega)]
    omega

end

theorem initialize_bits (bits : Nat → U32) (memmap : Nat → Memmap) {memmapCount : U32}
    (hpos : 0 < memmapCount.toNat)
    (hend : ∀ i < memmapCount.toNat, (memmap i).base.toNat + (memmap i).len.toNat < 2 ^ 64)
    {k : Nat} (hk : 32 ≤ k) : (pmmanInitialize bits memmap memmapCount).1.bits k = bits k := by
  have hsorted : ∀ i < memmapCount.toNat, (memmapSort memmap memmapCount i).base.toNat +
      (memmapSort memmap memmapCount i).len.toNat < 2 ^ 64 :=
    ((memmapSort_rearranged memmap hpos).forall_iff
      fun e => e.base.toNat + e.len.toNat < 2 ^ 64).mpr hend
  unfold pmmanInitialize
  dsimp only
  refine (forUp_invariant (fun _ (map : PmmanMap) => map.Kernel ∧ map.bits k = bits k) _
    (Nat.zero_le _) ?_ _ ?_).2
  · intro i map _ hi ⟨hkernel, hbits⟩
    have hclear := clearUsable_bits hkernel (hsorted i.toNat hi) hk
    exact ⟨clearUsable_kernel hkernel _, hclear.trans hbits⟩
  · exact ⟨kernel_kernelMap _, if_neg (Nat.not_lt.mpr hk)⟩

/-- What the bitmap of a fresh kernel map owes to a memory map of `n` entries. -/
structure BootBitmap (bits : Nat → U32) (memmap : Nat → Memmap) (n : Nat) (map : PmmanMap) :
    Prop where
  inside : ∀ k, 32 ≤ k → map.bits k = bits k
  free : ∀ b < 1024, (∃ i < n, (memmap i).type = memmapUsable ∧ (memmap i).Covers b) →
    map.marked b = false
  marked : ∀ b < 1024, (∀ i < n, (memmap i).type = memmapUsable → ¬ (memmap i).Meets b) →
    map.marked b = true

/-- Whatever memory follows the bitmap is left alone, every whole block of usable
memory below 16 MiB is free and every block without usable memory is marked. -/
theorem pmmanInitialize_boot (bits : Nat → U32) (memmap : Nat → Memmap) (memmapCount : U32)
    (hpos : 0 < memmapCount.toNat)
    (hend : ∀ i < memmapCount.toNat, (memmap i).base.toNat + (memmap i).len.toNat < 2 ^ 64) :
    BootBitmap bits memmap memmapCount.toNat (pmmanInitialize bits memmap memmapCount).1 := by
  have hiff := free_initialize_iff bits memmap hpos fun i hi => Nat.le_of_lt (hend i hi)
  constructor
  · exact fun k hk => initialize_bits bits memmap hpos hend hk
  · intro b hb ⟨i, hi, husable, hcovers⟩
    exact (hiff b hb).mpr ⟨i, hi, hcovers.clears husable (hend i hi) hb⟩
  · intro b hb hnone
    by_contra hfree
    obtain ⟨i, hi, hclears⟩ := (hiff b hb).mp (Bool.not_eq_true _ ▸ hfree)
    exact hnone i hi hclears.1 hclears.meets

/-- An ordinary PC: block 38 is free, block 40 is marked. -/
theorem pmmanInitialize_boot_pc :
    let memmap : Nat → Memmap := fun i =>
      if i = 0 then ⟨0, 0x9FC00, 1, 0⟩ else ⟨0xF0000, 0x10000, 2, 0⟩
    (pmmanInitialize (fun _ => 0) memmap 2).1.marked 38 = false ∧
      (pmmanInitialize (fun _ => 0) memmap 2).1.marked 40 = true := by
  intro memmap
  have hboot := pmmanInitialize_boot (fun _ => 0) memmap 2 (by decide) fun i hi => by
    change i < 2 at hi
    obtain rfl | rfl : i = 0 ∨ i = 1 := by omega
    · decide
    · decide
  refine ⟨hboot.free 38 (by decide) ⟨0, by decide, rfl, fun a ha => ?_⟩,
    hboot.marked 40 (by decide) fun i hi htype hmeets => ?_⟩
  · change 0 ≤ a ∧ a < 0 + 0x9FC00
    omega
  · change i < 2 at hi
    obtain rfl | rfl : i = 0 ∨ i = 1 := by omega
    · obtain ⟨a, ha, _, hlt⟩ := hmeets
      change a < 0 + 0x9FC00 at hlt
      omega
    · exact absurd htype (by decide)

end DordOs
