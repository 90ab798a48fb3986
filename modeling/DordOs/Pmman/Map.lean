import DordOs.Lib.BitWords
import DordOs.Libk.Align

/-!
The block bitmap of `kernel/pmman.c`: single blocks, block ranges and the
conversions of `pmman.h` between bytes and blocks. The array `bits` is read as
the memory from `map->bits` on, so that its first 32 words are the bitmap and an
access beyond them is still an access to something.
-/
namespace DordOs
open Lib

def pmmanBlockSizeShift : Usz := 14
def pmmanBits : Usz := 32 * 32
def pmmanSize : Usz := pmmanBits * ((1 : Usz) <<< pmmanBlockSizeShift)

structure PmmanMap where
  blockSize : Usz
  base : Usz
  bits : Nat → U32

/-- `pmman_kernel_map` as `pmman_initialize` sets it up. -/
def pmmanKernelMap (bits : Nat → U32) : PmmanMap :=
  { blockSize := pmmanBlockSizeShift, base := 0, bits := bits }

def pmmanSetBlock (map : Nat → U32) (block : Usz) : Nat → U32 :=
  let index := (block >>> 5).toNat
  let bit := block &&& 0x1F
  Function.update map index (map index ||| ((1 : U32) <<< bit))

def pmmanClearBlock (map : Nat → U32) (block : Usz) : Nat → U32 :=
  let index := (block >>> 5).toNat
  let bit := block &&& 0x1F
  Function.update map index (map index &&& ~~~((1 : U32) <<< bit))

def pmmanGetBlock (map : Nat → U32) (block : Usz) : U8 :=
  let index := (block >>> 5).toNat
  let bit := block &&& 0x1F
  ((map index >>> bit) &&& 1).setWidth 8

def pmmanMarkRange (map : PmmanMap) (start size : Usz) : PmmanMap :=
  { map with bits := forUp start (start + size) (fun i bits => pmmanSetBlock bits i) map.bits }

def pmmanClearRange (map : PmmanMap) (start size : Usz) : PmmanMap :=
  { map with bits := forUp start (start + size) (fun i bits => pmmanClearBlock bits i) map.bits }

def pmmanToBlock (map : PmmanMap) (addr : Usz) : Usz :=
  (addr - map.base) >>> map.blockSize

def pmmanToBlocks (map : PmmanMap) (len : Usz) : Usz :=
  alignFwd len ((1 : Usz) <<< map.blockSize) >>> map.blockSize

/-- Whether block `b` is marked. -/
def PmmanMap.marked (map : PmmanMap) (b : Nat) : Bool :=
  bitAt map.bits b

theorem toNat_block_index (block : Usz) : (block >>> 5).toNat = block.toNat / 32 := by
  rw [BitVec.toNat_ushiftRight, Nat.shiftRight_eq_div_pow]

theorem toNat_block_bit (block : Usz) : (block &&& 0x1F).toNat = block.toNat % 32 := by
  rw [BitVec.toNat_and]
  exact Nat.and_two_pow_sub_one_eq_mod block.toNat 5

theorem bitAt_setBlock (map : Nat → U32) (block : Usz) (b : Nat) :
    bitAt (pmmanSetBlock map block) b = (bitAt map b || decide (b = block.toNat)) := by
  simp only [pmmanSetBlock]
  simp only [toNat_block_index, BitVec.shiftLeft_eq', toNat_block_bit]
  exact bitAt_update_or (by decide) map block.toNat b

theorem bitAt_clearBlock (map : Nat → U32) (block : Usz) (b : Nat) :
    bitAt (pmmanClearBlock map block) b = (bitAt map b && !decide (b = block.toNat)) := by
  simp only [pmmanClearBlock]
  simp only [toNat_block_index, BitVec.shiftLeft_eq', toNat_block_bit]
  exact bitAt_update_clear (by decide) map block.toNat b

theorem getBlock_eq_zero_iff (map : Nat → U32) (block : Usz) :
    pmmanGetBlock map block = 0 ↔ bitAt map block.toNat = false := by
  have hbit : pmmanGetBlock map block =
      if bitAt map block.toNat then 1 else 0 := by
    unfold pmmanGetBlock bitAt
    simp only [toNat_block_index, BitVec.ushiftRight_eq', toNat_block_bit]
    apply BitVec.eq_of_getLsbD_eq
    intro i hi
    by_cases hzero : i = 0
    · subst hzero
      cases h : (map (block.toNat / 32)).getLsbD (block.toNat % 32) <;> simp [h]
    · cases h : (map (block.toNat / 32)).getLsbD (block.toNat % 32) <;>
        simp [hzero, BitVec.getLsbD_one]
  rw [hbit]
  cases bitAt map block.toNat <;> simp

/-- A loop whose body changes one block's bit by `g` changes the bits of the blocks
`[start, stop)` by it. -/
theorem bitAt_forUp {g : Bool → Bool → Bool} {f : (Nat → U32) → Usz → Nat → U32}
    (hfalse : ∀ x, g x false = x) (hor : ∀ x p q, g (g x p) q = g x (p || q))
    (hf : ∀ bits i b, bitAt (f bits i) b = g (bitAt bits b) (decide (b = i.toNat)))
    (bits : Nat → U32) (start stop : Usz) (b : Nat) :
    bitAt (forUp start stop (fun i bits => f bits i) bits) b =
      g (bitAt bits b) (decide (start.toNat ≤ b ∧ b < stop.toNat)) := by
  by_cases hle : start.toNat ≤ stop.toNat
  · have key := forUp_invariant
      (fun n bits' => ∀ b, bitAt bits' b = g (bitAt bits b) (decide (start.toNat ≤ b ∧ b < n)))
      (fun i bits => f bits i) hle
      (fun i bits' hlo hhi inv b => by
        rw [hf, inv, hor]
        congr 1
        rw [← Bool.decide_or]
        exact decide_eq_decide.mpr (by omega))
      bits (fun b => by rw [decide_eq_false (by omega), hfalse])
    exact key b
  · have hnot : ¬ start < stop := by
      rw [BitVec.lt_def]
      omega
    have hout : ¬ (start.toNat ≤ b ∧ b < stop.toNat) := by omega
    rw [forUp_of_not_lt hnot, decide_eq_false hout, hfalse]

/-- The blocks `[start, start + size)`, with the end computed in `usz`. -/
theorem marked_markRange (map : PmmanMap) (start size : Usz) (b : Nat) :
    (pmmanMarkRange map start size).marked b =
      (map.marked b || decide (start.toNat ≤ b ∧ b < (start + size).toNat)) :=
  bitAt_forUp Bool.or_false Bool.or_assoc bitAt_setBlock map.bits start (start + size) b

theorem marked_clearRange (map : PmmanMap) (start size : Usz) (b : Nat) :
    (pmmanClearRange map start size).marked b =
      (map.marked b && !decide (start.toNat ≤ b ∧ b < (start + size).toNat)) := by
  refine @bitAt_forUp (fun x p => x && !p) pmmanClearBlock ?_ ?_ bitAt_clearBlock map.bits start
    (start + size) b
  · exact fun x => Bool.and_true x
  · intro x p q
    rw [Bool.and_assoc, Bool.not_or]

/-- A map with the geometry `pmman_initialize` gives the kernel map. -/
structure PmmanMap.Kernel (map : PmmanMap) : Prop where
  blockSize : map.blockSize = pmmanBlockSizeShift
  base : map.base = 0

theorem kernel_kernelMap (bits : Nat → U32) : (pmmanKernelMap bits).Kernel := ⟨rfl, rfl⟩

theorem PmmanMap.Kernel.markRange {map : PmmanMap} (h : map.Kernel) (start size : Usz) :
    (pmmanMarkRange map start size).Kernel := ⟨h.blockSize, h.base⟩

theorem PmmanMap.Kernel.clearRange {map : PmmanMap} (h : map.Kernel) (start size : Usz) :
    (pmmanClearRange map start size).Kernel := ⟨h.blockSize, h.base⟩

theorem PmmanMap.Kernel.toNat_toBlock {map : PmmanMap} (h : map.Kernel) (addr : Usz) :
    (pmmanToBlock map addr).toNat = addr.toNat / 16384 := by
  simp only [pmmanToBlock]
  rw [h.base, h.blockSize, show addr - 0 = addr from BitVec.sub_zero addr,
    BitVec.ushiftRight_eq', BitVec.toNat_ushiftRight, Nat.shiftRight_eq_div_pow]
  rfl

/-- The rounding sum is a `usz`: a length within 16 KiB of `2 ^ 32` is taken
for zero blocks. -/
theorem PmmanMap.Kernel.toNat_toBlocks {map : PmmanMap} (h : map.Kernel) (len : Usz) :
    (pmmanToBlocks map len).toNat = (len.toNat + 16383) % 2 ^ 32 / 16384 := by
  simp only [pmmanToBlocks]
  rw [h.blockSize, BitVec.ushiftRight_eq', BitVec.toNat_ushiftRight, Nat.shiftRight_eq_div_pow,
    BitVec.shiftLeft_eq']
  change (alignFwd len ((1 : Usz) <<< 14)).toNat / 2 ^ 14 = _
  rw [toNat_alignFwd len 14 (by decide)]
  exact Nat.mul_div_cancel _ (by decide)

end DordOs
