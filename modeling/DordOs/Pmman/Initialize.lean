import DordOs.Pmman.Alloc
import Mathlib.Logic.Equiv.Basic

/-!
`pmman_initialize`: every block starts out marked, the firmware's memory map is
sorted by base, and the blocks of usable entries are cleared. The sort only
rearranges entries, so which blocks end up free depends on the set of entries
alone. An entry's start is rounded down and its length up, each on its own.
-/
namespace DordOs
open Lib

/-- One entry of the firmware's memory map (`drivers/memmap.h`). -/
structure Memmap where
  base : U64
  len : U64
  type : U32
  attribs : U32
  deriving DecidableEq

def memmapUsable : U32 := 1

/-- `PMMAN_SIZE` as the `u64` it is compared with. -/
def pmmanSize64 : U64 := pmmanSize.setWidth 64

/-- Index and base of the smallest base from `pass` on. -/
def memmapFindMin (memmap : Nat → Memmap) (memmapCount pass : Usz) : Usz × U64 :=
  forUp pass memmapCount
    (fun i (min : Usz × U64) =>
      if (memmap i.toNat).base ≥ min.2 then min else (i, (memmap i.toNat).base))
    (0, BitVec.allOnes 64)

def memmapSwap (memmap : Nat → Memmap) (minIndex pass : Nat) : Nat → Memmap :=
  let tmp := memmap minIndex
  Function.update (Function.update memmap minIndex (memmap pass)) pass tmp

def memmapSortPass (memmapCount pass : Usz) (memmap : Nat → Memmap) : Nat → Memmap :=
  let minIndex := (memmapFindMin memmap memmapCount pass).1
  if minIndex = pass then memmap else memmapSwap memmap minIndex.toNat pass.toNat

def memmapSort (memmap : Nat → Memmap) (memmapCount : U32) : Nat → Memmap :=
  forUp 0 (memmapCount - 1) (memmapSortPass memmapCount) memmap

/-- The body of the loop over the sorted entries. -/
def pmmanClearUsable (entry : Memmap) (map : PmmanMap) : PmmanMap :=
  let base := entry.base
  let len := entry.len
  if entry.type ≠ memmapUsable ∨ base ≥ pmmanSize64 then map
  else
    let len := if base + len ≥ pmmanSize64 then len - (base + len - pmmanSize64) else len
    pmmanClearRange map (pmmanToBlock map (base.setWidth 32)) (pmmanToBlocks map (len.setWidth 32))

/-- The kernel map and the memory map afterwards; `bits` is the memory from
`pmman_kernel_map.bits` on before the call. -/
def pmmanInitialize (bits : Nat → U32) (memmap : Nat → Memmap) (memmapCount : U32) :
    PmmanMap × (Nat → Memmap) :=
  let map := pmmanKernelMap fun k => if k < 32 then 0xFFFFFFFF else bits k
  let memmap := memmapSort memmap memmapCount
  (forUp 0 memmapCount (fun i map => pmmanClearUsable (memmap i.toNat) map) map, memmap)

section Sorting

theorem memmapSwap_eq_swap (memmap : Nat → Memmap) (i j : Nat) :
    memmapSwap memmap i j = memmap ∘ Equiv.swap i j := by
  funext k
  simp only [memmapSwap, Function.comp_apply, Equiv.swap_apply_def, Function.update_apply]
  by_cases hj : k = j
  · by_cases hi : k = i
    · simp [hj, ← hi]
    · simp [hj, show ¬ j = i from fun h => hi (hj.trans h)]
  · by_cases hi : k = i
    · have hij : ¬ i = j := fun h => hj (hi.trans h)
      simp [hi, hij]
    · simp [hi, hj]

theorem memmapFindMin_lt (memmap : Nat → Memmap) {memmapCount pass : Usz}
    (hpos : 0 < memmapCount.toNat) (hpass : pass.toNat ≤ memmapCount.toNat) :
    (memmapFindMin memmap memmapCount pass).1.toNat < memmapCount.toNat := by
  simp only [memmapFindMin]
  apply forUp_invariant (fun _ (min : Usz × U64) => min.1.toNat < memmapCount.toNat) _ hpass
  · intro i min _ hi hmin
    split
    · exact hmin
    · exact hi
  · exact hpos

/-- `m'` is `m` with its first `n` entries rearranged. -/
def Rearranged (n : Nat) (m m' : Nat → Memmap) : Prop :=
  ∃ σ : Equiv.Perm Nat, (∀ i, σ i < n ↔ i < n) ∧ m' = m ∘ σ

theorem Rearranged.refl (n : Nat) (m : Nat → Memmap) : Rearranged n m m :=
  ⟨Equiv.refl Nat, fun _ => Iff.rfl, rfl⟩

theorem Rearranged.swap {n : Nat} {m m' : Nat → Memmap} (h : Rearranged n m m') {i j : Nat}
    (hi : i < n) (hj : j < n) : Rearranged n m (memmapSwap m' i j) := by
  obtain ⟨σ, hσ, rfl⟩ := h
  refine ⟨(Equiv.swap i j).trans σ, fun k => ?_, by rw [memmapSwap_eq_swap]; rfl⟩
  rw [Equiv.trans_apply, hσ, Equiv.swap_apply_def]
  split
  · next h => simp [h, hi, hj]
  · split
    · next h => simp [h, hi, hj]
    · rfl

theorem Rearranged.exists_iff {n : Nat} {m m' : Nat → Memmap} (h : Rearranged n m m')
    (P : Memmap → Prop) : (∃ i < n, P (m' i)) ↔ ∃ i < n, P (m i) := by
  obtain ⟨σ, hσ, rfl⟩ := h
  constructor
  · intro ⟨i, hi, hp⟩
    exact ⟨σ i, (hσ i).mpr hi, hp⟩
  · intro ⟨i, hi, hp⟩
    refine ⟨σ.symm i, ?_, ?_⟩
    · rw [← hσ, Equiv.apply_symm_apply]
      exact hi
    · rw [Function.comp_apply, Equiv.apply_symm_apply]
      exact hp

theorem Rearranged.forall_iff {n : Nat} {m m' : Nat → Memmap} (h : Rearranged n m m')
    (P : Memmap → Prop) : (∀ i < n, P (m' i)) ↔ ∀ i < n, P (m i) := by
  have hexists := not_congr (h.exists_iff fun e => ¬ P e)
  push Not at hexists
  exact hexists

/-- A sort of at least one entry rearranges the entries and touches no others. -/
theorem memmapSort_rearranged (memmap : Nat → Memmap) {memmapCount : U32}
    (hpos : 0 < memmapCount.toNat) :
    Rearranged memmapCount.toNat memmap (memmapSort memmap memmapCount) := by
  have hlast : (memmapCount - 1).toNat = memmapCount.toNat - 1 :=
    BitVec.toNat_sub_of_le (BitVec.le_def.mpr hpos)
  simp only [memmapSort]
  apply forUp_invariant (fun _ m => Rearranged memmapCount.toNat memmap m) _ (Nat.zero_le _)
  · intro pass m _ hpass h
    unfold memmapSortPass
    dsimp only
    split
    · exact h
    · exact h.swap (memmapFindMin_lt m hpos (by omega)) (by omega)
  · exact Rearranged.refl _ _

end Sorting

namespace Memmap

/-- The first block `pmman_initialize` clears for an entry. -/
def firstCleared (e : Memmap) : Nat := e.base.toNat / 16384

/-- How many blocks it clears: the length up to 16 MiB, rounded up. An entry
that ends exactly at `2 ^ 64` escapes the cut, since its end wraps to zero; its
truncated length then either reaches past the whole map or, from a base in
block 0, rounds to nothing. -/
def clearedCount (e : Memmap) : Nat :=
  if e.base.toNat + e.len.toNat = 2 ^ 64 ∧ e.base.toNat < 16384 then 0
  else (min e.len.toNat (2 ^ 24 - e.base.toNat) + 16383) / 16384

/-- The loop clears block `b` on account of this entry. -/
def Clears (e : Memmap) (b : Nat) : Prop :=
  e.type = memmapUsable ∧ e.base.toNat < 2 ^ 24 ∧
    e.firstCleared ≤ b ∧ b < e.firstCleared + e.clearedCount

instance (e : Memmap) (b : Nat) : Decidable (e.Clears b) :=
  inferInstanceAs (Decidable (_ ∧ _ ∧ _ ∧ _))

end Memmap

theorem toNat_pmmanSize64 : pmmanSize64.toNat = 2 ^ 24 := by decide

theorem clearUsable_kernel {map : PmmanMap} (h : map.Kernel) (e : Memmap) :
    (pmmanClearUsable e map).Kernel := by
  unfold pmmanClearUsable
  dsimp only
  split
  · exact h
  · exact h.clearRange _ _

theorem toNat_firstCleared {map : PmmanMap} (h : map.Kernel) (e : Memmap)
    (hbase : e.base.toNat < 2 ^ 24) :
    (pmmanToBlock map (e.base.setWidth 32)).toNat = e.firstCleared := by
  rw [h.toNat_toBlock, BitVec.toNat_setWidth, Nat.mod_eq_of_lt (by omega)]
  rfl

/-- The length handed to `pmman_to_blocks`, as the loop computes it. -/
theorem clearUsable_len (e : Memmap) (hbase : e.base.toNat < 2 ^ 24)
    (hend : e.base.toNat + e.len.toNat < 2 ^ 64) :
    (if e.base + e.len ≥ pmmanSize64 then e.len - (e.base + e.len - pmmanSize64)
      else e.len).toNat = min e.len.toNat (2 ^ 24 - e.base.toNat) := by
  have hsize := toNat_pmmanSize64
  have hsum : (e.base + e.len).toNat = e.base.toNat + e.len.toNat :=
    BitVec.toNat_add_of_lt hend
  by_cases hcut : 2 ^ 24 ≤ e.base.toNat + e.len.toNat
  · have hge : e.base + e.len ≥ pmmanSize64 := by
      rw [ge_iff_le, BitVec.le_def]
      omega
    have hover : (e.base + e.len - pmmanSize64).toNat = e.base.toNat + e.len.toNat - 2 ^ 24 := by
      rw [BitVec.toNat_sub_of_le hge, hsum, hsize]
    rw [if_pos hge, BitVec.toNat_sub_of_le (by rw [BitVec.le_def]; omega), hover]
    omega
  · rw [if_neg (by rw [ge_iff_le, BitVec.le_def]; omega)]
    omega

theorem clearUsable_blocks_of_lt {map : PmmanMap} (h : map.Kernel) (e : Memmap)
    (hbase : e.base.toNat < 2 ^ 24) (hend : e.base.toNat + e.len.toNat < 2 ^ 64) :
    let len := if e.base + e.len ≥ pmmanSize64 then
      e.len - (e.base + e.len - pmmanSize64) else e.len
    let n := (pmmanToBlocks map (len.setWidth 32)).toNat
    n = e.clearedCount ∧ e.firstCleared + n ≤ 1024 := by
  intro len n
  have hlen : len.toNat = min e.len.toNat (2 ^ 24 - e.base.toNat) := clearUsable_len e hbase hend
  have hn : n = ((len.toNat % 2 ^ 32) + 16383) % 2 ^ 32 / 16384 := by
    change (pmmanToBlocks map (len.setWidth 32)).toNat = _
    rw [h.toNat_toBlocks, BitVec.toNat_setWidth]
  simp only [Memmap.firstCleared, Memmap.clearedCount]
  rw [if_neg (fun hc => absurd hc.1 (Nat.ne_of_lt hend))]
  omega

/-- An entry that ends at `2 ^ 64` is not cut. -/
theorem clearUsable_blocks {map : PmmanMap} (h : map.Kernel) (e : Memmap)
    (hbase : e.base.toNat < 2 ^ 24) (hend : e.base.toNat + e.len.toNat ≤ 2 ^ 64) :
    let len := if e.base + e.len ≥ pmmanSize64 then
      e.len - (e.base + e.len - pmmanSize64) else e.len
    let n := (pmmanToBlocks map (len.setWidth 32)).toNat
    n = e.clearedCount ∧ e.firstCleared + n ≤ 1024 ∨
      (e.firstCleared + n = 2 ^ 18 ∧ 1024 ≤ e.firstCleared + e.clearedCount) := by
  by_cases hwrap : e.base.toNat + e.len.toNat = 2 ^ 64
  · intro len n
    have hsize := toNat_pmmanSize64
    have hsum : (e.base + e.len).toNat = (e.base.toNat + e.len.toNat) % 2 ^ 64 :=
      BitVec.toNat_add _ _
    have hlen : len = e.len := if_neg (by rw [ge_iff_le, BitVec.le_def]; omega)
    have hn : n = ((e.len.toNat % 2 ^ 32) + 16383) % 2 ^ 32 / 16384 := by
      change (pmmanToBlocks map (len.setWidth 32)).toNat = _
      rw [h.toNat_toBlocks, BitVec.toNat_setWidth, hlen]
    simp only [Memmap.firstCleared, Memmap.clearedCount]
    by_cases hlow : e.base.toNat < 16384
    · rw [if_pos ⟨hwrap, hlow⟩]
      left
      omega
    · rw [if_neg (fun hc => hlow hc.2)]
      right
      omega
  · exact Or.inl (clearUsable_blocks_of_lt h e hbase (Nat.lt_of_le_of_ne hend hwrap))

theorem marked_clearUsable {map : PmmanMap} (h : map.Kernel) (e : Memmap)
    (hend : e.base.toNat + e.len.toNat ≤ 2 ^ 64) (b : Nat) (hb : b < 1024) :
    (pmmanClearUsable e map).marked b = (map.marked b && !decide (e.Clears b)) := by
  unfold pmmanClearUsable
  dsimp only
  have hsize := toNat_pmmanSize64
  by_cases hskip : e.type ≠ memmapUsable ∨ e.base ≥ pmmanSize64
  · rw [if_pos hskip]
    have hno : ¬ e.Clears b := by
      intro ⟨htype, hlow, _⟩
      obtain hne | hge := hskip
      · exact hne htype
      · have := BitVec.le_def.mp hge
        omega
    rw [decide_eq_false hno, Bool.not_false, Bool.and_true]
  · rw [if_neg hskip]
    have htype : e.type = memmapUsable := by
      by_contra hne
      exact hskip (Or.inl hne)
    have hbase : e.base.toNat < 2 ^ 24 := by
      by_contra hge
      exact hskip (Or.inr (BitVec.le_def.mpr (by omega)))
    have hblocks := clearUsable_blocks h e hbase hend
    dsimp only at hblocks
    have hstart := toNat_firstCleared h e hbase
    have hfirst : e.firstCleared < 1024 := by
      simp only [Memmap.firstCleared]
      omega
    rw [marked_clearRange, BitVec.toNat_add, hstart]
    congr 2
    apply decide_eq_decide.mpr
    simp only [Memmap.Clears]
    obtain ⟨heq, hle⟩ | ⟨heq, hle⟩ := hblocks
    · rw [heq, Nat.mod_eq_of_lt (by omega)]
      simp only [htype, hbase, true_and]
    · rw [heq]
      simp only [htype, hbase, true_and]
      omega

/-- The initial fill marks every block of the bitmap. -/
theorem marked_fill (bits : Nat → U32) {b : Nat} (hb : b < 1024) :
    (pmmanKernelMap fun k => if k < 32 then 0xFFFFFFFF else bits k).marked b = true := by
  have hword : b / 32 < 32 := by omega
  have hbit : b % 32 < 32 := by omega
  change ((if b / 32 < 32 then (0xFFFFFFFF : U32) else bits (b / 32)).getLsbD (b % 32)) = true
  rw [if_pos hword, show (0xFFFFFFFF : U32) = BitVec.allOnes 32 from rfl,
    BitVec.getLsbD_allOnes, decide_eq_true hbit]

theorem free_clearUsable_iff {map : PmmanMap} (h : map.Kernel) (e : Memmap)
    (hend : e.base.toNat + e.len.toNat ≤ 2 ^ 64) {b : Nat} (hb : b < 1024) :
    (pmmanClearUsable e map).marked b = false ↔ map.marked b = false ∨ e.Clears b := by
  rw [marked_clearUsable h e hend b hb, Bool.and_eq_false_iff, Bool.not_eq_false',
    decide_eq_true_iff]

/-- Which blocks below 1024 are free after `pmman_initialize`: those some entry
clears. -/
theorem free_initialize_iff (bits : Nat → U32) (memmap : Nat → Memmap) {memmapCount : U32}
    (hpos : 0 < memmapCount.toNat)
    (hend : ∀ i < memmapCount.toNat, (memmap i).base.toNat + (memmap i).len.toNat ≤ 2 ^ 64)
    (b : Nat) (hb : b < 1024) :
    (pmmanInitialize bits memmap memmapCount).1.marked b = false ↔
      ∃ i < memmapCount.toNat, (memmap i).Clears b := by
  have hperm := memmapSort_rearranged memmap hpos
  have hsorted : ∀ i < memmapCount.toNat, (memmapSort memmap memmapCount i).base.toNat +
      (memmapSort memmap memmapCount i).len.toNat ≤ 2 ^ 64 :=
    (hperm.forall_iff fun e => e.base.toNat + e.len.toNat ≤ 2 ^ 64).mpr hend
  rw [← hperm.exists_iff fun e => e.Clears b]
  unfold pmmanInitialize
  dsimp only
  generalize memmapSort memmap memmapCount = sorted at hsorted
  refine (forUp_invariant
    (fun n (map : PmmanMap) =>
      map.Kernel ∧ (map.marked b = false ↔ ∃ i < n, (sorted i).Clears b))
    _ (Nat.zero_le _) ?_ _ ?_).2
  · intro i map _ hi ⟨hk, hiff⟩
    refine ⟨clearUsable_kernel hk _, ?_⟩
    rw [free_clearUsable_iff hk _ (hsorted i.toNat hi) hb, hiff]
    constructor
    · intro h
      obtain ⟨j, hj, hc⟩ | hc := h
      · exact ⟨j, by omega, hc⟩
      · exact ⟨i.toNat, by omega, hc⟩
    · intro ⟨j, hj, hc⟩
      by_cases hji : j = i.toNat
      · exact Or.inr (hji ▸ hc)
      · exact Or.inl ⟨j, by omega, hc⟩
  · refine ⟨kernel_kernelMap _, ?_⟩
    rw [marked_fill bits hb]
    constructor
    · intro h
      cases h
    · intro ⟨i, hi, _⟩
      exact absurd hi (Nat.not_lt_zero i)

end DordOs
