import DordOs.Pmman.Map

/-!
`pmman_alloc` and `pmman_free`. The search is a complete first fit: it returns
the lowest run of free blocks of the rounded size, or reports that there is
none. Both loops are written on the counter they share in the source; the inner
one hands it back to the outer one.
-/
namespace DordOs
open Lib

/-- How the inner loop of `pmman_alloc` ends: through `goto found`, or with the
counter at a marked block or at the end of the map. -/
inductive ScanExit
  | found
  | stopped (i : Usz)
  deriving DecidableEq

def pmmanScan (bits : Nat → U32) (blocks start i : Usz) : ScanExit :=
  if h : i < pmmanBits ∧ pmmanGetBlock bits i = 0 then
    if i + 1 - start = blocks then .found else pmmanScan bits blocks start (i + 1)
  else .stopped i
termination_by pmmanBits.toNat - i.toNat
decreasing_by
  have hlt := BitVec.lt_def.mp h.1
  rw [toNat_succ_of_lt h.1]
  omega

theorem pmmanScan_stopped_bounds {bits : Nat → U32} {blocks start i j : Usz}
    (h : pmmanScan bits blocks start i = .stopped j) :
    i.toNat ≤ j.toNat ∧ j.toNat ≤ max i.toNat pmmanBits.toNat := by
  fun_induction pmmanScan bits blocks start i with
  | case1 => cases h
  | case2 i hi hne ih =>
      have hlt := BitVec.lt_def.mp hi.1
      have hsucc := toNat_succ_of_lt hi.1
      have := ih h
      omega
  | case3 i hi =>
      cases h
      omega

theorem toNat_search_bound {blocks : Usz} (fits : blocks ≤ pmmanBits) :
    (pmmanBits - blocks).toNat = 1024 - blocks.toNat := by
  rw [BitVec.toNat_sub_of_le fits]
  rfl

/-- The outer counter restarts one past the stop, without wrapping. -/
theorem pmmanSearch_restart {bits : Nat → U32} {blocks i j : Usz} (fits : blocks ≤ pmmanBits)
    (hi : i ≤ pmmanBits - blocks) (hs : pmmanScan bits blocks i i = .stopped j) :
    (j + 1).toNat = j.toNat + 1 ∧ i.toNat ≤ j.toNat ∧ j.toNat ≤ 1024 := by
  have hbits : pmmanBits.toNat = 1024 := rfl
  have hle := BitVec.le_def.mp hi
  rw [toNat_search_bound fits] at hle
  have hj := pmmanScan_stopped_bounds hs
  refine ⟨?_, by omega, by omega⟩
  rw [BitVec.toNat_add]
  exact Nat.mod_eq_of_lt (by change j.toNat + 1 < 2 ^ 32; omega)

def pmmanSearch (bits : Nat → U32) (blocks : Usz) (fits : blocks ≤ pmmanBits) (i : Usz) :
    Option Usz :=
  if h : i ≤ pmmanBits - blocks then
    match hs : pmmanScan bits blocks i i with
    | .found => some i
    | .stopped j =>
        have := pmmanSearch_restart fits h hs
        pmmanSearch bits blocks fits (j + 1)
  else none
termination_by 1025 - i.toNat

/-- The returned pointer (0 for `null`) and the map afterwards. -/
def pmmanAlloc (map : PmmanMap) (size : Usz) : Usz × PmmanMap :=
  let blocks := pmmanToBlocks map size
  if h : blocks > pmmanBits then (0, map)
  else
    match pmmanSearch map.bits blocks (BitVec.not_lt.mp h) 0 with
    | none => (0, map)
    | some start => ((start <<< map.blockSize) + map.base, pmmanMarkRange map start blocks)

def pmmanFree (map : PmmanMap) (addr size : Usz) : PmmanMap :=
  pmmanClearRange map (pmmanToBlock map addr) (pmmanToBlocks map size)

/-- `n` consecutive free blocks from `s` on, inside the map. -/
structure FreeRun (bits : Nat → U32) (n s : Nat) : Prop where
  inside : s + n ≤ 1024
  free : ∀ b, s ≤ b → b < s + n → bitAt bits b = false

theorem toNat_scan_length {start i : Usz} (hstart : start.toNat ≤ i.toNat) (hi : i < pmmanBits) :
    (i + 1 - start).toNat = i.toNat + 1 - start.toNat := by
  have hsucc := toNat_succ_of_lt hi
  rw [BitVec.toNat_sub_of_le (BitVec.le_def.mpr (by omega)), hsucc]

theorem scan_continues {blocks start i : Usz} (hstart : start.toNat ≤ i.toNat)
    (hi : i < pmmanBits) (hne : ¬ i + 1 - start = blocks) :
    i.toNat + 1 - start.toNat ≠ blocks.toNat := by
  rw [← toNat_scan_length hstart hi]
  exact fun h => hne (BitVec.eq_of_toNat_eq h)

theorem free_through {bits : Nat → U32} {n : Nat} {i : Usz}
    (hfree : ∀ b, n ≤ b → b < i.toNat → bitAt bits b = false)
    (hi : pmmanGetBlock bits i = 0) {b : Nat} (hlo : n ≤ b) (hhi : b < i.toNat + 1) :
    bitAt bits b = false := by
  by_cases hb : b < i.toNat
  · exact hfree b hlo hb
  · have hbi : b = i.toNat := by omega
    rw [hbi]
    exact (getBlock_eq_zero_iff bits i).mp hi

theorem pmmanScan_found {bits : Nat → U32} {blocks start i : Usz}
    (hstart : start.toNat ≤ i.toNat) (hlen : i.toNat < start.toNat + blocks.toNat)
    (hfree : ∀ b, start.toNat ≤ b → b < i.toNat → bitAt bits b = false)
    (h : pmmanScan bits blocks start i = .found) : FreeRun bits blocks.toNat start.toNat := by
  fun_induction pmmanScan bits blocks start i with
  | case1 i hi heq =>
      have hlt := BitVec.lt_def.mp hi.1
      have hbits : pmmanBits.toNat = 1024 := rfl
      have hsub := toNat_scan_length hstart hi.1
      rw [heq] at hsub
      exact ⟨by omega, fun b hlo hhi => free_through hfree hi.2 hlo (by omega)⟩
  | case2 i hi hne ih =>
      have hsucc := toNat_succ_of_lt hi.1
      have hneq := scan_continues hstart hi.1 hne
      apply ih
      · omega
      · omega
      · exact fun b hlo hhi => free_through hfree hi.2 hlo (by omega)
      · exact h
  | case3 i hi => cases h

/-- Where the inner loop stops, no run that starts before the stop can succeed. -/
theorem pmmanScan_stopped {bits : Nat → U32} {blocks start i j : Usz}
    (hstart : start.toNat ≤ i.toNat) (hlen : i.toNat < start.toNat + blocks.toNat)
    (h : pmmanScan bits blocks start i = .stopped j) :
    j.toNat < start.toNat + blocks.toNat ∧ (bitAt bits j.toNat = true ∨ 1024 ≤ j.toNat) := by
  fun_induction pmmanScan bits blocks start i with
  | case1 => cases h
  | case2 i hi hne ih =>
      have hsucc := toNat_succ_of_lt hi.1
      have hneq := scan_continues hstart hi.1 hne
      exact ih (by omega) (by omega) h
  | case3 i hi =>
      cases h
      refine ⟨hlen, ?_⟩
      by_cases hlt : j < pmmanBits
      · left
        have hnz : ¬ bitAt bits j.toNat = false :=
          fun hz => hi ⟨hlt, (getBlock_eq_zero_iff bits j).mpr hz⟩
        rwa [Bool.not_eq_false] at hnz
      · right
        exact Nat.not_lt.mp (fun hb => hlt (BitVec.lt_def.mpr hb))

theorem not_freeRun_of_stop {bits : Nat → U32} {n s j : Nat} (hlo : s ≤ j) (hhi : j < s + n)
    (hj : bitAt bits j = true ∨ 1024 ≤ j) : ¬ FreeRun bits n s := by
  intro hrun
  rcases hj with hmarked | hend
  · rw [hrun.free j hlo hhi] at hmarked
    cases hmarked
  · have := hrun.inside
    omega

/-- The search goes on behind the stop without missing a run. -/
theorem pmmanScan_skips {bits : Nat → U32} {blocks i j : Usz}
    (hlen : i.toNat < i.toNat + blocks.toNat) (h : pmmanScan bits blocks i i = .stopped j) {s : Nat}
    (hlo : i.toNat ≤ s) (hhi : s ≤ j.toNat) : ¬ FreeRun bits blocks.toNat s := by
  obtain ⟨hj, hstop⟩ := pmmanScan_stopped (Nat.le_refl _) hlen h
  exact not_freeRun_of_stop hhi (by omega) hstop

/-- With no block asked for, the inner loop never meets its length. -/
theorem pmmanScan_zero {bits : Nat → U32} {start i : Usz} (hle : start.toNat ≤ i.toNat) :
    pmmanScan bits 0 start i ≠ .found := by
  fun_induction pmmanScan bits 0 start i with
  | case1 i hi heq =>
      have hsub := toNat_scan_length hle hi.1
      rw [heq] at hsub
      change 0 = _ at hsub
      omega
  | case2 i hi hne ih =>
      have hsucc := toNat_succ_of_lt hi.1
      exact ih (by omega)
  | case3 => simp

/-- What the search returns is the lowest free run from its starting point. -/
theorem pmmanSearch_some {bits : Nat → U32} {blocks : Usz} {fits : blocks ≤ pmmanBits}
    {i start : Usz} (h : pmmanSearch bits blocks fits i = some start) :
    0 < blocks.toNat ∧ FreeRun bits blocks.toNat start.toNat ∧
      ∀ s, i.toNat ≤ s → s < start.toNat → ¬ FreeRun bits blocks.toNat s := by
  fun_induction pmmanSearch bits blocks fits i with
  | case1 i hi hs =>
      cases h
      have hpos : 0 < blocks.toNat := by
        rcases Nat.eq_zero_or_pos blocks.toNat with hz | hpos
        · have hblocks : blocks = 0 := BitVec.eq_of_toNat_eq hz
          subst hblocks
          exact absurd hs (pmmanScan_zero (Nat.le_refl _))
        · exact hpos
      refine ⟨hpos, pmmanScan_found (Nat.le_refl _) (by omega) (fun b hlo hhi => by omega) hs, ?_⟩
      intro s hlo hhi
      omega
  | case2 i hi j hs hnext ih =>
      obtain ⟨hpos, hrun, hlow⟩ := ih h
      refine ⟨hpos, hrun, fun s hlo hhi => ?_⟩
      obtain ⟨hsucc, _, _⟩ := hnext
      by_cases hsj : s ≤ j.toNat
      · exact pmmanScan_skips (by omega) hs hlo hsj
      · exact hlow s (by omega) hhi
  | case3 => cases h

theorem pmmanSearch_none {bits : Nat → U32} {blocks : Usz} {fits : blocks ≤ pmmanBits}
    {i : Usz} (hpos : 0 < blocks.toNat) (h : pmmanSearch bits blocks fits i = none) :
    ∀ s, i.toNat ≤ s → ¬ FreeRun bits blocks.toNat s := by
  fun_induction pmmanSearch bits blocks fits i with
  | case1 => cases h
  | case2 i hi j hs hnext ih =>
      intro s hlo
      obtain ⟨hsucc, _, _⟩ := hnext
      by_cases hsj : s ≤ j.toNat
      · exact pmmanScan_skips (by omega) hs hlo hsj
      · exact ih h s (by omega)
  | case3 i hi =>
      intro s hlo hrun
      have hbound := mt BitVec.le_def.mpr hi
      rw [toNat_search_bound fits] at hbound
      have := hrun.inside
      omega

/-- The 16 KiB blocks needed for `size` bytes. -/
def blocksFor (size : Usz) : Nat := (size.toNat + 16383) / 16384

theorem PmmanMap.Kernel.toBlocks_of_le {map : PmmanMap} (h : map.Kernel) {size : Usz}
    (hsize : size.toNat ≤ 2 ^ 32 - 16384) : (pmmanToBlocks map size).toNat = blocksFor size := by
  rw [h.toNat_toBlocks, Nat.mod_eq_of_lt (by omega)]
  rfl

theorem PmmanMap.Kernel.toBlocks_of_wrap {map : PmmanMap} (h : map.Kernel) {size : Usz}
    (hsize : 2 ^ 32 - 16384 < size.toNat) : (pmmanToBlocks map size).toNat = 0 := by
  have := size.isLt
  rw [h.toNat_toBlocks]
  omega

/-- A successful `pmman_alloc`: the lowest free run of the rounded size is
marked and its address returned. -/
structure AllocSuccess (map : PmmanMap) (size : Usz) (start : Nat) (r : Usz × PmmanMap) : Prop where
  pos : 0 < blocksFor size
  run : FreeRun map.bits (blocksFor size) start
  lowest : ∀ s < start, ¬ FreeRun map.bits (blocksFor size) s
  addr : r.1.toNat = start * 16384
  kernel : r.2.Kernel
  marked : ∀ b, r.2.marked b = (map.marked b || decide (start ≤ b ∧ b < start + blocksFor size))

/-- A refusal leaves the map alone, and has a reason: nothing was asked for, the
rounding wrapped, or no run of the size is free. -/
structure AllocFailure (map : PmmanMap) (size : Usz) (r : Usz × PmmanMap) : Prop where
  result : r = (0, map)
  reason : size.toNat = 0 ∨ 2 ^ 32 - 16384 < size.toNat ∨
    ∀ s, ¬ FreeRun map.bits (blocksFor size) s

section Spec

variable {map : PmmanMap} {size : Usz}

theorem pmmanAlloc_of_wrap (h : map.Kernel) (hwrap : 2 ^ 32 - 16384 < size.toNat) :
    AllocFailure map size (pmmanAlloc map size) := by
  have hzero := h.toBlocks_of_wrap hwrap
  have hfits : ¬ pmmanToBlocks map size > pmmanBits := by
    rw [gt_iff_lt, BitVec.lt_def]
    omega
  refine ⟨?_, Or.inr (Or.inl hwrap)⟩
  simp only [pmmanAlloc]
  rw [dif_neg hfits]
  split
  · rfl
  · next start hs =>
      obtain ⟨hpos, _⟩ := pmmanSearch_some hs
      omega

theorem pmmanAlloc_of_big (hblocks : (pmmanToBlocks map size).toNat = blocksFor size)
    (hbig : pmmanToBlocks map size > pmmanBits) :
    AllocFailure map size (pmmanAlloc map size) := by
  refine ⟨by unfold pmmanAlloc; rw [dif_pos hbig], Or.inr (Or.inr fun s hrun => ?_)⟩
  have hbits : pmmanBits.toNat = 1024 := rfl
  have hlt := BitVec.lt_def.mp hbig
  have := hrun.inside
  omega

theorem AllocFailure.of_search {fits : pmmanToBlocks map size ≤ pmmanBits}
    (hblocks : (pmmanToBlocks map size).toNat = blocksFor size)
    (hs : pmmanSearch map.bits (pmmanToBlocks map size) fits 0 = none) :
    AllocFailure map size (0, map) := by
  refine ⟨rfl, ?_⟩
  rcases Nat.eq_zero_or_pos size.toNat with hz | hpos
  · exact Or.inl hz
  · refine Or.inr (Or.inr fun s hrun => ?_)
    have hn : 0 < (pmmanToBlocks map size).toNat := by
      rw [hblocks]
      simp only [blocksFor]
      omega
    exact pmmanSearch_none hn hs s (Nat.zero_le _) (by rw [hblocks]; exact hrun)

theorem AllocSuccess.of_search (h : map.Kernel) {fits : pmmanToBlocks map size ≤ pmmanBits}
    (hblocks : (pmmanToBlocks map size).toNat = blocksFor size) {start : Usz}
    (hs : pmmanSearch map.bits (pmmanToBlocks map size) fits 0 = some start) :
    AllocSuccess map size start.toNat
      ((start <<< map.blockSize) + map.base,
        pmmanMarkRange map start (pmmanToBlocks map size)) := by
  obtain ⟨hpos, hrun, hlow⟩ := pmmanSearch_some hs
  rw [hblocks] at hpos hrun hlow
  have hin := hrun.inside
  refine ⟨hpos, hrun, fun s hs => hlow s (Nat.zero_le _) hs, ?_, h.markRange _ _, fun b => ?_⟩
  · rw [h.base, h.blockSize, show start <<< pmmanBlockSizeShift + 0 =
      start <<< pmmanBlockSizeShift from BitVec.add_zero _, BitVec.shiftLeft_eq',
      BitVec.toNat_shiftLeft, Nat.shiftLeft_eq]
    exact Nat.mod_eq_of_lt (by change start.toNat * 2 ^ 14 < 2 ^ 32; omega)
  · have hend : (start + pmmanToBlocks map size).toNat = start.toNat + blocksFor size := by
      rw [BitVec.toNat_add, hblocks]
      exact Nat.mod_eq_of_lt (by omega)
    rw [marked_markRange, hend]

theorem pmmanAlloc_spec (h : map.Kernel) (size : Usz) :
    (∃ start, AllocSuccess map size start (pmmanAlloc map size)) ∨
      AllocFailure map size (pmmanAlloc map size) := by
  by_cases hwrap : 2 ^ 32 - 16384 < size.toNat
  · exact Or.inr (pmmanAlloc_of_wrap h hwrap)
  · have hblocks := h.toBlocks_of_le (Nat.not_lt.mp hwrap)
    by_cases hbig : pmmanToBlocks map size > pmmanBits
    · exact Or.inr (pmmanAlloc_of_big hblocks hbig)
    · simp only [pmmanAlloc]
      rw [dif_neg hbig]
      split
      · next hs => exact Or.inr (.of_search hblocks hs)
      · next start hs => exact Or.inl ⟨start.toNat, .of_search h hblocks hs⟩

end Spec

theorem PmmanMap.Kernel.alloc {map : PmmanMap} (h : map.Kernel) (size : Usz) :
    (pmmanAlloc map size).2.Kernel := by
  rcases pmmanAlloc_spec h size with ⟨_, hok⟩ | hfail
  · exact hok.kernel
  · rw [hfail.result]
    exact h

theorem PmmanMap.Kernel.free {map : PmmanMap} (h : map.Kernel) (addr size : Usz) :
    (pmmanFree map addr size).Kernel := h.clearRange _ _

/-- Freeing what a successful `pmman_alloc` of the same size returned clears
exactly the blocks that call had marked. -/
theorem marked_free {map : PmmanMap} (h : map.Kernel) {addr size : Usz} {start : Nat}
    (haddr : addr.toNat = start * 16384) (hsize : size.toNat ≤ 2 ^ 32 - 16384)
    (hin : start + blocksFor size ≤ 1024) (b : Nat) :
    (pmmanFree map addr size).marked b =
      (map.marked b && !decide (start ≤ b ∧ b < start + blocksFor size)) := by
  have hstart : (pmmanToBlock map addr).toNat = start := by
    rw [h.toNat_toBlock, haddr, Nat.mul_div_cancel _ (by decide)]
  have hend : (pmmanToBlock map addr + pmmanToBlocks map size).toNat = start + blocksFor size := by
    rw [BitVec.toNat_add, hstart, h.toBlocks_of_le hsize]
    exact Nat.mod_eq_of_lt (by omega)
  simp only [pmmanFree]
  rw [marked_clearRange, hstart, hend]

end DordOs
