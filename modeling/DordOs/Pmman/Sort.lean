import DordOs.Pmman.Initialize
import Mathlib.Data.List.Nodup

/-!
The sort in `pmman_initialize`, on the array it is given. It sorts most memory
maps. The number of passes of an empty map wraps, and from the second pass on
entries outside the array are swapped. The search for the smallest base starts
from the largest possible one and from index 0, so when only entries with that
base are left, the first entry of the map is taken for their minimum.
-/
namespace DordOs
open Lib

def memmapFindMinIn (memmap : List Memmap) (memmapCount pass : Usz) : Option (Usz × U64) :=
  forUp pass memmapCount
    (fun i (min : Option (Usz × U64)) => do
      let min ← min
      let entry ← memmap[i.toNat]?
      if entry.base ≥ min.2 then return min else return (i, entry.base))
    (some (0, BitVec.allOnes 64))

def memmapSortPassIn (memmapCount pass : Usz) (memmap : List Memmap) : Option (List Memmap) := do
  let minIndex := (← memmapFindMinIn memmap memmapCount pass).1
  if minIndex = pass then return memmap
  else
    let tmp ← memmap[minIndex.toNat]?
    let first ← memmap[pass.toNat]?
    return (memmap.set minIndex.toNat first).set pass.toNat tmp

/-- `memmapSort` on an array of which nothing outside is known: `none` is an
access outside. -/
def memmapSortIn (memmap : List Memmap) (memmapCount : U32) : Option (List Memmap) :=
  forUp 0 (memmapCount - 1) (fun pass memmap => memmap.bind (memmapSortPassIn memmapCount pass))
    (some memmap)

/-- The largest base there is. -/
def Memmap.Last (e : Memmap) : Prop := e.base = BitVec.allOnes 64

instance (e : Memmap) : Decidable e.Last := inferInstanceAs (Decidable (_ = _))

theorem Memmap.not_last_iff {e : Memmap} : ¬ e.Last ↔ e.base.toNat < 2 ^ 64 - 1 := by
  have hlt := e.base.isLt
  have hmax : (BitVec.allOnes 64).toNat = 2 ^ 64 - 1 := BitVec.toNat_allOnes
  rw [Last, ← BitVec.toNat_inj, hmax]
  omega

theorem Memmap.Last.toNat {e : Memmap} (h : e.Last) : e.base.toNat = 2 ^ 64 - 1 := by
  rw [show e.base = BitVec.allOnes 64 from h]
  exact BitVec.toNat_allOnes

section Minimum

variable {memmap : Nat → Memmap} {memmapCount pass : Usz}

/-- What the search has found in the entries `[pass, n)`. -/
def Minimum (memmap : Nat → Memmap) (pass n : Nat) (min : Usz × U64) : Prop :=
  (min = (0, BitVec.allOnes 64) ∧ ∀ i, pass ≤ i → i < n → (memmap i).Last) ∨
    (pass ≤ min.1.toNat ∧ min.1.toNat < n ∧ min.2 = (memmap min.1.toNat).base ∧
      ¬ (memmap min.1.toNat).Last ∧
      ∀ i, pass ≤ i → i < n → (memmap min.1.toNat).base.toNat ≤ (memmap i).base.toNat)

theorem Minimum.keep {n : Nat} {min : Usz × U64} (h : Minimum memmap pass.toNat n min)
    (hge : (memmap n).base ≥ min.2) : Minimum memmap pass.toNat (n + 1) min := by
  have hle := BitVec.le_def.mp hge
  obtain ⟨hmin, hlast⟩ | ⟨hlo, hhi, hbase, hnot, hsmall⟩ := h
  · refine Or.inl ⟨hmin, fun i hi hin => ?_⟩
    obtain hi' | rfl : i < n ∨ i = n := by omega
    · exact hlast i hi hi'
    · rw [hmin, show (BitVec.allOnes 64).toNat = 2 ^ 64 - 1 from BitVec.toNat_allOnes] at hle
      by_contra hnot
      have := Memmap.not_last_iff.mp hnot
      omega
  · refine Or.inr ⟨hlo, by omega, hbase, hnot, fun i hi hin => ?_⟩
    obtain hi' | rfl : i < n ∨ i = n := by omega
    · exact hsmall i hi hi'
    · rwa [hbase] at hle

theorem Minimum.smaller {i : Usz} {min : Usz × U64} (h : Minimum memmap pass.toNat i.toNat min)
    (hpass : pass.toNat ≤ i.toNat) (hlt : ¬ (memmap i.toNat).base ≥ min.2) :
    Minimum memmap pass.toNat (i.toNat + 1) (i, (memmap i.toNat).base) := by
  have hlt' := BitVec.lt_def.mp (BitVec.not_le.mp hlt)
  have hmax := min.2.isLt
  have hnot : ¬ (memmap i.toNat).Last := Memmap.not_last_iff.mpr (by omega)
  refine Or.inr ⟨hpass, Nat.lt_succ_self _, rfl, hnot, fun j hj hjn => ?_⟩
  obtain hj' | rfl : j < i.toNat ∨ j = i.toNat := by omega
  · obtain ⟨hmin, hlast⟩ | ⟨_, _, hbase, _, hsmall⟩ := h
    · have := (hlast j hj hj').toNat
      change (memmap i.toNat).base.toNat ≤ _
      omega
    · rw [hbase] at hlt'
      exact Nat.le_trans (Nat.le_of_lt hlt') (hsmall j hj hj')
  · exact Nat.le_refl _

theorem memmapFindMin_spec (hpass : pass.toNat ≤ memmapCount.toNat) :
    Minimum memmap pass.toNat memmapCount.toNat (memmapFindMin memmap memmapCount pass) := by
  simp only [memmapFindMin]
  refine forUp_invariant (Minimum memmap pass.toNat) _ hpass ?_ _ ?_
  · intro i min hi _ h
    split
    case isTrue hge => exact h.keep hge
    case isFalse hlt => exact h.smaller hi hlt
  · exact Or.inl ⟨rfl, fun i hlo hhi => absurd hhi (Nat.not_lt.mpr hlo)⟩

end Minimum

section Passes

variable {memmap : Nat → Memmap} {memmapCount pass : Usz} {n p : Nat}

theorem memmapSwap_apply (memmap : Nat → Memmap) (i j k : Nat) :
    memmapSwap memmap i j k = memmap (Equiv.swap i j k) :=
  congrFun (memmapSwap_eq_swap memmap i j) k

theorem memmapSwap_left (memmap : Nat → Memmap) (i j : Nat) :
    memmapSwap memmap i j i = memmap j := by
  rw [memmapSwap_apply, Equiv.swap_apply_left]

theorem memmapSwap_right (memmap : Nat → Memmap) (i j : Nat) :
    memmapSwap memmap i j j = memmap i := by
  rw [memmapSwap_apply, Equiv.swap_apply_right]

theorem memmapSwap_of_ne (memmap : Nat → Memmap) {i j k : Nat} (hi : k ≠ i) (hj : k ≠ j) :
    memmapSwap memmap i j k = memmap k := by
  rw [memmapSwap_apply, Equiv.swap_apply_of_ne_of_ne hi hj]

theorem memmapSortPass_eq_swap (memmap : Nat → Memmap) (memmapCount pass : Usz) :
    memmapSortPass memmapCount pass memmap =
      memmapSwap memmap (memmapFindMin memmap memmapCount pass).1.toNat pass.toNat := by
  unfold memmapSortPass
  dsimp only
  split
  case isTrue heq => rw [heq, memmapSwap_eq_swap, Equiv.swap_self, Equiv.coe_refl, Function.comp_id]
  case isFalse => rfl

/-- The first `n` entries after `p` passes. -/
inductive SortState (n p : Nat) (memmap : Nat → Memmap) : Prop
  /-- Every base is the largest one. -/
  | flat : (∀ i < n, (memmap i).Last) → SortState n p memmap
  /-- The first `p` entries are in place. -/
  | sorted : (∀ i < p, ¬ (memmap i).Last) →
      (∀ i < p, ∀ j, i < j → j < n → (memmap i).base.toNat ≤ (memmap j).base.toNat) →
      SortState n p memmap
  /-- The smallest entry has been swapped out of place `0`. -/
  | stuck (q : Nat) : 0 < q → q < n → (memmap 0).Last → ¬ (memmap q).Last →
      (∀ i, p ≤ i → i < n → (memmap i).Last) → SortState n p memmap

theorem SortState.swap_min (hnot : ∀ i < p, ¬ (memmap i).Last)
    (hle : ∀ i < p, ∀ j, i < j → j < n → (memmap i).base.toNat ≤ (memmap j).base.toNat)
    {a : Nat} (hpa : p ≤ a) (han : a < n) (ha : ¬ (memmap a).Last)
    (hmin : ∀ i, p ≤ i → i < n → (memmap a).base.toNat ≤ (memmap i).base.toNat) :
    SortState n (p + 1) (memmapSwap memmap a p) := by
  have hbefore : ∀ i < p, memmapSwap memmap a p i = memmap i := fun i hi =>
    memmapSwap_of_ne memmap (by omega) (by omega)
  have hafter : ∀ j, p ≤ j → j < n →
      ∃ k, p ≤ k ∧ k < n ∧ memmapSwap memmap a p j = memmap k := by
    intro j hpj hjn
    by_cases hja : j = a
    · exact ⟨p, Nat.le_refl p, by omega, hja ▸ memmapSwap_left memmap j p⟩
    · by_cases hjp : j = p
      · exact ⟨a, hpa, han, hjp ▸ memmapSwap_right memmap a j⟩
      · exact ⟨j, hpj, hjn, memmapSwap_of_ne memmap hja hjp⟩
  refine .sorted (fun i hi => ?_) fun i hi j hij hjn => ?_
  · obtain hi | rfl : i < p ∨ i = p := by omega
    · rw [hbefore i hi]
      exact hnot i hi
    · rw [memmapSwap_right]
      exact ha
  · obtain hi | rfl : i < p ∨ i = p := by omega
    · rw [hbefore i hi]
      by_cases hjp : j < p
      · rw [hbefore j hjp]
        exact hle i hi j hij hjn
      · obtain ⟨k, hpk, hkn, hk⟩ := hafter j (by omega) hjn
        rw [hk]
        exact hle i hi k (by omega) hkn
    · obtain ⟨k, hpk, hkn, hk⟩ := hafter j (by omega) hjn
      rw [memmapSwap_right, hk]
      exact hmin k hpk hkn

/-- When only entries with the largest base are left, the first entry of all is
swapped behind the sorted ones. -/
theorem SortState.swap_first (hnot : ∀ i < p, ¬ (memmap i).Last) (hpn : p < n)
    (hlast : ∀ i, p ≤ i → i < n → (memmap i).Last) :
    SortState n (p + 1) (memmapSwap memmap 0 p) := by
  obtain rfl | hpos := Nat.eq_zero_or_pos p
  · refine .flat fun i hi => ?_
    rw [memmapSwap_apply, Equiv.swap_self]
    exact hlast i (Nat.zero_le i) hi
  · refine .stuck p hpos hpn ?_ ?_ fun i hi hin => ?_
    · rw [memmapSwap_left]
      exact hlast p (Nat.le_refl p) hpn
    · rw [memmapSwap_right]
      exact hnot 0 hpos
    · rw [memmapSwap_of_ne memmap (by omega) (by omega)]
      exact hlast i (by omega) hin

theorem SortState.step (h : SortState memmapCount.toNat pass.toNat memmap)
    (hpass : pass.toNat < memmapCount.toNat) :
    SortState memmapCount.toNat (pass.toNat + 1) (memmapSortPass memmapCount pass memmap) := by
  have hmin := @memmapFindMin_spec memmap memmapCount pass (Nat.le_of_lt hpass)
  rw [memmapSortPass_eq_swap]
  cases h with
  | flat hlast =>
      have hbound := memmapFindMin_lt memmap (by omega) (Nat.le_of_lt hpass)
      refine .flat fun i hi => ?_
      rw [memmapSwap_apply, Equiv.swap_apply_def]
      split
      · exact hlast _ hpass
      · split
        · exact hlast _ hbound
        · exact hlast i hi
  | sorted hnot hle =>
      obtain ⟨hnone, hlast⟩ | ⟨hlo, hhi, _, ha, hsmall⟩ := hmin
      · rw [hnone]
        exact swap_first hnot hpass hlast
      · exact swap_min hnot hle hlo hhi ha hsmall
  | stuck q hq hqn hfirst hqnot hlast =>
      obtain ⟨hnone, _⟩ | ⟨hlo, hhi, _, ha, _⟩ := hmin
      · have hqp : q < pass.toNat := Nat.lt_of_not_le fun hle => hqnot (hlast q hle hqn)
        rw [hnone]
        refine .stuck q hq hqn ?_ ?_ fun i hi hin => ?_
        · exact (memmapSwap_left memmap 0 pass.toNat).symm ▸ hlast _ (Nat.le_refl _) hpass
        · exact (memmapSwap_of_ne memmap (Nat.ne_of_gt hq) (Nat.ne_of_lt hqp)).symm ▸ hqnot
        · have hsame : memmapSwap memmap 0 pass.toNat i = memmap i :=
            memmapSwap_of_ne memmap (by omega) (by omega)
          exact hsame.symm ▸ hlast i (by omega) hin
      · exact absurd (hlast _ hlo hhi) ha

theorem memmapSort_state (memmap : Nat → Memmap) (hpos : 0 < memmapCount.toNat) :
    SortState memmapCount.toNat (memmapCount.toNat - 1) (memmapSort memmap memmapCount) := by
  have hlast : (memmapCount - 1).toNat = memmapCount.toNat - 1 :=
    BitVec.toNat_sub_of_le (BitVec.le_def.mpr hpos)
  rw [← hlast]
  simp only [memmapSort]
  refine forUp_invariant (SortState memmapCount.toNat) _ (Nat.zero_le _) ?_ memmap ?_
  · exact fun pass m _ hpass h => h.step (by omega)
  · exact .sorted (fun i hi => absurd hi (Nat.not_lt_zero i))
      fun i hi => absurd hi (Nat.not_lt_zero i)

end Passes

section Entries

variable {memmap : Nat → Memmap} {memmapCount pass : Usz} {n : Nat}

/-- The array of the first `n` entries. -/
def entriesOf (memmap : Nat → Memmap) (n : Nat) : List Memmap := (List.range n).map memmap

theorem getElem?_entriesOf {i : Nat} (h : i < n) : (entriesOf memmap n)[i]? = some (memmap i) := by
  simp only [entriesOf, List.getElem?_map, List.getElem?_range h, Option.map_some]

theorem set_entriesOf (i : Nat) (e : Memmap) :
    (entriesOf memmap n).set i e = entriesOf (Function.update memmap i e) n := by
  refine List.ext_getElem (by simp [entriesOf]) fun k _ _ => ?_
  simp only [entriesOf, List.getElem_set, List.getElem_map, List.getElem_range,
    Function.update_apply, eq_comm]

theorem eq_entriesOf (l : List Memmap) :
    l = entriesOf (fun i => l.getD i ⟨0, 0, 0, 0⟩) l.length := by
  refine List.ext_getElem (by simp [entriesOf]) fun k hk _ => ?_
  simp only [entriesOf, List.getElem_map, List.getElem_range, List.getD_eq_getElem?_getD,
    List.getElem?_eq_getElem hk, Option.getD_some]

theorem mem_entriesOf {e : Memmap} : e ∈ entriesOf memmap n ↔ ∃ i < n, memmap i = e := by
  simp only [entriesOf, List.mem_map, List.mem_range]

/-- Rearranging the entries permutes the array. -/
theorem Rearranged.perm {memmap' : Nat → Memmap} (h : Rearranged n memmap memmap') :
    (entriesOf memmap' n).Perm (entriesOf memmap n) := by
  obtain ⟨σ, hσ, rfl⟩ := h
  have hrange : ((List.range n).map σ).Perm (List.range n) := by
    refine (List.perm_ext_iff_of_nodup (List.Nodup.map σ.injective List.nodup_range)
      List.nodup_range).mpr ?_
    intro k
    rw [List.mem_map, List.mem_range]
    constructor
    · rintro ⟨i, hi, rfl⟩
      exact (hσ i).mpr (List.mem_range.mp hi)
    · intro hk
      refine ⟨σ.symm k, List.mem_range.mpr ?_, Equiv.apply_symm_apply σ k⟩
      rwa [← hσ, Equiv.apply_symm_apply]
  simp only [entriesOf]
  rw [← List.map_map]
  exact hrange.map memmap

theorem memmapFindMinIn_entriesOf (memmap : Nat → Memmap) (memmapCount pass : Usz) :
    memmapFindMinIn (entriesOf memmap memmapCount.toNat) memmapCount pass =
      some (memmapFindMin memmap memmapCount pass) := by
  simp only [memmapFindMinIn, memmapFindMin]
  refine forUp_rel (fun min min' => min = some min') ?_ rfl
  rintro i _ min - hi rfl
  simp only [Option.bind_eq_bind, Option.bind_some, getElem?_entriesOf hi]
  split <;> rfl

theorem memmapSortPassIn_entriesOf (memmap : Nat → Memmap)
    (hpass : pass.toNat < memmapCount.toNat) :
    memmapSortPassIn memmapCount pass (entriesOf memmap memmapCount.toNat) =
      some (entriesOf (memmapSortPass memmapCount pass memmap) memmapCount.toNat) := by
  have hbound := memmapFindMin_lt memmap (by omega) (Nat.le_of_lt hpass)
  simp only [memmapSortPassIn, memmapSortPass, memmapFindMinIn_entriesOf, Option.bind_eq_bind,
    Option.bind_some]
  split
  · rfl
  · rw [getElem?_entriesOf hbound, getElem?_entriesOf hpass]
    simp only [Option.bind_some, set_entriesOf]
    rfl

/-- The sort of at least one entry stays inside the array. -/
theorem memmapSortIn_entriesOf (memmap : Nat → Memmap) (hpos : 0 < memmapCount.toNat) :
    memmapSortIn (entriesOf memmap memmapCount.toNat) memmapCount =
      some (entriesOf (memmapSort memmap memmapCount) memmapCount.toNat) := by
  have hlast : (memmapCount - 1).toNat = memmapCount.toNat - 1 :=
    BitVec.toNat_sub_of_le (BitVec.le_def.mpr hpos)
  simp only [memmapSortIn, memmapSort]
  refine forUp_rel (fun l m => l = some (entriesOf m memmapCount.toNat)) ?_ rfl
  rintro pass _ m - hpass rfl
  exact memmapSortPassIn_entriesOf m (by omega)

theorem pairwise_entriesOf :
    (entriesOf memmap n).Pairwise (fun a b => a.base ≤ b.base) ↔
      ∀ j < n, ∀ i < j, (memmap i).base ≤ (memmap j).base := by
  simp only [entriesOf, List.pairwise_iff_getElem, List.getElem_map, List.getElem_range,
    List.length_map, List.length_range]
  constructor
  · exact fun h j hj i hij => h i j (Nat.lt_trans hij hj) hj hij
  · exact fun h i j _ hj hij => h j hj i hij

theorem entriesOf_succ : entriesOf memmap (n + 1) = entriesOf memmap n ++ [memmap n] := by
  simp only [entriesOf, List.range_succ, List.map_append, List.map_cons, List.map_nil]

/-- After all passes the entries are sorted unless the sort got stuck, which takes
two entries with the largest base and one with another. -/
theorem SortState.pairwise_iff (h : SortState (n + 1) n memmap) :
    (entriesOf memmap (n + 1)).Pairwise (fun a b => a.base ≤ b.base) ↔
      (entriesOf memmap (n + 1)).countP (fun e => e.Last) ≤ 1 ∨
        ∀ e ∈ entriesOf memmap (n + 1), e.Last := by
  cases h with
  | flat hlast =>
      refine iff_of_true (pairwise_entriesOf.mpr fun j hj i hij => ?_) (Or.inr ?_)
      · have heq := (hlast i (Nat.lt_trans hij hj)).toNat.trans (hlast j hj).toNat.symm
        exact BitVec.le_def.mpr (Nat.le_of_eq heq)
      · intro e he
        obtain ⟨i, hi, rfl⟩ := mem_entriesOf.mp he
        exact hlast i hi
  | sorted hnot hle =>
      refine iff_of_true (pairwise_entriesOf.mpr fun j hj i hij => ?_) (Or.inl ?_)
      · exact BitVec.le_def.mpr (hle i (by omega) j hij hj)
      · have hzero : (entriesOf memmap n).countP (fun e => e.Last) = 0 := by
          refine List.countP_eq_zero.mpr fun e he => ?_
          obtain ⟨i, hi, rfl⟩ := mem_entriesOf.mp he
          rw [decide_eq_true_iff]
          exact hnot i hi
        rw [entriesOf_succ, List.countP_append, hzero, Nat.zero_add]
        exact List.countP_le_length
  | stuck q hq hqn hfirst hqnot hlast =>
      have hqlt : q < n := Nat.lt_of_not_le fun hle => hqnot (hlast q hle hqn)
      refine iff_of_false ?_ (not_or.mpr ⟨?_, ?_⟩)
      · intro hsorted
        have hle := BitVec.le_def.mp (pairwise_entriesOf.mp hsorted q hqn 0 hq)
        have hlt := Memmap.not_last_iff.mp hqnot
        rw [hfirst.toNat] at hle
        omega
      · have hmany : 0 < (entriesOf memmap n).countP (fun e => e.Last) := by
          refine List.countP_pos_iff.mpr ⟨memmap 0, mem_entriesOf.mpr ⟨0, by omega, rfl⟩, ?_⟩
          exact decide_eq_true hfirst
        have hend : [memmap n].countP (fun e => e.Last) = 1 := by
          rw [List.countP_singleton, if_pos]
          exact decide_eq_true (hlast n (Nat.le_refl n) (Nat.lt_succ_self n))
        rw [entriesOf_succ, List.countP_append, hend]
        omega
      · exact fun hall => hqnot (hall _ (mem_entriesOf.mpr ⟨q, hqn, rfl⟩))

end Entries

theorem memmapSortIn_empty : memmapSortIn [] 0 = none := by
  have hcount : (0 : U32) - 1 = BitVec.allOnes 32 := by decide
  simp only [memmapSortIn]
  rw [hcount, forUp_of_lt (by decide), forUp_of_lt (by decide)]
  have htwo : ((some []).bind (memmapSortPassIn 0 0)).bind (memmapSortPassIn 0 (0 + 1)) = none := by
    decide
  rw [htwo]
  exact forUp_invariant (fun _ l => l = none) _ (by decide) (fun _ _ _ _ h => by rw [h]; rfl) none
    rfl

/-- The sort ends, stays inside the array and leaves a sorted rearrangement of it. -/
def SortsMemmap (memmap : List Memmap) (memmapCount : U32) : Prop :=
  ∃ sorted, memmapSortIn memmap memmapCount = some sorted ∧ sorted.Perm memmap ∧
    sorted.Pairwise fun a b => a.base ≤ b.base

/-- The memory map is sorted unless it is empty or two of its bases are the
largest there is and another one is not. -/
theorem sortsMemmap_iff (memmapEntryCount : U16) (memmap : List Memmap)
    (hlen : memmap.length = memmapEntryCount.toNat) :
    SortsMemmap memmap (memmapEntryCount.setWidth 32) ↔
      memmap ≠ [] ∧ (memmap.countP (fun e => e.Last) ≤ 1 ∨ ∀ e ∈ memmap, e.Last) := by
  obtain ⟨count, hcount⟩ : ∃ count : U32, count = memmapEntryCount.setWidth 32 := ⟨_, rfl⟩
  have hn : memmap.length = count.toNat := by
    have hlt := memmapEntryCount.isLt
    rw [hlen, hcount, BitVec.toNat_setWidth, Nat.mod_eq_of_lt (by omega)]
  rw [← hcount]
  obtain rfl | hne := eq_or_ne memmap []
  · have hzero : count = 0 := BitVec.eq_of_toNat_eq hn.symm
    refine iff_of_false ?_ fun h => h.1 rfl
    rintro ⟨sorted, hsorted, _⟩
    rw [hzero, memmapSortIn_empty] at hsorted
    cases hsorted
  · have hpos : 0 < count.toNat := hn ▸ List.length_pos_iff.mpr hne
    obtain ⟨m, hm⟩ : ∃ m, memmap = entriesOf m count.toNat := ⟨_, hn ▸ eq_entriesOf memmap⟩
    have hsort := memmapSortIn_entriesOf m hpos
    have hperm := (memmapSort_rearranged m hpos).perm
    have hstate := memmapSort_state m hpos
    have hmem : (∀ e ∈ entriesOf (memmapSort m count) count.toNat, e.Last) ↔
        ∀ e ∈ entriesOf m count.toNat, e.Last :=
      forall_congr' fun e => imp_congr_left hperm.mem_iff
    rw [hm, and_iff_right (hm ▸ hne), ← hperm.countP_eq, ← hmem]
    obtain ⟨n, hsucc⟩ : ∃ n, count.toNat = n + 1 := ⟨count.toNat - 1, by omega⟩
    rw [hsucc] at hstate hsort hperm ⊢
    rw [← hstate.pairwise_iff]
    constructor
    · rintro ⟨sorted, hsome, _, hsorted⟩
      rw [hsort] at hsome
      rwa [Option.some.inj hsome]
    · exact fun hsorted => ⟨_, hsort, hperm, hsorted⟩

/-- Three entries out of order, one with the largest base. -/
theorem sortsMemmap_iff_three :
    SortsMemmap [⟨5, 1, 1, 0⟩, ⟨0xFFFFFFFFFFFFFFFF, 1, 2, 0⟩, ⟨3, 1, 1, 0⟩] 3 :=
  (sortsMemmap_iff 3 _ rfl).mpr (by decide)

/-- An empty memory map is not sorted, and neither is one whose bases are 5 and
twice the largest. -/
theorem sort_fails :
    (¬ ∀ (memmapEntryCount : U16) (memmap : List Memmap),
      memmap.length = memmapEntryCount.toNat →
      SortsMemmap memmap (memmapEntryCount.setWidth 32)) ∧
    (memmapSortIn
      [⟨5, 1, 1, 0⟩, ⟨0xFFFFFFFFFFFFFFFF, 0, 2, 0⟩, ⟨0xFFFFFFFFFFFFFFFF, 0, 1, 0⟩] 3).map
      (fun sorted => sorted.map Memmap.base) =
      some [0xFFFFFFFFFFFFFFFF, 5, 0xFFFFFFFFFFFFFFFF] := by
  refine ⟨fun claim => ?_, by decide⟩
  obtain ⟨sorted, hsorted, _⟩ := claim 0 [] rfl
  have hnone := memmapSortIn_empty
  rw [show (0 : U16).setWidth 32 = (0 : U32) by decide, hnone] at hsorted
  cases hsorted

end DordOs
