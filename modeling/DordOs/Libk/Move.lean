import Mathlib.Tactic.Common
import DordOs.Libk.Align

/-!
The block moves and fills of `libk/memory.c` and `libk/memory.h`, on an object
given as a list of cells. An access outside the object is `none`.
-/
namespace DordOs

variable {α : Type}

/-- `*p = v`, where `p` points at cell `i` of the object. -/
def store (cells : List α) (i : Nat) (v : α) : Option (List α) :=
  if i < cells.length then some (cells.set i v) else none

/-- The loop of the `mmove` functions: `*(d_it++) = *(s_it++)`, `count` times. -/
def mmove (cells : List α) (dst src : Nat) : Nat → Option (List α)
  | 0 => some cells
  | count + 1 => do
      let v ← cells[src]?
      let cells ← store cells dst v
      mmove cells (dst + 1) (src + 1) count

def mmove8 (cells : List U8) (dst src : Nat) (count : U32) : Option (List U8) :=
  mmove cells dst src count.toNat

def mmove16 (cells : List U16) (dst src : Nat) (count : U32) : Option (List U16) :=
  mmove cells dst src count.toNat

/-- The string store of the `mset` functions. -/
def mset (cells : List α) (dst : Nat) (v : α) : Nat → Option (List α)
  | 0 => some cells
  | count + 1 => do
      let cells ← store cells dst v
      mset cells (dst + 1) v count

def mset16 (cells : List U16) (dst : Nat) (v : U16) (count : U32) : Option (List U16) :=
  mset cells dst v count.toNat

theorem store_of_lt {cells : List α} {i : Nat} (h : i < cells.length) (v : α) :
    store cells i v = some (cells.set i v) := if_pos h

/-- The cell of the source that the move leaves in cell `dst + k`: going upwards,
it reads again what it wrote as soon as `k` reaches the distance `dst - src`. -/
def moveSource (dst src k : Nat) : Nat := src + if src < dst then k % (dst - src) else k

theorem moveSource_zero (dst src : Nat) : moveSource dst src 0 = src := by
  simp [moveSource]

theorem moveSource_of_le {dst src : Nat} (h : dst ≤ src) (k : Nat) :
    moveSource dst src k = src + k := by
  rw [moveSource, if_neg (Nat.not_lt.mpr h)]

/-- Moving on from the second cell finds the same sources, cell `dst` standing for
cell `src` that was copied into it. -/
theorem moveSource_succ (dst src k : Nat) :
    (moveSource (dst + 1) (src + 1) k ≠ dst →
      moveSource dst src (k + 1) = moveSource (dst + 1) (src + 1) k) ∧
    (moveSource (dst + 1) (src + 1) k = dst → moveSource dst src (k + 1) = src) := by
  by_cases h : src < dst
  · have hgap : 0 < dst - src := by omega
    have hmod := Nat.mod_lt k hgap
    simp only [moveSource]
    rw [if_pos h, if_pos (show src + 1 < dst + 1 by omega),
      show dst + 1 - (src + 1) = dst - src by omega, Nat.add_mod_eq_ite]
    constructor
    · intro hne
      split
      next hwrap =>
        have hone : 1 % (dst - src) ≤ 1 := Nat.mod_le _ _
        omega
      next hwrap =>
        have hone : 1 % (dst - src) = 1 := Nat.mod_eq_of_lt (by omega)
        omega
    · intro heq
      split
      next hwrap =>
        by_cases hgap1 : dst - src = 1
        · rw [hgap1]
          omega
        · have hone : 1 % (dst - src) = 1 := Nat.mod_eq_of_lt (by omega)
          omega
      next hwrap =>
        have hone : dst - src = 1 ∨ 1 % (dst - src) = 1 := by
          by_cases hgap1 : dst - src = 1
          · exact .inl hgap1
          · exact .inr (Nat.mod_eq_of_lt (by omega))
        obtain hone | hone := hone
        · rw [hone] at hwrap ⊢
          omega
        · omega
  · rw [moveSource_of_le (by omega), moveSource_of_le (by omega)]
    omega

/-- What a move does, cell by cell. -/
theorem mmove_eq_some {cells : List α} {dst src count : Nat} (hdst : dst + count ≤ cells.length)
    (hsrc : src + count ≤ cells.length) :
    ∃ moved, mmove cells dst src count = some moved ∧ moved.length = cells.length ∧
      ∀ j, moved[j]? =
        if dst ≤ j ∧ j < dst + count then cells[moveSource dst src (j - dst)]? else cells[j]? := by
  induction count generalizing cells dst src with
  | zero =>
      refine ⟨cells, rfl, rfl, fun j => ?_⟩
      rw [if_neg (by omega)]
  | succ count ih =>
      obtain ⟨v, hv⟩ : ∃ v, cells[src]? = some v :=
        ⟨_, List.getElem?_eq_getElem (by omega)⟩
      have hstore := store_of_lt (show dst < cells.length by omega) v
      have hlen : (cells.set dst v).length = cells.length := List.length_set
      obtain ⟨moved, hmove, hmlen, hcell⟩ := @ih (cells.set dst v) (dst + 1) (src + 1)
        (by omega) (by omega)
      refine ⟨moved, ?_, hmlen.trans hlen, fun j => ?_⟩
      · rw [mmove, hv, Option.bind_eq_bind, Option.bind_some, hstore]
        exact hmove
      · rw [hcell j, List.getElem?_set, List.getElem?_set]
        obtain hlt | rfl | hgt := Nat.lt_trichotomy j dst
        · rw [if_neg (by omega), if_neg (by omega), if_neg (by omega)]
        · rw [if_neg (by omega), if_pos rfl, if_pos (by omega), if_pos (by omega), Nat.sub_self,
            moveSource_zero, hv]
        · obtain ⟨k, rfl⟩ := Nat.exists_eq_add_of_lt hgt
          rw [show dst + k + 1 - (dst + 1) = k by omega, show dst + k + 1 - dst = k + 1 by omega]
          obtain ⟨hother, hfirst⟩ := moveSource_succ dst src k
          by_cases hin : k < count
          · rw [if_pos (show dst + 1 ≤ dst + k + 1 ∧ dst + k + 1 < dst + 1 + count by omega),
              if_pos (show dst ≤ dst + k + 1 ∧ dst + k + 1 < dst + (count + 1) by omega)]
            by_cases heq : moveSource (dst + 1) (src + 1) k = dst
            · rw [heq, if_pos rfl, if_pos (by omega), hfirst heq, hv]
            · rw [if_neg (Ne.symm heq), hother heq]
          · rw [if_neg (by omega), if_neg (by omega), if_neg (by omega)]

theorem mset_eq_some {cells : List α} {dst count : Nat} {v : α}
    (hdst : dst + count ≤ cells.length) :
    ∃ filled, mset cells dst v count = some filled ∧ filled.length = cells.length ∧
      ∀ j, filled[j]? = if dst ≤ j ∧ j < dst + count then some v else cells[j]? := by
  induction count generalizing cells dst with
  | zero =>
      refine ⟨cells, rfl, rfl, fun j => ?_⟩
      rw [if_neg (by omega)]
  | succ count ih =>
      have hstore := store_of_lt (show dst < cells.length by omega) v
      have hlen : (cells.set dst v).length = cells.length := List.length_set
      obtain ⟨filled, hfill, hflen, hcell⟩ := @ih (cells.set dst v) (dst + 1) (by omega)
      refine ⟨filled, ?_, hflen.trans hlen, fun j => ?_⟩
      · rw [mset, Option.bind_eq_bind, hstore]
        exact hfill
      · rw [hcell j, List.getElem?_set]
        obtain hlt | rfl | hgt := Nat.lt_trichotomy j dst
        · rw [if_neg (by omega), if_neg (by omega), if_neg (by omega)]
        · rw [if_neg (by omega), if_pos rfl, if_pos (by omega), if_pos (by omega)]
        · by_cases hin : j < dst + 1 + count
          · rw [if_pos (by omega), if_pos (by omega)]
          · rw [if_neg (by omega), if_neg (by omega), if_neg (by omega)]

theorem mset_all (cells : List α) (v : α) :
    mset cells 0 v cells.length = some (List.replicate cells.length v) := by
  obtain ⟨filled, hfill, hlen, hcell⟩ := @mset_eq_some _ cells 0 cells.length v (by omega)
  rw [hfill, Option.some.injEq]
  apply List.ext_getElem?
  intro j
  rw [hcell, List.getElem?_replicate, Nat.zero_add]
  by_cases hj : j < cells.length
  · rw [if_pos ⟨Nat.zero_le j, hj⟩, if_pos hj]
  · rw [if_neg (fun h => hj h.2), if_neg hj, List.getElem?_eq_none (by omega)]

end DordOs
