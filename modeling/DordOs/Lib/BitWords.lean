import Mathlib.Algebra.Group.Nat.Defs
import Mathlib.Logic.Function.Basic
import Mathlib.Tactic.Common

/-!
Sets of natural numbers kept as the bits of an array of machine words: member
`b` is bit `b % w` of word `b / w`. Or-ing a one-bit mask into a word inserts
one member and clearing the mask removes it; no other member is affected,
whichever word it lives in.
-/
namespace DordOs.Lib

variable {w : Nat}

/-- Bit `b` of the array `words`. -/
def bitAt (words : Nat → BitVec w) (b : Nat) : Bool :=
  (words (b / w)).getLsbD (b % w)

theorem getLsbD_mask (k j : Nat) (hk : k < w) (hj : j < w) :
    ((1#w) <<< k).getLsbD j = decide (j = k) := by
  by_cases h : j = k
  · subst h
    simp [hj]
  · by_cases hlt : j < k
    · simp [hlt, h]
    · simp [hj, hlt, h, show ¬ j - k = 0 by omega]

theorem and_twoPow_ne_zero (x : BitVec w) {k : Nat} (hk : k < w) :
    x &&& BitVec.twoPow w k ≠ 0 ↔ x.getLsbD k := by
  rw [BitVec.and_twoPow]
  split
  · rename_i hbit
    refine iff_of_true (fun hzero => ?_) hbit
    have hlsb := congrArg (fun x => BitVec.getLsbD x k) hzero
    simp [hk] at hlsb
  · rename_i hbit
    exact iff_of_false (not_not.mpr rfl) hbit

theorem same_bit_iff (i b : Nat) :
    b / w = i / w ∧ b % w = i % w ↔ b = i := by
  constructor
  · rintro ⟨hdiv, hmod⟩
    rw [← Nat.div_add_mod b w, ← Nat.div_add_mod i w, hdiv, hmod]
  · rintro rfl
    exact ⟨rfl, rfl⟩

theorem bitAt_update_or (hw : 0 < w) (words : Nat → BitVec w) (i b : Nat) :
    bitAt (Function.update words (i / w) (words (i / w) ||| (1#w <<< (i % w)))) b =
      (bitAt words b || decide (b = i)) := by
  have hi := Nat.mod_lt i hw
  have hb := Nat.mod_lt b hw
  simp only [bitAt]
  by_cases hword : b / w = i / w
  · rw [hword, Function.update_self, BitVec.getLsbD_or, getLsbD_mask _ _ hi hb]
    congr 1
    exact decide_eq_decide.mpr ⟨fun h => (same_bit_iff i b).mp ⟨hword, h⟩, fun h => by rw [h]⟩
  · rw [Function.update_of_ne hword]
    have hne : b ≠ i := fun h => hword (by rw [h])
    simp [hne]

theorem bitAt_update_clear (hw : 0 < w) (words : Nat → BitVec w) (i b : Nat) :
    bitAt (Function.update words (i / w) (words (i / w) &&& ~~~(1#w <<< (i % w)))) b =
      (bitAt words b && !decide (b = i)) := by
  have hi := Nat.mod_lt i hw
  have hb := Nat.mod_lt b hw
  simp only [bitAt]
  by_cases hword : b / w = i / w
  · rw [hword, Function.update_self, BitVec.getLsbD_and, BitVec.getLsbD_not,
      getLsbD_mask _ _ hi hb]
    have hiff : b % w = i % w ↔ b = i :=
      ⟨fun h => (same_bit_iff i b).mp ⟨hword, h⟩, fun h => by rw [h]⟩
    simp [hb, hiff]
  · rw [Function.update_of_ne hword]
    have hne : b ≠ i := fun h => hword (by rw [h])
    simp [hne]

/-- Two arrays that agree on every member below `n * w` agree on their first
`n` words. -/
theorem words_eq_of_bitAt (hw : 0 < w) {u v : Nat → BitVec w} (n : Nat)
    (h : ∀ b, b < n * w → bitAt u b = bitAt v b) (k : Nat) (hk : k < n) : u k = v k := by
  apply BitVec.eq_of_getLsbD_eq
  intro j hj
  have hlt : k * w + j < n * w := by
    calc k * w + j < k * w + w := by omega
      _ = (k + 1) * w := by rw [Nat.succ_mul]
      _ ≤ n * w := Nat.mul_le_mul_right w hk
  have hbit := h (k * w + j) hlt
  have hdiv : (k * w + j) / w = k := by
    rw [Nat.add_comm, Nat.add_mul_div_right _ _ hw, Nat.div_eq_of_lt hj, Nat.zero_add]
  have hmod : (k * w + j) % w = j := by
    rw [Nat.add_comm, Nat.add_mul_mod_self_right, Nat.mod_eq_of_lt hj]
  simpa only [bitAt, hdiv, hmod] using hbit

end DordOs.Lib
