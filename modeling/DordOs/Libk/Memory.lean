import DordOs.Lib.Bytes
import DordOs.Libk.Align

/-!
C strings and the bounded comparison of `libk/memory.c`.
-/
namespace DordOs
open Lib

/-- The bytes before the terminator. -/
structure CStr where
  bytes : Bytes
  nonzero : ∀ b ∈ bytes, b ≠ 0
  deriving DecidableEq

namespace CStr

/-- `str[i]`, up to the terminator. -/
def get (str : CStr) (i : Nat) : U8 := str.bytes.getD i 0

/-- `&str[i]`. -/
def offset (str : CStr) (i : Nat) : CStr :=
  ⟨str.bytes.drop i, fun b hb => str.nonzero b (List.mem_of_mem_drop hb)⟩

/-- The same string as far as a comparison of `n` bytes can tell. -/
def Same (n : Nat) (a b : CStr) : Prop := a.bytes.take n = b.bytes.take n

instance (n : Nat) (a b : CStr) : Decidable (Same n a b) :=
  inferInstanceAs (Decidable (_ = _))

theorem get_of_drop_nil {str : CStr} {i : Nat} (h : str.bytes.drop i = []) : str.get i = 0 := by
  simp only [get]
  rw [List.getD_eq_getElem?_getD, List.getElem?_eq_none (List.drop_eq_nil_iff.mp h)]
  rfl

theorem get_of_drop_cons {str : CStr} {i : Nat} {b : U8} {l : Bytes}
    (h : str.bytes.drop i = b :: l) :
    str.get i = b ∧ b ≠ 0 ∧ str.bytes.drop (i + 1) = l := by
  have hmem : b ∈ str.bytes := List.mem_of_mem_drop (h ▸ List.mem_cons_self)
  refine ⟨?_, str.nonzero b hmem, ?_⟩
  · have hget : str.bytes[i + 0]? = some b := by
      rw [← List.getElem?_drop, h]
      rfl
    simp only [get]
    rw [List.getD_eq_getElem?_getD]
    exact congrArg (Option.getD · 0) hget
  · rw [← List.drop_drop, h]
    rfl

end CStr

/-- `strneq` from position `i` on, `n` positions left. -/
def strneqFrom (str1 str2 : Nat → U8) : Nat → Nat → Bool
  | _, 0 => true
  | i, n + 1 =>
      if str1 i ≠ str2 i then false
      else if str1 i = 0 then true
      else strneqFrom str1 str2 (i + 1) n

def strneq (str1 str2 : Nat → U8) (maxlen : U32) : Bool := strneqFrom str1 str2 0 maxlen.toNat

/-- The comparison looks at nothing past its bound. -/
theorem strneqFrom_congr {str str1 str2 : Nat → U8} {i n : Nat}
    (h : ∀ k, i ≤ k → k < i + n → str1 k = str2 k) :
    strneqFrom str str1 i n = strneqFrom str str2 i n := by
  induction n generalizing i with
  | zero => rfl
  | succ n ih =>
      rw [strneqFrom, strneqFrom, h i (Nat.le_refl _) (by omega),
        ih fun k hk hlt => h k (by omega) (by omega)]

theorem strneqFrom_self (str : Nat → U8) (i n : Nat) : strneqFrom str str i n = true := by
  induction n generalizing i with
  | zero => rfl
  | succ n ih =>
      rw [strneqFrom, if_neg (not_not.mpr rfl), ih]
      exact ite_self true

theorem strneq_of_eq {str1 str2 : Nat → U8} {maxlen : U32}
    (h : ∀ k, k < maxlen.toNat → str1 k = str2 k) : strneq str1 str2 maxlen = true := by
  have hsame := @strneqFrom_congr str1 str1 str2 0 maxlen.toNat fun k _ hk => h k (by omega)
  rw [strneq, ← hsame, strneqFrom_self]

theorem strneqFrom_iff {str1 str2 : Nat → U8} {i n : Nat}
    (h : ∀ k, i ≤ k → k < i + n → str2 k ≠ 0) :
    strneqFrom str1 str2 i n = true ↔ ∀ k, i ≤ k → k < i + n → str1 k = str2 k := by
  induction n generalizing i with
  | zero => exact iff_of_true rfl fun k hle hlt => absurd hlt (Nat.not_lt.mpr hle)
  | succ n ih =>
      rw [strneqFrom]
      by_cases hi : str1 i = str2 i
      · rw [if_neg (not_not.mpr hi), if_neg (hi ▸ h i (Nat.le_refl _) (by omega)),
          ih fun k hle hlt => h k (by omega) (by omega)]
        constructor
        · intro hrest k hle hlt
          obtain rfl | hlt' := Nat.eq_or_lt_of_le hle
          · exact hi
          · exact hrest k hlt' (by omega)
        · exact fun hall k hle hlt => hall k (by omega) (by omega)
      · rw [if_pos hi]
        exact iff_of_false Bool.false_ne_true fun hall => hi (hall i (Nat.le_refl _) (by omega))

/-- Against a string without terminator in the bound every position counts. -/
theorem strneq_iff {str1 str2 : Nat → U8} {maxlen : U32} (h : ∀ k, k < maxlen.toNat → str2 k ≠ 0) :
    strneq str1 str2 maxlen = true ↔ ∀ k, k < maxlen.toNat → str1 k = str2 k := by
  rw [strneq, strneqFrom_iff fun k _ hk => h k (by omega)]
  simp only [Nat.zero_le, Nat.zero_add, forall_const]

theorem strneqFrom_get (a b : CStr) (i n : Nat) :
    strneqFrom a.get b.get i n = decide ((a.bytes.drop i).take n = (b.bytes.drop i).take n) := by
  induction n generalizing i with
  | zero => simp [strneqFrom]
  | succ n ih =>
      rw [strneqFrom, ih (i + 1)]
      cases ha : a.bytes.drop i with
      | nil =>
          rw [CStr.get_of_drop_nil ha]
          cases hb : b.bytes.drop i with
          | nil =>
              rw [CStr.get_of_drop_nil hb, if_neg (not_not.mpr rfl), if_pos rfl]
              exact (decide_eq_true rfl).symm
          | cons y ys =>
              obtain ⟨hy, hne, -⟩ := CStr.get_of_drop_cons hb
              rw [hy, if_pos (Ne.symm hne)]
              exact (decide_eq_false fun heq => nomatch heq).symm
      | cons x xs =>
          obtain ⟨hx, hne, hxs⟩ := CStr.get_of_drop_cons ha
          rw [hx, hxs]
          cases hb : b.bytes.drop i with
          | nil =>
              rw [CStr.get_of_drop_nil hb, if_pos hne]
              exact (decide_eq_false fun heq => nomatch heq).symm
          | cons y ys =>
              obtain ⟨hy, -, hys⟩ := CStr.get_of_drop_cons hb
              rw [hy, hys, List.take_succ_cons, List.take_succ_cons]
              by_cases hxy : x = y
              · rw [if_neg (not_not.mpr hxy), if_neg hne]
                exact decide_eq_decide.mpr (by rw [hxy, List.cons.injEq, eq_self, true_and])
              · rw [if_pos hxy]
                exact (decide_eq_false fun heq => hxy (List.cons.inj heq).1).symm

/-- Comparing a string with a field that holds another one. -/
theorem strneq_eq_same {path name : CStr} {field : Nat → U8} {maxlen : U32}
    (h : ∀ k, k < maxlen.toNat → field k = name.get k) :
    strneq path.get field maxlen = decide (path.Same maxlen.toNat name) := by
  have hfield : strneqFrom path.get field 0 maxlen.toNat =
      strneqFrom path.get name.get 0 maxlen.toNat :=
    strneqFrom_congr fun k _ hk => h k (by omega)
  simp only [strneq, CStr.Same]
  rw [hfield, strneqFrom_get]
  rfl

end DordOs
