import Mathlib.Algebra.Group.Int.Defs
import Mathlib.Algebra.GroupWithZero.Nat
import Mathlib.Data.List.Basic
import Mathlib.Tactic.Common

/-!
Byte strings: little-endian numbers, and reading a field back out of a byte
string that was put together by concatenation.
-/
namespace DordOs.Lib

abbrev Bytes := List (BitVec 8)

/-- The `n` bytes of `v`, lowest first. -/
def leBytes : Nat → Nat → Bytes
  | 0, _ => []
  | n + 1, v => BitVec.ofNat 8 v :: leBytes n (v / 256)

def leValue : Bytes → Nat
  | [] => 0
  | b :: l => b.toNat + 256 * leValue l

theorem leValue_append (a b : Bytes) :
    leValue (a ++ b) = leValue a + 256 ^ a.length * leValue b := by
  induction a with
  | nil => simp [leValue]
  | cons x a ih =>
      rw [List.cons_append, leValue, leValue, ih, List.length_cons, Nat.pow_succ', Nat.mul_add,
        Nat.mul_assoc, Nat.add_assoc]

@[simp] theorem length_leBytes (n v : Nat) : (leBytes n v).length = n := by
  induction n generalizing v with
  | zero => rfl
  | succ n ih => rw [leBytes, List.length_cons, ih]

theorem leValue_leBytes {n v : Nat} (h : v < 256 ^ n) : leValue (leBytes n v) = v := by
  induction n generalizing v with
  | zero =>
      rw [Nat.pow_zero] at h
      rw [Nat.lt_one_iff.mp h]
      rfl
  | succ n ih =>
      have hrest : v / 256 < 256 ^ n := by
        rw [Nat.div_lt_iff_lt_mul (by decide), ← Nat.pow_succ]
        exact h
      rw [leBytes, leValue, ih hrest, BitVec.toNat_ofNat]
      exact Nat.mod_add_div v 256

theorem getD_leBytes {n v k : Nat} (hk : k < n) :
    (leBytes n v).getD k 0 = BitVec.ofNat 8 (v / 256 ^ k) := by
  induction n generalizing v k with
  | zero => exact absurd hk (Nat.not_lt_zero k)
  | succ n ih =>
      cases k with
      | zero =>
          rw [Nat.pow_zero, Nat.div_one]
          rfl
      | succ k =>
          rw [Nat.pow_succ', ← Nat.div_div_eq_div_mul, ← ih (Nat.lt_of_succ_lt_succ hk)]
          rfl

/-- `n` bytes from offset `start` on. -/
def slice (l : Bytes) (start n : Nat) : Bytes := (l.drop start).take n

theorem slice_append {before middle after : Bytes} {start n : Nat} (hstart : before.length = start)
    (hn : middle.length = n) : slice (before ++ middle ++ after) start n = middle := by
  simp only [slice]
  rw [List.append_assoc, List.drop_left' hstart, List.take_left' hn]

theorem slice_congr {a b : Bytes} {i j n : Nat} (h : ∀ r, r < n → a[i + r]? = b[j + r]?) :
    slice a i n = slice b j n := by
  apply List.ext_getElem?
  intro r
  simp only [slice]
  rw [List.getElem?_take, List.getElem?_take]
  split
  next hr => rw [List.getElem?_drop, List.getElem?_drop, h r hr]
  next => rfl

theorem length_flatMap_of_const {α β : Type} {f : α → List β} {n : Nat}
    (h : ∀ x, (f x).length = n) (l : List α) : (l.flatMap f).length = n * l.length := by
  induction l with
  | nil => rfl
  | cons x l ih =>
      rw [List.flatMap_cons, List.length_append, h x, ih, List.length_cons, Nat.mul_succ,
        Nat.add_comm]

theorem getElem?_flatMap_of_const {α β : Type} {f : α → List β} {n k j : Nat} {l : List α} {x : α}
    (hlen : ∀ x, (f x).length = n) (hx : l[k]? = some x) (hj : j < n) :
    (l.flatMap f)[n * k + j]? = (f x)[j]? := by
  obtain ⟨hlt, hget⟩ := List.getElem?_eq_some_iff.mp hx
  have hsplit : l = l.take k ++ x :: l.drop (k + 1) := by
    rw [← hget, ← List.drop_eq_getElem_cons hlt, List.take_append_drop]
  have hbefore : ((l.take k).flatMap f).length = n * k := by
    rw [length_flatMap_of_const hlen, List.length_take_of_le (Nat.le_of_lt hlt)]
  rw [hsplit, List.flatMap_append, List.flatMap_cons,
    List.getElem?_append_right (by rw [hbefore]; exact Nat.le_add_right _ _), hbefore,
    Nat.add_sub_cancel_left, List.getElem?_append_left (by rw [hlen]; exact hj)]

theorem slice_flatMap {α : Type} {f : α → Bytes} {n k : Nat} {l : List α} {x : α}
    (hlen : ∀ x, (f x).length = n) (hx : l[k]? = some x) :
    slice (l.flatMap f) (n * k) n = f x := by
  have hcells : ∀ r, r < n → (l.flatMap f)[n * k + r]? = (f x)[0 + r]? := fun r hr => by
    rw [getElem?_flatMap_of_const hlen hx hr, Nat.zero_add]
  rw [slice_congr hcells, slice, List.drop_zero, List.take_of_length_le (Nat.le_of_eq (hlen x))]

def zeros (n : Nat) : Bytes := List.replicate n 0

@[simp] theorem length_zeros (n : Nat) : (zeros n).length = n := List.length_replicate

theorem zeros_add (m n : Nat) : zeros (m + n) = zeros m ++ zeros n :=
  List.replicate_append_replicate.symm

/-- Bytes stored over the beginning of a buffer. -/
def overwrite (stored buf : Bytes) : Bytes := stored ++ buf.drop stored.length

theorem overwrite_of_length_le {stored buf : Bytes} (h : buf.length ≤ stored.length) :
    overwrite stored buf = stored := by
  rw [overwrite, List.drop_eq_nil_of_le h, List.append_nil]

end DordOs.Lib
