import DordOs.Lib.Bytes

/-!
Byte memory with 32-bit addresses, and the string operations that run upwards
through it.
-/
namespace DordOs.Lib

abbrev Addr := BitVec 32

abbrev Mem := Addr → BitVec 8

/-- The `n` cells from `start` on, not wrapping around. -/
def InRange (start : Addr) (n : Nat) (a : Addr) : Prop :=
  start.toNat ≤ a.toNat ∧ a.toNat < start.toNat + n

instance (start : Addr) (n : Nat) (a : Addr) : Decidable (InRange start n a) :=
  inferInstanceAs (Decidable (_ ∧ _))

theorem toNat_addr_add {a : Addr} {k : Nat} (h : a.toNat + k < 2 ^ 32) :
    (a + BitVec.ofNat 32 k).toNat = a.toNat + k := by
  rw [BitVec.toNat_add, BitVec.toNat_ofNat, Nat.mod_eq_of_lt (show k < 2 ^ 32 by omega),
    Nat.mod_eq_of_lt h]

theorem addr_add_add (a : Addr) (i j : Nat) :
    a + BitVec.ofNat 32 i + BitVec.ofNat 32 j = a + BitVec.ofNat 32 (i + j) := by
  rw [BitVec.ofNat_add, BitVec.add_assoc]

theorem inRange_add {start : Addr} {n k : Nat} (hfit : start.toNat + n ≤ 2 ^ 32) (hk : k < n) :
    InRange start n (start + BitVec.ofNat 32 k) := by
  rw [InRange, toNat_addr_add (by omega)]
  omega

/-- Consecutive addresses, as far as they go without wrapping around. -/
theorem forall_addr_add_lt_iff {a bound : Addr} {n : Nat} :
    (∀ j < n, a + BitVec.ofNat 32 j < bound) ↔ n = 0 ∨ a.toNat + n ≤ bound.toNat := by
  have ha := a.isLt
  have hbound := bound.isLt
  constructor
  · intro hall
    by_contra hnot
    obtain ⟨hpos, hover⟩ := not_or.mp hnot
    by_cases hwrap : a.toNat + n ≤ 2 ^ 32
    · have hlast := hall (n - 1) (by omega)
      rw [BitVec.lt_def, toNat_addr_add (by omega)] at hlast
      omega
    · have htop := hall (2 ^ 32 - 1 - a.toNat) (by omega)
      rw [BitVec.lt_def, toNat_addr_add (by omega)] at htop
      omega
  · intro h j hj
    rw [BitVec.lt_def, toNat_addr_add (by omega)]
    omega

/-- The bytes of an object. -/
def readBytes (m : Mem) (a : Addr) (n : Nat) : Bytes :=
  (List.range n).map fun k => m (a + BitVec.ofNat 32 k)

def Mem.set (m : Mem) (a : Addr) (v : BitVec 8) : Mem := fun b => if b = a then v else m b

/-- `rep movsb` upwards. -/
def copyUp (m : Mem) (dst src : Addr) : Nat → Mem
  | 0 => m
  | n + 1 => copyUp (m.set dst (m src)) (dst + 1) (src + 1) n

/-- `rep stosb` upwards. -/
def fillUp (m : Mem) (dst : Addr) (v : BitVec 8) : Nat → Mem
  | 0 => m
  | n + 1 => fillUp (m.set dst v) (dst + 1) v n

variable {m : Mem} {n : Nat}

theorem Mem.set_self (m : Mem) (a : Addr) (v : BitVec 8) : m.set a v a = v := if_pos rfl

theorem Mem.set_of_ne {a b : Addr} (v : BitVec 8) (h : b ≠ a) : m.set a v b = m b := if_neg h

/-- The bytes `l` lie in memory from `base` on. -/
structure Holds (m : Mem) (base : Addr) (l : Bytes) : Prop where
  fits : base.toNat + l.length ≤ 2 ^ 32
  cell : ∀ k, k < l.length → m (base + BitVec.ofNat 32 k) = l.getD k 0

theorem Holds.readBytes_eq {l : Bytes} {base : Addr} (h : Holds m base l) {i : Nat}
    (hin : i + n ≤ l.length) : readBytes m (base + BitVec.ofNat 32 i) n = slice l i n := by
  apply List.ext_getElem?
  intro k
  simp only [readBytes, slice, List.getElem?_map, List.getElem?_take, List.getElem?_drop]
  by_cases hk : k < n
  · rw [if_pos hk, List.getElem?_range hk, Option.map_some, addr_add_add, h.cell _ (by omega),
      List.getD_eq_getElem?_getD, List.getElem?_eq_getElem (by omega), Option.getD_some]
  · rw [if_neg hk, List.getElem?_eq_none (by rw [List.length_range]; omega), Option.map_none]

theorem Holds.of_eq {m' : Mem} {l : Bytes} {base : Addr} (h : Holds m base l)
    (heq : ∀ a, InRange base l.length a → m' a = m a) : Holds m' base l :=
  ⟨h.fits, fun k hk => (heq _ (inRange_add h.fits hk)).trans (h.cell k hk)⟩

end DordOs.Lib
