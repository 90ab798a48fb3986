import DordOs.Lib.Loop

/-!
The fixed-width types of `libk/common.h` and the rounding of `libk/align.h`.
`usz` is the 32-bit `size_t` of the i386 target.
-/
namespace DordOs

abbrev U8 := BitVec 8
abbrev U16 := BitVec 16
abbrev U32 := BitVec 32
abbrev U64 := BitVec 64
abbrev Usz := BitVec 32

/-- Signed values; comparisons of them go through `toInt`. -/
abbrev I32 := BitVec 32
abbrev I64 := BitVec 64

/-- Addresses in lists are looked up by their equality. -/
instance : LawfulBEq Usz := inferInstance

def alignFwd (val align : Usz) : Usz :=
  let alignMask := align - 1
  (val + alignMask) &&& ~~~alignMask

/-- Masking off the low `k` bits rounds down to a multiple of `2 ^ k`. -/
theorem toNat_and_not_low_mask (x : Usz) (k : Nat) (hk : k < 32) :
    (x &&& ~~~((1 : Usz) <<< k - 1)).toNat = x.toNat / 2 ^ k * 2 ^ k := by
  have hpow : 2 ^ k < 2 ^ 32 := Nat.pow_lt_pow_right (by decide) hk
  have hmask : ((1 : Usz) <<< k - 1).toNat = 2 ^ k - 1 := by
    have hone : ((1 : Usz) <<< k).toNat = 2 ^ k := by
      rw [BitVec.toNat_shiftLeft, Nat.shiftLeft_eq]
      simpa using Nat.mod_eq_of_lt hpow
    have hpos : 0 < 2 ^ k := Nat.two_pow_pos k
    rw [BitVec.toNat_sub, hone]
    change (2 ^ 32 - 1 + 2 ^ k) % 2 ^ 32 = 2 ^ k - 1
    omega
  apply Nat.eq_of_testBit_eq
  intro i
  rw [BitVec.testBit_toNat, BitVec.getLsbD_and, BitVec.getLsbD_not, ← BitVec.testBit_toNat,
    ← BitVec.testBit_toNat, hmask, Nat.testBit_two_pow_sub_one, Nat.testBit_mul_two_pow,
    Nat.testBit_div_two_pow]
  by_cases hik : k ≤ i
  · rw [Nat.sub_add_cancel hik]
    by_cases hi : i < 32
    · simp [hik, hi, Nat.not_lt.mpr hik]
    · have hx : x.toNat.testBit i = false :=
        Nat.testBit_lt_two_pow
          (Nat.lt_of_lt_of_le x.isLt (Nat.pow_le_pow_right (by decide) (Nat.not_lt.mp hi)))
      simp [hx]
  · simp [hik, Nat.lt_of_not_le hik]

theorem toNat_alignFwd (val : Usz) (k : Nat) (hk : k < 32) :
    (alignFwd val ((1 : Usz) <<< k)).toNat =
      (val.toNat + (2 ^ k - 1)) % 2 ^ 32 / 2 ^ k * 2 ^ k := by
  have hpow : 2 ^ k < 2 ^ 32 := Nat.pow_lt_pow_right (by decide) hk
  have hpos : 0 < 2 ^ k := Nat.two_pow_pos k
  simp only [alignFwd]
  rw [toNat_and_not_low_mask _ k hk, BitVec.toNat_add, BitVec.toNat_sub, BitVec.toNat_shiftLeft,
    Nat.shiftLeft_eq]
  have hone : ((1 : Usz).toNat * 2 ^ k) % 2 ^ 32 = 2 ^ k := by
    simpa using Nat.mod_eq_of_lt hpow
  have hmask : (2 ^ 32 - (1 : Usz).toNat + 2 ^ k) % 2 ^ 32 = 2 ^ k - 1 := by
    change (2 ^ 32 - 1 + 2 ^ k) % 2 ^ 32 = 2 ^ k - 1
    omega
  rw [hone, hmask]

end DordOs
