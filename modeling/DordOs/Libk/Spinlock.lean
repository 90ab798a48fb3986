import DordOs.Libk.Align

/-!
The spinlock of `libk/spinlock.c`. `spinlock_lock` repeats an atomic test and set
until it finds the bit clear; `tryLock` is one turn of that loop.
-/
namespace DordOs

structure Slock where
  locked : U8
  deriving DecidableEq

def slockInit : Slock := ⟨0⟩

/-- `lock bts`: the carry flag receives bit 0, which is then set. -/
def atomicTestAndSet (val : U8) : U8 × U8 :=
  (val &&& 1, val ||| 1)

namespace Slock

/-- One turn of the loop in `spinlock_lock`: whether it ends the loop, and the
lock afterwards. -/
def tryLock (lock : Slock) : Bool × Slock :=
  let (cf, val) := atomicTestAndSet lock.locked
  (cf = 0, ⟨val⟩)

def release (_lock : Slock) : Slock :=
  ⟨0⟩

def Held (lock : Slock) : Prop := lock.locked &&& 1 = 1

instance (lock : Slock) : Decidable lock.Held :=
  inferInstanceAs (Decidable (_ = _))

theorem not_held_init : ¬ slockInit.Held := by decide

theorem not_held_release (lock : Slock) : ¬ lock.release.Held := by
  simp only [Slock.Held, release]
  decide

theorem and_one_eq (val : U8) : val &&& 1 = 0 ∨ val &&& 1 = 1 := by
  have h : (val &&& 1).toNat = val.toNat % 2 := by
    rw [BitVec.toNat_and]
    exact Nat.and_two_pow_sub_one_eq_mod val.toNat 1
  obtain hz | ho := Nat.mod_two_eq_zero_or_one val.toNat
  · exact Or.inl (BitVec.eq_of_toNat_eq (by rw [h, hz]; rfl))
  · exact Or.inr (BitVec.eq_of_toNat_eq (by rw [h, ho]; rfl))

/-- The loop ends exactly when the lock was free, and leaves it held. -/
theorem tryLock_fst (lock : Slock) : lock.tryLock.1 = true ↔ ¬ lock.Held := by
  change decide (lock.locked &&& 1 = 0) = true ↔ ¬ lock.locked &&& 1 = 1
  obtain h | h := and_one_eq lock.locked <;> rw [h] <;> decide

theorem held_tryLock (lock : Slock) : lock.tryLock.2.Held := by
  change (lock.locked ||| 1) &&& 1 = 1
  apply BitVec.eq_of_getLsbD_eq
  intro i hi
  by_cases hzero : i = 0
  · subst hzero
    simp
  · simp [BitVec.getLsbD_one, hzero]

end Slock

end DordOs
