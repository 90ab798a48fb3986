import Mathlib.Algebra.Group.Int.Defs
import Mathlib.Algebra.GroupWithZero.Nat
import Mathlib.Data.List.ProdSigma
import Mathlib.Logic.Function.Iterate
import Mathlib.Tactic.Common

/-!
Counting loops on fixed-width counters and the rule for reasoning about them.
The two unfolding equations are the operational reading of a C `for` loop whose
body leaves its counter alone; proofs use the invariant rule below instead.
-/
namespace DordOs.Lib

/-- `for (i = lo; i < hi; ++i) s = body i s`. -/
def forUp {σ : Type} {w : Nat} (lo hi : BitVec w) (body : BitVec w → σ → σ) (s : σ) : σ :=
  go (hi.toNat - lo.toNat) lo s
where
  go : Nat → BitVec w → σ → σ
    | 0, _, s => s
    | n + 1, i, s => go n (i + 1) (body i s)

variable {σ : Type} {w : Nat}

theorem toNat_succ_of_lt {i hi : BitVec w} (h : i < hi) : (i + 1).toNat = i.toNat + 1 := by
  have hlt : i.toNat < hi.toNat := BitVec.lt_def.mp h
  have hw : 0 < w := by
    rcases Nat.eq_zero_or_pos w with rfl | hpos
    · have := hi.isLt
      omega
    · exact hpos
  have hone : (1 : BitVec w).toNat = 1 := BitVec.toNat_one hw
  rw [BitVec.toNat_add, hone]
  exact Nat.mod_eq_of_lt (by have := hi.isLt; omega)

theorem forUp_of_lt {lo hi : BitVec w} (h : lo < hi) (body : BitVec w → σ → σ) (s : σ) :
    forUp lo hi body s = forUp (lo + 1) hi body (body lo s) := by
  have hlt : lo.toNat < hi.toNat := BitVec.lt_def.mp h
  have hn : hi.toNat - lo.toNat = (hi.toNat - (lo + 1).toNat) + 1 := by
    rw [toNat_succ_of_lt h]
    omega
  simp only [forUp]
  rw [hn]
  rfl

theorem forUp_of_not_lt {lo hi : BitVec w} (h : ¬ lo < hi) (body : BitVec w → σ → σ) (s : σ) :
    forUp lo hi body s = s := by
  have hle : hi.toNat - lo.toNat = 0 := by
    have := mt BitVec.lt_def.mpr h
    omega
  simp only [forUp]
  rw [hle]
  rfl

/-- An assertion that holds on entry and is carried from `i` to `i + 1` by the
body holds, at the bound, on exit. -/
theorem forUp_invariant (P : Nat → σ → Prop) {lo hi : BitVec w} (body : BitVec w → σ → σ)
    (hle : lo.toNat ≤ hi.toNat)
    (step : ∀ (i : BitVec w) (s : σ), lo.toNat ≤ i.toNat → i.toNat < hi.toNat →
      P i.toNat s → P (i.toNat + 1) (body i s))
    (s : σ) (entry : P lo.toNat s) : P hi.toNat (forUp lo hi body s) := by
  obtain ⟨n, hn⟩ : ∃ n, hi.toNat - lo.toNat = n := ⟨_, rfl⟩
  induction n generalizing lo s with
  | zero =>
      have heq : lo.toNat = hi.toNat := by omega
      rw [forUp_of_not_lt (by rw [BitVec.lt_def]; omega), ← heq]
      exact entry
  | succ n ih =>
      have hlt : lo < hi := BitVec.lt_def.mpr (by omega)
      have hsucc := toNat_succ_of_lt hlt
      rw [forUp_of_lt hlt]
      apply ih
      · omega
      · intro i s hi₁ hi₂
        exact step i s (by omega) hi₂
      · rw [hsucc]
        exact step lo s (Nat.le_refl _) (by omega) entry
      · omega

/-- Two loops with the same counter keep in step when their bodies do. -/
theorem forUp_rel {τ : Type} (R : σ → τ → Prop) {lo hi : BitVec w} {f : BitVec w → σ → σ}
    {g : BitVec w → τ → τ}
    (step : ∀ (i : BitVec w) (s : σ) (t : τ), lo.toNat ≤ i.toNat → i.toNat < hi.toNat →
      R s t → R (f i s) (g i t))
    {s : σ} {t : τ} (entry : R s t) : R (forUp lo hi f s) (forUp lo hi g t) := by
  obtain ⟨n, hn⟩ : ∃ n, hi.toNat - lo.toNat = n := ⟨_, rfl⟩
  induction n generalizing lo s t with
  | zero =>
      have hnot : ¬ lo < hi := by
        rw [BitVec.lt_def]
        omega
      rw [forUp_of_not_lt hnot, forUp_of_not_lt hnot]
      exact entry
  | succ n ih =>
      have hlt : lo < hi := BitVec.lt_def.mpr (by omega)
      have hsucc := toNat_succ_of_lt hlt
      rw [forUp_of_lt hlt, forUp_of_lt hlt]
      refine ih ?_ (step lo s t (Nat.le_refl _) (by omega) entry) (by omega)
      exact fun i s t hi₁ hi₂ => step i s t (by omega) hi₂

theorem forUp_const (hi : BitVec w) (f : σ → σ) (s : σ) :
    forUp 0 hi (fun _ => f) s = f^[hi.toNat] s := by
  have hgo (n : Nat) (i : BitVec w) (s : σ) : forUp.go (fun _ => f) n i s = f^[n] s := by
    induction n generalizing i s with
    | zero => rfl
    | succ n ih => exact ih (i + 1) (f s)
  exact hgo hi.toNat 0 s

theorem forUp_zero_eq_foldl {σ : Type} {w : Nat} (hi : BitVec w) (body : BitVec w → σ → σ)
    (s : σ) :
    forUp 0 hi body s = (List.range hi.toNat).foldl (fun s i => body (BitVec.ofNat w i) s) s := by
  have hgo (n : Nat) (i : Nat) (s : σ) : forUp.go body n (BitVec.ofNat w i) s =
      (List.range' i n).foldl (fun s i => body (BitVec.ofNat w i) s) s := by
    induction n generalizing i s with
    | zero => rfl
    | succ n ih =>
        have hsucc : BitVec.ofNat w i + 1 = BitVec.ofNat w (i + 1) :=
          (BitVec.ofNat_add i 1).symm
        rw [forUp.go, hsucc, ih, List.range'_succ, List.foldl_cons]
  rw [List.range_eq_range']
  exact hgo hi.toNat 0 s

theorem foldl_product {α β σ : Type} (g : σ → α × β → σ) (s : σ) (l : List α) (l' : List β) :
    (l ×ˢ l').foldl g s = l.foldl (fun s a => l'.foldl (fun s b => g s (a, b)) s) s := by
  simp only [SProd.sprod, List.product]
  rw [List.foldl_flatMap]
  congr
  funext s a
  exact List.foldl_map

end DordOs.Lib
