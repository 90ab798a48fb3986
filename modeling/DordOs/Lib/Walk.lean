import Mathlib.Logic.Relation
import Mathlib.Tactic.Common

/-!
Walks of a partial step function, and steps that carry data along: when where a step
leads does not depend on the data, the data at a place is folded over the places visited
on the way.
-/
namespace DordOs.Lib
open Relation

variable {α δ : Type} {next : α → Option α} {effect : α → δ → δ} {a b c : α} {k : Nat}

/-- `k` steps, if there are as many. -/
def walk (next : α → Option α) : Nat → α → Option α
  | 0, a => some a
  | k + 1, a => (walk next k a).bind next

/-- Where the first `k` steps are taken. -/
def visits (next : α → Option α) : Nat → α → List α
  | 0, _ => []
  | k + 1, a => visits next k a ++ ((walk next k a).filter fun b => (next b).isSome).toList

/-- A step, and what it does to the data. -/
def carry (next : α → Option α) (effect : α → δ → δ) (st : α × δ) : Option (α × δ) :=
  (next st.1).map fun b => (b, effect st.1 st.2)

theorem walk_succ (h : walk next k a = some b) : walk next (k + 1) a = next b := by
  rw [walk, h, Option.bind_some]

theorem walk_of_succ (h : walk next (k + 1) a = some c) :
    ∃ b, walk next k a = some b ∧ next b = some c :=
  Option.bind_eq_some_iff.mp h

theorem visits_succ (h : walk next k a = some b) (hstep : next b = some c) :
    visits next (k + 1) a = visits next k a ++ [b] := by
  have hsome : (next b).isSome = true := Option.isSome_iff_exists.mpr ⟨c, hstep⟩
  rw [visits, h, Option.filter_some, if_pos hsome]
  rfl

theorem walk_add (j k : Nat) : walk next (j + k) a = (walk next j a).bind (walk next k) := by
  induction k with
  | zero => exact (Option.bind_fun_some _).symm
  | succ k ih =>
      rw [← Nat.add_assoc, walk, ih, Option.bind_assoc]
      rfl

/-- A walk that gets nowhere in `n` steps has taken fewer wherever it gets. -/
theorem walk_lt {n : Nat} (h : walk next n a = none) (hk : walk next k a = some b) : k < n := by
  by_contra hle
  obtain ⟨j, rfl⟩ := Nat.exists_eq_add_of_le (Nat.not_lt.mp hle)
  rw [walk_add, h] at hk
  exact Option.some_ne_none b hk.symm

theorem length_visits_le {n : Nat} (h : walk next n a = none) (k : Nat) :
    (visits next k a).length ≤ n ∧ (visits next k a).length ≤ k := by
  induction k with
  | zero => exact ⟨Nat.zero_le _, Nat.zero_le _⟩
  | succ k ih =>
      rw [visits, List.length_append]
      cases hwalk : walk next k a with
      | none => exact ⟨ih.1, Nat.le_succ_of_le ih.2⟩
      | some b =>
          have hlt := walk_lt h hwalk
          have hone : (Option.filter (fun b => (next b).isSome) (some b)).toList.length ≤ 1 :=
            Option.length_toList_le
          omega

theorem reflTransGen_iff_walk :
    ReflTransGen (fun a b => next a = some b) a b ↔ ∃ k, walk next k a = some b := by
  constructor
  · intro h
    induction h with
    | refl => exact ⟨0, rfl⟩
    | tail _ hstep ih =>
        obtain ⟨k, hk⟩ := ih
        exact ⟨k + 1, (walk_succ hk).trans hstep⟩
  · rintro ⟨k, hk⟩
    induction k generalizing b with
    | zero =>
        cases hk
        exact .refl
    | succ k ih =>
        obtain ⟨c, hc, hstep⟩ := walk_of_succ hk
        exact (ih hc).tail hstep

/-- The data a walk carries to where it gets. -/
theorem walk_carry (k : Nat) (a : α) (d : δ) : walk (carry next effect) k (a, d) =
    (walk next k a).map fun b => (b, (visits next k a).foldl (fun d b => effect b d) d) := by
  induction k with
  | zero => rfl
  | succ k ih =>
      rw [walk, ih]
      cases hwalk : walk next k a with
      | none => rw [walk, hwalk]; rfl
      | some b =>
          rw [walk_succ hwalk, Option.map_some, Option.bind_some, carry]
          cases hstep : next b with
          | none => rfl
          | some c =>
              rw [visits_succ hwalk hstep, List.foldl_append]
              rfl

end DordOs.Lib
