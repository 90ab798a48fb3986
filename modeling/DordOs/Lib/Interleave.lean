import DordOs.Lib.Run
import Mathlib.Logic.Function.Basic

/-!
Interleaved execution of threads that share a state. A thread's own steps are a
relation on the shared state and its local state; the scheduler picks any thread
for each step. A step is taken apart into what the thread that moves does and
that the others stay where they are.
-/
namespace DordOs.Lib

variable {ι σ τ ε : Type} [DecidableEq ι]

structure Threads (ι σ τ : Type) where
  shared : σ
  loc : ι → τ

/-- One step of thread `i` on event `e`. -/
inductive Interleave (next : σ → τ → ε → σ → τ → Prop) :
    Threads ι σ τ → ι × ε → Threads ι σ τ → Prop
  | move (s s' : σ) (loc : ι → τ) (i : ι) (e : ε) (t' : τ) :
      next s (loc i) e s' t' →
      Interleave next ⟨s, loc⟩ (i, e) ⟨s', Function.update loc i t'⟩

variable {next : σ → τ → ε → σ → τ → Prop}

theorem Interleave.own {c d : Threads ι σ τ} {x : ι × ε} (step : Interleave next c x d) :
    next c.shared (c.loc x.1) x.2 d.shared (d.loc x.1) := by
  cases step with
  | move s s' loc i e t' hnext =>
      have hself : Function.update loc i t' i = t' := Function.update_self i t' loc
      dsimp only
      rw [hself]
      exact hnext

theorem Interleave.other {c d : Threads ι σ τ} {x : ι × ε} (step : Interleave next c x d) {j : ι}
    (hj : j ≠ x.1) : d.loc j = c.loc j := by
  cases step with
  | move s s' loc i e t' hnext => exact Function.update_of_ne hj t' loc

/-- With two threads the other one is told by negation. -/
theorem Interleave.other_of_two {next : σ → τ → ε → σ → τ → Prop} {c d : Threads Bool σ τ}
    {x : Bool × ε} (step : Interleave next c x d) : d.loc (!x.1) = c.loc (!x.1) :=
  step.other (by cases x.1 <;> decide)

theorem forall_two_threads (p : Bool) {A : Bool → Prop} : (∀ q, A q) ↔ A p ∧ A (!p) := by
  refine ⟨fun h => ⟨h p, h (!p)⟩, fun h q => ?_⟩
  cases p <;> cases q
  · exact h.1
  · exact h.2
  · exact h.2
  · exact h.1

end DordOs.Lib
