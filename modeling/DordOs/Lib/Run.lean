import Mathlib.Data.List.Basic

/-!
Finite runs of a labelled transition relation. A run records, for every step,
the state it was taken in and its label, so that a condition on steps and an
assertion on the states between them can be compared along one run.
-/
namespace DordOs.Lib

variable {σ ε : Type}

/-- `Run step s tr t`: the steps listed in `tr` lead from `s` to `t`. -/
inductive Run (step : σ → ε → σ → Prop) (s : σ) : List (σ × ε) → σ → Prop
  | nil : Run step s [] s
  | snoc {tr : List (σ × ε)} {t u : σ} {e : ε} :
      Run step s tr t → step t e u → Run step s (tr ++ [(t, e)]) u

variable {step : σ → ε → σ → Prop} {s t : σ} {tr : List (σ × ε)}

/-- The invariant rule. -/
theorem Run.invariant {I : σ → Prop} (run : Run step s tr t) (init : I s)
    (pres : ∀ a e b, I a → step a e b → I b) : I t := by
  induction run with
  | nil => exact init
  | snoc _ hstep ih => exact pres _ _ _ ih hstep

/-- The invariant rule for runs all of whose steps meet a condition. -/
theorem Run.invariant_of_guard {I : σ → Prop} {C : σ → ε → Prop} (run : Run step s tr t)
    (guard : ∀ x ∈ tr, C x.1 x.2) (init : I s)
    (pres : ∀ a e b, I a → C a e → step a e b → I b) : I t := by
  induction run with
  | nil => exact init
  | snoc _ hstep ih =>
      have hprev := ih fun x hx => guard x (List.mem_append_left _ hx)
      exact pres _ _ _ hprev (guard _ (List.mem_append_right _ (List.mem_singleton_self _))) hstep

/-- When, under an invariant, a condition decides exactly whether a step keeps
an assertion, the assertion holds all along a run iff every step of the run
meets the condition. -/
theorem Run.forall_iff_guard {I P : σ → Prop} {C : σ → ε → Prop} (run : Run step s tr t)
    (hI : I s) (hP : P s) (pres : ∀ a e b, I a → step a e b → I b)
    (exact : ∀ a e b, I a → P a → step a e b → (P b ↔ C a e)) :
    ((∀ x ∈ tr, P x.1) ∧ P t) ↔ ∀ x ∈ tr, C x.1 x.2 := by
  induction run with
  | nil => simp [hP]
  | @snoc tr u v e hrun hstep ih =>
      have hIu : I u := hrun.invariant hI pres
      constructor
      · rintro ⟨hall, hv⟩ x hx
        have hu : P u := hall (u, e) (by simp)
        rcases List.mem_append.mp hx with hx | hx
        · exact ih.mp ⟨fun y hy => hall y (List.mem_append_left _ hy), hu⟩ x hx
        · rw [List.mem_singleton.mp hx]
          exact (exact u e v hIu hu hstep).mp hv
      · intro hC
        obtain ⟨hprev, hu⟩ := ih.mpr fun x hx => hC x (List.mem_append_left _ hx)
        refine ⟨?_, (exact u e v hIu hu hstep).mpr (hC (u, e) (by simp))⟩
        intro x hx
        rcases List.mem_append.mp hx with hx | hx
        · exact hprev x hx
        · rw [List.mem_singleton.mp hx]
          exact hu

/-- The unless rule: what every step carries on, unless it brings about `Q`, holds at the end
of a run along which `Q` never came about. -/
theorem Run.unless {Q : σ → Prop} {C : σ → ε → Prop} {J : List (σ × ε) → σ → Prop}
    (run : Run step s tr t) (guard : ∀ x ∈ tr, C x.1 x.2) (init : J [] s)
    (pres : ∀ tr a e b, J tr a → C a e → step a e b → Q b ∨ J (tr ++ [(a, e)]) b) :
    ((∃ x ∈ tr, Q x.1) ∨ Q t) ∨ J tr t := by
  induction run with
  | nil => exact .inr init
  | @snoc tr u v e _ hstep ih =>
      obtain (⟨x, hx, hq⟩ | hq) | hj := ih fun x hx => guard x (List.mem_append_left _ hx)
      · exact .inl (.inl ⟨x, List.mem_append_left _ hx, hq⟩)
      · exact .inl (.inl ⟨(u, e), List.mem_append_right _ (List.mem_singleton_self _), hq⟩)
      · have hc := guard (u, e) (List.mem_append_right _ (List.mem_singleton_self _))
        exact (pres tr u e v hj hc hstep).imp_left .inr

/-- One run behind another. -/
theorem Run.append {tr' : List (σ × ε)} {u : σ} (run : Run step s tr t) (run' : Run step t tr' u) :
    Run step s (tr ++ tr') u := by
  induction run' with
  | nil => exact (List.append_nil tr).symm ▸ run
  | snoc _ hstep ih =>
      rw [← List.append_assoc]
      exact ih.snoc hstep

/-- A simulation step for step. -/
theorem Run.map {σ' ε' : Type} {step' : σ' → ε' → σ' → Prop} {f : σ → σ'} {g : ε → ε'}
    (run : Run step s tr t) (sim : ∀ a e b, step a e b → step' (f a) (g e) (f b)) :
    Run step' (f s) (tr.map fun x => (f x.1, g x.2)) (f t) := by
  induction run with
  | nil => exact .nil
  | snoc _ hstep ih =>
      rw [List.map_append]
      exact ih.snoc (sim _ _ _ hstep)

/-- The run an executable step function makes of a list of labels, while it can
take every step. -/
def execRun (exec : σ → ε → Option σ) (s : σ) : List ε → Option (List (σ × ε) × σ)
  | [] => some ([], s)
  | e :: es => do
      let t ← exec s e
      let (tr, u) ← execRun exec t es
      return ((s, e) :: tr, u)

theorem Run.append_exec {exec : σ → ε → Option σ}
    (sound : ∀ a e b, exec a e = some b → step a e b) (run : Run step s tr t) {es : List ε}
    {r : List (σ × ε) × σ} (h : execRun exec t es = some r) : Run step s (tr ++ r.1) r.2 := by
  induction es generalizing tr t r with
  | nil =>
      cases h
      rw [List.append_nil]
      exact run
  | cons e es ih =>
      obtain ⟨b, hb, hrest⟩ := Option.bind_eq_some_iff.mp h
      obtain ⟨q, hq, hr⟩ := Option.bind_eq_some_iff.mp hrest
      cases hr
      have tail := ih (run.snoc (sound t e b hb)) hq
      rw [List.append_assoc] at tail
      exact tail

theorem Run.of_exec {exec : σ → ε → Option σ} (sound : ∀ a e b, exec a e = some b → step a e b)
    {es : List ε} {r : List (σ × ε) × σ} (h : execRun exec s es = some r) : Run step s r.1 r.2 :=
  Run.nil.append_exec sound h

end DordOs.Lib
