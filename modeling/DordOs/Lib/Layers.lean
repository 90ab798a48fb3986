import Mathlib.Data.List.Basic

/-!
Pictures painted in layers. A layer says what becomes of the colour that is at a place; layers
painted one over the other are a layer again. What is seen at a place is what the topmost
layer shows there that is not clear, provided that one hides what is below it.
-/
namespace DordOs.Lib

variable {P C : Type}

abbrev Layer (P C : Type) := P → C → C

namespace Layer

/-- The layers one over the other, the first one lowest. -/
def overlay (layers : List (Layer P C)) : Layer P C :=
  fun p below => layers.foldl (fun c layer => layer p c) below

/-- At `p` the layer lets through what is below it. -/
def Clear (layer : Layer P C) (p : P) : Prop := ∀ below, layer p below = below

/-- At `p` the layer shows `c` and hides what is below it. -/
def Shows (layer : Layer P C) (p : P) (c : C) : Prop := ∀ below, layer p below = c

/-- Paint with `shade` where `covers` holds. -/
def patch (covers : P → Prop) [DecidablePred covers] (shade : P → C → C) : Layer P C :=
  fun p below => if covers p then shade p below else below

variable {layer : Layer P C} {layers lower upper : List (Layer P C)} {p : P} {c : C}

@[simp] theorem overlay_cons : overlay (layer :: layers) p c = overlay layers p (layer p c) := rfl

theorem overlay_append : overlay (lower ++ upper) p c = overlay upper p (overlay lower p c) :=
  List.foldl_append

theorem Clear.overlay (h : ∀ l ∈ layers, Clear l p) : Clear (overlay layers) p := by
  induction layers with
  | nil => exact fun _ => rfl
  | cons l layers ih =>
      intro below
      obtain ⟨hl, hlayers⟩ := List.forall_mem_cons.mp h
      rw [overlay_cons, hl, ih hlayers]

theorem Clear.append (hlower : Clear (Layer.overlay lower) p)
    (hupper : Clear (Layer.overlay upper) p) :
    Clear (Layer.overlay (lower ++ upper)) p := by
  intro below
  rw [overlay_append, hlower, hupper]

/-- Clear layers below or above change nothing. -/
theorem Shows.append (h : Shows (Layer.overlay lower) p c) (clear : Clear (Layer.overlay upper) p) :
    Shows (Layer.overlay (lower ++ upper)) p c := by
  intro below
  rw [overlay_append, h, clear]

/-- What is below a layer that hides it does not matter. -/
theorem Shows.above (h : Shows (Layer.overlay upper) p c) :
    Shows (Layer.overlay (lower ++ upper)) p c := by
  intro below
  rw [overlay_append, h]

theorem Shows.single (h : Shows layer p c) : Shows (Layer.overlay [layer]) p c := h

/-- Where each layer shows `c` or is clear and one of them shows it, `c` is seen. -/
theorem Shows.overlay (h : ∀ l ∈ layers, Shows l p c ∨ Clear l p)
    (hsome : ∃ l ∈ layers, Shows l p c) :
    Shows (Layer.overlay layers) p c := by
  induction layers with
  | nil =>
      obtain ⟨l, hl, _⟩ := hsome
      exact absurd hl List.not_mem_nil
  | cons l layers ih =>
      obtain ⟨hl, hlayers⟩ := List.forall_mem_cons.mp h
      intro below
      rw [overlay_cons]
      by_cases hlater : ∃ l ∈ layers, Shows l p c
      · exact ih hlayers hlater _
      · have hclear : Clear (Layer.overlay layers) p := Clear.overlay fun l hl =>
          (hlayers l hl).resolve_left fun hshows => hlater ⟨l, hl, hshows⟩
        obtain ⟨l', hl', hshows⟩ := hsome
        obtain rfl | hl' := List.mem_cons.mp hl'
        · rw [hshows, hclear]
        · exact absurd ⟨l', hl', hshows⟩ hlater

section Patch

variable {covers : P → Prop} [DecidablePred covers] {shade : P → C → C}

theorem clear_patch (h : covers p → ∀ below, shade p below = below) :
    Clear (patch covers shade) p := by
  intro below
  simp only [patch]
  split
  next hp => exact h hp below
  next => rfl

theorem clear_patch_of_not (h : ¬ covers p) : Clear (patch covers shade) p :=
  fun _ => if_neg h

end Patch

end Layer

end DordOs.Lib
