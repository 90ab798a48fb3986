import Mathlib.Algebra.Group.Nat.Defs
import Mathlib.Data.Set.Lattice
import Mathlib.Order.CompletePartialOrder

/-!
Exclusive ownership. A resource is a set of items of which some belong to no
owner in particular (`base`) and the rest is handed out in chunks. `Owns` says
that the chunks in circulation do not meet each other or the base, and that an
item counts as used exactly when it is in the base or in one of them.
-/
namespace DordOs.Lib

variable {α : Type}

structure Owns (base : Set α) (live : List (Set α)) (used : Set α) : Prop where
  disjoint : live.Pairwise Disjoint
  fresh : ∀ r ∈ live, Disjoint r base
  used_iff : ∀ x, x ∈ used ↔ x ∈ base ∨ ∃ r ∈ live, x ∈ r

variable {base used : Set α} {live : List (Set α)}

theorem Owns.nil : Owns base [] base :=
  ⟨List.Pairwise.nil, fun _ h => absurd h List.not_mem_nil, fun x => by simp⟩

theorem Owns.base_subset (h : Owns base live used) : base ⊆ used :=
  fun x hx => (h.used_iff x).mpr (Or.inl hx)

theorem Owns.chunk_subset (h : Owns base live used) {r : Set α} (hr : r ∈ live) : r ⊆ used :=
  fun x hx => (h.used_iff x).mpr (Or.inr ⟨r, hr, hx⟩)

theorem Owns.acquire (h : Owns base live used) {r : Set α} (unused : Disjoint r used) :
    Owns base (r :: live) (used ∪ r) := by
  refine ⟨List.pairwise_cons.mpr ⟨?_, h.disjoint⟩, ?_, ?_⟩
  · intro q hq
    exact unused.mono_right (h.chunk_subset hq)
  · intro q hq
    rcases List.mem_cons.mp hq with rfl | hq
    · exact unused.mono_right h.base_subset
    · exact h.fresh q hq
  · intro x
    simp only [Set.mem_union, h.used_iff, List.mem_cons, exists_eq_or_imp]
    exact or_assoc.trans (or_congr_right or_comm)

/-- Taking back a chunk frees its items and no others. -/
theorem Owns.release {before after : List (Set α)} {r : Set α}
    (h : Owns base (before ++ r :: after) used) : Owns base (before ++ after) (used \ r) := by
  obtain ⟨hbefore, hafter, hcross⟩ := List.pairwise_append.mp h.disjoint
  obtain ⟨hr, htail⟩ := List.pairwise_cons.mp hafter
  have hother : ∀ q ∈ before ++ after, Disjoint r q := by
    intro q hq
    rcases List.mem_append.mp hq with hq | hq
    · exact (hcross q hq r List.mem_cons_self).symm
    · exact hr q hq
  refine ⟨?_, ?_, ?_⟩
  · exact List.pairwise_append.mpr
      ⟨hbefore, htail, fun a ha b hb => hcross a ha b (List.mem_cons_of_mem _ hb)⟩
  · intro q hq
    exact h.fresh q (by
      rcases List.mem_append.mp hq with hq | hq
      · exact List.mem_append_left _ hq
      · exact List.mem_append_right _ (List.mem_cons_of_mem _ hq))
  · intro x
    have hfresh := h.fresh r (by simp)
    constructor
    · rintro ⟨hx, hnot⟩
      rcases (h.used_iff x).mp hx with hb | ⟨q, hq, hxq⟩
      · exact Or.inl hb
      · refine Or.inr ⟨q, ?_, hxq⟩
        rcases List.mem_append.mp hq with hq | hq
        · exact List.mem_append_left _ hq
        · rcases List.mem_cons.mp hq with rfl | hq
          · exact absurd hxq hnot
          · exact List.mem_append_right _ hq
    · rintro (hb | ⟨q, hq, hxq⟩)
      · exact ⟨h.base_subset hb, fun hxr => Set.disjoint_left.mp hfresh hxr hb⟩
      · refine ⟨(h.used_iff x).mpr (Or.inr ⟨q, ?_, hxq⟩),
          fun hxr => Set.disjoint_left.mp (hother q hq) hxr hxq⟩
        rcases List.mem_append.mp hq with hq | hq
        · exact List.mem_append_left _ hq
        · exact List.mem_append_right _ (List.mem_cons_of_mem _ hq)

/-- With every chunk returned, exactly the base is in use. -/
theorem Owns.used_eq_base (h : Owns base [] used) : used = base := by
  ext x
  simp [h.used_iff]

end DordOs.Lib
