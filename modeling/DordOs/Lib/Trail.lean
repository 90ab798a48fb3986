import Mathlib.Data.Fintype.Card
import Mathlib.Logic.Relation
import Mathlib.Order.WellFounded
import Mathlib.Tactic.Common

/-!
Following the links of a deterministic relation. On a finite type a trail comes to
an end, or it comes back to where it has been and goes round for ever.
-/
namespace DordOs.Lib
open Relation

variable {α : Type} {r : α → α → Prop} {a b c : α}

/-- A cycle is never left. -/
theorem transGen_self_of_reflTransGen (det : Relator.RightUnique r) (cycle : TransGen r a a)
    (h : ReflTransGen r a b) : TransGen r b b := by
  induction h with
  | refl => exact cycle
  | @tail b c _ hbc ih =>
      obtain ⟨d, hbd, hdb⟩ := TransGen.head'_iff.mp ih
      rw [← det hbc hbd] at hdb
      exact TransGen.tail' hdb hbc

/-- Everything on a trail leads to its end. -/
theorem reflTransGen_end (det : Relator.RightUnique r) (hb : ReflTransGen r a b)
    (stop : ∀ c, ¬ r b c) (hc : ReflTransGen r a c) : ReflTransGen r c b := by
  obtain h | h := hc.total_of_right_unique det hb
  · exact h
  · obtain rfl | ⟨d, hbd, -⟩ := ReflTransGen.cases_head h
    · exact ReflTransGen.refl
    · exact absurd hbd (stop d)

theorem end_unique (det : Relator.RightUnique r) (hb : ReflTransGen r a b)
    (stopb : ∀ d, ¬ r b d) (hc : ReflTransGen r a c) (stopc : ∀ d, ¬ r c d) : c = b := by
  obtain h | ⟨d, hcd, -⟩ := ReflTransGen.cases_head (reflTransGen_end det hb stopb hc)
  · exact h
  · exact absurd hcd (stopc d)

theorem not_transGen_self_of_end (det : Relator.RightUnique r) (hb : ReflTransGen r a b)
    (stop : ∀ c, ¬ r b c) (hc : ReflTransGen r a c) : ¬ TransGen r c c := by
  intro cycle
  have hend := reflTransGen_end det hb stop hc
  obtain ⟨d, hbd, -⟩ := TransGen.head'_iff.mp (transGen_self_of_reflTransGen det cycle hend)
  exact stop d hbd

/-- What comes later on a trail from `a`. -/
def Later (r : α → α → Prop) (a : α) (c b : α) : Prop := ReflTransGen r a b ∧ TransGen r b c

theorem wellFounded_later [Finite α] (acyclic : ∀ b, ReflTransGen r a b → ¬ TransGen r b b) :
    WellFounded (Later r a) := by
  have hirrefl : Std.Irrefl (Later r a) := ⟨fun b h => acyclic b h.1 h.2⟩
  have htrans : IsTrans α (Later r a) := ⟨fun _ _ _ h h' => ⟨h'.1, h'.2.trans h.2⟩⟩
  exact Finite.wellFounded_of_trans_of_irrefl _

theorem ends_iff_acyclic [Finite α] (det : Relator.RightUnique r) (a : α) :
    (∃ b, ReflTransGen r a b ∧ ∀ c, ¬ r b c) ↔ ∀ b, ReflTransGen r a b → ¬ TransGen r b b := by
  constructor
  · rintro ⟨b, hb, stop⟩ c hc
    exact not_transGen_self_of_end det hb stop hc
  · intro acyclic
    have hall : ∀ b, ReflTransGen r a b → ∃ c, ReflTransGen r a c ∧ ∀ d, ¬ r c d := by
      intro b
      induction b using (wellFounded_later acyclic).induction with
      | _ b ih =>
          intro hb
          by_cases hstop : ∃ c, r b c
          · obtain ⟨c, hbc⟩ := hstop
            exact ih c ⟨hb, .single hbc⟩ (hb.tail hbc)
          · exact ⟨b, hb, not_exists.mp hstop⟩
    exact hall a ReflTransGen.refl

end DordOs.Lib
