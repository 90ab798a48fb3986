import DordOs.Lib.Loop

/-!
Counting loops whose body may return from the function around them: the value is that of
the first pass which returns.
-/
namespace DordOs.Lib

variable {α β γ : Type} {w : Nat}

/-- `for (i = lo; i < hi; ++i)` around a body that may return. -/
def firstUp (lo hi : BitVec w) (body : BitVec w → Option β) : Option β :=
  go (hi.toNat - lo.toNat) lo
where
  go : Nat → BitVec w → Option β
    | 0, _ => none
    | n + 1, i =>
        match body i with
        | some b => some b
        | none => go n (i + 1)

theorem firstUp_zero_eq_findSome (hi : BitVec w) (body : BitVec w → Option β) :
    firstUp 0 hi body = (List.range hi.toNat).findSome? fun i => body (BitVec.ofNat w i) := by
  have hgo (n i : Nat) : firstUp.go body n (BitVec.ofNat w i) =
      (List.range' i n).findSome? fun i => body (BitVec.ofNat w i) := by
    induction n generalizing i with
    | zero => rfl
    | succ n ih =>
        have hsucc : BitVec.ofNat w i + 1 = BitVec.ofNat w (i + 1) := (BitVec.ofNat_add i 1).symm
        rw [firstUp.go, hsucc, ih, List.range'_succ, List.findSome?_cons]
        cases body (BitVec.ofNat w i) <;> rfl
  rw [List.range_eq_range']
  exact hgo hi.toNat 0

theorem findSome?_flatMap (g : α → List β) (f : β → Option γ) (l : List α) :
    (l.flatMap g).findSome? f = l.findSome? fun a => (g a).findSome? f := by
  induction l with
  | nil => rfl
  | cons a l ih =>
      rw [List.flatMap_cons, List.findSome?_append, ih, List.findSome?_cons]
      cases (g a).findSome? f <;> rfl

theorem findSome?_product (f : α × β → Option γ) (l : List α) (l' : List β) :
    (l ×ˢ l').findSome? f = l.findSome? fun a => l'.findSome? fun b => f (a, b) := by
  simp only [SProd.sprod, List.product]
  rw [findSome?_flatMap]
  congr
  funext a
  exact List.findSome?_map

/-- A search among what is left of a list is one among all, if the others give nothing. -/
theorem findSome?_filter {p : α → Bool} {f : α → Option β} {l : List α}
    (h : ∀ a ∈ l, p a = false → f a = none) : (l.filter p).findSome? f = l.findSome? f := by
  induction l with
  | nil => rfl
  | cons a l ih =>
      have hrest := ih fun b hb => h b (List.mem_cons_of_mem _ hb)
      rw [List.filter_cons, List.findSome?_cons]
      split
      next => rw [List.findSome?_cons, hrest]
      next hp =>
        rw [h a List.mem_cons_self (Bool.eq_false_iff.mpr hp)]
        exact hrest

theorem findSome?_congr {f g : α → Option β} {l : List α} (h : ∀ a ∈ l, f a = g a) :
    l.findSome? f = l.findSome? g := by
  induction l with
  | nil => rfl
  | cons a l ih =>
      rw [List.findSome?_cons, List.findSome?_cons, h a List.mem_cons_self,
        ih fun b hb => h b (List.mem_cons_of_mem _ hb)]

theorem findSome?_ite (p : α → Prop) [DecidablePred p] (f : α → β) (l : List α) :
    (l.findSome? fun a => if p a then some (f a) else none) =
      (l.find? fun a => p a).map f := by
  induction l with
  | nil => rfl
  | cons a l ih =>
      rw [List.findSome?_cons, List.find?_cons]
      by_cases hp : p a
      · rw [if_pos hp, decide_eq_true hp]
        rfl
      · rw [if_neg hp, decide_eq_false hp]
        exact ih

end DordOs.Lib
