import Mathlib.Data.List.Nodup
import Mathlib.Logic.Function.Basic

/-!
Intrusive singly linked lists. `Chain next stop p l` says that following `next`
from `p` visits exactly the nodes of `l` and then arrives at `stop`; a
null-terminated list is a chain that stops at `null`. A chain is determined by
its first pointer, so it never visits a node twice.
-/
namespace DordOs.Lib

variable {P : Type}

def Chain (next : P → P) (stop : P) : P → List P → Prop
  | p, [] => p = stop
  | p, x :: l => p = x ∧ x ≠ stop ∧ Chain next stop (next x) l

variable {next : P → P} {stop p : P} {l : List P}

@[simp] theorem chain_nil : Chain next stop p [] ↔ p = stop := Iff.rfl

@[simp] theorem chain_cons {x : P} :
    Chain next stop p (x :: l) ↔ p = x ∧ x ≠ stop ∧ Chain next stop (next x) l := Iff.rfl

instance Chain.decidable [DecidableEq P] (next : P → P) (stop : P) :
    (p : P) → (l : List P) → Decidable (Chain next stop p l)
  | p, [] => inferInstanceAs (Decidable (p = stop))
  | p, x :: l =>
      have := Chain.decidable next stop (next x) l
      inferInstanceAs (Decidable (p = x ∧ x ≠ stop ∧ Chain next stop (next x) l))

theorem Chain.ne_stop (h : Chain next stop p l) : ∀ x ∈ l, x ≠ stop := by
  induction l generalizing p with
  | nil => exact fun _ hx => absurd hx List.not_mem_nil
  | cons x l ih =>
      obtain ⟨_, hx, hl⟩ := h
      exact List.forall_mem_cons.mpr ⟨hx, ih hl⟩

theorem Chain.eq_nil_iff (h : Chain next stop p l) : l = [] ↔ p = stop := by
  cases l with
  | nil => exact iff_of_true rfl h
  | cons x l =>
      obtain ⟨rfl, hx, _⟩ := h
      exact iff_of_false (List.cons_ne_nil _ _) hx

theorem Chain.unique {l' : List P} (h : Chain next stop p l) (h' : Chain next stop p l') :
    l = l' := by
  induction l generalizing p l' with
  | nil => exact (h'.eq_nil_iff.mpr h).symm
  | cons x l ih =>
      obtain ⟨rfl, hx, hl⟩ := h
      cases l' with
      | nil => exact absurd h' hx
      | cons y l' =>
          obtain ⟨rfl, _, hl'⟩ := h'
          rw [ih hl hl']

theorem Chain.drop {a b : List P} {x : P} (h : Chain next stop p (a ++ x :: b)) :
    Chain next stop x (x :: b) := by
  induction a generalizing p with
  | nil =>
      obtain ⟨rfl, hx, hb⟩ := h
      exact ⟨rfl, hx, hb⟩
  | cons y a ih => exact ih h.2.2

theorem Chain.nodup (h : Chain next stop p l) : l.Nodup := by
  induction l generalizing p with
  | nil => exact List.nodup_nil
  | cons x l ih =>
      obtain ⟨rfl, hx, hl⟩ := h
      refine List.nodup_cons.mpr ⟨fun hmem => ?_, ih hl⟩
      obtain ⟨a, b, rfl⟩ := List.append_of_mem hmem
      have whole : Chain next stop p (p :: (a ++ p :: b)) := ⟨rfl, hx, hl⟩
      have heq := congrArg List.length (whole.unique hl.drop)
      simp only [List.length_cons, List.length_append] at heq
      omega

/-- Only the links of the visited nodes matter. -/
theorem Chain.congr {next' : P → P} (h : Chain next stop p l)
    (same : ∀ x ∈ l, next' x = next x) : Chain next' stop p l := by
  induction l generalizing p with
  | nil => exact h
  | cons x l ih =>
      obtain ⟨rfl, hx, hl⟩ := h
      obtain ⟨hxs, hls⟩ := List.forall_mem_cons.mp same
      refine ⟨rfl, hx, ?_⟩
      rw [hxs]
      exact ih hl hls

theorem Chain.update_of_notMem [DecidableEq P] {a : P} (b : P) (h : Chain next stop p l)
    (ha : a ∉ l) : Chain (Function.update next a b) stop p l :=
  h.congr fun x hx => Function.update_of_ne (fun (heq : x = a) => ha (heq ▸ hx)) b next

/-- A chain that stops at a node whose own link is `null` ends with that node. -/
theorem Chain.snoc {null c : P} (h : Chain next c p l) (hl : ∀ x ∈ l, x ≠ null) (hc : c ≠ null)
    (hend : next c = null) : Chain next null p (l ++ [c]) := by
  induction l generalizing p with
  | nil => exact ⟨h, hc, hend⟩
  | cons x l ih =>
      obtain ⟨rfl, _, hx⟩ := h
      obtain ⟨hxn, hln⟩ := List.forall_mem_cons.mp hl
      exact ⟨rfl, hxn, ih hx hln⟩

end DordOs.Lib
