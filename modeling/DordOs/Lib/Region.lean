import DordOs.Lib.Bytes

/-!
A region of memory by offsets from its start: storing byte strings into it and reading
them back.
-/
namespace DordOs.Lib

abbrev Region := Nat → BitVec 8

namespace Region

/-- The bytes of `l` stored from offset `off` on. -/
def put (m : Region) (off : Nat) (l : Bytes) : Region := fun a =>
  if off ≤ a ∧ a < off + l.length then l.getD (a - off) 0 else m a

def get (m : Region) (off n : Nat) : Bytes := (List.range n).map fun k => m (off + k)

variable {m m' : Region} {off off' n : Nat} {l : Bytes}

@[simp] theorem length_get (m : Region) (off n : Nat) : (m.get off n).length = n := by
  rw [get, List.length_map, List.length_range]

theorem get_congr (h : ∀ k, k < n → m' (off' + k) = m (off + k)) :
    m'.get off' n = m.get off n :=
  List.map_congr_left fun k hk => h k (List.mem_range.mp hk)

theorem get_inj (h : m.get off n = m'.get off' n) (k : Nat) (hk : k < n) :
    m (off + k) = m' (off' + k) :=
  List.map_inj_left.mp h k (List.mem_range.mpr hk)

theorem get_add (m : Region) (off n n' : Nat) :
    m.get off (n + n') = m.get off n ++ m.get (off + n) n' := by
  rw [get, List.range_add, List.map_append, List.map_map]
  simp only [get, Function.comp_def, Nat.add_assoc]

theorem put_inside {k : Nat} (hk : k < l.length) : m.put off l (off + k) = l.getD k 0 := by
  rw [put, if_pos ⟨Nat.le_add_right _ _, Nat.add_lt_add_left hk _⟩, Nat.add_sub_cancel_left]

theorem put_outside {a : Nat} (h : a < off ∨ off + l.length ≤ a) : m.put off l a = m a := by
  rw [put, if_neg]
  omega

theorem put_singleton (m : Region) (off : Nat) (b : BitVec 8) (a : Nat) :
    m.put off [b] a = if a = off then b else m a := by
  split
  · rename_i heq
    subst heq
    exact put_inside (k := 0) Nat.zero_lt_one
  · rename_i hne
    refine put_outside ?_
    rw [List.length_singleton]
    omega

theorem get_put_self (m : Region) (off : Nat) (l : Bytes) : (m.put off l).get off l.length = l := by
  apply List.ext_getElem
  · exact length_get _ _ _
  · intro k hk hk'
    simp only [get]
    rw [List.getElem_map, List.getElem_range, put_inside hk', List.getD_eq_getElem?_getD,
      List.getElem?_eq_getElem hk', Option.getD_some]

theorem get_put_singleton (m : Region) (off n : Nat) (b : BitVec 8) :
    (m.put (off + n) [b]).get off (n + 1) = m.get off n ++ [b] := by
  rw [get_add, get_congr fun k hk => put_outside (.inl (Nat.add_lt_add_left hk off))]
  exact congrArg _ (get_put_self m (off + n) [b])

end Region

end DordOs.Lib
