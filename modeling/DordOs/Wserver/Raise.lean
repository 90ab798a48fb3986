import Mathlib.Data.List.Perm.Basic
import DordOs.Wserver.Window

/-!
Raising a window. The block move of `proc_wserver` goes upwards through windows
that overlap the ones it reads, so every window passed over becomes a copy of the
front one.
-/
namespace DordOs
open Lib

namespace Wserver

theorem raise_eq_some (w : WinArray) {i : Nat} (hi : i < 16) :
    ∃ w', raise w i = some w' ∧
      ∀ k (hk : k < 16), w'[k] = if k = 0 then w[i] else if k ≤ i then w[0] else w[k] := by
  have hcount : (BitVec.ofNat 32 (i * Win.size)).toNat = Win.size * i := by
    rw [BitVec.toNat_ofNat, Nat.mul_comm]
    exact Nat.mod_eq_of_lt (by simp only [Win.size]; omega)
  have hlen := length_winBytes w
  simp only [Win.size] at hcount hlen
  obtain ⟨mem, hmem, -, hcell⟩ := @mmove_eq_some _ (winBytes w) 28 0 (28 * i) (by omega) (by omega)
  refine ⟨(winsOfBytes mem).set 0 w[i], ?_, fun k hk => ?_⟩
  · simp only [raise, mmove8, Win.size]
    rw [hcount, hmem, Vector.getElem?_eq_getElem hi]
    rfl
  · rw [Vector.getElem_set]
    by_cases hzero : k = 0
    · rw [if_pos hzero, if_pos hzero.symm]
    rw [if_neg hzero, if_neg (Ne.symm hzero)]
    by_cases hle : k ≤ i
    · rw [if_pos hle]
      refine getElem_winsOfBytes hk (by decide) fun r hr => ?_
      simp only [Win.size] at hr ⊢
      -- byte `28 * k + r` is copied from byte `r`, the distance being one window
      have hsource : moveSource 28 0 (28 * k + r - 28) = 28 * 0 + r := by
        rw [moveSource, if_pos (by decide)]
        omega
      rw [hcell, if_pos (by omega), hsource]
    · rw [if_neg hle]
      refine getElem_winsOfBytes hk hk fun r hr => ?_
      simp only [Win.size]
      rw [hcell, if_neg (by omega)]

/-- Window `i` is the first one under the mouse. -/
structure FirstUnder (s : Wserver) (m : Mouse) (i : Nat) : Prop where
  inStack : i < s.winCount.toNat
  noneBefore : s.NoneUnder m i
  hit : ∀ hi : i < 16, rectContains (s.follow m s.w[i]).bounds m.x m.y = true

instance (s : Wserver) (m : Mouse) (n : Nat) : Decidable (s.NoneUnder m n) :=
  decidable_of_iff
    (∀ k : Fin 16, k.val < n → rectContains (s.follow m s.w[k.val]).bounds m.x m.y = false)
    ⟨fun h k hk => h ⟨k, hk⟩, fun h k => h k.val k.isLt⟩

/-- The stack the hit-test loop has in front of it when it reaches window `i`. -/
def reached (s : Wserver) (m : Mouse) (i : Nat) : List Win :=
  { s with w := s.followed m (i + 1) }.stack

/-- Window `i` in front, the others behind it in their order. -/
def RaisedTo (s : Wserver) (m : Mouse) (i : Nat) (t : Wserver) : Prop :=
  ∃ win, (s.reached m i)[i]? = some win ∧ t.stack = win :: (s.reached m i).eraseIdx i

theorem getElem?_stack {s : Wserver} (k : Nat) :
    s.stack[k]? = if k < s.winCount.toNat then s.w[k]? else none := by
  rw [stack, List.getElem?_take, Vector.getElem?_toList]

theorem RaisedTo.perm {s t : Wserver} {m : Mouse} {i : Nat} (h : s.RaisedTo m i t) :
    t.stack.Perm (s.reached m i) := by
  obtain ⟨win, hwin, hstack⟩ := h
  obtain ⟨hlt, hget⟩ := List.getElem?_eq_some_iff.mp hwin
  rw [hstack, ← hget]
  exact List.getElem_cons_eraseIdx_perm hlt

theorem getElem?_reached {s : Wserver} {m : Mouse} (i k : Nat) :
    (s.reached m i)[k]? = if k < s.winCount.toNat then (s.followed m (i + 1))[k]? else none :=
  @getElem?_stack { s with w := s.followed m (i + 1) } k

/-- The windows the loop has passed, each moved along if it is dragged. -/
theorem take_reached (s : Wserver) (m : Mouse) (i : Nat) :
    (s.reached m i).take i = (s.stack.take i).map (s.follow m) := by
  apply List.ext_getElem?
  intro k
  rw [List.getElem?_map, List.getElem?_take, List.getElem?_take, getElem?_reached, getElem?_stack]
  by_cases hi : k < i
  · rw [if_pos hi, if_pos hi]
    split
    next =>
      rw [followed, Vector.getElem?_mapIdx]
      apply congrArg (Option.map · s.w[k]?)
      funext win
      exact if_pos (Nat.lt_succ_of_lt hi)
    next => rfl
  · rw [if_neg hi, if_neg hi, Option.map_none]

theorem getElem?_cons_eraseIdx {α : Type} {l : List α} {i : Nat} {x : α} (hx : l[i]? = some x)
    (k : Nat) :
    (x :: l.eraseIdx i)[k]? = if k = 0 then l[i]? else if k ≤ i then l[k - 1]? else l[k]? := by
  cases k with
  | zero => rw [if_pos rfl, hx, List.getElem?_cons_zero]
  | succ k =>
      rw [if_neg (Nat.succ_ne_zero k), List.getElem?_cons_succ, List.getElem?_eraseIdx,
        Nat.add_sub_cancel]
      rfl

/-- The upward byte copy over the first `i` windows leaves the order that raising
window `i` should give only when these windows are all the same. -/
theorem copied_eq_raised_iff {α : Type} {l t : List α} {i : Nat} {x : α} (hx : l[i]? = some x)
    (ht : ∀ k : Nat, t[k]? = if k = 0 then l[i]? else if k ≤ i then l[0]? else l[k]?) :
    t = x :: l.eraseIdx i ↔ ∀ a ∈ l.take i, ∀ b ∈ l.take i, a = b := by
  constructor
  · intro heq
    -- position `k + 1` holds a copy of the front window and should hold window `k`
    have hcopy : ∀ k, k < i → l[k]? = l[0]? := by
      intro k hk
      have h := ht (k + 1)
      rw [heq, getElem?_cons_eraseIdx hx, if_neg (Nat.succ_ne_zero k),
        if_neg (Nat.succ_ne_zero k), if_pos (by omega), if_pos (by omega)] at h
      exact h
    have hsame : ∀ a ∈ l.take i, some a = l[0]? := by
      intro a ha
      obtain ⟨k, hk⟩ := List.mem_iff_getElem?.mp ha
      rw [List.getElem?_take] at hk
      split at hk
      next hlt => rw [← hcopy k hlt, hk]
      next => exact nomatch hk
    intro a ha b hb
    exact Option.some.inj ((hsame a ha).trans (hsame b hb).symm)
  · intro hsame
    obtain ⟨hi, -⟩ := List.getElem?_eq_some_iff.mp hx
    have hfront (j : Nat) (hj : j < i) : ∃ a ∈ l.take i, l[j]? = some a := by
      have hget := List.getElem?_eq_getElem (Nat.lt_trans hj hi)
      refine ⟨_, List.mem_iff_getElem?.mpr ⟨j, ?_⟩, hget⟩
      rw [List.getElem?_take, if_pos hj, hget]
    apply List.ext_getElem?
    intro k
    rw [ht, getElem?_cons_eraseIdx hx]
    split
    next => rfl
    next hzero =>
      split
      next hle =>
        obtain ⟨a, hamem, ha⟩ := hfront 0 (by omega)
        obtain ⟨b, hbmem, hb⟩ := hfront (k - 1) (by omega)
        rw [ha, hb, hsame a hamem b hbmem]
      next => rfl

theorem hitTest_stack {s : Wserver} {m : Mouse} {i : Nat} (hcount : s.winCount.toNat ≤ 16)
    (hleft : m.left = true) (hfirst : s.FirstUnder m i) :
    ∃ t, hitTest m s = some t ∧ ∀ k, t.stack[k]? =
      if k = 0 then (s.reached m i)[i]? else if k ≤ i then (s.reached m i)[0]?
      else (s.reached m i)[k]? := by
  have hin := hfirst.inStack
  have hlt : i < 16 := by omega
  obtain ⟨w', hraise, hcell⟩ := raise_eq_some (s.followed m (i + 1)) hlt
  refine ⟨{ s with w := w', focus := 0 }, ?_, fun k => ?_⟩
  · rw [hitTest_of_first hcount hin hlt hfirst.noneBefore (hfirst.hit hlt), if_pos hleft, hraise]
    rfl
  · rw [@getElem?_stack { s with w := w', focus := 0 }, getElem?_reached, getElem?_reached,
      getElem?_reached]
    by_cases hk : k < s.winCount.toNat
    · have hk16 : k < 16 := by omega
      have hpos : 0 < s.winCount.toNat := by omega
      rw [if_pos hk, Vector.getElem?_eq_getElem hk16, hcell k hk16, if_pos hin, if_pos hk,
        if_pos hpos, Vector.getElem?_eq_getElem hlt, Vector.getElem?_eq_getElem hk16,
        Vector.getElem?_eq_getElem (Nat.zero_lt_succ 15)]
      split
      next => rfl
      next => split <;> rfl
    · rw [if_neg hk, if_neg hk, if_neg (by omega), if_neg (by omega)]

theorem hitTest_raises_iff {s : Wserver} {m : Mouse} {i : Nat} (hcount : s.winCount.toNat ≤ 16)
    (hleft : m.left = true) (hfirst : s.FirstUnder m i) :
    (∃ t, hitTest m s = some t ∧ s.RaisedTo m i t ∧ t.stack.Perm (s.reached m i)) ↔
      ∀ a ∈ s.stack.take i, ∀ b ∈ s.stack.take i, s.follow m a = s.follow m b := by
  have hmoved : (∀ a ∈ s.stack.take i, ∀ b ∈ s.stack.take i, s.follow m a = s.follow m b) ↔
      ∀ a ∈ (s.reached m i).take i, ∀ b ∈ (s.reached m i).take i, a = b := by
    rw [take_reached]
    simp only [List.forall_mem_map]
  rw [hmoved]
  have hin := hfirst.inStack
  obtain ⟨t, ht, hstack⟩ := hitTest_stack hcount hleft hfirst
  obtain ⟨win, hwin⟩ : ∃ win, (s.reached m i)[i]? = some win := by
    rw [getElem?_reached, if_pos hin]
    exact ⟨_, Vector.getElem?_eq_getElem (by omega)⟩
  constructor
  · rintro ⟨t', ht', ⟨win', hwin', heq⟩, -⟩
    obtain rfl := Option.some.inj (ht.symm.trans ht')
    exact (copied_eq_raised_iff hwin' hstack).mp heq
  · intro hsame
    have hraised : s.RaisedTo m i t := ⟨win, hwin, (copied_eq_raised_iff hwin hstack).mpr hsame⟩
    exact ⟨t, ht, hraised, hraised.perm⟩

/-- Three windows of one size, side by side; the mouse over the last one. -/
def sideBySide : Wserver where
  w := Vector.ofFn fun k => ⟨⟨BitVec.ofNat 32 (200 * k.val), 0, 100, 100⟩, 0, 0, 0⟩
  winCount := 3
  focus := 0
  dragX := 0
  dragY := 0
  dragWx := 0
  dragWy := 0

theorem sideBySide_raises_second :
    ∃ t, hitTest ⟨250, 50, true⟩ sideBySide = some t ∧ sideBySide.RaisedTo ⟨250, 50, true⟩ 1 t ∧
      t.stack.Perm (sideBySide.reached ⟨250, 50, true⟩ 1) :=
  (hitTest_raises_iff (by decide) rfl
    ⟨by decide, by decide, by decide⟩).mpr (by decide)

/-- Raising the last of three windows loses the middle one. -/
theorem sideBySide_loses_second :
    ¬ ∀ (s : Wserver) (m : Mouse) (i : Nat), s.winCount.toNat ≤ 16 → m.left = true →
      s.FirstUnder m i →
      ∃ t, hitTest m s = some t ∧ s.RaisedTo m i t ∧ t.stack.Perm (s.reached m i) := by
  intro h
  obtain ⟨t, ht, ⟨win, hwin, hstack⟩, -⟩ := h sideBySide ⟨450, 50, true⟩ 2 (by decide) rfl
    ⟨by decide, by decide +kernel, by decide +kernel⟩
  have hrun : ((hitTest ⟨450, 50, true⟩ sideBySide).bind fun t => t.stack[2]?) ≠
      (sideBySide.reached ⟨450, 50, true⟩ 2)[1]? := by decide +kernel
  apply hrun
  rw [ht, Option.bind_some, hstack, getElem?_cons_eraseIdx hwin]
  rfl

end Wserver

end DordOs
