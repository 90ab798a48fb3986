import DordOs.Wserver.Raise

/-!
Dragging. While the left button is held over its header the front window is the
only dragged one; the point where it was gripped stays inside the header, so the
hit-test loop finds it first in every later frame.
-/
namespace DordOs
open Lib

/-- The sums of `rect_contains`, in the order in which its `&&` reaches them. -/
def Rect.ContainsFits (r : Rect) (x y : I32) : Prop :=
  (r.x.toInt ≤ x.toInt → ¬ r.x.saddOverflow r.w) ∧
  (r.x.toInt ≤ x.toInt → x.toInt < (r.x + r.w).toInt → r.y.toInt ≤ y.toInt →
    ¬ r.y.saddOverflow r.h)

/-- The sums of the header rectangle. -/
def Win.HeaderFits (win : Win) : Prop :=
  ¬ win.r.x.ssubOverflow 1 ∧ ¬ win.r.y.ssubOverflow 20 ∧ ¬ win.r.w.saddOverflow 2

def Win.BoundsFit (win : Win) : Prop :=
  win.HeaderFits ∧ ¬ BitVec.saddOverflow 20 win.r.h ∧ ¬ (20 + win.r.h).saddOverflow 2

instance (r : Rect) (x y : I32) : Decidable (r.ContainsFits x y) :=
  inferInstanceAs (Decidable (_ ∧ _))

instance (win : Win) : Decidable win.HeaderFits := inferInstanceAs (Decidable (_ ∧ _))

instance (win : Win) : Decidable win.BoundsFit := inferInstanceAs (Decidable (_ ∧ _))

theorem rectContains_iff {r : Rect} {x y : I32} (h : r.ContainsFits x y) :
    rectContains r x y = true ↔
      (r.x.toInt ≤ x.toInt ∧ x.toInt < r.x.toInt + r.w.toInt) ∧
        r.y.toInt ≤ y.toInt ∧ y.toInt < r.y.toInt + r.h.toInt := by
  simp only [rectContains, Bool.and_eq_true, decide_eq_true_eq]
  by_cases hx : r.x.toInt ≤ x.toInt
  · rw [BitVec.toInt_add_of_not_saddOverflow (h.1 hx)]
    by_cases hw : x.toInt < r.x.toInt + r.w.toInt
    · by_cases hy : r.y.toInt ≤ y.toInt
      · have hxw : x.toInt < (r.x + r.w).toInt := by
          rw [BitVec.toInt_add_of_not_saddOverflow (h.1 hx)]
          exact hw
        rw [BitVec.toInt_add_of_not_saddOverflow (h.2 hx hxw hy)]
      · simp only [hy, false_and, and_false]
    · simp only [hw, and_false, false_and]
  · simp only [hx, false_and]

namespace Wserver

/-- The sums that move a dragged window. -/
def FollowFits (s : Wserver) (m : Mouse) : Prop :=
  ¬ m.x.ssubOverflow s.dragX ∧ ¬ s.dragWx.saddOverflow (m.x - s.dragX) ∧
  ¬ m.y.ssubOverflow s.dragY ∧ ¬ s.dragWy.saddOverflow (m.y - s.dragY)

instance (s : Wserver) (m : Mouse) : Decidable (s.FollowFits m) :=
  inferInstanceAs (Decidable (_ ∧ _))

/-- No sum that decides the course of the frame overflows: those of the windows
the hit-test loop looks at, and those of the header that is tested for a grip. -/
def NoOverflow (m : Mouse) (s : Wserver) : Prop :=
  (∀ k, k < s.winCount.toNat → s.NoneUnder m k → ∀ win ∈ s.w[k]?,
    (win.dragged ≠ 0 → s.FollowFits m) ∧ (s.follow m win).BoundsFit ∧
      (s.follow m win).bounds.ContainsFits m.x m.y) ∧
  (∀ t ∈ hitTest m s, ∀ win ∈ t.w[t.focus.toNat]?, t.focus.toNat < t.winCount.toNat →
    win.HeaderFits ∧ win.header.ContainsFits m.x m.y)

instance (m : Mouse) (s : Wserver) : Decidable (NoOverflow m s) :=
  inferInstanceAs (Decidable (_ ∧ _))

/-- The frames for a list of snapshots: each with the state it leaves. -/
def frames (s : Wserver) : List Mouse → Option (List (Mouse × Wserver))
  | [] => some []
  | m :: ms => do
      let t ← frame m s
      let later ← frames t ms
      return (m, t) :: later

def NoOverflowIn (s : Wserver) : List Mouse → Prop
  | [] => True
  | m :: ms => NoOverflow m s ∧ ∀ t ∈ frame m s, NoOverflowIn t ms

instance decidableNoOverflowIn : (s : Wserver) → (ms : List Mouse) → Decidable (s.NoOverflowIn ms)
  | _, [] => isTrue trivial
  | s, m :: ms =>
      have (t : Wserver) : Decidable (t.NoOverflowIn ms) := decidableNoOverflowIn t ms
      inferInstanceAs (Decidable (NoOverflow m s ∧ ∀ t ∈ frame m s, NoOverflowIn t ms))

/-- The front window is being dragged. -/
def Dragging (s : Wserver) : Prop := ∃ front ∈ s.stack[0]?, front.dragged ≠ 0

/-- Where the front window is, seen from the mouse. -/
def offset (s : Wserver) (m : Mouse) : Int × Int :=
  (s.w[0].r.x.toInt - m.x.toInt, s.w[0].r.y.toInt - m.y.toInt)

/-- Where the front window was when the drag began, seen from the mouse. -/
def grip (s : Wserver) : Int × Int :=
  (s.dragWx.toInt - s.dragX.toInt, s.dragWy.toInt - s.dragY.toInt)

/-- The mouse was in the front window's header when the drag began. -/
def Gripped (s : Wserver) : Prop :=
  (s.dragWx.toInt - 1 ≤ s.dragX.toInt ∧ s.dragX.toInt < s.dragWx.toInt + 1 + s.w[0].r.w.toInt) ∧
  (s.dragWy.toInt - 20 ≤ s.dragY.toInt ∧ s.dragY.toInt < s.dragWy.toInt)

/-- What holds between the frames. -/
structure Steady (s : Wserver) : Prop where
  count : s.winCount.toNat ≤ 16
  sized : ∀ k (hk : k < 16), k < s.winCount.toNat →
    0 ≤ s.w[k].r.w.toInt ∧ 0 ≤ s.w[k].r.h.toInt
  onlyFront : ∀ k (hk : k < 16), k < s.winCount.toNat → s.w[k].dragged ≠ 0 → k = 0
  gripped : 0 < s.winCount.toNat → s.w[0].dragged ≠ 0 → s.Gripped

/-- The front window is where the cursor has taken it. -/
def OnCursor (s : Wserver) (m : Mouse) : Prop :=
  s.w[0].r.x.toInt = s.dragWx.toInt + (m.x.toInt - s.dragX.toInt) ∧
  s.w[0].r.y.toInt = s.dragWy.toInt + (m.y.toInt - s.dragY.toInt)

variable {s : Wserver} {m : Mouse}

theorem dragging_iff : s.Dragging ↔ 0 < s.winCount.toNat ∧ s.w[0].dragged ≠ 0 := by
  simp only [Dragging, stack]
  rw [List.getElem?_take]
  split
  next h =>
    rw [Vector.getElem?_toList, Vector.getElem?_eq_getElem (by decide)]
    simp [h]
  next h => simp [h]

theorem OnCursor.offset_eq (h : s.OnCursor m) : s.offset m = s.grip := by
  obtain ⟨hx, hy⟩ := h
  simp only [offset, grip, hx, hy]
  rw [Prod.mk.injEq]
  constructor <;> omega

/-- The corner and the width of the frame around a window. -/
theorem header_toInt {win : Win} (hfit : win.HeaderFits) :
    (win.r.x - 1).toInt = win.r.x.toInt - 1 ∧ (win.r.y - 20).toInt = win.r.y.toInt - 20 ∧
      (win.r.w + 2).toInt = win.r.w.toInt + 2 := by
  obtain ⟨hx, hy, hw⟩ := hfit
  exact ⟨BitVec.toInt_sub_of_not_ssubOverflow hx, BitVec.toInt_sub_of_not_ssubOverflow hy,
    BitVec.toInt_add_of_not_saddOverflow hw⟩

theorem header_contains_iff {win : Win} (hfit : win.HeaderFits)
    (hc : win.header.ContainsFits m.x m.y) :
    rectContains win.header m.x m.y = true ↔
      (win.r.x.toInt - 1 ≤ m.x.toInt ∧ m.x.toInt < win.r.x.toInt + 1 + win.r.w.toInt) ∧
        win.r.y.toInt - 20 ≤ m.y.toInt ∧ m.y.toInt < win.r.y.toInt := by
  obtain ⟨hx, hy, hw⟩ := header_toInt hfit
  have htwenty : (20 : I32).toInt = 20 := by decide
  rw [rectContains_iff hc]
  simp only [Win.header]
  rw [hx, hy, hw, htwenty]
  omega

theorem bounds_contains_iff {win : Win} (hfit : win.BoundsFit)
    (hc : win.bounds.ContainsFits m.x m.y) :
    rectContains win.bounds m.x m.y = true ↔
      (win.r.x.toInt - 1 ≤ m.x.toInt ∧ m.x.toInt < win.r.x.toInt + 1 + win.r.w.toInt) ∧
        win.r.y.toInt - 20 ≤ m.y.toInt ∧ m.y.toInt < win.r.y.toInt + 2 + win.r.h.toInt := by
  obtain ⟨hheader, hh, hhh⟩ := hfit
  obtain ⟨hx, hy, hw⟩ := header_toInt hheader
  have htwo : (2 : I32).toInt = 2 := by decide
  have htwenty : (20 : I32).toInt = 20 := by decide
  rw [rectContains_iff hc]
  simp only [Win.bounds]
  rw [hx, hy, hw, BitVec.toInt_add_of_not_saddOverflow hhh,
    BitVec.toInt_add_of_not_saddOverflow hh, htwo, htwenty]
  omega

/-- A window whose header is under the mouse is under the mouse. -/
theorem bounds_of_header {win : Win} (hsize : 0 ≤ win.r.h.toInt) (hfit : win.BoundsFit)
    (hb : win.bounds.ContainsFits m.x m.y) (hh : win.header.ContainsFits m.x m.y)
    (h : rectContains win.header m.x m.y = true) : rectContains win.bounds m.x m.y = true := by
  obtain ⟨hx, hylo, hyhi⟩ := (header_contains_iff hfit.1 hh).mp h
  exact (bounds_contains_iff hfit hb).mpr ⟨hx, hylo, by omega⟩

theorem follow_of_undragged {win : Win} (h : win.dragged = 0) : s.follow m win = win := by
  rw [follow, if_neg (not_not.mpr h)]

theorem followed_of_undragged {n : Nat}
    (h : ∀ k (hk : k < 16), k < n → s.w[k].dragged = 0) : s.followed m n = s.w := by
  apply Vector.ext
  intro k hk
  rw [getElem_followed]
  split
  next hlt => exact follow_of_undragged (h k hk hlt)
  next => rfl

theorem follow_of_dragged {win : Win} (h : win.dragged ≠ 0) (hfit : s.FollowFits m) :
    (s.follow m win).r.x.toInt = s.dragWx.toInt + (m.x.toInt - s.dragX.toInt) ∧
    (s.follow m win).r.y.toInt = s.dragWy.toInt + (m.y.toInt - s.dragY.toInt) := by
  obtain ⟨hx, hwx, hy, hwy⟩ := hfit
  rw [follow, if_pos h]
  exact ⟨(BitVec.toInt_add_of_not_saddOverflow hwx).trans
      (congrArg _ (BitVec.toInt_sub_of_not_ssubOverflow hx)),
    (BitVec.toInt_add_of_not_saddOverflow hwy).trans
      (congrArg _ (BitVec.toInt_sub_of_not_ssubOverflow hy))⟩

@[simp] theorem follow_w (s : Wserver) (m : Mouse) (win : Win) :
    (s.follow m win).r.w = win.r.w := by
  simp only [follow]
  split <;> rfl

@[simp] theorem follow_h (s : Wserver) (m : Mouse) (win : Win) :
    (s.follow m win).r.h = win.r.h := by
  simp only [follow]
  split <;> rfl

@[simp] theorem follow_dragged (s : Wserver) (m : Mouse) (win : Win) :
    (s.follow m win).dragged = win.dragged := by
  simp only [follow]
  split <;> rfl

theorem grab_of_ne {i : Nat} (hi : i < 16) (h : s.focus.toNat ≠ i) : grab m i s = some s := by
  have hne : BitVec.ofNat 32 i ≠ s.focus := by
    intro heq
    apply h
    rw [← heq, BitVec.toNat_ofNat]
    exact Nat.mod_eq_of_lt (by omega)
  simp only [grab, Vector.getElem?_eq_getElem hi,
    Vector.getElem?_eq_getElem (show 0 < 16 by decide), Option.bind_eq_bind, Option.bind_some]
  exact if_neg hne

theorem grab_focus {i : Nat} (hi : i < 16) (h : s.focus.toNat = i) :
    grab m i s = some
      (if rectContains s.w[i].header m.x m.y && m.left && decide (s.w[0].dragged = 0) then
        { s with w := s.w.set i { s.w[i] with dragged := 1 }, dragX := m.x, dragY := m.y,
                 dragWx := s.w[i].r.x, dragWy := s.w[i].r.y }
      else if !m.left then { s with w := s.w.set i { s.w[i] with dragged := 0 } } else s) := by
  have heq : BitVec.ofNat 32 i = s.focus := by
    rw [← h, BitVec.ofNat_toNat, BitVec.setWidth_eq]
  simp only [grab, Vector.getElem?_eq_getElem hi,
    Vector.getElem?_eq_getElem (show 0 < 16 by decide), Option.bind_eq_bind, Option.bind_some,
    storeWin_of_lt hi]
  rw [if_pos heq]
  split
  next => rfl
  next => split <;> rfl

/-- Of all the windows drawn, only the one with the focus matters. -/
theorem drawFrom_eq {n : Nat} (hn : n ≤ 16) :
    drawFrom m n s = if s.focus.toNat < n then grab m s.focus.toNat s else some s := by
  induction n generalizing s with
  | zero => rfl
  | succ n ih =>
      rw [drawFrom, Option.bind_eq_bind]
      by_cases h : s.focus.toNat = n
      · rw [if_pos (by omega), h]
        rw [grab_focus (by omega) h, Option.bind_some, ih (by omega)]
        apply if_neg
        split
        next => exact Nat.not_lt.mpr (Nat.le_of_eq h.symm)
        next => split <;> exact Nat.not_lt.mpr (Nat.le_of_eq h.symm)
      · rw [grab_of_ne (by omega) h, Option.bind_some, ih (by omega)]
        by_cases hlt : s.focus.toNat < n
        · rw [if_pos hlt, if_pos (by omega)]
        · rw [if_neg hlt, if_neg (by omega)]

theorem draw_eq (hcount : s.winCount.toNat ≤ 16) :
    draw m s =
      if s.focus.toNat < s.winCount.toNat then grab m s.focus.toNat s else some s := by
  have hlast : ((s.winCount - 1).toInt + 1).toNat = s.winCount.toNat := by
    have hone : (1 : Usz).toNat = 1 := rfl
    rw [BitVec.toInt_eq_toNat_cond, BitVec.toNat_sub, hone]
    split <;> omega
  rw [draw, hlast]
  exact drawFrom_eq hcount

theorem draw_focus {i : Nat} (hcount : s.winCount.toNat ≤ 16) (hi : i < 16)
    (hfocus : s.focus.toNat = i) (hlt : i < s.winCount.toNat) :
    draw m s = some
      (if rectContains s.w[i].header m.x m.y && m.left && decide (s.w[0].dragged = 0) then
        { s with w := s.w.set i { s.w[i] with dragged := 1 }, dragX := m.x, dragY := m.y,
                 dragWx := s.w[i].r.x, dragWy := s.w[i].r.y }
      else if !m.left then { s with w := s.w.set i { s.w[i] with dragged := 0 } } else s) := by
  rw [draw_eq hcount, hfocus, if_pos hlt, grab_focus hi hfocus]

/-- The state after the hit-test loop, when the front window is being dragged: the
loop stops there, and raising the front window changes nothing. -/
theorem hitTest_of_dragging (hs : s.Steady) (hdrag : s.Dragging) (hfit : NoOverflow m s) :
    hitTest m s = some { s with w := s.w.set 0 (s.follow m s.w[0]), focus := 0 } := by
  obtain ⟨hpos, hd⟩ := dragging_iff.mp hdrag
  obtain ⟨hmove, hbounds, hcontains⟩ := hfit.1 0 hpos
    (fun k _ hk => absurd hk (Nat.not_lt_zero k)) s.w[0] rfl
  obtain ⟨hx, hy⟩ := follow_of_dragged hd (hmove hd)
  obtain ⟨⟨hxlo, hxhi⟩, hylo, hyhi⟩ := hs.gripped hpos hd
  have hsize := (hs.sized 0 (by decide) hpos).2
  have hit : rectContains (s.follow m s.w[0]).bounds m.x m.y = true := by
    rw [bounds_contains_iff hbounds hcontains, hx, hy, follow_w, follow_h]
    omega
  have hfollowed : s.followed m 1 = s.w.set 0 (s.follow m s.w[0]) := by
    rw [← followed_succ s m (by decide), followed_zero]
  rw [hitTest_of_first hs.count hpos (by decide)
    (fun k _ hk => absurd hk (Nat.not_lt_zero k)) hit, hfollowed]
  obtain ⟨w', hraise, hcell⟩ :=
    raise_eq_some (s.w.set 0 (s.follow m s.w[0])) (show 0 < 16 by decide)
  have hsame : w' = s.w.set 0 (s.follow m s.w[0]) := by
    apply Vector.ext
    intro k hk
    rw [hcell k hk]
    by_cases hzero : k = 0
    · rw [if_pos hzero]
      simp only [hzero]
    · rw [if_neg hzero, if_neg (by omega)]
  rw [hraise, hsame]
  split <;> rfl

theorem frame_of_dragging (hs : s.Steady) (hdrag : s.Dragging) (hfit : NoOverflow m s) :
    frame m s = some
      { s with w := s.w.set 0 { s.follow m s.w[0] with
                  dragged := if m.left then s.w[0].dragged else 0 },
               focus := 0 } := by
  obtain ⟨hpos, hd⟩ := dragging_iff.mp hdrag
  rw [frame, hitTest_of_dragging hs hdrag hfit, Option.bind_eq_bind, Option.bind_some,
    @draw_focus { s with w := s.w.set 0 (s.follow m s.w[0]), focus := 0 } m 0 hs.count
      (by decide) rfl hpos]
  have hfront : (s.w.set 0 (s.follow m s.w[0]))[0] = s.follow m s.w[0] := Vector.getElem_set_self ..
  simp only [hfront, follow_dragged, hd, decide_false, Bool.and_false]
  rw [if_neg Bool.false_ne_true]
  cases m.left with
  | true =>
      have hkeep : { s.follow m s.w[0] with dragged := s.w[0].dragged } = s.follow m s.w[0] := by
        rw [← follow_dragged s m s.w[0]]
      simp only [Bool.not_true, if_true, hkeep]
      rfl
  | false =>
      simp only [Bool.not_false, if_true, Vector.set_set]
      rfl

/-- No window is being dragged. -/
structure Idle (s : Wserver) : Prop where
  count : s.winCount.toNat ≤ 16
  sized : ∀ k (hk : k < 16), k < s.winCount.toNat →
    0 ≤ s.w[k].r.w.toInt ∧ 0 ≤ s.w[k].r.h.toInt
  undragged : ∀ k (hk : k < 16), k < s.winCount.toNat → s.w[k].dragged = 0

theorem Steady.idle (hs : s.Steady) (h : ¬ s.Dragging) : s.Idle := by
  refine ⟨hs.count, hs.sized, fun k hk hlt => ?_⟩
  by_contra hd
  obtain rfl := hs.onlyFront k hk hlt hd
  exact h (dragging_iff.mpr ⟨hlt, hd⟩)

theorem Idle.not_dragging (hs : s.Idle) : ¬ s.Dragging := by
  intro h
  obtain ⟨hpos, hd⟩ := dragging_iff.mp h
  exact hd (hs.undragged 0 (by decide) hpos)

theorem Idle.steady (hs : s.Idle) : s.Steady := by
  refine ⟨hs.count, hs.sized, ?_, ?_⟩
  · intro k hk hlt hd
    exact absurd (hs.undragged k hk hlt) hd
  · intro hpos hd
    exact absurd (hs.undragged 0 (by decide) hpos) hd

/-- Windows of an idle state in another order. -/
theorem Idle.of_windows {t : Wserver} (hs : s.Idle) (hcount : t.winCount = s.winCount)
    (h : ∀ k (hk : k < 16), k < s.winCount.toNat →
      ∃ j, ∃ hj : j < 16, j < s.winCount.toNat ∧ t.w[k] = s.w[j]) : t.Idle := by
  refine ⟨hcount ▸ hs.count, fun k hk hkn => ?_, fun k hk hkn => ?_⟩
  · obtain ⟨j, hj, hjn, hcell⟩ := h k hk (hcount ▸ hkn)
    rw [hcell]
    exact hs.sized j hj hjn
  · obtain ⟨j, hj, hjn, hcell⟩ := h k hk (hcount ▸ hkn)
    rw [hcell]
    exact hs.undragged j hj hjn

/-- The hit-test loop leaves windows that are not dragged as they are, but for
their order; and when the button is down it leaves the focus on the front window or
on one whose header is not under the mouse. -/
theorem hitTest_of_idle (hs : s.Idle) (hfit : NoOverflow m s) :
    ∃ t, hitTest m s = some t ∧ t.Idle ∧ (m.left = true → t.focus ≠ 0 →
      ∀ hf : t.focus.toNat < 16, t.focus.toNat < t.winCount.toNat →
        rectContains t.w[t.focus.toNat].header m.x m.y = false) := by
  have hstill {n : Nat} (hn : n ≤ s.winCount.toNat) : s.followed m n = s.w :=
    followed_of_undragged fun k hk hlt => hs.undragged k hk (by omega)
  obtain ⟨i, hlt, hi, hnone, hit⟩ | hnone := first_or_none s m hs.count
  · have hloop := hitTest_of_first hs.count hi hlt hnone hit
    rw [hstill (by omega)] at hloop
    obtain ⟨w', hraise, hcell⟩ := raise_eq_some s.w hlt
    rw [hraise] at hloop
    cases hleft : m.left with
    | true =>
        rw [if_pos hleft] at hloop
        refine ⟨_, hloop, hs.of_windows rfl fun k hk hkn => ?_, fun _ hne => absurd rfl hne⟩
        change ∃ j, ∃ hj : j < 16, _ ∧ w'[k] = s.w[j]
        rw [hcell k hk]
        split
        next => exact ⟨i, hlt, hi, rfl⟩
        next =>
          split
          next => exact ⟨0, by decide, by omega, rfl⟩
          next => exact ⟨k, hk, hkn, rfl⟩
    | false =>
        rw [if_neg (by rw [hleft]; exact Bool.false_ne_true)] at hloop
        exact ⟨_, hloop, ⟨hs.count, hs.sized, hs.undragged⟩, fun h => nomatch h⟩
  · have hloop := hitTest_of_none hs.count hnone
    rw [hstill (Nat.le_refl _)] at hloop
    refine ⟨s, hloop, hs, fun _ _ hf hlt => ?_⟩
    have hwin : s.w[s.focus.toNat] ∈ s.w[s.focus.toNat]? := Vector.getElem?_eq_getElem hf
    obtain ⟨-, hbounds, hcontains⟩ := hfit.1 _ hlt
      (fun k hk hkf => hnone k hk (by omega)) _ hwin
    have hunder := hnone _ hf hlt
    rw [follow_of_undragged (hs.undragged _ hf hlt)] at hbounds hcontains hunder
    obtain ⟨-, hheader⟩ := hfit.2 s hloop _ hwin hlt
    cases hc : rectContains s.w[s.focus.toNat].header m.x m.y with
    | false => rfl
    | true =>
        have := bounds_of_header (hs.sized _ hf hlt).2 hbounds hcontains hheader hc
        exact absurd (hunder.symm.trans this) Bool.false_ne_true

/-- What a frame carries over from the state before to the state after. -/
structure Carried (s : Wserver) (m : Mouse) (t : Wserver) : Prop where
  steady : t.Steady
  onCursor : t.Dragging → t.OnCursor m
  released : m.left = false → ¬ t.Dragging
  sameGrip : s.Dragging → t.Dragging → t.grip = s.grip

theorem Carried.of_idle {t : Wserver} (hs : ¬ s.Dragging) (ht : t.Idle) : s.Carried m t :=
  ⟨ht.steady, fun h => absurd h ht.not_dragging, fun _ => ht.not_dragging,
    fun h => absurd h hs⟩

theorem Idle.store_undragged (hs : s.Idle) {i : Nat} (hi : i < 16)
    (hlt : i < s.winCount.toNat) :
    { s with w := s.w.set i { s.w[i] with dragged := 0 } }.Idle := by
  refine ⟨hs.count, ?_, ?_⟩
  · intro k hk hkn
    rw [Vector.getElem_set]
    split
    next => exact hs.sized i hi hlt
    next => exact hs.sized k hk hkn
  · intro k hk hkn
    rw [Vector.getElem_set]
    split
    next => rfl
    next => exact hs.undragged k hk hkn

/-- The front window is grabbed by its header. -/
theorem Idle.grab (hs : s.Idle)
    (hgrip : (s.w[0].r.x.toInt - 1 ≤ m.x.toInt ∧
      m.x.toInt < s.w[0].r.x.toInt + 1 + s.w[0].r.w.toInt) ∧
      s.w[0].r.y.toInt - 20 ≤ m.y.toInt ∧ m.y.toInt < s.w[0].r.y.toInt) (t : Wserver)
    (ht : t = { s with w := s.w.set 0 { s.w[0] with dragged := 1 }, dragX := m.x, dragY := m.y,
                       dragWx := s.w[0].r.x, dragWy := s.w[0].r.y }) :
    t.Steady ∧ t.OnCursor m := by
  subst ht
  refine ⟨⟨hs.count, ?_, ?_, ?_⟩, ?_⟩
  · intro k hk hkn
    rw [Vector.getElem_set]
    split
    next heq =>
      subst heq
      exact hs.sized 0 hk hkn
    next => exact hs.sized k hk hkn
  · intro k hk hkn hd
    rw [Vector.getElem_set] at hd
    split at hd
    next heq => exact heq.symm
    next => exact absurd (hs.undragged k hk hkn) hd
  · intro _ _
    simp only [Gripped, Vector.getElem_set_self]
    exact hgrip
  · simp only [OnCursor, Vector.getElem_set_self]
    omega

theorem frame_of_idle (hs : s.Idle) (hfit : NoOverflow m s) :
    ∃ t, frame m s = some t ∧ s.Carried m t := by
  obtain ⟨t, hloop, ht, hother⟩ := hitTest_of_idle hs hfit
  rw [frame, hloop, Option.bind_eq_bind, Option.bind_some]
  have hidle := hs.not_dragging
  by_cases hlt : t.focus.toNat < t.winCount.toNat
  · have hf : t.focus.toNat < 16 := Nat.lt_of_lt_of_le hlt ht.count
    rw [draw_focus ht.count hf rfl hlt]
    refine ⟨_, rfl, ?_⟩
    split
    next hgrab =>
      simp only [Bool.and_eq_true] at hgrab
      obtain ⟨⟨hheader, hleft⟩, -⟩ := hgrab
      have hzero : t.focus = 0 := by
        by_contra hne
        exact absurd (hheader.symm.trans (hother hleft hne hf hlt)) (Ne.symm Bool.false_ne_true)
      have hfocus : t.focus.toNat = 0 := congrArg BitVec.toNat hzero
      obtain ⟨hfits, hcontains⟩ := hfit.2 t hloop _ (Vector.getElem?_eq_getElem hf) hlt
      have hgrip := (header_contains_iff hfits hcontains).mp hheader
      simp only [hfocus] at hgrip ⊢
      obtain ⟨hsteady, honCursor⟩ := ht.grab hgrip _ rfl
      exact ⟨hsteady, fun _ => honCursor,
        fun hup => absurd (hleft.symm.trans hup) (Ne.symm Bool.false_ne_true),
        fun h => absurd h hidle⟩
    next =>
      split
      next => exact Carried.of_idle hidle (ht.store_undragged hf hlt)
      next => exact Carried.of_idle hidle ht
  · rw [draw_eq ht.count, if_neg hlt]
    exact ⟨t, rfl, Carried.of_idle hidle ht⟩

theorem frame_carries (hs : s.Steady) (hfit : NoOverflow m s) :
    ∃ t, frame m s = some t ∧ s.Carried m t := by
  by_cases hdrag : s.Dragging
  · refine ⟨_, frame_of_dragging hs hdrag hfit, ?_⟩
    obtain ⟨hpos, hd⟩ := dragging_iff.mp hdrag
    obtain ⟨hmove, -, -⟩ := hfit.1 0 hpos
      (fun k _ hk => absurd hk (Nat.not_lt_zero k)) s.w[0] rfl
    refine ⟨⟨hs.count, ?_, ?_, ?_⟩, ?_, ?_, fun _ _ => rfl⟩
    · intro k hk hkn
      rw [Vector.getElem_set]
      split
      next =>
        change 0 ≤ (s.follow m s.w[0]).r.w.toInt ∧ 0 ≤ (s.follow m s.w[0]).r.h.toInt
        rw [follow_w, follow_h]
        exact hs.sized 0 (by decide) hpos
      next => exact hs.sized k hk hkn
    · intro k hk hkn hother
      rw [Vector.getElem_set] at hother
      split at hother
      next heq => exact heq.symm
      next => exact hs.onlyFront k hk hkn hother
    · intro _ _
      simp only [Gripped, Vector.getElem_set_self, follow_w]
      exact hs.gripped hpos hd
    · intro _
      simp only [OnCursor, Vector.getElem_set_self]
      exact follow_of_dragged hd (hmove hd)
    · intro hup hstill
      obtain ⟨-, hd'⟩ := dragging_iff.mp hstill
      simp only [Vector.getElem_set_self, hup] at hd'
      exact hd' rfl
  · exact frame_of_idle (hs.idle hdrag) hfit

/-- What a list of frames leaves behind. The last two parts follow one drag: it keeps
its grip from the state before the frames on, and from any frame on. -/
structure CarriedAll (s : Wserver) (tr : List (Mouse × Wserver)) : Prop where
  each : ∀ p ∈ tr, p.2.Steady ∧ (p.2.Dragging → p.2.OnCursor p.1) ∧
    (p.1.left = false → ¬ p.2.Dragging)
  fromStart : ∀ (j : Nat) (q : Mouse × Wserver), tr[j]? = some q → s.Dragging →
    (∀ (k : Nat) (r : Mouse × Wserver), k ≤ j → tr[k]? = some r → r.2.Dragging) →
    q.2.grip = s.grip
  fromFrame : ∀ (i j : Nat) (p q : Mouse × Wserver), i ≤ j → tr[i]? = some p → tr[j]? = some q →
    (∀ (k : Nat) (r : Mouse × Wserver), i ≤ k → k ≤ j → tr[k]? = some r → r.2.Dragging) →
    q.2.grip = p.2.grip

theorem CarriedAll.cons {t : Wserver} {tr : List (Mouse × Wserver)} (h : s.Carried m t)
    (hall : t.CarriedAll tr) : s.CarriedAll ((m, t) :: tr) := by
  have hstart (j : Nat) (q : Mouse × Wserver) (hq : ((m, t) :: tr)[j]? = some q)
      (hdrags : ∀ k r, k ≤ j → ((m, t) :: tr)[k]? = some r → r.2.Dragging) :
      q.2.grip = t.grip := by
    cases j with
    | zero => rw [← Option.some.inj hq]
    | succ j =>
        exact hall.fromStart j q hq (hdrags 0 _ (Nat.zero_le _) rfl)
          fun k r hk hr => hdrags (k + 1) r (by omega) hr
  refine ⟨?_, ?_, ?_⟩
  · intro p hp
    obtain rfl | hp := List.mem_cons.mp hp
    · exact ⟨h.steady, h.onCursor, h.released⟩
    · exact hall.each p hp
  · intro j q hq hdrag hdrags
    rw [hstart j q hq hdrags]
    exact h.sameGrip hdrag (hdrags 0 _ (Nat.zero_le _) rfl)
  · intro i j p q hij hp hq hdrags
    cases i with
    | zero =>
        rw [← Option.some.inj hp]
        exact hstart j q hq fun k r hk hr => hdrags k r (Nat.zero_le _) hk hr
    | succ i =>
        obtain ⟨j, rfl⟩ := Nat.exists_eq_add_of_le' (show 1 ≤ j by omega)
        exact hall.fromFrame i j p q (by omega) hp hq
          fun k r hik hkj hr => hdrags (k + 1) r (by omega) (by omega) hr

theorem frames_carry {ms : List Mouse} (hs : s.Steady) (hfit : s.NoOverflowIn ms) :
    ∃ tr, frames s ms = some tr ∧ s.CarriedAll tr := by
  induction ms generalizing s with
  | nil =>
      refine ⟨[], rfl, ?_, ?_, ?_⟩
      · intro p hp
        exact nomatch hp
      · intro j q hq
        exact nomatch hq
      · intro i j p q _ hp
        exact nomatch hp
  | cons m ms ih =>
      obtain ⟨t, hframe, hcarried⟩ := frame_carries hs hfit.1
      obtain ⟨tr, htr, hall⟩ := ih hcarried.steady (hfit.2 t hframe)
      refine ⟨(m, t) :: tr, ?_, CarriedAll.cons hcarried hall⟩
      rw [frames, hframe, Option.bind_eq_bind, Option.bind_some, htr]
      rfl

theorem drag_sticks {s : Wserver} {ms : List Mouse} (hcount : s.winCount.toNat ≤ 16)
    (hsized : ∀ win ∈ s.stack, 0 ≤ win.r.w.toInt ∧ 0 ≤ win.r.h.toInt)
    (hnone : ∀ win ∈ s.stack, win.dragged = 0) (hfit : s.NoOverflowIn ms) :
    ∃ tr, frames s ms = some tr ∧
      (∀ p ∈ tr, (∀ (k : Nat) (win : Win), p.2.stack[k]? = some win → win.dragged ≠ 0 → k = 0) ∧
        (p.1.left = false → ∀ win ∈ p.2.stack, win.dragged = 0)) ∧
      ∀ (i j : Nat) (p q : Mouse × Wserver), i ≤ j → tr[i]? = some p → tr[j]? = some q →
        (∀ (k : Nat) (r : Mouse × Wserver), i ≤ k → k ≤ j → tr[k]? = some r → r.2.Dragging) →
        q.2.offset q.1 = p.2.offset p.1 := by
  have hmem {k : Nat} (hk : k < 16) (hlt : k < s.winCount.toNat) : s.w[k] ∈ s.stack := by
    refine List.mem_iff_getElem?.mpr ⟨k, ?_⟩
    rw [getElem?_stack, if_pos hlt, Vector.getElem?_eq_getElem hk]
  have hidle : s.Idle := ⟨hcount, fun k hk hlt => hsized _ (hmem hk hlt),
    fun k hk hlt => hnone _ (hmem hk hlt)⟩
  obtain ⟨tr, htr, hall⟩ := frames_carry hidle.steady hfit
  refine ⟨tr, htr, fun p hp => ?_, ?_⟩
  · obtain ⟨hsteady, -, hreleased⟩ := hall.each p hp
    have honly : ∀ (k : Nat) (win : Win), p.2.stack[k]? = some win → win.dragged ≠ 0 → k = 0 := by
      intro k win hwin hd
      rw [getElem?_stack] at hwin
      split at hwin
      next hlt =>
        obtain ⟨hk, rfl⟩ := Vector.getElem?_eq_some_iff.mp hwin
        exact hsteady.onlyFront k hk hlt hd
      next => exact nomatch hwin
    refine ⟨honly, fun hup win hwin => ?_⟩
    obtain ⟨k, hk⟩ := List.mem_iff_getElem?.mp hwin
    by_contra hd
    obtain rfl := honly k win hk hd
    exact hreleased hup ⟨win, hk, hd⟩
  · intro i j p q hij hp hq hdrags
    have hon (k : Nat) (r : Mouse × Wserver) (hik : i ≤ k) (hkj : k ≤ j)
        (hr : tr[k]? = some r) : r.2.offset r.1 = r.2.grip :=
      ((hall.each r (List.mem_of_getElem? hr)).2.1 (hdrags k r hik hkj hr)).offset_eq
    rw [hon j q hij (Nat.le_refl _) hq, hon i p (Nat.le_refl _) hij hp]
    exact hall.fromFrame i j p q hij hp hq hdrags

/-- The middle window is pressed on its header, pulled along and let go. -/
def pull : List Mouse := [⟨250, -10, true⟩, ⟨300, 40, true⟩, ⟨310, 45, true⟩, ⟨310, 45, false⟩]

theorem drag_sticks_pull :
    ∃ tr, frames sideBySide pull = some tr ∧
      (∀ p ∈ tr, (∀ (k : Nat) (win : Win), p.2.stack[k]? = some win → win.dragged ≠ 0 → k = 0) ∧
        (p.1.left = false → ∀ win ∈ p.2.stack, win.dragged = 0)) ∧
      ∀ (i j : Nat) (p q : Mouse × Wserver), i ≤ j → tr[i]? = some p → tr[j]? = some q →
        (∀ (k : Nat) (r : Mouse × Wserver), i ≤ k → k ≤ j → tr[k]? = some r → r.2.Dragging) →
        q.2.offset q.1 = p.2.offset p.1 :=
  drag_sticks (by decide) (by decide +kernel) (by decide +kernel) (by decide +kernel)

end Wserver

end DordOs
