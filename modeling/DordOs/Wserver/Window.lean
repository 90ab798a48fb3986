import DordOs.Lib.Bytes
import DordOs.Libk.Move

/-!
The window server of `kernel.c`: the array of windows, and one frame of the loop
of `proc_wserver` for one snapshot of the mouse. Drawing reads this state and
leaves it alone.
-/
namespace DordOs
open Lib

/-- `rect_t`. -/
structure Rect where
  x : I32
  y : I32
  w : I32
  h : I32
  deriving DecidableEq

def rectContains (r : Rect) (x y : I32) : Bool :=
  decide (r.x.toInt ≤ x.toInt) && decide (x.toInt < (r.x + r.w).toInt) &&
    (decide (r.y.toInt ≤ y.toInt) && decide (y.toInt < (r.y + r.h).toInt))

/-- `win_t`. -/
structure Win where
  r : Rect
  pxData : Usz
  title : Usz
  dragged : U8
  deriving DecidableEq

namespace Win

def bounds (win : Win) : Rect := ⟨win.r.x - 1, win.r.y - 20, win.r.w + 2, 20 + win.r.h + 2⟩

def header (win : Win) : Rect := ⟨win.r.x - 1, win.r.y - 20, win.r.w + 2, 20⟩

/-- `sizeof(win_t)`. -/
def size : Nat := 28

/-- The object representation: seven words, the last one `dragged` and padding. -/
def bytes (win : Win) : Bytes :=
  leBytes 4 win.r.x.toNat ++ leBytes 4 win.r.y.toNat ++ leBytes 4 win.r.w.toNat ++
    leBytes 4 win.r.h.toNat ++ leBytes 4 win.pxData.toNat ++ leBytes 4 win.title.toNat ++
    (win.dragged :: zeros 3)

def ofBytes (l : Bytes) : Win :=
  let word (i : Nat) : BitVec 32 := BitVec.ofNat 32 (leValue (slice l (4 * i) 4))
  ⟨⟨word 0, word 1, word 2, word 3⟩, word 4, word 5, l.getD 24 0⟩

@[simp] theorem length_bytes (win : Win) : win.bytes.length = size := by
  simp [bytes, size]

theorem ofBytes_bytes (win : Win) : ofBytes win.bytes = win := by
  obtain ⟨⟨x, y, w, h⟩, pxData, title, dragged⟩ := win
  have word (v : BitVec 32) : BitVec.ofNat 32 (leValue (leBytes 4 v.toNat)) = v := by
    rw [leValue_leBytes v.isLt, BitVec.ofNat_toNat, BitVec.setWidth_eq]
  simp only [ofBytes, mk.injEq, Rect.mk.injEq]
  exact ⟨⟨word x, word y, word w, word h⟩, word pxData, word title, rfl⟩

end Win

/-- `w[16]`. -/
abbrev WinArray := Vector Win 16

/-- The bytes the array occupies. -/
def winBytes (w : WinArray) : Bytes := w.toList.flatMap Win.bytes

def winsOfBytes (mem : Bytes) : WinArray :=
  Vector.ofFn fun k => Win.ofBytes (slice mem (Win.size * k.val) Win.size)

/-- `w[i] = win`. -/
def storeWin (w : WinArray) (i : Nat) (win : Win) : Option WinArray :=
  if h : i < 16 then some (w.set i win) else none

/-- `mouse_x`, `mouse_y` and the left entry of `mouse_button_states`. -/
structure Mouse where
  x : I32
  y : I32
  left : Bool
  deriving DecidableEq

/-- The globals of the window server and the locals of `proc_wserver` that live
from one frame to the next. -/
structure Wserver where
  w : WinArray
  winCount : Usz
  focus : Usz
  dragX : I32
  dragY : I32
  dragWx : I32
  dragWy : I32
  deriving DecidableEq

namespace Wserver

/-- A dragged window moved along with the mouse. -/
def follow (s : Wserver) (m : Mouse) (win : Win) : Win :=
  if win.dragged ≠ 0 then
    { win with r := { win.r with
        x := s.dragWx + (m.x - s.dragX), y := s.dragWy + (m.y - s.dragY) } }
  else win

/-- `win_t win = w[i]; mmove8(&w[1], &w[0], i * sizeof(win_t)); w[0] = win;` -/
def raise (w : WinArray) (i : Nat) : Option WinArray := do
  let win ← w[i]?
  let mem ← mmove8 (winBytes w) Win.size 0 (BitVec.ofNat 32 (i * Win.size))
  storeWin (winsOfBytes mem) 0 win

/-- The hit-test loop from window `i` on, with `n` windows left. -/
def hitTestFrom (m : Mouse) : Nat → Nat → Wserver → Option Wserver
  | _, 0, s => some s
  | i, n + 1, s => do
      let win ← s.w[i]?
      let win := s.follow m win
      let w ← storeWin s.w i win
      if rectContains win.bounds m.x m.y then
        if m.left then do
          let w ← raise w i
          return { s with w := w, focus := 0 }
        else
          return { s with w := w, focus := BitVec.ofNat 32 i }
      else
        hitTestFrom m (i + 1) n { s with w := w }

def hitTest (m : Mouse) (s : Wserver) : Option Wserver := hitTestFrom m 0 s.winCount.toNat s

/-- What drawing window `i` does to the state. -/
def grab (m : Mouse) (i : Nat) (s : Wserver) : Option Wserver := do
  let win ← s.w[i]?
  let front ← s.w[0]?
  if BitVec.ofNat 32 i = s.focus then
    if rectContains win.header m.x m.y && m.left && decide (front.dragged = 0) then do
      let w ← storeWin s.w i { win with dragged := 1 }
      return { s with w := w, dragX := m.x, dragY := m.y, dragWx := win.r.x, dragWy := win.r.y }
    else if !m.left then do
      let w ← storeWin s.w i { win with dragged := 0 }
      return { s with w := w }
    else
      return s
  else
    return s

/-- The drawing loop: the windows below `n`, from the last one down. -/
def drawFrom (m : Mouse) : Nat → Wserver → Option Wserver
  | 0, s => some s
  | i + 1, s => do
      let s ← grab m i s
      drawFrom m i s

/-- `for (i32 i = win_count - 1; i >= 0; --i)`. -/
def draw (m : Mouse) (s : Wserver) : Option Wserver :=
  drawFrom m ((s.winCount - 1).toInt + 1).toNat s

/-- One iteration of the loop of `proc_wserver`. -/
def frame (m : Mouse) (s : Wserver) : Option Wserver := do
  let s ← hitTest m s
  draw m s

/-- The window stack, front window first. -/
def stack (s : Wserver) : List Win := s.w.toList.take s.winCount.toNat

/-- The array while the hit-test loop is at window `n`: the dragged windows it has
passed have been moved. -/
def followed (s : Wserver) (m : Mouse) (n : Nat) : WinArray :=
  s.w.mapIdx fun k win => if k < n then s.follow m win else win

end Wserver

theorem storeWin_of_lt {w : WinArray} {i : Nat} (h : i < 16) (win : Win) :
    storeWin w i win = some (w.set i win) := dif_pos h

theorem length_winBytes (w : WinArray) : (winBytes w).length = Win.size * 16 := by
  rw [winBytes, length_flatMap_of_const Win.length_bytes, Vector.length_toList]

theorem getElem_winsOfBytes {w : WinArray} {mem : Bytes} {k j : Nat} (hk : k < 16) (hj : j < 16)
    (h : ∀ r, r < Win.size → mem[Win.size * k + r]? = (winBytes w)[Win.size * j + r]?) :
    (winsOfBytes mem)[k] = w[j] := by
  have hx : w.toList[j]? = some w[j] := by
    rw [List.getElem?_eq_getElem (by rw [Vector.length_toList]; exact hj), Vector.getElem_toList]
  simp only [winsOfBytes]
  rw [Vector.getElem_ofFn, slice_congr h, winBytes, slice_flatMap Win.length_bytes hx,
    Win.ofBytes_bytes]

namespace Wserver

variable {s : Wserver} {m : Mouse}

theorem followed_zero (s : Wserver) (m : Mouse) : s.followed m 0 = s.w := by
  apply Vector.ext
  intro k hk
  rw [followed, Vector.getElem_mapIdx, if_neg (Nat.not_lt_zero k)]

theorem getElem_followed (s : Wserver) (m : Mouse) {n k : Nat} (hk : k < 16) :
    (s.followed m n)[k] = if k < n then s.follow m s.w[k] else s.w[k] :=
  Vector.getElem_mapIdx ..

theorem followed_succ (s : Wserver) (m : Mouse) {n : Nat} (hn : n < 16) :
    (s.followed m n).set n (s.follow m s.w[n]) = s.followed m (n + 1) := by
  apply Vector.ext
  intro k hk
  rw [Vector.getElem_set, getElem_followed, getElem_followed]
  obtain hlt | rfl | hgt := Nat.lt_trichotomy k n
  · rw [if_neg (by omega), if_pos hlt, if_pos (by omega)]
  · rw [if_pos rfl, if_pos (by omega)]
  · rw [if_neg (by omega), if_neg (by omega), if_neg (by omega)]

/-- The windows of the hit-test loop before `n` are not under the mouse. -/
def NoneUnder (s : Wserver) (m : Mouse) (n : Nat) : Prop :=
  ∀ k (hk : k < 16), k < n → rectContains (s.follow m s.w[k]).bounds m.x m.y = false

/-- The loop passes over the windows that are not under the mouse. -/
theorem hitTest_skip {n : Nat} (hcount : s.winCount.toNat ≤ 16) (hn : n ≤ s.winCount.toNat)
    (h : s.NoneUnder m n) :
    hitTest m s =
      hitTestFrom m n (s.winCount.toNat - n) { s with w := s.followed m n } := by
  induction n with
  | zero =>
      rw [followed_zero]
      rfl
  | succ n ih =>
      have hlt : n < 16 := by omega
      rw [ih (by omega) fun k hk hkn => h k hk (by omega),
        show s.winCount.toNat - n = (s.winCount.toNat - (n + 1)) + 1 by omega, hitTestFrom]
      have hget : (s.followed m n)[n]? = some s.w[n] := by
        rw [Vector.getElem?_eq_getElem hlt, getElem_followed, if_neg (Nat.lt_irrefl n)]
      simp only [hget, Option.bind_eq_bind, Option.bind_some, storeWin_of_lt hlt]
      change (if rectContains (s.follow m s.w[n]).bounds m.x m.y = true then _ else
        hitTestFrom m (n + 1) _ { s with w := (s.followed m n).set n (s.follow m s.w[n]) }) = _
      rw [h n hlt (Nat.lt_succ_self n), followed_succ s m hlt]
      exact if_neg Bool.false_ne_true

theorem hitTest_of_none (hcount : s.winCount.toNat ≤ 16) (h : s.NoneUnder m s.winCount.toNat) :
    hitTest m s = some { s with w := s.followed m s.winCount.toNat } := by
  rw [hitTest_skip hcount (Nat.le_refl _) h, Nat.sub_self]
  rfl

theorem hitTest_of_first {i : Nat} (hcount : s.winCount.toNat ≤ 16) (hi : i < s.winCount.toNat)
    (hlt : i < 16) (h : s.NoneUnder m i)
    (hit : rectContains (s.follow m s.w[i]).bounds m.x m.y = true) :
    hitTest m s =
      if m.left then (raise (s.followed m (i + 1)) i).map fun w => { s with w := w, focus := 0 }
      else some { s with w := s.followed m (i + 1), focus := BitVec.ofNat 32 i } := by
  rw [hitTest_skip hcount (Nat.le_of_lt hi) h,
    show s.winCount.toNat - i = (s.winCount.toNat - (i + 1)) + 1 by omega, hitTestFrom]
  have hget : (s.followed m i)[i]? = some s.w[i] := by
    rw [Vector.getElem?_eq_getElem hlt, getElem_followed, if_neg (Nat.lt_irrefl i)]
  simp only [hget, Option.bind_eq_bind, Option.bind_some, storeWin_of_lt hlt]
  change (if rectContains (s.follow m s.w[i]).bounds m.x m.y = true then
    if m.left = true then
      (raise ((s.followed m i).set i (s.follow m s.w[i])) i).bind _
    else some { s with w := (s.followed m i).set i (s.follow m s.w[i]), focus := _ }
    else _) = _
  rw [if_pos hit, followed_succ s m hlt]
  split
  next => exact (Option.map_eq_bind ..).symm
  next => rfl

theorem first_or_none (s : Wserver) (m : Mouse) (hcount : s.winCount.toNat ≤ 16) :
    (∃ i, ∃ hlt : i < 16, i < s.winCount.toNat ∧ s.NoneUnder m i ∧
      rectContains (s.follow m s.w[i]).bounds m.x m.y = true) ∨
    s.NoneUnder m s.winCount.toNat := by
  obtain ⟨n, hn⟩ : ∃ n, n = s.winCount.toNat := ⟨_, rfl⟩
  rw [← hn] at hcount ⊢
  clear hn
  induction n with
  | zero => exact .inr fun k _ hk => absurd hk (Nat.not_lt_zero k)
  | succ n ih =>
      obtain ⟨i, hlt, hi, hnone, hit⟩ | hnone := ih (by omega)
      · exact .inl ⟨i, hlt, by omega, hnone, hit⟩
      · have hn : n < 16 := by omega
        cases hc : rectContains (s.follow m s.w[n]).bounds m.x m.y with
        | true => exact .inl ⟨n, hn, by omega, hnone, hc⟩
        | false =>
            refine .inr fun k hk hkn => ?_
            obtain hlt | rfl := Nat.lt_succ_iff_lt_or_eq.mp hkn
            · exact hnone k hk hlt
            · exact hc

end Wserver

end DordOs
