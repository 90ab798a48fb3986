import DordOs.Lib.BitWords
import DordOs.Lib.Loop
import DordOs.Libk.Align
import Mathlib.Data.BitVec
import Mathlib.Data.List.Infix
import Mathlib.Data.Nat.ModEq
import Mathlib.Tactic.LinearCombination

/-!
The mouse interrupt: bytes are collected into a packet across calls, and a complete
packet moves the pointer. The sign bit of a movement is shifted past the cast that
extends it, so a movement of more than seven bits is off by 256 and the total is exact
when the movements off one way and the other cancel out.
-/
namespace DordOs
open Lib

def ps2SrOut : U8 := 0x01
def ps2SrMouse : U8 := 0x20

def msCpktLmb : U8 := 0x01
def msCpktRmb : U8 := 0x02
def msCpktMmb : U8 := 0x04
def msCpktXsign : U8 := 0x10
def msCpktYsign : U8 := 0x20

def ms5pktZm : U8 := 0x0F
def ms5pkt4mb : U8 := 0x10
def ms5pkt5mb : U8 := 0x20

def ps2DevZaxisMouse : U32 := 0x03
def ps2Dev5btnMouse : U32 := 0x04

/-- The globals of the driver and the statics of the interrupt. `mouse_initialize` sets
the packet size to 4 or leaves it at 3, and the cursor stays below it. -/
structure MouseState where
  mouseType : U32
  mousePacketSize : U32
  packetByte : U32
  packet : Vector U8 4
  mouseX : U32
  mouseY : U32
  mouseZ : U32
  mouseButtonStates : Vector U8 5
  size : mousePacketSize = 3 ∨ mousePacketSize = 4
  cursor : packetByte < mousePacketSize

theorem MouseState.size_mem (s : MouseState) :
    3 ≤ s.mousePacketSize.toNat ∧ s.mousePacketSize.toNat ≤ 4 := by
  obtain hsize | hsize := s.size <;> rw [hsize] <;> decide

theorem MouseState.room (s : MouseState) : s.packetByte.toNat < 4 :=
  (BitVec.lt_def.mp s.cursor).trans_le s.size_mem.2

/-- What a packet adds to an axis: `(i16)((((p0 & sign) << 8) | b) << 8) >> 8`. -/
def mouseAxis (sign p0 b : U8) : U32 :=
  let wide : U32 := (((p0 &&& sign).setWidth 32 <<< 8) ||| b.setWidth 32) <<< 8
  ((wide.setWidth 16).signExtend 32).sshiftRight 8

/-- `(i8)((p3 & MS_5PKT_ZM) << 4) >> 4`. -/
def mouseScroll (p3 : U8) : U32 :=
  let wide : U32 := (p3 &&& ms5pktZm).setWidth 32 <<< 4
  ((wide.setWidth 8).signExtend 32).sshiftRight 4

/-- The packet is complete. -/
def mousePacket (s : MouseState) : MouseState :=
  let p0 := s.packet[0]
  let buttons := ((s.mouseButtonStates.set 0 (p0 &&& msCpktLmb)).set 1 (p0 &&& msCpktRmb)).set 2
    (p0 &&& msCpktMmb)
  let s := { s with
    mouseButtonStates := buttons
    mouseX := s.mouseX + mouseAxis msCpktXsign p0 s.packet[1]
    mouseY := s.mouseY - mouseAxis msCpktYsign p0 s.packet[2] }
  let p3 := s.packet[3]
  if s.mouseType = ps2DevZaxisMouse then { s with mouseZ := s.mouseZ + p3.signExtend 32 }
  else if s.mouseType = ps2Dev5btnMouse then
    { s with
      mouseZ := s.mouseZ + mouseScroll p3
      mouseButtonStates := (s.mouseButtonStates.set 3 (p3 &&& ms5pkt4mb)).set 4
        (p3 &&& ms5pkt5mb) }
  else s

/-- The body of the loop, for the byte read from the data port. -/
def mouseByte (s : MouseState) (byte : U8) : MouseState :=
  let packet := s.packet.set s.packetByte.toNat byte s.room
  if h : s.packetByte + 1 < s.mousePacketSize then
    { s with packet, packetByte := s.packetByte + 1, cursor := h }
  else
    mousePacket { s with
      packet
      packetByte := 0
      cursor := by obtain hsize | hsize := s.size <;> rw [hsize] <;> decide }

/-- The status says that a byte of the mouse waits. -/
def MouseWaits (status : U8) : Prop := status &&& ps2SrOut ≠ 0 ∧ status &&& ps2SrMouse ≠ 0

instance (status : U8) : Decidable (MouseWaits status) := inferInstanceAs (Decidable (_ ∧ _))

/-- One call, which reads the status and then the data port in each round. -/
def mouseHandleInterrupt : List (U8 × U8) → MouseState → MouseState
  | [], s => s
  | (status, byte) :: reads, s =>
      if MouseWaits status then mouseHandleInterrupt reads (mouseByte s byte) else s

/-- The bytes a call takes from the data port. -/
def mouseTaken (reads : List (U8 × U8)) : List U8 :=
  (reads.takeWhile fun r => MouseWaits r.1).map Prod.snd

def mouseRun (calls : List (List (U8 × U8))) (s : MouseState) : MouseState :=
  calls.foldl (fun s reads => mouseHandleInterrupt reads s) s

/-- The movement of a packet along an axis, nine bits with the sign in byte 0. -/
def axisMove (sign p0 b : U8) : U32 := (BitVec.ofBool (p0 &&& sign ≠ 0) ++ b).signExtend 32

namespace MousePacket

def moveX (p : List U8) : U32 := axisMove msCpktXsign (p.getD 0 0) (p.getD 1 0)

def moveY (p : List U8) : U32 := axisMove msCpktYsign (p.getD 0 0) (p.getD 2 0)

/-- The scroll value of a five-button mouse, four bits. -/
def scroll (p : List U8) : U32 := ((p.getD 3 0).setWidth 4).signExtend 32

/-- The button states are those of the packet. -/
structure Shows (p : List U8) (s : MouseState) : Prop where
  left : s.mouseButtonStates[0] ≠ 0 ↔ (p.getD 0 0).getLsbD 0
  right : s.mouseButtonStates[1] ≠ 0 ↔ (p.getD 0 0).getLsbD 1
  middle : s.mouseButtonStates[2] ≠ 0 ↔ (p.getD 0 0).getLsbD 2
  fourth : s.mouseType = ps2Dev5btnMouse → s.mousePacketSize = 4 →
    (s.mouseButtonStates[3] ≠ 0 ↔ (p.getD 3 0).getLsbD 4)
  fifth : s.mouseType = ps2Dev5btnMouse → s.mousePacketSize = 4 →
    (s.mouseButtonStates[4] ≠ 0 ↔ (p.getD 3 0).getLsbD 5)

end MousePacket

/-- The calls take the bytes of the packets, in any grouping. -/
def MouseDelivers (calls : List (List (U8 × U8))) (packets : List (List U8)) : Prop :=
  calls.flatMap mouseTaken = packets.flatten

/-- The law for a sequence of packets: the sums of its movements, and the buttons of
each packet once it is in. -/
structure MouseExact (packets : List (List U8)) (s : MouseState) : Prop where
  x : ∀ calls, MouseDelivers calls packets →
    (mouseRun calls s).mouseX = s.mouseX + (packets.map MousePacket.moveX).sum
  y : ∀ calls, MouseDelivers calls packets →
    (mouseRun calls s).mouseY = s.mouseY - (packets.map MousePacket.moveY).sum
  z : ∀ calls, MouseDelivers calls packets → s.mouseType = ps2Dev5btnMouse →
    s.mousePacketSize = 4 →
    (mouseRun calls s).mouseZ = s.mouseZ + (packets.map MousePacket.scroll).sum
  buttons : ∀ before p calls, before ++ [p] <+: packets → MouseDelivers calls (before ++ [p]) →
    MousePacket.Shows p (mouseRun calls s)

/-- A movement above 127. -/
def AxisAbove (sign p0 b : U8) : Prop := p0 &&& sign = 0 ∧ b.msb

/-- A movement below -128. -/
def AxisBelow (sign p0 b : U8) : Prop := p0 &&& sign ≠ 0 ∧ ¬ b.msb

instance (sign p0 b : U8) : Decidable (AxisAbove sign p0 b) := inferInstanceAs (Decidable (_ ∧ _))
instance (sign p0 b : U8) : Decidable (AxisBelow sign p0 b) := inferInstanceAs (Decidable (_ ∧ _))

/-- As many movements are above 127 as below -128, modulo 2^24. -/
def AxisBalanced (sign : U8) (i : Nat) (packets : List (List U8)) : Prop :=
  packets.countP (fun p => AxisAbove sign (p.getD 0 0) (p.getD i 0)) ≡
    packets.countP (fun p => AxisBelow sign (p.getD 0 0) (p.getD i 0)) [MOD 2 ^ 24]

instance (sign : U8) (i : Nat) (packets : List (List U8)) :
    Decidable (AxisBalanced sign i packets) :=
  inferInstanceAs (Decidable (_ ≡ _ [MOD _]))

/-- The sign bit does not get through the cast. -/
theorem mouseAxis_eq (sign p0 b : U8) : mouseAxis sign p0 b = b.signExtend 32 := by
  unfold mouseAxis
  generalize p0 &&& sign = bit
  ext i hi
  simp only [BitVec.getElem_sshiftRight, BitVec.getElem_signExtend]
  simp [BitVec.msb_eq_getLsbD_last]
  grind

theorem mouseScroll_eq : ∀ p3 : U8, mouseScroll p3 = (p3.setWidth 4).signExtend 32 := by
  decide

theorem toNat_append_bit (c : BitVec 1) (b : U8) : (c ++ b).toNat = c.toNat * 256 + b.toNat := by
  rw [BitVec.toNat_append, ← Nat.shiftLeft_add_eq_or_of_lt b.isLt, Nat.shiftLeft_eq]

theorem toNat_signExtend_bit (c : BitVec 1) (b : U8) : ((c ++ b).signExtend 32).toNat =
    c.toNat * 256 + b.toNat + if c.msb then 2 ^ 32 - 2 ^ 9 else 0 := by
  have hc := c.isLt
  have hb := b.isLt
  have hmsb : (c ++ b).msb = c.msb := by
    rw [BitVec.msb_append]
    rfl
  rw [BitVec.toNat_signExtend, BitVec.toNat_setWidth, toNat_append_bit, hmsb,
    Nat.mod_eq_of_lt (by omega)]

/-- A byte taken for a signed one is off by 256 where its sign is not the ninth bit. -/
theorem signExtend_apart (above : Bool) (b : U8) :
    b.signExtend 32 + (if !above && b.msb then 256 else 0) =
      (BitVec.ofBool above ++ b).signExtend 32 + (if above && !b.msb then 256 else 0) := by
  have hb := b.isLt
  apply BitVec.eq_of_toNat_eq
  rw [BitVec.toNat_add, BitVec.toNat_add, toNat_signExtend_bit, BitVec.toNat_signExtend,
    BitVec.toNat_setWidth]
  cases above with
  | false =>
      cases b.msb with
      | false => simp
      | true =>
          simp
          omega
  | true =>
      cases b.msb with
      | false | true =>
          simp
          omega

theorem mouseAxis_move (sign p0 b : U8) :
    mouseAxis sign p0 b + (if AxisAbove sign p0 b then 256 else 0) =
      axisMove sign p0 b + (if AxisBelow sign p0 b then 256 else 0) := by
  have habove : AxisAbove sign p0 b ↔ (!decide (p0 &&& sign ≠ 0) && b.msb) = true := by
    simp [AxisAbove]
  have hbelow : AxisBelow sign p0 b ↔ (decide (p0 &&& sign ≠ 0) && !b.msb) = true := by
    simp [AxisBelow]
  rw [mouseAxis_eq, axisMove]
  simp only [habove, hbelow]
  exact signExtend_apart _ b

theorem mouseAxis_sum (sign : U8) (i : Nat) (packets : List (List U8)) :
    (packets.map fun p => mouseAxis sign (p.getD 0 0) (p.getD i 0)).sum +
        256 * (packets.countP (fun p => AxisAbove sign (p.getD 0 0) (p.getD i 0)) : U32) =
      (packets.map fun p => axisMove sign (p.getD 0 0) (p.getD i 0)).sum +
        256 * (packets.countP (fun p => AxisBelow sign (p.getD 0 0) (p.getD i 0)) : U32) := by
  induction packets with
  | nil => simp
  | cons p packets ih =>
      have hp := mouseAxis_move sign (p.getD 0 0) (p.getD i 0)
      have hone (q : Prop) [Decidable q] :
          (256 : U32) * ((if q then 1 else 0 : Nat) : U32) = if q then 256 else 0 := by
        split <;> rfl
      simp only [List.map_cons, List.sum_cons, List.countP_cons, decide_eq_true_eq,
        Nat.cast_add, mul_add, hone]
      linear_combination hp + ih

/-- The sum of what the packets add is right iff the movements that are off cancel out. -/
theorem mouseAxis_sum_iff (sign : U8) (i : Nat) (packets : List (List U8)) :
    (packets.map fun p => mouseAxis sign (p.getD 0 0) (p.getD i 0)).sum =
        (packets.map fun p => axisMove sign (p.getD 0 0) (p.getD i 0)).sum ↔
      AxisBalanced sign i packets := by
  have hsum := mouseAxis_sum sign i packets
  have hoff (above below : Nat) : (256 : U32) * (above : U32) = 256 * (below : U32) ↔
      above ≡ below [MOD 2 ^ 24] := by
    rw [← BitVec.toNat_inj, Nat.ModEq]
    simp only [BitVec.toNat_mul, BitVec.toNat_ofNat, BitVec.natCast_eq_ofNat,
      show (256 : U32).toNat = 256 from rfl]
    omega
  rw [AxisBalanced, ← hoff]
  constructor
  · intro heq
    rw [heq] at hsum
    exact add_left_cancel hsum
  · intro heq
    rw [heq] at hsum
    exact add_right_cancel hsum

/-- The bytes `q` of a packet have been collected since `s`. -/
structure MouseCollected (q : List U8) (s s' : MouseState) : Prop where
  cursor : s'.packetByte.toNat = q.length
  packet : ∀ i (h : i < 4), i < q.length → s'.packet[i] = q.getD i 0
  type : s'.mouseType = s.mouseType
  size : s'.mousePacketSize = s.mousePacketSize
  x : s'.mouseX = s.mouseX
  y : s'.mouseY = s.mouseY
  z : s'.mouseZ = s.mouseZ

/-- What the packet `p` does. -/
structure MouseStep (p : List U8) (s s' : MouseState) : Prop where
  boundary : s'.packetByte = 0
  type : s'.mouseType = s.mouseType
  size : s'.mousePacketSize = s.mousePacketSize
  x : s'.mouseX = s.mouseX + mouseAxis msCpktXsign (p.getD 0 0) (p.getD 1 0)
  y : s'.mouseY = s.mouseY - mouseAxis msCpktYsign (p.getD 0 0) (p.getD 2 0)
  z : s.mouseType = ps2Dev5btnMouse → s.mousePacketSize = 4 →
    s'.mouseZ = s.mouseZ + MousePacket.scroll p
  shows : MousePacket.Shows p s'

theorem button_bits (b : U8) :
    (b &&& msCpktLmb ≠ 0 ↔ b.getLsbD 0) ∧ (b &&& msCpktRmb ≠ 0 ↔ b.getLsbD 1) ∧
      (b &&& msCpktMmb ≠ 0 ↔ b.getLsbD 2) ∧ (b &&& ms5pkt4mb ≠ 0 ↔ b.getLsbD 4) ∧
      (b &&& ms5pkt5mb ≠ 0 ↔ b.getLsbD 5) :=
  have hbit {mask : U8} (k : Nat) (hk : k < 8) (hmask : mask = BitVec.twoPow 8 k) :
      b &&& mask ≠ 0 ↔ b.getLsbD k := hmask ▸ and_twoPow_ne_zero b hk
  ⟨hbit 0 (by decide) rfl, hbit 1 (by decide) rfl, hbit 2 (by decide) rfl,
    hbit 4 (by decide) rfl, hbit 5 (by decide) rfl⟩

section Packets

variable {s s' t : MouseState} {p q : List U8} {b : U8}

theorem MouseCollected.refl (h : s.packetByte = 0) : MouseCollected [] s s :=
  ⟨by rw [h]; rfl, fun _ _ hi => absurd hi (Nat.not_lt_zero _), rfl, rfl, rfl, rfl, rfl⟩

theorem MouseCollected.set (h : MouseCollected q s s') :
    ∀ i (_ : i < 4), i < (q ++ [b]).length →
      (s'.packet.set s'.packetByte.toNat b s'.room)[i] = (q ++ [b]).getD i 0 := by
  intro i hi hlen
  rw [List.length_append, List.length_singleton] at hlen
  rw [Vector.getElem_set, List.getD_eq_getElem?_getD]
  split
  · rename_i heq
    rw [h.cursor] at heq
    rw [← heq, List.getElem?_concat_length, Option.getD_some]
  · rename_i hne
    rw [h.cursor] at hne
    have hlt : i < q.length := by omega
    rw [h.packet i hi hlt, List.getElem?_append_left hlt, List.getD_eq_getElem?_getD]

theorem MouseCollected.next (h : MouseCollected q s s') :
    s'.packetByte + 1 < s'.mousePacketSize ↔ q.length + 1 < s.mousePacketSize.toNat := by
  rw [BitVec.lt_def, toNat_succ_of_lt s'.cursor, h.cursor, h.size]

theorem MouseCollected.byte (h : MouseCollected q s s')
    (more : q.length + 1 < s.mousePacketSize.toNat) :
    MouseCollected (q ++ [b]) s (mouseByte s' b) := by
  have hlt : s'.packetByte + 1 < s'.mousePacketSize := h.next.mpr more
  have hbyte : mouseByte s' b = { s' with
      packet := s'.packet.set s'.packetByte.toNat b s'.room
      packetByte := s'.packetByte + 1
      cursor := hlt } := dif_pos hlt
  rw [hbyte]
  refine ⟨?_, h.set, h.type, h.size, h.x, h.y, h.z⟩
  rw [List.length_append, List.length_singleton, ← h.cursor]
  exact toNat_succ_of_lt s'.cursor

/-- The bytes of a packet but its last. -/
theorem mouseByte_collect (h : s.packetByte = 0) (hq : q.length < s.mousePacketSize.toNat) :
    MouseCollected q s (q.foldl mouseByte s) := by
  induction q using List.reverseRecOn with
  | nil => exact .refl h
  | append_singleton q b ih =>
      rw [List.length_append, List.length_singleton] at hq
      rw [List.foldl_append]
      exact (ih (by omega)).byte hq

theorem mousePacket_frame (s : MouseState) :
    (mousePacket s).packetByte = s.packetByte ∧ (mousePacket s).mouseType = s.mouseType ∧
      (mousePacket s).mousePacketSize = s.mousePacketSize := by
  unfold mousePacket
  dsimp only
  split_ifs <;> exact ⟨rfl, rfl, rfl⟩

theorem mousePacket_x (s : MouseState) : (mousePacket s).mouseX =
    s.mouseX + mouseAxis msCpktXsign s.packet[0] s.packet[1] := by
  unfold mousePacket
  dsimp only
  split_ifs <;> rfl

theorem mousePacket_y (s : MouseState) : (mousePacket s).mouseY =
    s.mouseY - mouseAxis msCpktYsign s.packet[0] s.packet[2] := by
  unfold mousePacket
  dsimp only
  split_ifs <;> rfl

theorem mousePacket_buttons (s : MouseState) :
    (mousePacket s).mouseButtonStates[0] = s.packet[0] &&& msCpktLmb ∧
      (mousePacket s).mouseButtonStates[1] = s.packet[0] &&& msCpktRmb ∧
      (mousePacket s).mouseButtonStates[2] = s.packet[0] &&& msCpktMmb := by
  unfold mousePacket
  dsimp only
  split_ifs <;> simp

/-- The last byte means something else to each type of mouse. -/
theorem mousePacket_5btn (h : s.mouseType = ps2Dev5btnMouse) :
    (mousePacket s).mouseZ = s.mouseZ + mouseScroll s.packet[3] ∧
      (mousePacket s).mouseButtonStates[3] = s.packet[3] &&& ms5pkt4mb ∧
      (mousePacket s).mouseButtonStates[4] = s.packet[3] &&& ms5pkt5mb := by
  have hz : s.mouseType ≠ ps2DevZaxisMouse := by
    rw [h]
    decide
  unfold mousePacket
  dsimp only
  rw [if_neg hz, if_pos h]
  simp

theorem mousePacket_step (boundary : t.packetByte = 0)
    (sizes : p.length = t.mousePacketSize.toNat)
    (holds : ∀ i (h : i < 4), i < p.length → t.packet[i] = p.getD i 0) :
    MouseStep p t (mousePacket t) := by
  have hlen : 3 ≤ p.length := sizes ▸ t.size_mem.1
  have h0 : t.packet[0] = p.getD 0 0 := holds 0 (by decide) (by omega)
  have h1 : t.packet[1] = p.getD 1 0 := holds 1 (by decide) (by omega)
  have h2 : t.packet[2] = p.getD 2 0 := holds 2 (by decide) (by omega)
  have h3 (hsize : t.mousePacketSize = 4) : t.packet[3] = p.getD 3 0 :=
    holds 3 (by decide) (by rw [sizes, hsize]; decide)
  obtain ⟨hbyte, htype, hsize⟩ := mousePacket_frame t
  obtain ⟨hb0, hb1, hb2⟩ := mousePacket_buttons t
  obtain ⟨bit0, bit1, bit2, -, -⟩ := button_bits (p.getD 0 0)
  obtain ⟨-, -, -, bit4, bit5⟩ := button_bits (p.getD 3 0)
  constructor
  case boundary => exact hbyte.trans boundary
  case type => exact htype
  case size => exact hsize
  case x => rw [mousePacket_x, h0, h1]
  case y => rw [mousePacket_y, h0, h2]
  case z =>
      intro h5 hfour
      rw [(mousePacket_5btn h5).1, h3 hfour, mouseScroll_eq]
      rfl
  case shows =>
      constructor
      case left => rw [hb0, h0, bit0]
      case right => rw [hb1, h0, bit1]
      case middle => rw [hb2, h0, bit2]
      case fourth =>
          intro h5 hfour
          rw [(mousePacket_5btn (htype ▸ h5)).2.1, h3 (hsize ▸ hfour), bit4]
      case fifth =>
          intro h5 hfour
          rw [(mousePacket_5btn (htype ▸ h5)).2.2, h3 (hsize ▸ hfour), bit5]

theorem mouseByte_packet (h : s.packetByte = 0) (hp : p.length = s.mousePacketSize.toNat) :
    MouseStep p s (p.foldl mouseByte s) := by
  have hne : p ≠ [] := by
    rintro rfl
    exact absurd (hp ▸ s.size_mem.1) (by decide)
  obtain ⟨q, b, rfl⟩ := (List.eq_nil_or_concat p).resolve_left hne
  rw [List.concat_eq_append] at *
  rw [List.length_append, List.length_singleton] at hp
  have hq := mouseByte_collect (q := q) h (by omega)
  rw [List.foldl_append, List.foldl_cons, List.foldl_nil]
  generalize q.foldl mouseByte s = s' at hq ⊢
  have hlast : ¬ s'.packetByte + 1 < s'.mousePacketSize := fun hlt =>
    Nat.lt_irrefl _ ((hq.next.mp hlt).trans_eq hp.symm)
  rw [mouseByte, dif_neg hlast]
  have hstep := mousePacket_step (p := q ++ [b]) (t := { s' with
      packet := s'.packet.set s'.packetByte.toNat b s'.room
      packetByte := 0
      cursor := by obtain hsize | hsize := s'.size <;> rw [hsize] <;> decide }) rfl
    (by rw [List.length_append, List.length_singleton, hp, hq.size]) hq.set
  exact ⟨hstep.boundary, hstep.type.trans hq.type, hstep.size.trans hq.size,
    by rw [hstep.x, hq.x], by rw [hstep.y, hq.y],
    fun h5 hfour => by rw [hstep.z (hq.type.trans h5) (hq.size.trans hfour), hq.z], hstep.shows⟩

theorem mouseTaken_cons (r : U8 × U8) (reads : List (U8 × U8)) :
    mouseTaken (r :: reads) = if MouseWaits r.1 then r.2 :: mouseTaken reads else [] := by
  simp only [mouseTaken, List.takeWhile_cons, decide_eq_true_eq]
  split <;> rfl

theorem mouseHandleInterrupt_eq (reads : List (U8 × U8)) (s : MouseState) :
    mouseHandleInterrupt reads s = (mouseTaken reads).foldl mouseByte s := by
  induction reads generalizing s with
  | nil => rfl
  | cons r reads ih =>
      rw [mouseTaken_cons, mouseHandleInterrupt]
      split
      · exact ih _
      · rfl

/-- How the bytes are grouped into calls makes no difference. -/
theorem mouseRun_eq (calls : List (List (U8 × U8))) (s : MouseState) :
    mouseRun calls s = (calls.flatMap mouseTaken).foldl mouseByte s := by
  induction calls generalizing s with
  | nil => rfl
  | cons reads calls ih =>
      rw [List.flatMap_cons, List.foldl_append, ← ih, ← mouseHandleInterrupt_eq]
      rfl

/-- What a run over whole packets leaves. -/
structure MouseTotal (packets : List (List U8)) (s s' : MouseState) : Prop where
  boundary : s'.packetByte = 0
  type : s'.mouseType = s.mouseType
  size : s'.mousePacketSize = s.mousePacketSize
  x : s'.mouseX = s.mouseX +
    (packets.map fun p => mouseAxis msCpktXsign (p.getD 0 0) (p.getD 1 0)).sum
  y : s'.mouseY = s.mouseY -
    (packets.map fun p => mouseAxis msCpktYsign (p.getD 0 0) (p.getD 2 0)).sum
  z : s.mouseType = ps2Dev5btnMouse → s.mousePacketSize = 4 →
    s'.mouseZ = s.mouseZ + (packets.map MousePacket.scroll).sum
  shows : ∀ p, packets.getLast? = some p → MousePacket.Shows p s'

theorem mouseByte_packets {packets : List (List U8)} (h : s.packetByte = 0)
    (sizes : ∀ p ∈ packets, p.length = s.mousePacketSize.toNat) :
    MouseTotal packets s (packets.flatten.foldl mouseByte s) := by
  induction packets using List.reverseRecOn with
  | nil =>
      exact ⟨h, rfl, rfl, (add_zero _).symm, (sub_zero _).symm, fun _ _ => (add_zero _).symm,
        fun _ hp => absurd hp (by simp)⟩
  | append_singleton packets p ih =>
      have hrun := ih fun q hq => sizes q (List.mem_append_left _ hq)
      have hp := sizes p (List.mem_append_right _ (List.mem_singleton_self p))
      rw [List.flatten_append, List.flatten_singleton, List.foldl_append]
      generalize packets.flatten.foldl mouseByte s = t at hrun
      have hstep := mouseByte_packet (p := p) hrun.boundary (hrun.size.symm ▸ hp)
      have hsum (f : List U8 → U32) :
          ((packets ++ [p]).map f).sum = (packets.map f).sum + f p := by
        rw [List.map_append, List.sum_append, List.map_singleton, List.sum_singleton]
      constructor
      case boundary => exact hstep.boundary
      case type => exact hstep.type.trans hrun.type
      case size => exact hstep.size.trans hrun.size
      case x => rw [hstep.x, hrun.x, hsum, add_assoc]
      case y => rw [hstep.y, hrun.y, hsum, sub_sub]
      case z =>
          intro h5 hfour
          rw [hstep.z (hrun.type.trans h5) (hrun.size.trans hfour), hrun.z h5 hfour, hsum,
            add_assoc]
      case shows =>
          intro q hq
          rw [List.getLast?_concat] at hq
          cases hq
          exact hstep.shows

theorem mouseRun_packets {packets : List (List U8)} {calls : List (List (U8 × U8))}
    (boundary : s.packetByte = 0) (sizes : ∀ p ∈ packets, p.length = s.mousePacketSize.toNat)
    (h : MouseDelivers calls packets) : MouseTotal packets s (mouseRun calls s) := by
  rw [mouseRun_eq, h]
  exact mouseByte_packets boundary sizes

/-- The packets in one call. -/
def mouseAtOnce (packets : List (List U8)) : List (List (U8 × U8)) :=
  [packets.flatten.map fun byte => (ps2SrOut ||| ps2SrMouse, byte)]

theorem mouseAtOnce_delivers (packets : List (List U8)) :
    MouseDelivers (mouseAtOnce packets) packets := by
  rw [MouseDelivers, mouseAtOnce, List.flatMap_singleton]
  induction packets.flatten with
  | nil => rfl
  | cons byte bytes ih =>
      rw [List.map_cons, mouseTaken_cons,
        if_pos (show MouseWaits (ps2SrOut ||| ps2SrMouse) by decide), ih]

end Packets

/-- Motion is accumulated exactly iff the movements that do not fit a signed byte
cancel out along both axes. -/
theorem mouse_exact_iff (packets : List (List U8)) (s : MouseState) (boundary : s.packetByte = 0)
    (sizes : ∀ p ∈ packets, p.length = s.mousePacketSize.toNat) :
    MouseExact packets s ↔
      AxisBalanced msCpktXsign 1 packets ∧ AxisBalanced msCpktYsign 2 packets := by
  rw [← mouseAxis_sum_iff, ← mouseAxis_sum_iff]
  constructor
  · intro law
    have hdelivers := mouseAtOnce_delivers packets
    have hrun := mouseRun_packets boundary sizes hdelivers
    constructor
    · exact add_left_cancel (hrun.x.symm.trans (law.x _ hdelivers))
    · exact sub_right_injective (hrun.y.symm.trans (law.y _ hdelivers))
  · rintro ⟨hx, hy⟩
    constructor
    case x =>
        intro calls h
        rw [(mouseRun_packets boundary sizes h).x, hx]
        rfl
    case y =>
        intro calls h
        rw [(mouseRun_packets boundary sizes h).y, hy]
        rfl
    case z => exact fun calls h => (mouseRun_packets boundary sizes h).z
    case buttons =>
        intro before p calls hbefore h
        have hsizes : ∀ q ∈ before ++ [p], q.length = s.mousePacketSize.toNat := fun q hq =>
          sizes q (hbefore.subset hq)
        exact (mouseRun_packets boundary hsizes h).shows p List.getLast?_concat

/-- A five-button mouse at the start. -/
def mouse5btn : MouseState where
  mouseType := ps2Dev5btnMouse
  mousePacketSize := 4
  packetByte := 0
  packet := Vector.replicate 4 0
  mouseX := 0
  mouseY := 0
  mouseZ := 0
  mouseButtonStates := Vector.replicate 5 0
  size := .inr rfl
  cursor := by decide

theorem mouse_exact_slow :
    MouseExact [[0x19, 0xFB, 0x03, 0x1F]] mouse5btn :=
  (mouse_exact_iff [[0x19, 0xFB, 0x03, 0x1F]] mouse5btn rfl (by decide)).mpr
    ⟨by decide, by decide⟩

/-- A movement of 130 to the right. -/
theorem mouse_fast_packet : ¬ ∀ packets s, s.packetByte = 0 →
    (∀ p ∈ packets, p.length = s.mousePacketSize.toNat) → MouseExact packets s := by
  intro claim
  have hx := (claim [[0x08, 0x82, 0x00, 0x00]] mouse5btn rfl (by decide)).x _
    (mouseAtOnce_delivers _)
  exact absurd hx (by decide)

end DordOs
