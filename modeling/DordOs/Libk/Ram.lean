import DordOs.Lib.Elements
import DordOs.Libk.Move

/-!
The block moves and fills of `libk/memory.c` and `libk/memory.h` on byte memory, where
objects lie side by side and an element is 1, 2 or 4 bytes.
-/
namespace DordOs
open Lib

namespace Ram

def mset8 (m : Mem) (dst : Addr) (val : U8) (count : U32) : Mem :=
  fillElems m dst (leBytes 1 val.toNat) count.toNat

def mset16 (m : Mem) (dst : Addr) (val : U16) (count : U32) : Mem :=
  fillElems m dst (leBytes 2 val.toNat) count.toNat

def mset32 (m : Mem) (dst : Addr) (val : U32) (count : U32) : Mem :=
  fillElems m dst (leBytes 4 val.toNat) count.toNat

/-- The memory after the loop and the returned pointer. -/
def mmove8 (m : Mem) (dst src : Addr) (count : U32) : Mem × Addr :=
  (moveElems 1 m dst src count.toNat, dst)

def mmove16 (m : Mem) (dst src : Addr) (count : U32) : Mem × Addr :=
  (moveElems 2 m dst src count.toNat, dst)

def mmove32 (m : Mem) (dst src : Addr) (count : U32) : Mem × Addr :=
  (moveElems 4 m dst src count.toNat, dst)

section Outside

variable {m : Mem} {dst a : Addr} {count : U32}

theorem mset8_outside {val : U8} (h : ¬ InSpan dst count.toNat a) :
    mset8 m dst val count a = m a :=
  fillElems_outside (by rwa [length_leBytes, Nat.one_mul])

theorem mset16_outside {val : U16} (h : ¬ InSpan dst (2 * count.toNat) a) :
    mset16 m dst val count a = m a :=
  fillElems_outside (by rwa [length_leBytes])

theorem mset32_outside {val : U32} (h : ¬ InSpan dst (4 * count.toNat) a) :
    mset32 m dst val count a = m a :=
  fillElems_outside (by rwa [length_leBytes])

end Outside

section Cells

variable {α : Type} {enc : α → Bytes} {w : Nat} {m : Mem} {base : Addr} {cells : List α}

theorem base_add_succ (base : Addr) (w i : Nat) :
    base + BitVec.ofNat 32 (w * i) + BitVec.ofNat 32 w = base + BitVec.ofNat 32 (w * (i + 1)) := by
  rw [addr_add_add, Nat.mul_succ]

/-- The fill of a list of cells is the fill of their bytes. -/
theorem holds_mset (henc : ∀ v, (enc v).length = w) (h : Holds m base (cells.flatMap enc))
    {dst count : Nat} {v : α} {filled : List α} (hfill : mset cells dst v count = some filled) :
    Holds (fillElems m (base + BitVec.ofNat 32 (w * dst)) (enc v) count) base
      (filled.flatMap enc) := by
  induction count generalizing m cells dst with
  | zero =>
      rw [mset, Option.some.injEq] at hfill
      rwa [← hfill, fillElems]
  | succ count ih =>
      rw [mset, Option.bind_eq_bind, Option.bind_eq_some_iff] at hfill
      obtain ⟨cells', hstore, hfill⟩ := hfill
      rw [store, Option.ite_none_right_eq_some, Option.some.injEq] at hstore
      obtain ⟨hlt, rfl⟩ := hstore
      rw [fillElems, henc, base_add_succ]
      exact ih (h.set_elem henc hlt v) hfill

theorem holds_mset_start (henc : ∀ v, (enc v).length = w) (h : Holds m base (cells.flatMap enc))
    {count : Nat} {v : α} {filled : List α} (hfill : mset cells 0 v count = some filled) :
    Holds (fillElems m base (enc v) count) base (filled.flatMap enc) := by
  have hbase : base + BitVec.ofNat 32 (w * 0) = base := BitVec.add_zero base
  have hholds := holds_mset henc h hfill
  rwa [hbase] at hholds

theorem holds_mset16 {cells filled : List U16} {val : U16} {count : U32}
    (h : Holds m base (cells.flatMap fun v => leBytes 2 v.toNat))
    (hfill : DordOs.mset16 cells 0 val count = some filled) :
    Holds (mset16 m base val count) base (filled.flatMap fun v => leBytes 2 v.toNat) :=
  holds_mset_start (fun v : U16 => length_leBytes 2 v.toNat) h hfill

theorem holds_mset32 {cells filled : List U32} {val count : U32}
    (h : Holds m base (cells.flatMap fun v => leBytes 4 v.toNat))
    (hfill : mset cells 0 val count.toNat = some filled) :
    Holds (mset32 m base val count) base (filled.flatMap fun v => leBytes 4 v.toNat) :=
  holds_mset_start (fun v : U32 => length_leBytes 4 v.toNat) h hfill

end Cells

end Ram

/-- The ranges of a move of `count` elements of `w` bytes, both in the address space. -/
structure MoveRanges (w : Nat) where
  dst : Addr
  src : Addr
  count : U32
  dstFits : dst.toNat + w * count.toNat ≤ 2 ^ 32
  srcFits : src.toNat + w * count.toNat ≤ 2 ^ 32

namespace MoveRanges

variable {w : Nat} (r : MoveRanges w) (m : Mem)

/-- How far the destination begins behind the source, if it does. -/
def ahead : Nat := r.dst.toNat - r.src.toNat

/-- Where the move reads a cell that it has already written, the source repeats itself. -/
def Repeats : Prop :=
  ∀ k, k < w * r.count.toNat → r.ahead ≤ k → k % w < r.ahead →
    m (r.src + BitVec.ofNat 32 k) = m (r.src + BitVec.ofNat 32 (k - r.ahead))

/-- The memory after a call holds in the destination what the source held before it, and is
otherwise as before. -/
def Copied (m' : Mem) : Prop := Copies m r.dst r.src (w * r.count.toNat) m'

theorem copied_iff_repeats :
    r.Copied m (moveElems w m r.dst r.src r.count.toNat) ↔ r.Repeats m :=
  (moveElems_moves r.dstFits r.srcFits).copies_iff

/-- The moves that are always right: downwards, or between ranges that do not overlap. -/
theorem repeats_of_apart
    (h : r.dst.toNat ≤ r.src.toNat ∨ r.src.toNat + w * r.count.toNat ≤ r.dst.toNat) :
    r.Repeats m := by
  intro k hk hle hlt
  rw [ahead] at hle hlt
  omega

end MoveRanges

theorem mmove_copied_iff (m : Mem) :
    (∀ r : MoveRanges 1, r.Copied m (Ram.mmove8 m r.dst r.src r.count).1 ↔ r.Repeats m) ∧
    (∀ r : MoveRanges 2, r.Copied m (Ram.mmove16 m r.dst r.src r.count).1 ↔ r.Repeats m) ∧
    ∀ r : MoveRanges 4, r.Copied m (Ram.mmove32 m r.dst r.src r.count).1 ↔ r.Repeats m :=
  ⟨fun r => r.copied_iff_repeats m, fun r => r.copied_iff_repeats m,
    fun r => r.copied_iff_repeats m⟩

/-- One byte moved up over the next one arrives twice. -/
theorem mmove_overrun :
    ¬ ∀ (m : Mem) (r : MoveRanges 1), r.Copied m (Ram.mmove8 m r.dst r.src r.count).1 := by
  intro hall
  have hcopied := hall (fun a => if a = 0x1000 then 0x41 else 0)
    ⟨0x1001, 0x1000, 2, by decide, by decide⟩
  exact absurd (hcopied.inside 1 (by decide)) (by decide)

end DordOs
