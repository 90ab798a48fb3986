import DordOs.Libk.Align

/-!
The table of `libk/psf.c` from bytes to rows of eight pixels. Its rows are indexed
in the source; they run through all bytes in order.
-/
namespace DordOs

namespace PrecompTab

def o : U32 := 0x00000000
def X : U32 := 0xFFFFFFFF

end PrecompTab

open PrecompTab in
def precompTab : List (List U32) := [
  [o, o, o, o, o, o, o, o], [o, o, o, o, o, o, o, X],
  [o, o, o, o, o, o, X, o], [o, o, o, o, o, o, X, X],
  [o, o, o, o, o, X, o, o], [o, o, o, o, o, X, o, X],
  [o, o, o, o, o, X, X, o], [o, o, o, o, o, X, X, X],
  [o, o, o, o, X, o, o, o], [o, o, o, o, X, o, o, X],
  [o, o, o, o, X, o, X, o], [o, o, o, o, X, o, X, X],
  [o, o, o, o, X, X, o, o], [o, o, o, o, X, X, o, X],
  [o, o, o, o, X, X, X, o], [o, o, o, o, X, X, X, X],
  [o, o, o, X, o, o, o, o], [o, o, o, X, o, o, o, X],
  [o, o, o, X, o, o, X, o], [o, o, o, X, o, o, X, X],
  [o, o, o, X, o, X, o, o], [o, o, o, X, o, X, o, X],
  [o, o, o, X, o, X, X, o], [o, o, o, X, o, X, X, X],
  [o, o, o, X, X, o, o, o], [o, o, o, X, X, o, o, X],
  [o, o, o, X, X, o, X, o], [o, o, o, X, X, o, X, X],
  [o, o, o, X, X, X, o, o], [o, o, o, X, X, X, o, X],
  [o, o, o, X, X, X, X, o], [o, o, o, X, X, X, X, X],
  [o, o, X, o, o, o, o, o], [o, o, X, o, o, o, o, X],
  [o, o, X, o, o, o, X, o], [o, o, X, o, o, o, X, X],
  [o, o, X, o, o, X, o, o], [o, o, X, o, o, X, o, X],
  [o, o, X, o, o, X, X, o], [o, o, X, o, o, X, X, X],
  [o, o, X, o, X, o, o, o], [o, o, X, o, X, o, o, X],
  [o, o, X, o, X, o, X, o], [o, o, X, o, X, o, X, X],
  [o, o, X, o, X, X, o, o], [o, o, X, o, X, X, o, X],
  [o, o, X, o, X, X, X, o], [o, o, X, o, X, X, X, X],
  [o, o, X, X, o, o, o, o], [o, o, X, X, o, o, o, X],
  [o, o, X, X, o, o, X, o], [o, o, X, X, o, o, X, X],
  [o, o, X, X, o, X, o, o], [o, o, X, X, o, X, o, X],
  [o, o, X, X, o, X, X, o], [o, o, X, X, o, X, X, X],
  [o, o, X, X, X, o, o, o], [o, o, X, X, X, o, o, X],
  [o, o, X, X, X, o, X, o], [o, o, X, X, X, o, X, X],
  [o, o, X, X, X, X, o, o], [o, o, X, X, X, X, o, X],
  [o, o, X, X, X, X, X, o], [o, o, X, X, X, X, X, X],
  [o, X, o, o, o, o, o, o], [o, X, o, o, o, o, o, X],
  [o, X, o, o, o, o, X, o], [o, X, o, o, o, o, X, X],
  [o, X, o, o, o, X, o, o], [o, X, o, o, o, X, o, X],
  [o, X, o, o, o, X, X, o], [o, X, o, o, o, X, X, X],
  [o, X, o, o, X, o, o, o], [o, X, o, o, X, o, o, X],
  [o, X, o, o, X, o, X, o], [o, X, o, o, X, o, X, X],
  [o, X, o, o, X, X, o, o], [o, X, o, o, X, X, o, X],
  [o, X, o, o, X, X, X, o], [o, X, o, o, X, X, X, X],
  [o, X, o, X, o, o, o, o], [o, X, o, X, o, o, o, X],
  [o, X, o, X, o, o, X, o], [o, X, o, X, o, o, X, X],
  [o, X, o, X, o, X, o, o], [o, X, o, X, o, X, o, X],
  [o, X, o, X, o, X, X, o], [o, X, o, X, o, X, X, X],
  [o, X, o, X, X, o, o, o], [o, X, o, X, X, o, o, X],
  [o, X, o, X, X, o, X, o], [o, X, o, X, X, o, X, X],
  [o, X, o, X, X, X, o, o], [o, X, o, X, X, X, o, X],
  [o, X, o, X, X, X, X, o], [o, X, o, X, X, X, X, X],
  [o, X, X, o, o, o, o, o], [o, X, X, o, o, o, o, X],
  [o, X, X, o, o, o, X, o], [o, X, X, o, o, o, X, X],
  [o, X, X, o, o, X, o, o], [o, X, X, o, o, X, o, X],
  [o, X, X, o, o, X, X, o], [o, X, X, o, o, X, X, X],
  [o, X, X, o, X, o, o, o], [o, X, X, o, X, o, o, X],
  [o, X, X, o, X, o, X, o], [o, X, X, o, X, o, X, X],
  [o, X, X, o, X, X, o, o], [o, X, X, o, X, X, o, X],
  [o, X, X, o, X, X, X, o], [o, X, X, o, X, X, X, X],
  [o, X, X, X, o, o, o, o], [o, X, X, X, o, o, o, X],
  [o, X, X, X, o, o, X, o], [o, X, X, X, o, o, X, X],
  [o, X, X, X, o, X, o, o], [o, X, X, X, o, X, o, X],
  [o, X, X, X, o, X, X, o], [o, X, X, X, o, X, X, X],
  [o, X, X, X, X, o, o, o], [o, X, X, X, X, o, o, X],
  [o, X, X, X, X, o, X, o], [o, X, X, X, X, o, X, X],
  [o, X, X, X, X, X, o, o], [o, X, X, X, X, X, o, X],
  [o, X, X, X, X, X, X, o], [o, X, X, X, X, X, X, X],
  [X, o, o, o, o, o, o, o], [X, o, o, o, o, o, o, X],
  [X, o, o, o, o, o, X, o], [X, o, o, o, o, o, X, X],
  [X, o, o, o, o, X, o, o], [X, o, o, o, o, X, o, X],
  [X, o, o, o, o, X, X, o], [X, o, o, o, o, X, X, X],
  [X, o, o, o, X, o, o, o], [X, o, o, o, X, o, o, X],
  [X, o, o, o, X, o, X, o], [X, o, o, o, X, o, X, X],
  [X, o, o, o, X, X, o, o], [X, o, o, o, X, X, o, X],
  [X, o, o, o, X, X, X, o], [X, o, o, o, X, X, X, X],
  [X, o, o, X, o, o, o, o], [X, o, o, X, o, o, o, X],
  [X, o, o, X, o, o, X, o], [X, o, o, X, o, o, X, X],
  [X, o, o, X, o, X, o, o], [X, o, o, X, o, X, o, X],
  [X, o, o, X, o, X, X, o], [X, o, o, X, o, X, X, X],
  [X, o, o, X, X, o, o, o], [X, o, o, X, X, o, o, X],
  [X, o, o, X, X, o, X, o], [X, o, o, X, X, o, X, X],
  [X, o, o, X, X, X, o, o], [X, o, o, X, X, X, o, X],
  [X, o, o, X, X, X, X, o], [X, o, o, X, X, X, X, X],
  [X, o, X, o, o, o, o, o], [X, o, X, o, o, o, o, X],
  [X, o, X, o, o, o, X, o], [X, o, X, o, o, o, X, X],
  [X, o, X, o, o, X, o, o], [X, o, X, o, o, X, o, X],
  [X, o, X, o, o, X, X, o], [X, o, X, o, o, X, X, X],
  [X, o, X, o, X, o, o, o], [X, o, X, o, X, o, o, X],
  [X, o, X, o, X, o, X, o], [X, o, X, o, X, o, X, X],
  [X, o, X, o, X, X, o, o], [X, o, X, o, X, X, o, X],
  [X, o, X, o, X, X, X, o], [X, o, X, o, X, X, X, X],
  [X, o, X, X, o, o, o, o], [X, o, X, X, o, o, o, X],
  [X, o, X, X, o, o, X, o], [X, o, X, X, o, o, X, X],
  [X, o, X, X, o, X, o, o], [X, o, X, X, o, X, o, X],
  [X, o, X, X, o, X, X, o], [X, o, X, X, o, X, X, X],
  [X, o, X, X, X, o, o, o], [X, o, X, X, X, o, o, X],
  [X, o, X, X, X, o, X, o], [X, o, X, X, X, o, X, X],
  [X, o, X, X, X, X, o, o], [X, o, X, X, X, X, o, X],
  [X, o, X, X, X, X, X, o], [X, o, X, X, X, X, X, X],
  [X, X, o, o, o, o, o, o], [X, X, o, o, o, o, o, X],
  [X, X, o, o, o, o, X, o], [X, X, o, o, o, o, X, X],
  [X, X, o, o, o, X, o, o], [X, X, o, o, o, X, o, X],
  [X, X, o, o, o, X, X, o], [X, X, o, o, o, X, X, X],
  [X, X, o, o, X, o, o, o], [X, X, o, o, X, o, o, X],
  [X, X, o, o, X, o, X, o], [X, X, o, o, X, o, X, X],
  [X, X, o, o, X, X, o, o], [X, X, o, o, X, X, o, X],
  [X, X, o, o, X, X, X, o], [X, X, o, o, X, X, X, X],
  [X, X, o, X, o, o, o, o], [X, X, o, X, o, o, o, X],
  [X, X, o, X, o, o, X, o], [X, X, o, X, o, o, X, X],
  [X, X, o, X, o, X, o, o], [X, X, o, X, o, X, o, X],
  [X, X, o, X, o, X, X, o], [X, X, o, X, o, X, X, X],
  [X, X, o, X, X, o, o, o], [X, X, o, X, X, o, o, X],
  [X, X, o, X, X, o, X, o], [X, X, o, X, X, o, X, X],
  [X, X, o, X, X, X, o, o], [X, X, o, X, X, X, o, X],
  [X, X, o, X, X, X, X, o], [X, X, o, X, X, X, X, X],
  [X, X, X, o, o, o, o, o], [X, X, X, o, o, o, o, X],
  [X, X, X, o, o, o, X, o], [X, X, X, o, o, o, X, X],
  [X, X, X, o, o, X, o, o], [X, X, X, o, o, X, o, X],
  [X, X, X, o, o, X, X, o], [X, X, X, o, o, X, X, X],
  [X, X, X, o, X, o, o, o], [X, X, X, o, X, o, o, X],
  [X, X, X, o, X, o, X, o], [X, X, X, o, X, o, X, X],
  [X, X, X, o, X, X, o, o], [X, X, X, o, X, X, o, X],
  [X, X, X, o, X, X, X, o], [X, X, X, o, X, X, X, X],
  [X, X, X, X, o, o, o, o], [X, X, X, X, o, o, o, X],
  [X, X, X, X, o, o, X, o], [X, X, X, X, o, o, X, X],
  [X, X, X, X, o, X, o, o], [X, X, X, X, o, X, o, X],
  [X, X, X, X, o, X, X, o], [X, X, X, X, o, X, X, X],
  [X, X, X, X, X, o, o, o], [X, X, X, X, X, o, o, X],
  [X, X, X, X, X, o, X, o], [X, X, X, X, X, o, X, X],
  [X, X, X, X, X, X, o, o], [X, X, X, X, X, X, o, X],
  [X, X, X, X, X, X, X, o], [X, X, X, X, X, X, X, X]]

/-- The pixels of a byte, highest bit first. -/
def bitPixel (b : U8) (x : Nat) : U32 := if b.getLsbD (7 - x) then 0xFFFFFFFF else 0

theorem precompTab_eq : precompTab = (List.range 256).map fun b =>
    (List.range 8).map (bitPixel (BitVec.ofNat 8 b)) := by
  decide +kernel

theorem precompTab_row (b : U8) :
    precompTab.getD b.toNat [] = (List.range 8).map (bitPixel b) := by
  rw [precompTab_eq, List.getD_eq_getElem?_getD, List.getElem?_map, List.getElem?_range b.isLt,
    Option.map_some, Option.getD_some, BitVec.ofNat_toNat, BitVec.setWidth_eq]

end DordOs
