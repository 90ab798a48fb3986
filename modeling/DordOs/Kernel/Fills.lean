import DordOs.Libk.Ram
import DordOs.Libk.Render
import DordOs.Drivers.Terminal

/-!
Objects that the kernel initialises with one of the `mset` functions, in byte memory: the
descriptor table of `gdt.c`, the bits of `pmman.c`, the text buffer of `terminal.c` and the
pixels of `render.c`.
-/
namespace DordOs
open Lib

/-- `sizeof(gdt_t)`. -/
def gdtSize : U32 := 8

/-- The assignments to the fields of `gdt[1]` and of `gdt[2]`: `access`, `base_high`,
`base_low`, `base_mid`, `flags` and `limit_low`. -/
def gdtFlatEntry (m : Mem) (entry : Addr) (access : U8) : Mem :=
  let m := writeBytes m (entry + BitVec.ofNat 32 5) [access]
  let m := writeBytes m (entry + BitVec.ofNat 32 7) [0x0]
  let m := writeBytes m (entry + BitVec.ofNat 32 2) (leBytes 2 0x0)
  let m := writeBytes m (entry + BitVec.ofNat 32 4) [0x0]
  let m := writeBytes m (entry + BitVec.ofNat 32 6) [0b11001111]
  writeBytes m (entry + BitVec.ofNat 32 0) (leBytes 2 0xFFFF)

def gdtMakeFlat (m : Mem) (gdt : Addr) : Mem :=
  let m := Ram.mset32 m gdt 0 (gdtSize * 3)
  let m := gdtFlatEntry m (gdt + BitVec.ofNat 32 8) 0b10011010
  gdtFlatEntry m (gdt + BitVec.ofNat 32 16) 0b10010010

/-- `map->bits` of a `pmman_map_t`, behind `block_size` and `base`. -/
def pmmanBitsAt (map : Addr) : Addr := map + 8

/-- The fill at the beginning of `pmman_initialize`; `sizeof(map->bits)` is 128. -/
def pmmanFillBits (m : Mem) (map : Addr) : Mem := Ram.mset8 m (pmmanBitsAt map) 0xFF 128

/-- The memory with the text buffer, and the variable `terminal_pos`. -/
structure Console where
  mem : Mem
  terminalPos : U32

def terminalBuf : Addr := 0xB8000

def terminalClear (s : Console) : Console :=
  { s with mem := Ram.mset16 s.mem terminalBuf 0 2000, terminalPos := 0 }

theorem terminalClear_mem (s : Console) :
    (terminalClear s).mem = Ram.mset16 s.mem terminalBuf 0 2000 := by
  rw [terminalClear]

/-- `render_clear` on a framebuffer with these `px_data` and `px_count`. -/
def renderClear (m : Mem) (pxData : Addr) (pxCount : Usz) (color : U32) : Mem :=
  Ram.mset32 m pxData color pxCount

/-- The memory is changed in no byte outside the `n` bytes of the object at `start`. -/
def ChangedWithin (start : Addr) (n : Nat) (m m' : Mem) : Prop :=
  ∀ a, ¬ InSpan start n a → m' a = m a

/-- The four initialisations stay inside their objects. -/
structure FillsInside (m : Mem) (gdt map pxData : Addr) (pxCount : Usz) (color pos : U32) :
    Prop where
  gdt : ChangedWithin gdt 24 m (gdtMakeFlat m gdt)
  bits : ChangedWithin (pmmanBitsAt map) 128 m (pmmanFillBits m map)
  terminal : ChangedWithin terminalBuf (2 * terminalSize) m (terminalClear ⟨m, pos⟩).mem
  pixels : ChangedWithin pxData (4 * pxCount.toNat) m (renderClear m pxData pxCount color)

variable {m : Mem} {a gdt : Addr}

theorem gdtFlatEntry_outside {k : Nat} {access : U8} (hk : k + 8 ≤ 24) (h : ¬ InSpan gdt 24 a)
    (m : Mem) : gdtFlatEntry m (gdt + BitVec.ofNat 32 k) access a = m a := by
  have hfield {j : Nat} {l : Bytes} {m : Mem} (hj : j + l.length ≤ 8) :
      writeBytes m (gdt + BitVec.ofNat 32 k + BitVec.ofNat 32 j) l a = m a := by
    refine writeBytes_outside fun hin => h ?_
    rw [addr_add_add] at hin
    exact hin.of_add (by omega) (by decide)
  rw [gdtFlatEntry, hfield (by decide), hfield (by decide), hfield (by decide),
    hfield (by decide), hfield (by decide), hfield (show 5 + 1 ≤ 8 by decide)]

/-- `mset32` counts elements of four bytes, the call gives it bytes. -/
theorem gdtMakeFlat_outside (h : ¬ InSpan gdt 24 a) :
    gdtMakeFlat m gdt a = if InSpan gdt 96 a then 0 else m a := by
  rw [gdtMakeFlat, gdtFlatEntry_outside (by decide) h, gdtFlatEntry_outside (by decide) h]
  exact fillElems_replicate 0 (show 24 * 4 ≤ 2 ^ 32 by decide)

theorem gdtMakeFlat_inside_iff :
    ChangedWithin gdt 24 m (gdtMakeFlat m gdt) ↔
      ∀ k, 24 ≤ k → k < 96 → m (gdt + BitVec.ofNat 32 k) = 0 := by
  constructor
  · intro hinside k hlo hhi
    have hofs := toNat_addr_add_sub gdt (show k < 2 ^ 32 by omega)
    have hout : ¬ InSpan gdt 24 (gdt + BitVec.ofNat 32 k) := by
      rw [InSpan, hofs]
      omega
    have hin : InSpan gdt 96 (gdt + BitVec.ofNat 32 k) := by
      rwa [InSpan, hofs]
    rw [← hinside _ hout, gdtMakeFlat_outside hout, if_pos hin]
  · intro hzero a hout
    rw [gdtMakeFlat_outside hout]
    split
    next hin =>
      rw [← hzero _ (Nat.not_lt.mp hout) hin, addr_add_toNat_sub]
    next => rfl

theorem fills_inside_iff (m : Mem) (gdt map pxData : Addr) (pxCount : Usz) (color pos : U32) :
    FillsInside m gdt map pxData pxCount color pos ↔
      ∀ k, 24 ≤ k → k < 96 → m (gdt + BitVec.ofNat 32 k) = 0 := by
  rw [← gdtMakeFlat_inside_iff]
  have hcells : (2000 : U32).toNat = terminalSize := rfl
  refine ⟨FillsInside.gdt, fun hgdt => ⟨hgdt, fun a hout => ?_, fun a hout => ?_, fun a hout => ?_⟩⟩
  · exact Ram.mset8_outside hout
  · rw [← hcells] at hout
    rw [terminalClear_mem, Ram.mset16_outside hout]
  · exact Ram.mset32_outside hout

/-- A byte of a neighbour of the table is lost. -/
theorem fills_overrun :
    ¬ ∀ (m : Mem) (gdt map pxData : Addr) (pxCount : Usz) (color pos : U32),
      FillsInside m gdt map pxData pxCount color pos := by
  intro hall
  have hgdt := (hall (fun _ => 0x55) 0x100000 0x200000 0x300000 16 0 0).gdt
  have hout : ¬ InSpan 0x100000 24 0x100018 := by decide
  have hin : InSpan 0x100000 96 0x100018 := by decide
  have hkept := (gdtMakeFlat_outside hout).symm.trans (hgdt 0x100018 hout)
  rw [if_pos hin] at hkept
  exact absurd hkept (by decide)

/-- What `terminal_clear` does to the buffer and the position it does to memory. -/
theorem terminalClear_refines {t t' : Terminal} {s : Console}
    (hbuf : Holds s.mem terminalBuf (t.buf.flatMap fun v => leBytes 2 v.toNat))
    (hclear : t.clear = some t') :
    Holds (terminalClear s).mem terminalBuf (t'.buf.flatMap fun v => leBytes 2 v.toNat) ∧
      (terminalClear s).terminalPos = t'.pos := by
  rw [Terminal.clear, Option.bind_eq_bind, Option.bind_eq_some_iff] at hclear
  obtain ⟨buf, hfill, hend⟩ := hclear
  rw [← Option.some.inj hend]
  refine ⟨?_, rfl⟩
  rw [terminalClear_mem]
  exact Ram.holds_mset16 hbuf hfill

/-- `render_clear` gives every pixel the colour. -/
theorem renderClear_pixels {m : Mem} {fb : Framebuf} {pxData : Addr} (hfb : fb.Formed)
    (hpx : Holds m pxData (fb.pxData.flatMap fun v => leBytes 4 v.toNat)) (color : U32) :
    Holds (renderClear m pxData fb.pxCount color) pxData
      ((List.replicate fb.pxData.length color).flatMap fun v => leBytes 4 v.toNat) := by
  have hfill := mset_all fb.pxData color
  rw [hfb.data] at hfill ⊢
  exact Ram.holds_mset32 hpx hfill

end DordOs
