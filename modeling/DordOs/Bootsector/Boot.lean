import DordOs.Lib.RealMode
import DordOs.Stage2.Elf
import DordOs.Stage2.Search

/-!
The boot sector: `boot.asm` and `read_sectors` of `drive.asm`, with the stack that they and the
firmware use and the disk address packet in memory. All data segments are zero, so that an
offset is an address.
-/
namespace DordOs
open Lib

/-- The sectors that `int 0x13` with `ah` = 0x42 reads from the drive of this number: from
an LBA on, so many; or the carry flag. -/
abbrev BiosDrives := U8 → U64 → U16 → Option Bytes

/-- Reads inside the image give its sectors. -/
def BiosDrives.Returns (drives : BiosDrives) (dl : U8) (image : Bytes) : Prop :=
  ∀ (lba : U64) (count : U16), 512 * (lba.toNat + count.toNat) ≤ image.length →
    drives dl lba count = some (slice image (512 * lba.toNat) (512 * count.toNat))

/-- `STAGE2_ADDR`. -/
def stage2Addr : U16 := 0x7F00

/-- The variables of the boot sector, its code segment, and the addresses behind its calls and
its interrupts. -/
structure BootText where
  dap : U16
  bootDrive : U16
  cs : U16
  ret1 : U16
  ret2 : U16
  videoModeRet : U16
  printRet : U16
  diskRet : U16
  dap_low : 0x7C00 ≤ dap.toNat
  dap_high : dap.toNat + 16 ≤ 0x7E00
  drive_low : 0x7C00 ≤ bootDrive.toNat
  drive_high : bootDrive.toNat < 0x7E00
  apart : bootDrive.toNat < dap.toNat ∨ dap.toNat + 16 ≤ bootDrive.toNat

structure BootCpu where
  ax : U16
  bx : U16
  cx : U16
  dx : U16
  si : U16
  di : U16
  sp : U16
  mem : Mem

/-- The address of an offset in segment 0. -/
def linear (ofs : U16) : Addr := ofs.setWidth 32

namespace BootCpu

def push (m : BootCpu) (v : U16) : BootCpu :=
  { m with sp := m.sp - 2, mem := storeWord m.mem (linear (m.sp - 2)) v }

/-- The word `pop` and `ret` load. -/
def top (m : BootCpu) : U16 := loadWord m.mem (linear m.sp)

def drop (m : BootCpu) : BootCpu := { m with sp := m.sp + 2 }

def dl (m : BootCpu) : U8 := m.dx.setWidth 8

def withDl (dx : U16) (v : U8) : U16 := dx &&& 0xFF00 ||| v.setWidth 16

/-- The pushes at the beginning of `read_sectors`. -/
def pushArgs (m : BootCpu) : BootCpu :=
  ((((m.push m.si).push m.di).push m.cx).push m.ax).push m.dx

/-- The pops at its end. -/
def popArgs (m : BootCpu) : BootCpu :=
  let m := { m.drop with dx := m.top }
  let m := { m.drop with ax := m.top }
  let m := { m.drop with cx := m.top }
  let m := { m.drop with di := m.top }
  { m.drop with si := m.top }

end BootCpu

/-- How the boot sector ends: it may also lose the way if a return address is overwritten. -/
inductive BootExit
  | panic
  | lost
  | stage2 (m : BootCpu)

/-- The flags as an interrupt pushes them, and the firmware that it enters: its drives, what a
routine leaves in `ax`, and the memory it leaves, up to the data that it reads. The other
registers come back as they were. -/
structure Firmware where
  drives : BiosDrives
  flags : BootCpu → U16
  ax : BootCpu → U16
  uses : BootCpu → Mem

namespace BootCpu

/-- `int` pushes the flags, the code segment and the address behind it. -/
def enter (fw : Firmware) (t : BootText) (ret : U16) (m : BootCpu) : BootCpu :=
  ((m.push (fw.flags m)).push t.cs).push ret

/-- `iret` at the end of the routine. -/
def resume (t : BootText) (ret : U16) (m : BootCpu) (next : BootCpu → BootExit) : BootExit :=
  if m.top = ret ∧ m.drop.top = t.cs then next m.drop.drop.drop else .lost

def int10 (fw : Firmware) (t : BootText) (ret : U16) (m : BootCpu)
    (next : BootCpu → BootExit) : BootExit :=
  let m := m.enter fw t ret
  resume t ret { m with ax := fw.ax m, mem := fw.uses m } next

/-- `int 0x13` with `ah` = 0x42: the packet at `si` says what to read, and where to. The jump
on the carry flag follows it. -/
def int13 (fw : Firmware) (t : BootText) (m : BootCpu) (next : BootCpu → BootExit) : BootExit :=
  let m := m.enter fw t t.diskRet
  let count := loadWord m.mem (linear m.si + 2)
  let ofs := loadWord m.mem (linear m.si + 4)
  let seg := loadWord m.mem (linear m.si + 6)
  let lba := BitVec.ofNat 64 (leValue (readBytes m.mem (linear m.si + 8) 8))
  match fw.drives m.dl lba count with
  | none => resume t t.diskRet { m with ax := fw.ax m, mem := fw.uses m } fun _ => .panic
  | some data =>
      let mem := writeBytes (fw.uses m) (seg.setWidth 32 * 16 + linear ofs) data
      resume t t.diskRet { m with ax := fw.ax m, mem := mem } next

/-- Between the pushes and the interrupt: the packet is filled in and the drive is named. -/
def fillDap (t : BootText) (m : BootCpu) : BootCpu :=
  let mem := storeWord m.mem (linear t.dap + 2) m.cx
  let mem := storeWord mem (linear t.dap + 4) m.di
  let mem := storeWord mem (linear t.dap + 8) m.si
  { m with
    mem := mem
    ax := m.ax &&& 0xFF ||| 0x4200
    si := t.dap
    dx := withDl m.dx (mem (linear t.bootDrive)) }

/-- `read_sectors`, up to its `ret`. -/
def readSectors (fw : Firmware) (t : BootText) (m : BootCpu) (next : BootCpu → BootExit) :
    BootExit :=
  (m.pushArgs.fillDap t).int13 fw t fun m => next m.popArgs

/-- `call read_sectors` with the address behind it, and what comes next. -/
def callRead (fw : Firmware) (t : BootText) (ret : U16) (m : BootCpu)
    (next : BootCpu → BootExit) : BootExit :=
  (m.push ret).readSectors fw t fun m => if m.top ≠ ret then .lost else next m.drop

end BootCpu

/-- `init`. -/
def boot (fw : Firmware) (t : BootText) (m : BootCpu) : BootExit :=
  let m := { m with sp := 0xFFFF, ax := 0x4F02, bx := 0x03 }
  m.int10 fw t t.videoModeRet fun m =>
    if m.ax.setWidth 8 ≠ (0x4F : U8) then .panic
    else
      let m := { m with mem := m.mem.set (linear t.bootDrive) m.dl }
      let m := { m with ax := 0x0952, bx := 0x0F, cx := 1 }
      m.int10 fw t t.printRet fun m =>
        let m := { m with di := stage2Addr, si := 1, cx := 1 }
        m.callRead fw t t.ret1 fun m =>
          let m := { m with ax := loadWord m.mem (linear stage2Addr) }
          let m := { m with di := stage2Addr, si := 2, cx := m.ax }
          m.callRead fw t t.ret2 fun m =>
            .stage2 { m with dx := BootCpu.withDl m.dx (m.mem (linear t.bootDrive)) }

/-- The video mode can be set: `al` says that the function is there. -/
def Firmware.SetsMode (fw : Firmware) : Prop :=
  ∀ m : BootCpu, m.ax = 0x4F02 → m.bx = 0x03 → (fw.ax m).setWidth 8 = (0x4F : U8)

/-- Conventional memory, apart from `n` bytes below the stack. -/
structure BootCpu.Spared (m : BootCpu) (n : Nat) (a : Addr) : Prop where
  low : 0x500 ≤ a.toNat
  high : a.toNat < 0x80000
  apart : a.toNat + n < m.sp.toNat ∨ m.sp.toNat ≤ a.toNat

/-- A routine leaves conventional memory as it is, apart from `depth` bytes below the stack and
the flags that lie on it. -/
def Firmware.Keeps (fw : Firmware) (depth : Nat) : Prop :=
  ∀ m : BootCpu, depth ≤ m.sp.toNat → ∀ a : Addr, m.Spared depth a →
    (a.toNat < m.sp.toNat + 4 ∨ m.sp.toNat + 6 ≤ a.toNat) → fw.uses m a = m.mem a

/-- The disk address packet in memory. -/
def dapBytes (count ofs lba : U16) : Bytes :=
  [0x10, 0] ++ wordBytes count ++ wordBytes ofs ++ [0, 0] ++ wordBytes lba ++ zeros 6

/-- The stack from `sp` on. -/
def BootCpu.Stack (m : BootCpu) (words : List U16) : Prop :=
  Holds m.mem (linear m.sp) (stackBytes words)

theorem toNat_linear (ofs : U16) : (linear ofs).toNat = ofs.toNat := by
  rw [linear, BitVec.toNat_setWidth]
  exact Nat.mod_eq_of_lt (Nat.lt_trans ofs.isLt (by decide))

theorem toNat_linear_add (ofs : U16) {k : Nat} (hk : k < 2 ^ 16) :
    (linear ofs + BitVec.ofNat 32 k).toNat = ofs.toNat + k := by
  have hlt := ofs.isLt
  rw [toNat_addr_add (by rw [toNat_linear]; omega), toNat_linear]

theorem dl_withDl (dx : U16) (v : U8) : (BootCpu.withDl dx v).setWidth 8 = v := by
  have hmask : (0xFF00 : U16).setWidth 8 = (0 : U8) := by decide
  rw [BootCpu.withDl, BitVec.setWidth_or, BitVec.setWidth_and, hmask,
    BitVec.setWidth_setWidth_of_le v (by decide), BitVec.setWidth_eq]
  simp

namespace BootCpu

variable {m : BootCpu} {words : List U16} {t : BootText}

@[simp] theorem drop_mem (m : BootCpu) : m.drop.mem = m.mem := rfl

@[simp] theorem drop_sp (m : BootCpu) : m.drop.sp = m.sp + 2 := rfl

theorem stack_nil (m : BootCpu) : m.Stack [] :=
  ⟨Nat.le_of_lt (BitVec.isLt _), fun k hk => absurd hk (Nat.not_lt_zero k)⟩

theorem toNat_sp_sub (hsp : 2 ≤ m.sp.toNat) :
    (linear (m.sp - 2)).toNat + 2 = (linear m.sp).toNat := by
  rw [toNat_linear, toNat_linear]
  bv_omega

theorem Stack.push (h : m.Stack words) (v : U16) (hsp : 2 ≤ m.sp.toNat) :
    (m.push v).Stack (v :: words) := Holds.push h v (toNat_sp_sub hsp)

theorem Stack.pop {v : U16} (h : m.Stack (v :: words)) (hsp : m.sp.toNat + 2 < 2 ^ 16) :
    m.top = v ∧ m.drop.Stack words := by
  have hnext : linear (m.sp + 2) = linear m.sp + 2 := by
    apply BitVec.eq_of_toNat_eq
    have hadd : (linear m.sp + 2).toNat = m.sp.toNat + 2 :=
      toNat_linear_add m.sp (k := 2) (by decide)
    rw [hadd, toNat_linear]
    bv_omega
  obtain ⟨htop, hrest⟩ := Holds.pop h
  exact ⟨htop, show Holds m.mem (linear (m.sp + 2)) _ from hnext ▸ hrest⟩

/-- A push writes below the stack. -/
theorem push_outside {v : U16} {a : Addr} (hsp : 2 ≤ m.sp.toNat)
    (h : a.toNat < m.sp.toNat - 2 ∨ m.sp.toNat ≤ a.toNat) : (m.push v).mem a = m.mem a := by
  have hat := toNat_sp_sub hsp
  have hlt := (linear m.sp).isLt
  rw [toNat_linear m.sp] at hat hlt
  refine writeBytes_outside_range (by rw [length_wordBytes]; omega) fun hin => ?_
  obtain ⟨hlo, hhi⟩ := hin
  rw [length_wordBytes] at hhi
  omega

theorem Stack.pushArgs (h : m.Stack words) (hsp : 10 ≤ m.sp.toNat) :
    m.pushArgs.Stack ([m.dx, m.ax, m.cx, m.di, m.si] ++ words) := by
  have h1 := h.push m.si (by omega)
  have h2 := h1.push m.di (by change 2 ≤ (m.sp - 2).toNat; bv_omega)
  have h3 := h2.push m.cx (by change 2 ≤ (m.sp - 2 - 2).toNat; bv_omega)
  have h4 := h3.push m.ax (by change 2 ≤ (m.sp - 2 - 2 - 2).toNat; bv_omega)
  exact h4.push m.dx (by change 2 ≤ (m.sp - 2 - 2 - 2 - 2).toNat; bv_omega)

theorem toNat_sp_pushArgs (hsp : 10 ≤ m.sp.toNat) : m.pushArgs.sp.toNat + 10 = m.sp.toNat := by
  change (m.sp - 2 - 2 - 2 - 2 - 2).toNat + 10 = m.sp.toNat
  bv_omega

theorem pushArgs_regs : m.pushArgs.cx = m.cx ∧ m.pushArgs.di = m.di ∧ m.pushArgs.si = m.si := by
  simp only [pushArgs, push, and_self]

theorem pushArgs_outside {a : Addr} (hsp : 10 ≤ m.sp.toNat)
    (h : a.toNat < m.sp.toNat - 10 ∨ m.sp.toNat ≤ a.toNat) : m.pushArgs.mem a = m.mem a := by
  have h1 : (m.sp - 2).toNat + 2 = m.sp.toNat := by bv_omega
  have h2 : (m.sp - 2 - 2).toNat + 4 = m.sp.toNat := by bv_omega
  have h3 : (m.sp - 2 - 2 - 2).toNat + 6 = m.sp.toNat := by bv_omega
  have h4 : (m.sp - 2 - 2 - 2 - 2).toNat + 8 = m.sp.toNat := by bv_omega
  rw [pushArgs, push_outside (by simp only [push]; omega) (by simp only [push]; omega),
    push_outside (by simp only [push]; omega) (by simp only [push]; omega),
    push_outside (by simp only [push]; omega) (by simp only [push]; omega),
    push_outside (by simp only [push]; omega) (by simp only [push]; omega),
    push_outside (by omega) (by omega)]

/-- The pops give back what was pushed. -/
structure Popped (m m' : BootCpu) (words : List U16) : Prop where
  ax : m'.ax = m.ax
  cx : m'.cx = m.cx
  dx : m'.dx = m.dx
  si : m'.si = m.si
  di : m'.di = m.di
  sp : m'.sp = m.sp
  stack : m'.Stack words

/-- The fields after the pops, each loaded from its own place. -/
theorem popArgs_eq (n : BootCpu) : n.popArgs =
    { ax := n.drop.top
      bx := n.bx
      cx := n.drop.drop.top
      dx := n.top
      si := n.drop.drop.drop.drop.top
      di := n.drop.drop.drop.top
      sp := n.sp + 2 + 2 + 2 + 2 + 2
      mem := n.mem } := rfl

theorem popArgs_popped {n : BootCpu} (hsp : 10 ≤ m.sp.toNat) (hn : n.sp = m.pushArgs.sp)
    (h : n.Stack ([m.dx, m.ax, m.cx, m.di, m.si] ++ words)) : Popped m n.popArgs words := by
  have hat : n.sp.toNat + 10 = m.sp.toNat := by
    rw [hn]
    exact toNat_sp_pushArgs hsp
  have hlt := m.sp.isLt
  have h1 : (n.sp + 2).toNat + 2 < 2 ^ 16 := by bv_omega
  have h2 : (n.sp + 2 + 2).toNat + 2 < 2 ^ 16 := by bv_omega
  have h3 : (n.sp + 2 + 2 + 2).toNat + 2 < 2 ^ 16 := by bv_omega
  have h4 : (n.sp + 2 + 2 + 2 + 2).toNat + 2 < 2 ^ 16 := by bv_omega
  have hback : n.sp + 2 + 2 + 2 + 2 + 2 = m.sp := by bv_omega
  obtain ⟨hdx, h⟩ := h.pop (by omega)
  obtain ⟨hax, h⟩ := h.pop h1
  obtain ⟨hcx, h⟩ := h.pop h2
  obtain ⟨hdi, h⟩ := h.pop h3
  obtain ⟨hsi, h⟩ := h.pop h4
  simp only [Stack, drop_mem, drop_sp] at h
  rw [popArgs_eq]
  exact {
    ax := hax
    cx := hcx
    dx := hdx
    si := hsi
    di := hdi
    sp := hback
    stack := h }

section Interrupts

variable {fw : Firmware} {depth : Nat} {ret : U16} {a : Addr}

theorem toNat_sp_enter (hsp : 6 ≤ m.sp.toNat) :
    (m.enter fw t ret).sp.toNat + 6 = m.sp.toNat := by
  change (m.sp - 2 - 2 - 2).toNat + 6 = m.sp.toNat
  bv_omega

theorem enter_outside (hsp : 6 ≤ m.sp.toNat)
    (h : a.toNat + 6 < m.sp.toNat ∨ m.sp.toNat ≤ a.toNat) :
    (m.enter fw t ret).mem a = m.mem a := by
  have h1 : (m.sp - 2).toNat + 2 = m.sp.toNat := by bv_omega
  have h2 : (m.sp - 2 - 2).toNat + 4 = m.sp.toNat := by bv_omega
  rw [enter, push_outside (by simp only [push]; omega) (by simp only [push]; omega),
    push_outside (by simp only [push]; omega) (by simp only [push]; omega),
    push_outside (by omega) (by omega)]

theorem enter_stack (hsp : 6 ≤ m.sp.toNat) : (m.enter fw t ret).Stack [ret, t.cs] := by
  have h1 := (stack_nil m).push (fw.flags m) (by omega)
  have h2 := h1.push t.cs (by change 2 ≤ (m.sp - 2).toNat; bv_omega)
  have h3 := h2.push ret (by change 2 ≤ (m.sp - 2 - 2).toNat; bv_omega)
  exact @Holds.left _ (stackBytes [ret, t.cs]) (stackBytes [fw.flags m]) _ h3

/-- What the routine may not touch when the interrupt comes. -/
theorem uses_enter (keeps : fw.Keeps depth) (hsp : depth + 6 ≤ m.sp.toNat)
    (h : m.Spared (depth + 6) a) : fw.uses (m.enter fw t ret) a = m.mem a := by
  have hat := @toNat_sp_enter m t fw ret (by omega)
  have hapart := h.apart
  rw [keeps _ (by omega) a ⟨h.low, h.high, by omega⟩ (by omega),
    enter_outside (by omega) (by omega)]

/-- It returns to where it was called if its way back is not overwritten. -/
theorem resume_enter (hsp : 6 ≤ m.sp.toNat) (x : U16) {mem : Mem} (next : BootCpu → BootExit)
    (hkept : ∀ a, InRange (linear (m.enter fw t ret).sp) 4 a → mem a = (m.enter fw t ret).mem a) :
    resume t ret { m.enter fw t ret with ax := x, mem := mem } next =
      next { m with ax := x, mem := mem } := by
  have hat := @toNat_sp_enter m t fw ret hsp
  have hlt := m.sp.isLt
  obtain ⟨n, hn⟩ : ∃ n : BootCpu, n = { m.enter fw t ret with ax := x, mem := mem } := ⟨_, rfl⟩
  have hnsp : n.sp = (m.enter fw t ret).sp := by rw [hn]
  have hstack : n.Stack [ret, t.cs] := by
    rw [hn]
    exact Holds.of_eq (enter_stack hsp) hkept
  obtain ⟨htop, hrest⟩ := hstack.pop (by rw [hnsp]; omega)
  obtain ⟨hcs, -⟩ := hrest.pop (by
    rw [drop_sp, hnsp]
    bv_omega)
  have hback : n.drop.drop.drop = { m with ax := x, mem := mem } := by
    have hsp' : m.sp - 2 - 2 - 2 + 2 + 2 + 2 = m.sp := by bv_omega
    rw [hn]
    simp only [drop, enter, push, hsp']
  rw [← hn, resume, if_pos ⟨htop, hcs⟩, hback]

theorem uses_return (keeps : fw.Keeps depth) (hsp : 0x506 + depth ≤ m.sp.toNat)
    (h : InRange (linear (m.enter fw t ret).sp) 4 a) :
    fw.uses (m.enter fw t ret) a = (m.enter fw t ret).mem a := by
  have hat := @toNat_sp_enter m t fw ret (by omega)
  have hlt := m.sp.isLt
  obtain ⟨hlo, hhi⟩ := h
  rw [toNat_linear] at hlo hhi
  exact keeps _ (by omega) a ⟨by omega, by omega, .inr hlo⟩ (.inl hhi)

theorem int10_eq (keeps : fw.Keeps depth) (hsp : 0x506 + depth ≤ m.sp.toNat)
    (next : BootCpu → BootExit) : m.int10 fw t ret next =
      next { m with ax := fw.ax (m.enter fw t ret), mem := fw.uses (m.enter fw t ret) } :=
  resume_enter (by omega) _ next fun _ ha => uses_return keeps hsp ha

end Interrupts

end BootCpu

theorem dapBytes_eq (count ofs lba : U16) : dapBytes count ofs lba =
    [0x10, 0] ++ wordBytes count ++ (wordBytes ofs ++ [0, 0] ++ wordBytes lba ++ zeros 6) ∧
      dapBytes count ofs lba =
        ([0x10, 0] ++ wordBytes count) ++ wordBytes ofs ++ ([0, 0] ++ wordBytes lba ++ zeros 6) ∧
      dapBytes count ofs lba =
        ([0x10, 0] ++ wordBytes count ++ wordBytes ofs ++ [0, 0]) ++ wordBytes lba ++ zeros 6 := by
  refine ⟨?_, ?_, rfl⟩
  all_goals simp only [dapBytes, List.append_assoc]

@[simp] theorem length_dapBytes (count ofs lba : U16) : (dapBytes count ofs lba).length = 16 := rfl

/-- The packet once the three words are stored. -/
theorem holds_fillDap {mem : Mem} {dap : Addr} {c o s : U16} (h : Holds mem dap (dapBytes c o s))
    (count ofs lba : U16) :
    Holds (storeWord (storeWord (storeWord mem (dap + 2) count) (dap + 4) ofs) (dap + 8) lba) dap
      (dapBytes count ofs lba) := by
  rw [(dapBytes_eq c o s).1] at h
  have h1 : Holds (storeWord mem (dap + 2) count) dap (dapBytes count o s) := by
    rw [(dapBytes_eq count o s).1]
    exact h.write rfl
  rw [(dapBytes_eq count o s).2.1] at h1
  have h2 : Holds (storeWord (storeWord mem (dap + 2) count) (dap + 4) ofs) dap
      (dapBytes count ofs s) := by
    rw [(dapBytes_eq count ofs s).2.1]
    exact h1.write rfl
  rw [(dapBytes_eq count ofs s).2.2] at h2
  rw [(dapBytes_eq count ofs lba).2.2]
  exact h2.write rfl

/-- What the firmware makes of the packet. -/
theorem dap_fields {mem : Mem} {dap : Addr} {count ofs lba : U16}
    (h : Holds mem dap (dapBytes count ofs lba)) :
    loadWord mem (dap + 2) = count ∧ loadWord mem (dap + 4) = ofs ∧ loadWord mem (dap + 6) = 0 ∧
      BitVec.ofNat 64 (leValue (readBytes mem (dap + 8) 8)) = lba.setWidth 64 := by
  have word (v : U16) : BitVec.ofNat 16 (leValue (wordBytes v)) = v := by
    rw [wordBytes, leValue_leBytes v.isLt, BitVec.ofNat_toNat, BitVec.setWidth_eq]
  have hcount : readBytes mem (dap + 2) 2 = wordBytes count :=
    h.readBytes_eq (i := 2) (n := 2) (by rw [length_dapBytes]; decide)
  have hofs : readBytes mem (dap + 4) 2 = wordBytes ofs :=
    h.readBytes_eq (i := 4) (n := 2) (by rw [length_dapBytes]; decide)
  have hseg : readBytes mem (dap + 6) 2 = wordBytes 0 :=
    h.readBytes_eq (i := 6) (n := 2) (by rw [length_dapBytes]; decide)
  have hlba : readBytes mem (dap + 8) 8 = wordBytes lba ++ zeros 6 :=
    h.readBytes_eq (i := 8) (n := 8) (Nat.le_refl 16)
  refine ⟨?_, ?_, ?_, ?_⟩
  · rw [loadWord, hcount, word]
  · rw [loadWord, hofs, word]
  · rw [loadWord, hseg, word]
  · have hzero : leValue (zeros 6) = 0 := by decide
    rw [hlba, leValue_append, hzero, Nat.mul_zero, Nat.add_zero, wordBytes,
      leValue_leBytes lba.isLt]
    exact BitVec.ofNat_toNat 64 lba

theorem fillDap_mem (t : BootText) (m : BootCpu) : (m.fillDap t).mem =
    storeWord (storeWord (storeWord m.mem (linear t.dap + 2) m.cx) (linear t.dap + 4) m.di)
      (linear t.dap + 8) m.si := rfl

theorem fillDap_outside {t : BootText} {m : BootCpu} {a : Addr}
    (h : ¬ InRange (linear t.dap) 16 a) : (m.fillDap t).mem a = m.mem a := by
  have hdap := t.dap_high
  have hlin := toNat_linear t.dap
  have hword {mem : Mem} {k : Nat} {v : U16} (hk : k + 2 ≤ 16) :
      storeWord mem (linear t.dap + BitVec.ofNat 32 k) v a = mem a := by
    have hat := toNat_linear_add t.dap (k := k) (by omega)
    refine writeBytes_outside_range (by rw [length_wordBytes]; omega) fun hin => h ?_
    obtain ⟨hlo, hhi⟩ := hin
    rw [length_wordBytes] at hhi
    exact ⟨by omega, by omega⟩
  exact (hword (k := 8) (by decide)).trans
    ((hword (k := 4) (by decide)).trans (hword (k := 2) (by decide)))

/-- The sectors are read to the packet's address, if the firmware's stack is not below it. -/
theorem BootCpu.int13_eq {fw : Firmware} {t : BootText} {m : BootCpu} {depth : Nat}
    {count ofs lba : U16} {data : Bytes} (keeps : fw.Keeps depth)
    (hpacket : Holds m.mem (linear m.si) (dapBytes count ofs lba))
    (hread : fw.drives m.dl (lba.setWidth 64) count = some data)
    (hsi : m.si.toNat + 16 + depth + 6 ≤ m.sp.toNat)
    (hhigh : ofs.toNat + data.length + depth + 6 ≤ m.sp.toNat) (hlow : 0x500 ≤ ofs.toNat)
    (next : BootCpu → BootExit) : m.int13 fw t next =
      next { m with
        ax := fw.ax (m.enter fw t t.diskRet)
        mem := writeBytes (fw.uses (m.enter fw t t.diskRet)) (linear ofs) data } := by
  have hlin := toNat_linear m.si
  have hlinofs := toNat_linear ofs
  have hsplt := m.sp.isLt
  have hat := @BootCpu.toNat_sp_enter m t fw t.diskRet (by omega)
  have hentered : Holds (m.enter fw t t.diskRet).mem (linear m.si) (dapBytes count ofs lba) :=
    hpacket.of_eq fun a ha => enter_outside (by omega) (.inl (by
      obtain ⟨-, hhi⟩ := ha
      rw [length_dapBytes] at hhi
      omega))
  obtain ⟨hcount, hofs, hseg, hlba⟩ := dap_fields hentered
  have hregs : (m.enter fw t t.diskRet).si = m.si ∧ (m.enter fw t t.diskRet).dl = m.dl :=
    ⟨rfl, rfl⟩
  have hzero : (0 : U16).setWidth 32 * 16 + linear ofs = linear ofs := by simp
  simp only [int13, hregs, hcount, hofs, hseg, hlba, hread, hzero]
  refine resume_enter (by omega) _ next fun a ha => ?_
  rw [writeBytes_outside_range (by omega) fun hin => ?_, uses_return keeps (by omega) ha]
  obtain ⟨hlo, -⟩ := ha
  obtain ⟨-, hhi⟩ := hin
  rw [toNat_linear] at hlo
  omega

/-- `read_sectors` has come back: the data lies where `di` says, the registers and the stack
are as at the call, and nothing else is written but the packet and below the stack. -/
structure ReadDone (t : BootText) (depth : Nat) (data : Bytes) (words : List U16)
    (m m' : BootCpu) : Prop extends BootCpu.Popped m m' words where
  packet : ∃ count ofs lba, Holds m'.mem (linear t.dap) (dapBytes count ofs lba)
  holds : Holds m'.mem (linear m.di) data
  frame : ∀ a, m.Spared (depth + 16) a → ¬ InRange (linear m.di) data.length a →
    ¬ InRange (linear t.dap) 16 a → m'.mem a = m.mem a

section Read

variable {fw : Firmware} {t : BootText} {depth : Nat} {m : BootCpu} {words : List U16}
  {data : Bytes} {c o s : U16}

theorem readSectors_done (keeps : fw.Keeps depth) (hstack : m.Stack words)
    (hwords : m.sp.toNat + 2 * words.length ≤ 2 ^ 16)
    (hpacket : Holds m.mem (linear t.dap) (dapBytes c o s))
    (hread : fw.drives (m.mem (linear t.bootDrive)) (m.si.setWidth 64) m.cx = some data)
    (hlow : 0x7E00 ≤ m.di.toNat) (hhigh : m.di.toNat + data.length + depth + 16 ≤ m.sp.toNat)
    (next : BootCpu → BootExit) :
    ∃ m', m.readSectors fw t next = next m' ∧ ReadDone t depth data words m m' := by
  have hdap := t.dap_high
  have hdapLow := t.dap_low
  have hdrive := t.drive_high
  have hapart := t.apart
  have hsplt := m.sp.isLt
  have hlin := toNat_linear t.dap
  have hlindi := toNat_linear m.di
  have hsp : 10 ≤ m.sp.toNat := by omega
  have hsp' := BootCpu.toNat_sp_pushArgs hsp
  have hpushed := hstack.pushArgs hsp
  have hkept : Holds m.pushArgs.mem (linear t.dap) (dapBytes c o s) :=
    hpacket.of_eq fun a ha => BootCpu.pushArgs_outside hsp (.inl (by
      obtain ⟨-, hhi⟩ := ha
      rw [length_dapBytes] at hhi
      omega))
  obtain ⟨f, hf⟩ : ∃ f, f = m.pushArgs.fillDap t := ⟨_, rfl⟩
  have hfsp : f.sp = m.pushArgs.sp := hf ▸ rfl
  have hfmem {a : Addr} (h : ¬ InRange (linear t.dap) 16 a) : f.mem a = m.pushArgs.mem a :=
    hf ▸ fillDap_outside h
  have hfill : Holds f.mem (linear t.dap) (dapBytes m.cx m.di m.si) := by
    obtain ⟨hcx, hdi, hsi⟩ := @BootCpu.pushArgs_regs m
    rw [hf, fillDap_mem, hcx, hdi, hsi]
    exact holds_fillDap hkept m.cx m.di m.si
  have hfstack : f.Stack ([m.dx, m.ax, m.cx, m.di, m.si] ++ words) := by
    rw [BootCpu.Stack, hfsp]
    refine Holds.of_eq hpushed fun a ha => hfmem fun hin => ?_
    obtain ⟨hlo, -⟩ := ha
    obtain ⟨-, hhi⟩ := hin
    rw [toNat_linear] at hlo
    omega
  have hdl : f.dl = m.mem (linear t.bootDrive) := by
    have hat := toNat_linear t.bootDrive
    have hne : ¬ InRange (linear t.dap) 16 (linear t.bootDrive) := by
      rintro ⟨hlo, hhi⟩
      omega
    rw [← BootCpu.pushArgs_outside hsp (.inl (by omega)), ← hfmem hne, hf]
    exact dl_withDl _ _
  have hsi : f.si = t.dap := hf ▸ rfl
  obtain ⟨n, hn⟩ : ∃ n : BootCpu, n = { f with
      ax := fw.ax (f.enter fw t t.diskRet)
      mem := writeBytes (fw.uses (f.enter fw t t.diskRet)) (linear m.di) data } := ⟨_, rfl⟩
  have hint := BootCpu.int13_eq (t := t) keeps (hsi ▸ hfill) (hdl ▸ hread)
    (by rw [hsi, hfsp]; omega) (by rw [hfsp]; omega) (by omega) fun m => next m.popArgs
  have hfits : (linear m.di).toNat + data.length ≤ 2 ^ 32 := by omega
  have huses {a : Addr} (h : f.Spared (depth + 6) a) :
      fw.uses (f.enter fw t t.diskRet) a = f.mem a :=
    BootCpu.uses_enter keeps (by rw [hfsp]; omega) h
  have hnsp : n.sp = m.pushArgs.sp := by rw [hn, ← hfsp]
  have hnstack : n.Stack ([m.dx, m.ax, m.cx, m.di, m.si] ++ words) := by
    rw [BootCpu.Stack, hnsp, ← hfsp, hn]
    refine Holds.write_apart (Holds.of_eq hfstack fun a ha => huses ?_) hfits (.inr ?_)
    · obtain ⟨hlo, hhi⟩ := ha
      rw [length_stackBytes, List.length_append, toNat_linear, hfsp] at hhi
      rw [toNat_linear, hfsp] at hlo
      simp only [List.length_cons, List.length_nil] at hhi
      exact ⟨by omega, by omega, .inr (by rw [hfsp]; omega)⟩
    · rw [toNat_linear f.sp, hfsp]
      omega
  have hpopped := BootCpu.popArgs_popped hsp hnsp hnstack
  have hmem : n.popArgs.mem =
      writeBytes (fw.uses (f.enter fw t t.diskRet)) (linear m.di) data := by
    rw [hn]
    rfl
  have hpacket' : Holds (fw.uses (f.enter fw t t.diskRet)) (linear t.dap)
      (dapBytes m.cx m.di m.si) :=
    hfill.of_eq fun a ha => huses (by
      obtain ⟨hlo, hhi⟩ := ha
      rw [length_dapBytes] at hhi
      exact ⟨by omega, by omega, .inl (by rw [hfsp]; omega)⟩)
  refine ⟨n.popArgs, ?_, hpopped, ⟨m.cx, m.di, m.si, ?_⟩, ?_, fun a hout hdata hpack => ?_⟩
  · rw [BootCpu.readSectors, ← hf, hint, ← hn]
  · rw [hmem]
    exact hpacket'.write_apart hfits (.inl (by rw [length_dapBytes]; omega))
  · rw [hmem]
    exact Holds.of_writeBytes _ hfits
  · have hapart := hout.apart
    rw [hmem, writeBytes_outside_range hfits hdata,
      huses ⟨hout.low, hout.high, by rw [hfsp]; omega⟩, hfmem hpack,
      BootCpu.pushArgs_outside hsp (by omega)]

/-- The call and its return. -/
theorem callRead_eq (keeps : fw.Keeps depth) (ret : U16) (next : BootCpu → BootExit)
    (hpacket : Holds m.mem (linear t.dap) (dapBytes c o s))
    (hread : fw.drives (m.mem (linear t.bootDrive)) (m.si.setWidth 64) m.cx = some data)
    (hlow : 0x7E00 ≤ m.di.toNat) (hhigh : m.di.toNat + data.length + depth + 18 ≤ m.sp.toNat) :
    ∃ m', m.callRead fw t ret next = next m'.drop ∧
      ReadDone t depth data [ret] (m.push ret) m' := by
  have hdap := t.dap_high
  have hdrive := t.drive_high
  have hlin := toNat_linear t.dap
  have hat := toNat_linear t.bootDrive
  have hlt := m.sp.isLt
  have hsp : (m.push ret).sp.toNat + 2 = m.sp.toNat := by
    change (m.sp - 2).toNat + 2 = m.sp.toNat
    bv_omega
  have hkept {a : Addr} (ha : a.toNat < 0x7E00) : (m.push ret).mem a = m.mem a :=
    BootCpu.push_outside (by omega) (.inl (by omega))
  have hpushed := (BootCpu.stack_nil m).push ret (by omega)
  have hpacket' : Holds (m.push ret).mem (linear t.dap) (dapBytes c o s) :=
    hpacket.of_eq fun a ha => hkept (by
      obtain ⟨-, hhi⟩ := ha
      rw [length_dapBytes] at hhi
      omega)
  have hread' : fw.drives ((m.push ret).mem (linear t.bootDrive)) ((m.push ret).si.setWidth 64)
      (m.push ret).cx = some data := by
    rw [hkept (by omega)]
    exact hread
  obtain ⟨m', hcall, hdone⟩ := readSectors_done keeps hpushed
    (by rw [List.length_singleton]; omega) hpacket' hread' hlow
    (by change m.di.toNat + data.length + depth + 16 ≤ (m.push ret).sp.toNat; omega)
    fun m => if m.top ≠ ret then .lost else next m.drop
  obtain ⟨htop, -⟩ := hdone.stack.pop (by rw [hdone.sp]; omega)
  refine ⟨m', ?_, hdone⟩
  rw [BootCpu.callRead, hcall]
  exact if_neg (not_not.mpr htop)

/-- From `0xFFFF` on the stack is empty, and behind the return of `read_sectors` nothing of the
call is left but the data and the packet. -/
structure Fetched (t : BootText) (depth : Nat) (data : Bytes) (m m' : BootCpu) : Prop where
  sp : m'.sp = 0xFFFF
  packet : ∃ count ofs lba, Holds m'.mem (linear t.dap) (dapBytes count ofs lba)
  holds : Holds m'.mem (linear stage2Addr) data
  frame : ∀ a, m.Spared (depth + 18) a → ¬ InRange (linear stage2Addr) data.length a →
    ¬ InRange (linear t.dap) 16 a → m'.mem a = m.mem a

theorem callRead_fetched (keeps : fw.Keeps depth) (ret : U16) (next : BootCpu → BootExit)
    (hsp : m.sp = 0xFFFF) (hdi : m.di = stage2Addr)
    (hpacket : Holds m.mem (linear t.dap) (dapBytes c o s))
    (hread : fw.drives (m.mem (linear t.bootDrive)) (m.si.setWidth 64) m.cx = some data)
    (hlen : 0x7F00 + data.length + depth + 18 ≤ 0xFFFF) :
    ∃ m', m.callRead fw t ret next = next m' ∧ Fetched t depth data m m' := by
  have htop : m.sp.toNat = 0xFFFF := by rw [hsp]; rfl
  have hpush : (m.push ret).sp = 0xFFFD := by
    change m.sp - 2 = 0xFFFD
    rw [hsp]
    rfl
  obtain ⟨n, hcall, done⟩ := callRead_eq keeps ret next hpacket hread (by rw [hdi]; decide)
    (by rw [hdi, htop]; exact hlen)
  have hdi' : (m.push ret).di = stage2Addr := hdi
  refine ⟨n.drop, hcall, ?_, done.packet, ?_, fun a hout hdata hpack => ?_⟩
  · rw [BootCpu.drop_sp, done.sp, hpush]
    rfl
  · rw [← hdi']
    exact done.holds
  · have hapart := hout.apart
    have hpushNat : (m.push ret).sp.toNat = 0xFFFD := by rw [hpush]; rfl
    rw [← hdi'] at hdata
    rw [BootCpu.drop_mem, done.frame a ⟨hout.low, hout.high, by omega⟩ hdata hpack,
      BootCpu.push_outside (by omega) (by omega)]

end Read

/-- The low word of the header's first field. -/
theorem loadWord_dfsSectors {mem : Mem} {base : Addr} {sector : Bytes}
    (h : Holds mem base sector) (hlen : sector.length = 512) :
    loadWord mem base = (dfsSectors sector).setWidth 16 := by
  have hread : readBytes mem base 2 = slice sector 0 2 := by
    have hread := h.readBytes_eq (i := 0) (n := 2) (by omega)
    have hzero : base + BitVec.ofNat 32 0 = base := BitVec.add_zero base
    rwa [hzero] at hread
  have hsplit : slice sector 0 8 = slice sector 0 2 ++ slice sector 2 6 := by
    have htake := List.take_add (l := sector) (i := 2) (j := 6)
    exact htake
  have hlen2 : (slice sector 0 2).length = 2 := by
    rw [slice, List.length_take, List.length_drop]
    omega
  rw [loadWord, hread, dfsSectors, hsplit, leValue_append, hlen2]
  apply BitVec.eq_of_toNat_eq
  rw [BitVec.toNat_setWidth, BitVec.toNat_ofNat, BitVec.toNat_ofNat]
  omega

theorem Records.head {image : Bytes} {lba : U64} {f : DfsFile} {files : List DfsFile}
    (h : Records image lba (f :: files)) : ∃ next, RecordAt image lba next f := by
  cases h with
  | last record => exact ⟨0, record⟩
  | link record _ _ => exact ⟨_, record⟩

namespace BootCpu

/-- At the interrupts and at the calls of `init`. -/
def setVideoMode (m : BootCpu) : BootCpu := { m with sp := 0xFFFF, ax := 0x4F02, bx := 0x03 }

def printR (t : BootText) (m : BootCpu) : BootCpu :=
  { m with mem := m.mem.set (linear t.bootDrive) m.dl, ax := 0x0952, bx := 0x0F, cx := 1 }

def readHeader (m : BootCpu) : BootCpu := { m with di := stage2Addr, si := 1, cx := 1 }

def readStage2 (m : BootCpu) : BootCpu :=
  { m with
    ax := loadWord m.mem (linear stage2Addr)
    cx := loadWord m.mem (linear stage2Addr)
    si := 2
    di := stage2Addr }

/-- `init` behind the first `call read_sectors`. -/
def loadStage2 (fw : Firmware) (t : BootText) (m : BootCpu) : BootExit :=
  m.readStage2.callRead fw t t.ret2 fun m =>
    .stage2 { m with dx := withDl m.dx (m.mem (linear t.bootDrive)) }

theorem Spared.of_sp {m m' : BootCpu} {n : Nat} {a : Addr} (h : m.Spared n a)
    (hsp : m'.sp = m.sp) : m'.Spared n a :=
  ⟨h.low, h.high, hsp ▸ h.apart⟩

theorem Spared.mono {m : BootCpu} {n n' : Nat} {a : Addr} (h : m.Spared n' a) (hle : n ≤ n') :
    m.Spared n a :=
  ⟨h.low, h.high, h.apart.imp_left fun h => by omega⟩

end BootCpu

/-- The machine at the first call of `read_sectors`. -/
structure AtHeader (t : BootText) (depth : Nat) (m m' : BootCpu) : Prop where
  sp : m'.sp = 0xFFFF
  di : m'.di = stage2Addr
  si : m'.si = 1
  cx : m'.cx = 1
  drive : m'.mem (linear t.bootDrive) = m.dl
  frame : ∀ a, m'.Spared (depth + 6) a → a ≠ linear t.bootDrive → m'.mem a = m.mem a

/-- Behind the two interrupts of `init`. -/
theorem boot_header {fw : Firmware} {depth : Nat} (keeps : fw.Keeps depth) (mode : fw.SetsMode)
    (hdepth : 0x8000 + depth + 6 ≤ 0xFFFF) (t : BootText) (m : BootCpu) :
    ∃ m', boot fw t m = m'.callRead fw t t.ret1 (BootCpu.loadStage2 fw t) ∧
      AtHeader t depth m m' := by
  have hlow := t.drive_low
  have hhigh := t.drive_high
  have hat := toNat_linear t.bootDrive
  have hsp {n : BootCpu} (h : n.sp = 0xFFFF) : 0x506 + depth ≤ n.sp.toNat := by
    rw [h]
    change 0x506 + depth ≤ 0xFFFF
    omega
  have huses {n : BootCpu} {ret : U16} (h : n.sp = 0xFFFF) {a : Addr}
      (ha : n.Spared (depth + 6) a) : fw.uses (n.enter fw t ret) a = n.mem a := by
    have hspn := hsp h
    exact BootCpu.uses_enter keeps (by omega) ha
  obtain ⟨n₁, hn₁⟩ : ∃ n : BootCpu, n = { m.setVideoMode with
      ax := fw.ax (m.setVideoMode.enter fw t t.videoModeRet)
      mem := fw.uses (m.setVideoMode.enter fw t t.videoModeRet) } := ⟨_, rfl⟩
  have hal : n₁.ax.setWidth 8 = (0x4F : U8) := by
    rw [hn₁]
    exact mode _ rfl rfl
  have hsp₁ : n₁.sp = 0xFFFF := by rw [hn₁]; rfl
  obtain ⟨n₂, hn₂⟩ : ∃ n : BootCpu, n = { n₁.printR t with
      ax := fw.ax ((n₁.printR t).enter fw t t.printRet)
      mem := fw.uses ((n₁.printR t).enter fw t t.printRet) } := ⟨_, rfl⟩
  have hprint : (n₁.printR t).sp = 0xFFFF := hsp₁
  have hsp₂ : n₂.sp = 0xFFFF := by rw [hn₂]; exact hprint
  have hmem₂ {a : Addr} (ha : n₂.Spared (depth + 6) a) : n₂.mem a = (n₁.printR t).mem a := by
    have hbefore : (n₁.printR t).Spared (depth + 6) a := ha.of_sp (hprint.trans hsp₂.symm)
    rw [hn₂]
    exact huses hprint hbefore
  have htop : n₂.sp.toNat = 0xFFFF := by rw [hsp₂]; rfl
  have hdrive : n₂.Spared (depth + 6) (linear t.bootDrive) :=
    ⟨by omega, by omega, .inl (by omega)⟩
  refine ⟨n₂.readHeader, ?_, hsp₂, rfl, rfl, rfl, ?_, fun a ha hne => ?_⟩
  · rw [boot]
    change m.setVideoMode.int10 fw t t.videoModeRet _ = _
    rw [BootCpu.int10_eq keeps (hsp rfl), ← hn₁]
    refine (if_neg (not_not.mpr hal)).trans ?_
    change (n₁.printR t).int10 fw t t.printRet _ = _
    rw [BootCpu.int10_eq keeps (hsp hprint), ← hn₂]
    rfl
  · have hdl : n₁.dl = m.dl := by rw [hn₁]; rfl
    exact (hmem₂ hdrive).trans ((Mem.set_self _ _ _).trans hdl)
  · have hout : m.setVideoMode.Spared (depth + 6) a :=
      ha.of_sp (show m.setVideoMode.sp = n₂.sp from hsp₂.symm)
    have hfirst : n₁.mem a = m.mem a := by
      rw [hn₁]
      exact huses rfl hout
    exact (hmem₂ (ha.of_sp rfl)).trans ((Mem.set_of_ne _ hne).trans hfirst)

/-- Between `STAGE2_ADDR` and the stack there is room for the first file, so that it is loaded
as it is and stage 2 is told the drive. -/
theorem boot_loads_stage2 {fs : Files} {argv : Argv} {image : Bytes} {f : DfsFile}
    {files : List DfsFile} {fw : Firmware} {depth : Nat} {m : BootCpu} (t : BootText)
    (written : writeImg fs argv = .ok image) (hsize : image.length < 2 ^ 64)
    (first : filesOf fs argv.rest = f :: files) (keeps : fw.Keeps depth) (mode : fw.SetsMode)
    (fits : 0x7F00 + 512 * f.sectors + depth + 18 ≤ 0xFFFF)
    (returns : fw.drives.Returns m.dl image)
    (packet : Holds m.mem (linear t.dap) (dapBytes 0 0 0)) :
    ∃ m', boot fw t m = .stage2 m' ∧ Holds m'.mem (linear stage2Addr) f.padded ∧
      m'.dl = m.dl ∧ m'.sp = 0xFFFF ∧
      ∀ a, m'.Spared (depth + 18) a → ¬ InRange (linear stage2Addr) (512 * f.sectors) a →
        ¬ InRange (linear t.dap) 16 a → a ≠ linear t.bootDrive → m'.mem a = m.mem a := by
  have hdap := t.dap_high
  have hdapLow := t.dap_low
  have hdrive := t.drive_high
  have hdriveLow := t.drive_low
  have hapart := t.apart
  have hlin := toNat_linear t.dap
  have hat := toNat_linear t.bootDrive
  have hstage : (linear stage2Addr).toNat = 0x7F00 := by decide
  have hpos : 0 < f.sectors := Nat.succ_pos _
  have records := writeImg_records_of_length written hsize
  rw [first] at records
  obtain ⟨next, record⟩ := records.head
  have file := record.file (by omega)
  have hinside : 512 * (1 + 1 + f.sectors) ≤ image.length := file.inside
  have hdriveOut {n : Nat} : ¬ InRange (linear stage2Addr) n (linear t.bootDrive) := by
    rintro ⟨hlo, -⟩
    omega
  have hdriveApart : ¬ InRange (linear t.dap) 16 (linear t.bootDrive) := by
    rintro ⟨hlo, hhi⟩
    omega
  have hspared {n : BootCpu} (h : n.sp = 0xFFFF) {k : Nat} (hk : k ≤ depth + 18) {a : Addr}
      (hlo : 0x7C00 ≤ a.toNat) (hhi : a.toNat < 0x7E00) : n.Spared k a := by
    have htop : n.sp.toNat = 0xFFFF := by rw [h]; rfl
    exact ⟨by omega, by omega, .inl (by omega)⟩
  -- The first call fetches the header of the first file.
  obtain ⟨m₁, hboot, header⟩ := boot_header keeps mode (by omega) t m
  have hpacket₁ : Holds m₁.mem (linear t.dap) (dapBytes 0 0 0) := packet.of_eq fun a ha => by
    obtain ⟨hlo, hhi⟩ := ha
    rw [length_dapBytes] at hhi
    refine header.frame a (hspared header.sp (by omega) (by omega) (by omega)) ?_
    rintro rfl
    exact hdriveApart ⟨hlo, hhi⟩
  have hread₁ : fw.drives (m₁.mem (linear t.bootDrive)) (m₁.si.setWidth 64) m₁.cx =
      some (slice image 512 512) := by
    rw [header.drive, header.si, header.cx]
    exact returns 1 1 (by change 512 * (1 + 1) ≤ image.length; omega)
  have hlen₁ : (slice image 512 512).length = 512 := file.header.length
  obtain ⟨n₁, hcall₁, fetched₁⟩ := callRead_fetched keeps t.ret1 (BootCpu.loadStage2 fw t)
    header.sp header.di hpacket₁ hread₁ (by omega)
  have hsectors : dfsSectors (slice image 512 512) = BitVec.ofNat 64 f.sectors :=
    file.header.sectors
  have hcount : loadWord n₁.mem (linear stage2Addr) = BitVec.ofNat 16 f.sectors := by
    rw [loadWord_dfsSectors fetched₁.holds hlen₁, hsectors]
    exact BitVec.setWidth_ofNat_of_le (by decide) f.sectors
  -- The second one fetches its data.
  obtain ⟨m₂, hm₂⟩ : ∃ m₂, m₂ = n₁.readStage2 := ⟨_, rfl⟩
  have hmem₂ : m₂.mem = n₁.mem := by rw [hm₂]; rfl
  have hsp₂ : m₂.sp = 0xFFFF := by rw [hm₂]; exact fetched₁.sp
  have hbyte₂ : m₂.mem (linear t.bootDrive) = m.dl := by
    rw [hmem₂, fetched₁.frame _ (hspared header.sp (Nat.le_refl _) (by omega) (by omega))
      hdriveOut hdriveApart, header.drive]
  obtain ⟨c, o, s, hpacket₂⟩ := fetched₁.packet
  have hcountNat : (BitVec.ofNat 16 f.sectors).toNat = f.sectors := by
    rw [BitVec.toNat_ofNat]
    exact Nat.mod_eq_of_lt (by omega)
  have hread₂ : fw.drives (m₂.mem (linear t.bootDrive)) (m₂.si.setWidth 64) m₂.cx =
      some f.padded := by
    have hcx : m₂.cx = BitVec.ofNat 16 f.sectors := by rw [hm₂]; exact hcount
    have hsi : m₂.si = 2 := by rw [hm₂]; rfl
    rw [hbyte₂, hcx, hsi, returns _ _ (by rw [hcountNat]; exact hinside), hcountNat]
    exact congrArg some file.data
  obtain ⟨n₂, hcall₂, fetched₂⟩ := callRead_fetched keeps t.ret2
    (fun m => .stage2 { m with dx := BootCpu.withDl m.dx (m.mem (linear t.bootDrive)) })
    hsp₂ (by rw [hm₂]; rfl) (by rw [hmem₂]; exact hpacket₂) hread₂
    (by rw [f.length_padded]; exact fits)
  refine ⟨{ n₂ with dx := BootCpu.withDl n₂.dx (n₂.mem (linear t.bootDrive)) }, ?_,
    fetched₂.holds, ?_, fetched₂.sp, fun a hout hdata hpack hbyte => ?_⟩
  · rw [hboot, hcall₁, BootCpu.loadStage2, ← hm₂, hcall₂]
  · rw [BootCpu.dl, dl_withDl, fetched₂.frame _ (hspared hsp₂ (Nat.le_refl _) (by omega)
      (by omega)) hdriveOut hdriveApart, hbyte₂]
  · have hdata₁ : ¬ InRange (linear stage2Addr) (slice image 512 512).length a := fun hin =>
      hdata ⟨hin.1, by have := hin.2; omega⟩
    have hout₁ : m₁.Spared (depth + 18) a := hout.of_sp (header.sp.trans fetched₂.sp.symm)
    have hout₂ : m₂.Spared (depth + 18) a := hout.of_sp (hsp₂.trans fetched₂.sp.symm)
    have hlast : n₂.mem a = m₂.mem a :=
      fetched₂.frame a hout₂ (by rw [f.length_padded]; exact hdata) hpack
    rw [hlast, hmem₂, fetched₁.frame a hout₁ hdata₁ hpack,
      header.frame a (hout₁.mono (by omega)) hbyte]

/-- Every drive is the image, and reads beyond it fail. -/
def imageDrives (image : Bytes) : BiosDrives := fun _ lba count =>
  if 512 * (lba.toNat + count.toNat) ≤ image.length then
    some (slice image (512 * lba.toNat) (512 * count.toNat))
  else none

theorem imageDrives_returns (image : Bytes) (dl : U8) : (imageDrives image).Returns dl image :=
  fun _ _ h => if_pos h

/-- Its routines push `bx`, note the video mode at 0x449 and say that all went well. -/
def sampleFirmware (image : Bytes) : Firmware where
  drives := imageDrives image
  flags _ := 0x202
  ax m := if m.ax = 0x4F02 then 0x4F else 0
  uses m := (storeWord m.mem (linear (m.sp - 2)) m.bx).set 0x449 3

theorem sampleFirmware_keeps (image : Bytes) : (sampleFirmware image).Keeps 2 := by
  intro m hsp a ha _
  have hlow := ha.low
  have hbelow := ha.apart
  have hne : a ≠ 0x449 := by
    rintro rfl
    exact absurd hlow (by decide)
  exact (Mem.set_of_ne _ hne).trans (BootCpu.push_outside hsp (by omega))

theorem sampleFirmware_setsMode (image : Bytes) : (sampleFirmware image).SetsMode := by
  intro m hax _
  have hok : (sampleFirmware image).ax m = 0x4F := if_pos hax
  rw [hok]
  rfl

def sampleBootText : BootText where
  dap := 0x7D00
  bootDrive := 0x7D10
  cs := 0
  ret1 := 0x7C40
  ret2 := 0x7C50
  videoModeRet := 0x7C18
  printRet := 0x7C2C
  diskRet := 0x7C80
  dap_low := by decide
  dap_high := by decide
  drive_low := by decide
  drive_high := by decide
  apart := by decide

/-- What the firmware starts, with the drive in `dl`. -/
def sampleBoot : BootCpu where
  ax := 0
  bx := 0
  cx := 0
  dx := 0x80
  si := 0
  di := 0
  sp := 0
  mem := writeBytes (fun _ => 0) (linear 0x7D00) (dapBytes 0 0 0)

theorem boot_loads_stage2_sample : ∃ image m', writeImg (onlyData [1]) kernelArgv = .ok image ∧
    boot (sampleFirmware image) sampleBootText sampleBoot = .stage2 m' ∧
      Holds m'.mem (linear stage2Addr) (DfsFile.padded ⟨kernelBin, [1]⟩) ∧ m'.dl = 0x80 := by
  have written := @writeImg_onlyData [1] (by decide)
  have hsize := length_onlyData (by decide) written
  have packet : Holds sampleBoot.mem (linear sampleBootText.dap) (dapBytes 0 0 0) :=
    Holds.of_writeBytes _ (by decide)
  obtain ⟨m', hboot, hholds, hdl, -⟩ := boot_loads_stage2 sampleBootText written hsize
    (filesOf_onlyData [1]) (sampleFirmware_keeps _) (sampleFirmware_setsMode _) (by decide)
    (imageDrives_returns _ _) packet
  exact ⟨_, m', written, hboot, hholds, hdl⟩

end DordOs
