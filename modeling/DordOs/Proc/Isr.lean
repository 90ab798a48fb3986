import DordOs.Lib.Trap
import DordOs.Proc.Switch

/-!
The routines of `isr.asm` that the interrupt gates lead to, before and after their calls of
`interrupt_handler` and `sys_handler`. All gates are interrupt gates of ring 0.
-/
namespace DordOs
open Lib Lib.X86

/-- The addresses of the routines. `isrRest` is the one behind the call in `isr_end`, and
`sysRest` the one behind the call in `isr_sys`. -/
structure TrapText extends ProcText where
  isr : U8 → U32
  interruptHandler : U32
  isrRest : U32
  isrSys : U32
  sysHandler : U32
  sysRest : U32

/-- The selector in all gates, which is that of the code running, too. -/
def kernelCs : U32 := 0x8

/-- An interrupt with a vector of its own, or `int 0xAE`. -/
inductive Trap
  | irq (n : U8)
  | sys
  deriving DecidableEq

/-- `def_isr`, with the code it jumps to, up to the call. -/
def isrCode (t : TrapText) (n : U8) : List (TrapInsn ProcSym) :=
  [.pusha,
    .plain (.mov (.reg .ebp) (.reg .esp)),
    .cld,
    .andReg .esp (~~~0xF),
    .plain (.push (.imm (n.setWidth 32))),
    .plain (.call t.interruptHandler t.isrRest)]

def isrRestCode : List (TrapInsn ProcSym) :=
  [.plain (.mov (.reg .esp) (.reg .ebp)), .popa, .iretd]

def isrSysCode (t : TrapText) : List (TrapInsn ProcSym) :=
  [.plain (.push (.reg .edi)), .plain (.push (.reg .esi)), .plain (.push (.reg .ebx)),
    .plain (.push (.reg .edx)), .plain (.push (.reg .ecx)), .plain (.push (.reg .eax)),
    .plain (.push (.reg .esp)),
    .plain (.call t.sysHandler t.sysRest)]

def sysRestCode : List (TrapInsn ProcSym) :=
  [.plain (.add .esp 8),
    .plain (.pop .ecx), .plain (.pop .edx), .plain (.pop .ebx), .plain (.pop .esi),
    .plain (.pop .edi),
    .iretd]

namespace Trap

def handler (t : TrapText) : Trap → U32
  | irq _ => t.interruptHandler
  | sys => t.sysHandler

def rest (t : TrapText) : Trap → U32
  | irq _ => t.isrRest
  | sys => t.sysRest

def restCode : Trap → List (TrapInsn ProcSym)
  | irq _ => isrRestCode
  | sys => sysRestCode

/-- What is pushed up to the call, but for the parameter. -/
def words (m : ProcCpu) : Trap → List U32
  | irq _ =>
      [m.eflags.word, kernelCs, m.eip, m.reg .eax, m.reg .ecx, m.reg .edx, m.reg .ebx,
        m.esp - 12, m.reg .ebp, m.reg .esi, m.reg .edi]
  | sys =>
      [m.eflags.word, kernelCs, m.eip, m.reg .edi, m.reg .esi, m.reg .ebx, m.reg .edx,
        m.reg .ecx, m.reg .eax]

/-- The size of the frame, and what it takes with the alignment, the parameter and the
return address. -/
def size : Trap → Nat
  | irq _ => 44
  | sys => 36

def room : Trap → Nat
  | irq _ => 67
  | sys => 44

theorem length_words (k : Trap) (m : ProcCpu) : 4 * (k.words m).length = k.size := by
  cases k <;> rfl

theorem size_lt_room (k : Trap) : k.size + 8 ≤ k.room := by
  cases k <;> simp only [size, room] <;> omega

end Trap

/-- The machine `m` takes the trap, and is in front of the handler. -/
def ProcCpu.enter (t : TrapText) (m : ProcCpu) : Trap → ProcCpu
  | .irq n => (m.deliver kernelCs (t.isr n)).runTrap (isrCode t n)
  | .sys => (m.deliver kernelCs t.isrSys).runTrap (isrSysCode t)

/-- The address of the innermost word of the frame. -/
def Trap.base (k : Trap) (m : ProcCpu) : U32 := m.esp - BitVec.ofNat 32 k.size

/-- The handler is called on the frame of the trap, with interrupts off. -/
structure Entered (t : TrapText) (k : Trap) (m e : ProcCpu) : Prop where
  eip : e.eip = k.handler t
  interrupts : e.eflags.interruptsOn = false
  next : e.stack 0 = k.rest t
  stacked : Stacked e.mem m.esp (k.words m)
  low : m.esp.toNat ≤ e.esp.toNat + k.room
  high : e.esp.toNat + 8 ≤ (k.base m).toNat
  word : ∀ a : U32, a.toNat < m.esp.toNat - k.room ∨ m.esp.toNat ≤ a.toNat →
    e.mem (.word a) = m.mem (.word a)
  sym : ∀ s, e.mem (.sym s) = m.mem (.sym s)

/-- Two more words are pushed below a frame, at `sp` or further down. -/
theorem entered_mem {m : ProcCpu} {words : List U32} {n : ProcCpu} {v w : U32} {k : Trap}
    (hwords : words = k.words m) (hmem : n.mem = (m.pushWords words).mem)
    (hroom : k.room ≤ m.esp.toNat) (hlow : m.esp.toNat ≤ n.esp.toNat + (k.room - 8))
    (hhigh : n.esp.toNat ≤ (k.base m).toNat) {e : ProcCpu} (he : e = n.pushWords [v, w]) :
    e.stack 0 = w ∧ e.stack 4 = v ∧ Stacked e.mem m.esp words ∧
      (∀ a : U32, a.toNat < m.esp.toNat - k.room ∨ m.esp.toNat ≤ a.toNat →
        e.mem (.word a) = m.mem (.word a)) ∧ ∀ s, e.mem (.sym s) = m.mem (.sym s) := by
  have hsize := k.size_lt_room
  have hlen : 4 * words.length = k.size := hwords ▸ k.length_words m
  have hlt := m.esp.isLt
  have hbase : (k.base m).toNat = m.esp.toNat - k.size := by
    rw [Trap.base]
    bv_omega
  have hnesp : 4 * [v, w].length ≤ n.esp.toNat := by
    change 8 ≤ n.esp.toNat
    omega
  have hkept {a : U32} (ha : a.toNat < n.esp.toNat - 8 ∨ n.esp.toNat ≤ a.toNat) :
      e.mem (.word a) = (m.pushWords words).mem (.word a) := by
    rw [he, Cpu.pushWords_word hnesp ha, hmem]
  have hesp : e.esp = n.esp - 8 := by rw [he]; exact Cpu.pushWords_esp
  refine ⟨?_, ?_, ?_, fun a ha => ?_, fun s => ?_⟩
  · have hat : e.esp + 0 = n.esp - BitVec.ofNat 32 (4 * (1 + 1)) := by
      rw [hesp]
      bv_omega
    rw [Cpu.stack, hat, he]
    exact Cpu.pushWords_mem (show 1 < 2 by decide) (show 4 * 2 < 2 ^ 32 by decide)
  · have hat : e.esp + 4 = n.esp - BitVec.ofNat 32 (4 * (0 + 1)) := by
      rw [hesp]
      bv_omega
    rw [Cpu.stack, hat, he]
    exact Cpu.pushWords_mem (show 0 < 2 by decide) (show 4 * 2 < 2 ^ 32 by decide)
  · refine (Stacked.pushWords m (by omega)).congr (by omega) fun a hlo _ => hkept (.inr ?_)
    omega
  · rw [hkept (by omega), Cpu.pushWords_word (by omega) (by omega)]
  · rw [he, Cpu.pushWords_sym, hmem, Cpu.pushWords_sym]

/-- The stack pointer rounded down to 16 bytes. -/
theorem toNat_aligned (v : U32) : (v &&& ~~~(0xF : U32)).toNat = v.toNat / 16 * 16 :=
  toNat_and_not_low_mask v 4 (by decide)

section Enter

variable {t : TrapText} {m : ProcCpu} {k : Trap}

theorem toNat_base (hroom : k.room ≤ m.esp.toNat) : (k.base m).toNat + k.size = m.esp.toNat := by
  have hsize := k.size_lt_room
  have hlt := m.esp.isLt
  rw [Trap.base]
  bv_omega

/-- `isrCode` between `pusha` and the push of the parameter. -/
def ProcCpu.alignStack (p : ProcCpu) : ProcCpu :=
  Cpu.andReg { p.setReg .ebp p.esp with eflags := p.eflags.clearDirection } .esp (~~~0xF)

theorem alignStack_mem (p : ProcCpu) : p.alignStack.mem = p.mem := rfl

theorem alignStack_ebp (p : ProcCpu) : p.alignStack.reg .ebp = p.esp := rfl

theorem alignStack_esp (p : ProcCpu) : p.alignStack.esp = p.esp &&& ~~~(0xF : U32) := rfl

theorem alignStack_interrupts {p : ProcCpu} (h : p.eflags.interruptsOn = false) :
    p.alignStack.eflags.interruptsOn = false := by
  have hbit : p.eflags.word[9] = false := h
  simp only [ProcCpu.alignStack, Cpu.andReg]
  simp [Eflags.interruptsOn, Eflags.ofTest, Eflags.withStatus, Eflags.clearDirection, Eflags.load,
    Eflags.statusMask, flagMask, hbit]

/-- The machine behind `pusha`. -/
def ProcCpu.pushed (t : TrapText) (n : U8) (m : ProcCpu) : ProcCpu :=
  (m.deliver kernelCs (t.isr n)).pusha

theorem enter_irq (t : TrapText) (n : U8) (m : ProcCpu) :
    m.enter t (.irq n) =
      { (m.pushed t n).alignStack.pushWords [n.setWidth 32, t.isrRest] with
        eip := t.interruptHandler } := rfl

theorem pushed_mem (t : TrapText) (n : U8) (m : ProcCpu) :
    (m.pushed t n).mem = (m.pushWords ((Trap.irq n).words m)).mem := by
  obtain ⟨d, hd⟩ : ∃ d, d = m.deliver kernelCs (t.isr n) := ⟨_, rfl⟩
  have hesp : d.reg .esp = m.esp - 12 := hd ▸ m.deliver_esp kernelCs (t.isr n)
  have hreg {r : Reg} (hr : r ≠ .esp) : d.reg r = m.reg r :=
    hd ▸ m.deliver_reg kernelCs (t.isr n) hr
  have hwords : (Trap.irq n).words m =
      [m.eflags.word, kernelCs, m.eip] ++ pushaRegs.map d.reg := by
    simp only [pushaRegs, List.map_cons, List.map_nil, hesp, hreg (show Reg.eax ≠ .esp by decide),
      hreg (show Reg.ecx ≠ .esp by decide), hreg (show Reg.edx ≠ .esp by decide),
      hreg (show Reg.ebx ≠ .esp by decide), hreg (show Reg.ebp ≠ .esp by decide),
      hreg (show Reg.esi ≠ .esp by decide), hreg (show Reg.edi ≠ .esp by decide)]
    rfl
  rw [hwords, Cpu.pushWords_append, ProcCpu.pushed, ← hd, Cpu.pusha]
  refine Cpu.pushWords_mem_congr ?_ ?_ _
  · rw [hd, Cpu.deliver_esp]
    exact (@Cpu.pushWords_esp _ _ m [m.eflags.word, kernelCs, m.eip]).symm
  · rw [hd, Cpu.deliver_mem]

theorem pushed_esp (t : TrapText) (n : U8) (m : ProcCpu) :
    (m.pushed t n).esp = (Trap.irq n).base m := by
  rw [ProcCpu.pushed, Cpu.pusha, Cpu.pushWords_esp, Cpu.deliver_esp, Trap.base]
  change m.esp - 12 - 32 = m.esp - 44
  bv_omega

theorem pushed_interrupts (t : TrapText) (n : U8) (m : ProcCpu) :
    (m.pushed t n).eflags.interruptsOn = false := by
  rw [ProcCpu.pushed, Cpu.pusha, Cpu.pushWords_eflags]
  exact m.eflags.gated_off

theorem entered_irq (n : U8) (hroom : (Trap.irq n).room ≤ m.esp.toNat) :
    Entered t (.irq n) m (m.enter t (.irq n)) ∧
      (m.enter t (.irq n)).reg .ebp = (Trap.irq n).base m ∧
      (m.enter t (.irq n)).stack 4 = n.setWidth 32 := by
  have hbase := toNat_base hroom
  have hroom' : 67 ≤ m.esp.toNat := hroom
  have hsize : (Trap.irq n).size = 44 := rfl
  obtain ⟨x, hx⟩ : ∃ x, x = (m.pushed t n).alignStack := ⟨_, rfl⟩
  have hmem : x.mem = (m.pushWords ((Trap.irq n).words m)).mem := by
    rw [hx, alignStack_mem, pushed_mem]
  have halign : x.esp.toNat = ((Trap.irq n).base m).toNat / 16 * 16 := by
    rw [hx, alignStack_esp, pushed_esp, toNat_aligned]
  have hebp : x.reg .ebp = (Trap.irq n).base m := by
    rw [hx, alignStack_ebp, pushed_esp]
  have hoff : x.eflags.interruptsOn = false :=
    hx ▸ alignStack_interrupts (pushed_interrupts t n m)
  obtain ⟨e, he⟩ : ∃ e, e = x.pushWords [n.setWidth 32, t.isrRest] := ⟨_, rfl⟩
  obtain ⟨hnext, hparam, hstacked, hword, hsym⟩ := entered_mem (k := .irq n) rfl hmem hroom
    (by change m.esp.toNat ≤ x.esp.toNat + 59; omega) (by omega) he
  have heesp : e.esp = x.esp - 8 := by
    rw [he]
    exact Cpu.pushWords_esp
  have hflags : e.eflags = x.eflags := by
    rw [he]
    exact Cpu.pushWords_eflags _ _
  have hereg : e.reg .ebp = x.reg .ebp := by
    rw [he]
    exact Cpu.pushWords_reg (by decide)
  rw [enter_irq, ← hx, ← he]
  refine ⟨⟨rfl, ?_, hnext, hstacked, ?_, ?_, hword, hsym⟩, hereg.trans hebp, hparam⟩
  · exact hflags ▸ hoff
  · change m.esp.toNat ≤ e.esp.toNat + 67
    rw [heesp]
    bv_omega
  · change e.esp.toNat + 8 ≤ ((Trap.irq n).base m).toNat
    rw [heesp]
    bv_omega

/-- `isrSysCode` from a machine `d` on. -/
theorem run_isrSys (t : TrapText) {d s : ProcCpu}
    (hs : s = d.pushWords [d.reg .edi, d.reg .esi, d.reg .ebx, d.reg .edx, d.reg .ecx,
      d.reg .eax]) :
    d.runTrap (isrSysCode t) =
      { s.pushWords [s.esp, t.sysRest] with eip := t.sysHandler } := by
  subst hs
  rfl

theorem entered_sys (hroom : Trap.sys.room ≤ m.esp.toNat) :
    Entered t .sys m (m.enter t .sys) ∧ (m.enter t .sys).reg .ebp = m.reg .ebp ∧
      (m.enter t .sys).esp = Trap.sys.base m - 8 ∧ (m.enter t .sys).stack 4 = Trap.sys.base m := by
  have hbase := toNat_base hroom
  have hroom' : 44 ≤ m.esp.toNat := hroom
  have hsize : Trap.sys.size = 36 := rfl
  obtain ⟨d, hd⟩ : ∃ d, d = m.deliver kernelCs t.isrSys := ⟨_, rfl⟩
  have hdesp : d.esp = m.esp - 12 := hd ▸ m.deliver_esp kernelCs t.isrSys
  have hreg {r : Reg} (hr : r ≠ .esp) : d.reg r = m.reg r := hd ▸ m.deliver_reg kernelCs t.isrSys hr
  obtain ⟨s, hs⟩ : ∃ s, s = d.pushWords [d.reg .edi, d.reg .esi, d.reg .ebx, d.reg .edx,
    d.reg .ecx, d.reg .eax] := ⟨_, rfl⟩
  have hsesp : s.esp = Trap.sys.base m := by
    rw [hs, Cpu.pushWords_esp, hdesp, Trap.base]
    change m.esp - 12 - 24 = m.esp - 36
    bv_omega
  have hmem : s.mem = (m.pushWords (Trap.sys.words m)).mem := by
    have hwords : Trap.sys.words m = [m.eflags.word, kernelCs, m.eip] ++
        [d.reg .edi, d.reg .esi, d.reg .ebx, d.reg .edx, d.reg .ecx, d.reg .eax] := by
      rw [hreg (show Reg.edi ≠ .esp by decide), hreg (show Reg.esi ≠ .esp by decide),
        hreg (show Reg.ebx ≠ .esp by decide), hreg (show Reg.edx ≠ .esp by decide),
        hreg (show Reg.ecx ≠ .esp by decide), hreg (show Reg.eax ≠ .esp by decide)]
      rfl
    rw [hwords, Cpu.pushWords_append, hs]
    refine Cpu.pushWords_mem_congr ?_ ?_ _
    · rw [hdesp]
      exact (@Cpu.pushWords_esp _ _ m [m.eflags.word, kernelCs, m.eip]).symm
    · rw [hd, Cpu.deliver_mem]
  obtain ⟨e, he⟩ : ∃ e, e = s.pushWords [s.esp, t.sysRest] := ⟨_, rfl⟩
  have henter : m.enter t .sys = { e with eip := t.sysHandler } := by
    rw [ProcCpu.enter, ← hd, run_isrSys t hs, he]
  obtain ⟨hnext, hparam, hstacked, hword, hsym⟩ := entered_mem (k := .sys) rfl hmem hroom
    (by rw [hsesp]; change m.esp.toNat ≤ (Trap.sys.base m).toNat + 36; omega)
    (hsesp ▸ Nat.le_refl _) he
  have heesp : e.esp = Trap.sys.base m - 8 := by
    rw [he, ← hsesp]
    exact Cpu.pushWords_esp
  have hflags : e.eflags = m.eflags.gated := by
    rw [he, Cpu.pushWords_eflags, hs, Cpu.pushWords_eflags, hd]
    rfl
  have hebp : e.reg .ebp = m.reg .ebp := by
    rw [he, Cpu.pushWords_reg (by decide), hs, Cpu.pushWords_reg (by decide),
      hreg (show Reg.ebp ≠ .esp by decide)]
  rw [henter]
  refine ⟨⟨rfl, ?_, hnext, hstacked, ?_, ?_, hword, hsym⟩, hebp, heesp, hparam.trans hsesp⟩
  · exact hflags ▸ m.eflags.gated_off
  · change m.esp.toNat ≤ e.esp.toNat + 44
    rw [heesp]
    bv_omega
  · change e.esp.toNat + 8 ≤ (Trap.sys.base m).toNat
    rw [heesp]
    bv_omega

theorem entered (k : Trap) (hroom : k.room ≤ m.esp.toNat) : Entered t k m (m.enter t k) := by
  cases k with
  | irq n => exact (entered_irq n hroom).1
  | sys => exact (entered_sys hroom).1

end Enter

/-- A C function has come back from the call at whose first instruction the machine was `e`:
only the return address is popped, and `ebp` is as it was. -/
structure Returned (e m : ProcCpu) : Prop where
  eip : m.eip = e.stack 0
  esp : m.esp = e.esp + 4
  ebp : m.reg .ebp = e.reg .ebp

/-- The machine `f` that a trap interrupted goes on as if nothing had happened, but for the
result of a system call in `eax`. -/
structure Resumed (k : Trap) (f r : ProcCpu) : Prop where
  reg : ∀ g, g ≠ .eax ∨ k ≠ .sys → r.reg g = f.reg g
  eflags : r.eflags = f.eflags
  eip : r.eip = f.eip
  cs : r.mem (.word (f.esp - 8)) = kernelCs

section Resume

variable {t : TrapText} {f m : ProcCpu}

theorem run_isrRest {base : U32} (hebp : m.reg .ebp = base) :
    (∀ g, g ≠ .esp → (m.runTrap isrRestCode).reg g = m.mem (.word (base + popaOfs g))) ∧
      (m.runTrap isrRestCode).esp = base + 44 ∧
      (m.runTrap isrRestCode).eip = m.mem (.word (base + 32)) ∧
      (m.runTrap isrRestCode).eflags = .load (m.mem (.word (base + 40))) ∧
      (m.runTrap isrRestCode).mem = m.mem := by
  subst hebp
  have hup : m.reg .ebp + 32 + 0 = m.reg .ebp + 32 := by bv_omega
  have hflags : m.reg .ebp + 32 + 8 = m.reg .ebp + 40 := by bv_omega
  refine ⟨fun g hg => ?_, ?_, ?_, ?_, rfl⟩
  · have hpop (r : Cpu ProcSym) : (r.popa.iretd).reg g = r.stack (popaOfs g) := by
      rw [Cpu.iretd]
      change (r.popa.setReg .esp _).reg g = _
      rw [Cpu.setReg_of_ne _ _ hg, Cpu.popa]
      exact Function.update_of_ne hg (r.esp + 32) fun g => r.stack (popaOfs g)
    exact hpop _
  · exact show m.reg .ebp + 32 + 12 = m.reg .ebp + 44 by bv_omega
  · exact congrArg (fun a => m.mem (.word a)) hup
  · exact congrArg (fun a => Eflags.load (m.mem (.word a))) hflags

theorem resumed_irq {n : U8} (hstacked : Stacked m.mem f.esp ((Trap.irq n).words f))
    (hebp : m.reg .ebp = (Trap.irq n).base f) :
    Resumed (.irq n) f (m.runTrap isrRestCode) := by
  obtain ⟨hreg, hesp, heip, hflags, hmem⟩ := run_isrRest hebp
  have hget {k : Nat} (hk : k < 11) {a : U32}
      (ha : a = (Trap.irq n).base f + BitVec.ofNat 32 (4 * k)) :
      m.mem (.word a) = ((Trap.irq n).words f).getD (10 - k) 0 := by
    rw [ha]
    exact hstacked.get hk rfl
  refine ⟨fun g _ => ?_, ?_, ?_, ?_⟩
  · cases g with
    | eax => exact (hreg .eax (by decide)).trans (hget (show 7 < 11 by decide) rfl)
    | ebx => exact (hreg .ebx (by decide)).trans (hget (show 4 < 11 by decide) rfl)
    | ecx => exact (hreg .ecx (by decide)).trans (hget (show 6 < 11 by decide) rfl)
    | edx => exact (hreg .edx (by decide)).trans (hget (show 5 < 11 by decide) rfl)
    | esi => exact (hreg .esi (by decide)).trans (hget (show 1 < 11 by decide) rfl)
    | edi => exact (hreg .edi (by decide)).trans (hget (show 0 < 11 by decide) rfl)
    | ebp => exact (hreg .ebp (by decide)).trans (hget (show 2 < 11 by decide) rfl)
    | esp =>
        have hback : (Trap.irq n).base f + 44 = f.esp := by
          change f.esp - 44 + 44 = f.esp
          bv_omega
        exact hesp.trans hback
  · exact hflags.trans ((congrArg Eflags.load (hget (show 10 < 11 by decide) rfl)).trans
      (Eflags.load_word f.eflags))
  · exact heip.trans (hget (show 8 < 11 by decide) rfl)
  · rw [hmem]
    exact hstacked 1 (show 1 < 11 by decide)

theorem run_sysRest {base : U32} (hesp : m.esp = base - 4) :
    (m.runTrap sysRestCode).reg .ecx = m.mem (.word (base + 4)) ∧
      (m.runTrap sysRestCode).reg .edx = m.mem (.word (base + 8)) ∧
      (m.runTrap sysRestCode).reg .ebx = m.mem (.word (base + 12)) ∧
      (m.runTrap sysRestCode).reg .esi = m.mem (.word (base + 16)) ∧
      (m.runTrap sysRestCode).reg .edi = m.mem (.word (base + 20)) ∧
      (m.runTrap sysRestCode).reg .ebp = m.reg .ebp ∧
      (m.runTrap sysRestCode).reg .eax = m.reg .eax ∧
      (m.runTrap sysRestCode).esp = base + 36 ∧
      (m.runTrap sysRestCode).eip = m.mem (.word (base + 24)) ∧
      (m.runTrap sysRestCode).eflags = .load (m.mem (.word (base + 32))) ∧
      (m.runTrap sysRestCode).mem = m.mem := by
  have word {a b : U32} (h : a = b) : m.mem (.word a) = m.mem (.word b) := by rw [h]
  refine ⟨?_, ?_, ?_, ?_, ?_, rfl, rfl, ?_, ?_, ?_, rfl⟩
  · exact word (show m.esp + 8 + 0 = base + 4 by rw [hesp]; bv_omega)
  · exact word (show m.esp + 8 + 4 + 0 = base + 8 by rw [hesp]; bv_omega)
  · exact word (show m.esp + 8 + 4 + 4 + 0 = base + 12 by rw [hesp]; bv_omega)
  · exact word (show m.esp + 8 + 4 + 4 + 4 + 0 = base + 16 by rw [hesp]; bv_omega)
  · exact word (show m.esp + 8 + 4 + 4 + 4 + 4 + 0 = base + 20 by rw [hesp]; bv_omega)
  · exact show m.esp + 8 + 4 + 4 + 4 + 4 + 4 + 12 = base + 36 by rw [hesp]; bv_omega
  · exact word (show m.esp + 8 + 4 + 4 + 4 + 4 + 4 + 0 = base + 24 by rw [hesp]; bv_omega)
  · exact congrArg Eflags.load
      (word (show m.esp + 8 + 4 + 4 + 4 + 4 + 4 + 8 = base + 32 by rw [hesp]; bv_omega))

theorem resumed_sys (hstacked : Stacked m.mem f.esp (Trap.sys.words f))
    (hesp : m.esp = Trap.sys.base f - 4) (hebp : m.reg .ebp = f.reg .ebp) :
    Resumed .sys f (m.runTrap sysRestCode) ∧ (m.runTrap sysRestCode).reg .eax = m.reg .eax := by
  obtain ⟨hecx, hedx, hebx, hesi, hedi, hbp, heax, hsp, heip, hflags, hmem⟩ := run_sysRest hesp
  have hget {k : Nat} (hk : k < 9) {a : U32}
      (ha : a = Trap.sys.base f + BitVec.ofNat 32 (4 * k)) :
      m.mem (.word a) = (Trap.sys.words f).getD (8 - k) 0 := by
    rw [ha]
    exact hstacked.get hk rfl
  refine ⟨⟨fun g hg => ?_, ?_, ?_, ?_⟩, heax⟩
  · cases g with
    | eax => exact absurd rfl (hg.resolve_right fun h => h rfl)
    | ebx => exact hebx.trans (hget (show 3 < 9 by decide) rfl)
    | ecx => exact hecx.trans (hget (show 1 < 9 by decide) rfl)
    | edx => exact hedx.trans (hget (show 2 < 9 by decide) rfl)
    | esi => exact hesi.trans (hget (show 4 < 9 by decide) rfl)
    | edi => exact hedi.trans (hget (show 5 < 9 by decide) rfl)
    | ebp => exact hbp.trans hebp
    | esp =>
        have hback : Trap.sys.base f + 36 = f.esp := by
          change f.esp - 36 + 36 = f.esp
          bv_omega
        exact hsp.trans hback
  · exact hflags.trans ((congrArg Eflags.load (hget (show 8 < 9 by decide) rfl)).trans
      (Eflags.load_word f.eflags))
  · exact heip.trans (hget (show 6 < 9 by decide) rfl)
  · rw [hmem]
    exact hstacked 1 (show 1 < 9 by decide)

/-- Behind the call the rest of the routine finds the frame, and with it the machine that was
interrupted. -/
theorem resumed {k : Trap} (hroom : k.room ≤ f.esp.toNat)
    (hstacked : Stacked m.mem f.esp (k.words f)) (h : Returned (f.enter t k) m) :
    Resumed k f (m.runTrap k.restCode) ∧
      (k = .sys → (m.runTrap k.restCode).reg .eax = m.reg .eax) ∧
      (m.runTrap k.restCode).mem = m.mem := by
  cases k with
  | irq n =>
      obtain ⟨-, hebp, -⟩ := @entered_irq t f n hroom
      have hbase := h.ebp.trans hebp
      exact ⟨resumed_irq hstacked hbase, fun h => (nomatch h), (run_isrRest hbase).2.2.2.2⟩
  | sys =>
      obtain ⟨-, hebp, hesp, -⟩ := @entered_sys t f hroom
      have hat : m.esp = Trap.sys.base f - 4 := by
        rw [h.esp, hesp]
        bv_omega
      obtain ⟨hresumed, heax⟩ := resumed_sys hstacked hat (h.ebp.trans hebp)
      exact ⟨hresumed, fun _ => heax, rfl⟩

end Resume

end DordOs
