import DordOs.Lib.Memory
import DordOs.Pmman.Isolation
import DordOs.Proc.State
import DordOs.Proc.Switch

/-!
The call of `proc_init` by `proc_create`, and what the compiled C code relies on when the
routine returns.
-/
namespace DordOs
open Lib Lib.X86

def procNextOfs : U32 := 8
def procNameOfs : U32 := 16

/-- What a successful `pmman_alloc` gives `proc_create` on this machine: a block of memory
that nobody uses, so that the three words the call of `proc_init` pushes lie elsewhere. -/
structure NewBlock (m : ProcCpu) where
  new : U32
  ne_zero : new ≠ 0
  fits : new.toNat + procSize.toNat ≤ 2 ^ 32
  apart : ∀ i < 3, ¬ InRange new procSize.toNat (m.esp - BitVec.ofNat 32 (4 * (i + 1)))

/-- `proc_create` gets such a block whenever its allocation succeeds and the three words lie
outside what is allocated. -/
def NewBlock.ofCreate {s : Sched} (hkernel : s.pmmanKernelMap.Kernel) {entry name : Usz}
    (hsome : (procCreate s entry name).1 ≠ 0) {m : ProcCpu}
    (happart : ∀ i < 3, ¬ InRange (procCreate s entry name).1 procSize.toNat
      (m.esp - BitVec.ofNat 32 (4 * (i + 1)))) : NewBlock m where
  new := (procCreate s entry name).1
  ne_zero := hsome
  fits := by
    obtain ⟨start, hok⟩ := alloc_nonnull_success hkernel hsome
    have haddr : (procCreate s entry name).1.toNat = start * 16384 := hok.addr
    have hin : start + 1 ≤ 1024 := hok.run.inside
    have hsize : procSize.toNat = 4096 := rfl
    omega
  apart := happart

/-- The assignments of `proc_create` to the block. -/
def ProcCpu.filled (m : ProcCpu) (new entry name : U32) : ProcCpu :=
  let m := m.store (.word (new + procEntryOfs)) entry
  let m := m.store (.word (new + procNextOfs)) 0
  let m := m.store (.word (new + procNameOfs)) name
  m.store (.word (new + procSpOfs)) (new + procSize)

/-- `proc_create` behind the allocation, up to the first instruction of `proc_init`. -/
def ProcCpu.callInit (t : ProcText) (m : ProcCpu) (new entry name ret : U32) : ProcCpu :=
  { (m.filled new entry name).pushWords [new, ret] with eip := t.procInit }

/-- Nothing is written but the saved `ebp`, the field `sp` of the block and the eight words at
its top. -/
def WritesFrame (new : U32) (call after : ProcCpu) : Prop :=
  ∀ l, l ≠ .word (call.esp - 4) → l ≠ .word (new + procSpOfs) →
    (∀ i < 8, l ≠ .word (new + procSize - BitVec.ofNat 32 (4 * (i + 1)))) →
    after.mem l = call.mem l

/-- The machine `call` at the first instruction of `proc_init` and the machine behind its
`ret`: the registers are as at the call, and the return address is popped. -/
structure KeepsConvention (new : U32) (call after : ProcCpu) : Prop where
  ebx : after.reg .ebx = call.reg .ebx
  esi : after.reg .esi = call.reg .esi
  edi : after.reg .edi = call.reg .edi
  ebp : after.reg .ebp = call.reg .ebp
  esp : after.esp = call.esp + 4
  eip : after.eip = call.stack 0
  writes : WritesFrame new call after

/-- The machine is at the first instruction of `proc_init`, called for the block. -/
structure AtInit (new : U32) (call : ProcCpu) : Prop where
  param : call.mem (.word (call.esp + 4)) = new
  top : call.mem (.word (new + procSpOfs)) = new + procSize
  fits : new.toNat + procSize.toNat ≤ 2 ^ 32
  savedApart : ¬ InRange new procSize.toNat (call.esp - 4)
  returnApart : ¬ InRange new procSize.toNat call.esp

variable {t : ProcText} {m call : ProcCpu} {new : U32}

theorem inRange_sp (hfits : new.toNat + procSize.toNat ≤ 2 ^ 32) :
    InRange new procSize.toNat (new + procSpOfs) :=
  @inRange_add new procSize.toNat 0 hfits (by decide)

theorem inRange_forged (hfits : new.toNat + procSize.toNat ≤ 2 ^ 32) {i : Nat} (hi : i < 8) :
    InRange new procSize.toNat (new + procSize - BitVec.ofNat 32 (4 * (i + 1))) := by
  have hsize : procSize = BitVec.ofNat 32 4096 := rfl
  have hnat : procSize.toNat = 4096 := rfl
  have hat : new + procSize - BitVec.ofNat 32 (4 * (i + 1)) =
      new + BitVec.ofNat 32 (4096 - 4 * (i + 1)) := by
    rw [hsize]
    bv_omega
  rw [hat]
  exact inRange_add hfits (by omega)

theorem word_ne_of_apart {a b : U32} {n : Nat} (ha : InRange new n a) (hb : ¬ InRange new n b) :
    (Loc.word b : Loc ProcSym) ≠ .word a := by
  intro heq
  rw [Loc.word.inj heq] at hb
  exact hb ha

theorem sub_four_succ (a : U32) (i : Nat) :
    a - BitVec.ofNat 32 (4 * i) - 4 = a - BitVec.ofNat 32 (4 * (i + 1)) := by
  bv_omega

theorem ne_sub_four (a : U32) : a ≠ a - 4 := by
  bv_omega

theorem callInit_mem (t : ProcText) (m : ProcCpu) (new entry name ret : U32) :
    (m.callInit t new entry name ret).mem =
      Function.update (Function.update (m.filled new entry name).mem (.word (m.esp - 4)) new)
        (.word (m.esp - 4 - 4)) ret := rfl

theorem atInit_callInit (t : ProcText) (b : NewBlock m) (entry name ret : U32) :
    AtInit b.new (m.callInit t b.new entry name ret) := by
  have hesp : (m.callInit t b.new entry name ret).esp = m.esp - 4 - 4 := rfl
  have hfirst : m.esp - 4 = m.esp - BitVec.ofNat 32 (4 * (0 + 1)) := rfl
  have hsecond := sub_four_succ m.esp 1
  have hthird := sub_four_succ m.esp 2
  rw [← hfirst] at hsecond
  rw [← hsecond] at hthird
  have hparam : m.esp - 4 - 4 + 4 = m.esp - 4 := BitVec.sub_add_cancel _ _
  have hnear : (Loc.word (m.esp - 4) : Loc ProcSym) ≠ .word (m.esp - 4 - 4) :=
    fun heq => absurd (Loc.word.inj heq) (ne_sub_four _)
  have hsp := inRange_sp b.fits
  have happart (i : Nat) (hi : i < 3) := word_ne_of_apart hsp (b.apart i hi)
  refine ⟨?_, ?_, b.fits, ?_, ?_⟩
  · rw [callInit_mem, hesp, hparam, Function.update_of_ne hnear, Function.update_self]
  · rw [callInit_mem, hsecond, Function.update_of_ne (happart 1 (by decide)).symm, hfirst,
      Function.update_of_ne (happart 0 (by decide)).symm]
    exact Function.update_self _ _ _
  · rw [hesp, hthird]
    exact b.apart 2 (by decide)
  · rw [hesp, hsecond]
    exact b.apart 1 (by decide)

theorem exec_initTail_regs (m : ProcCpu) {mem : Loc ProcSym → U32}
    (hmem : (Cpu.exec 0 initTailCode m).mem = mem) :
    (∀ r, r ≠ .ebp → r ≠ .esp → (Cpu.exec 0 initTailCode m).reg r = m.reg r) ∧
      (Cpu.exec 0 initTailCode m).reg .ebp = mem (.word (m.reg .ebp)) ∧
      (Cpu.exec 0 initTailCode m).esp = m.reg .ebp + 8 ∧
      (Cpu.exec 0 initTailCode m).eip = mem (.word (m.reg .ebp + 4)) := by
  subst hmem
  have word {a b : U32} (h : a = b) : (Cpu.exec 0 initTailCode m).mem (.word a) =
      (Cpu.exec 0 initTailCode m).mem (.word b) := by rw [h]
  refine ⟨fun r hebp hesp => ?_, ?_, ?_, ?_⟩
  · exact (Cpu.setReg_of_ne _ _ hesp).trans ((Cpu.setReg_of_ne _ _ hebp).trans
      ((Cpu.setReg_of_ne _ _ hesp).trans (Cpu.setReg_of_ne _ _ hesp)))
  · exact word (show m.reg .ebp + 0 = m.reg .ebp by bv_omega)
  · exact show m.reg .ebp + 4 + 4 = m.reg .ebp + 8 by bv_omega
  · exact word (show m.reg .ebp + 4 + 0 = m.reg .ebp + 4 by bv_omega)

/-- What `proc_init` does, called for the block: all registers but `edi` are as the
convention has them. -/
structure InitReturns (new : U32) (call after : ProcCpu) : Prop where
  saved : ∀ r, r ≠ .edi → r ≠ .esp → after.reg r = call.reg r
  edi : after.reg .edi = new
  esp : after.esp = call.esp + 4
  eip : after.eip = call.stack 0
  writes : WritesFrame new call after

/-- The machine when the frame is forged. -/
structure Forged (new : U32) (call f : ProcCpu) : Prop where
  saved : ∀ r, r ≠ .edi → r ≠ .esp → r ≠ .ebp → f.reg r = call.reg r
  edi : f.reg .edi = new
  ebp : f.reg .ebp = call.esp - 4
  savedEbp : f.mem (.word (call.esp - 4)) = call.reg .ebp
  writes : ∀ l, l ≠ .word (call.esp - 4) →
    (∀ i < 8, l ≠ .word (new + procSize - BitVec.ofNat 32 (4 * (i + 1)))) →
    f.mem l = call.mem l

theorem AtInit.forged (h : AtInit new call) (t : ProcText) (entry : U32) :
    Forged new call
      ((call.forging new (new + procSize)).pushWords (forgedWords t entry)) := by
  have hesp : (call.forging new (new + procSize)).esp = new + procSize := Cpu.setReg_self _ _ _
  have hmem : (call.forging new (new + procSize)).mem =
      Function.update call.mem (.word (call.esp - 4)) (call.reg .ebp) := rfl
  have hframe {l : Loc ProcSym}
      (hl : ∀ i < 8, l ≠ .word (new + procSize - BitVec.ofNat 32 (4 * (i + 1)))) :
      ((call.forging new (new + procSize)).pushWords (forgedWords t entry)).mem l =
        (call.forging new (new + procSize)).mem l :=
    Cpu.pushWords_mem_of_ne (hesp ▸ hl)
  refine ⟨fun r hedi hsp hebp => ?_, ?_, ?_, ?_, fun l hsaved hl => ?_⟩
  · rw [Cpu.pushWords_reg hsp, ProcCpu.forging, Cpu.setReg_of_ne _ _ hsp,
      Cpu.setReg_of_ne _ _ hedi, Cpu.setReg_of_ne _ _ hebp, Cpu.pushWord_reg _ _ hsp]
  · rw [Cpu.pushWords_reg (by decide), ProcCpu.forging, Cpu.setReg_of_ne _ _ (by decide),
      Cpu.setReg_self]
  · rw [Cpu.pushWords_reg (by decide), ProcCpu.forging, Cpu.setReg_of_ne _ _ (by decide),
      Cpu.setReg_of_ne _ _ (by decide), Cpu.setReg_self, Cpu.pushWord_esp]
  · rw [hframe fun i hi => word_ne_of_apart (inRange_forged h.fits hi) h.savedApart, hmem,
      Function.update_self]
  · rw [hframe hl, hmem, Function.update_of_ne hsaved]

/-- `proc_init` behind the pushes. -/
theorem Forged.returns {f after : ProcCpu} (hf : Forged new call f) (h : AtInit new call)
    (hafter : after = Cpu.exec 0 initTailCode f) : InitReturns new call after := by
  subst hafter
  have hmem : (Cpu.exec 0 initTailCode f).mem =
      Function.update f.mem (.word (new + procSpOfs)) f.esp := by
    rw [exec_initTail, hf.edi]
  obtain ⟨hreg, hebp, hesp, heip⟩ := exec_initTail_regs f hmem
  have hup : call.esp - 4 + 8 = call.esp + 4 := by bv_omega
  have hret : call.esp - 4 + 4 = call.esp := BitVec.sub_add_cancel _ _
  have hzero : call.esp + 0 = call.esp := BitVec.add_zero _
  have hsp := inRange_sp h.fits
  refine ⟨fun r hedi hrsp => ?_, ?_, ?_, ?_, fun l hsaved hl hforged => ?_⟩
  · by_cases hr : r = .ebp
    · rw [hr, hebp, hf.ebp, Function.update_of_ne (word_ne_of_apart hsp h.savedApart), hf.savedEbp]
    · rw [hreg r hr hrsp, hf.saved r hedi hrsp hr]
  · rw [hreg .edi (by decide) (by decide), hf.edi]
  · rw [hesp, hf.ebp, hup]
  · have hnear : (Loc.word call.esp : Loc ProcSym) ≠ .word (call.esp - 4) :=
      fun heq => absurd (Loc.word.inj heq) (ne_sub_four _)
    rw [heip, hf.ebp, hret, Function.update_of_ne (word_ne_of_apart hsp h.returnApart),
      hf.writes _ hnear fun i hi => word_ne_of_apart (inRange_forged h.fits hi) h.returnApart,
      Cpu.stack, hzero]
  · rw [hmem, Function.update_of_ne hl, hf.writes l hsaved hforged]

theorem AtInit.returns (h : AtInit new call) (t : ProcText) :
    InitReturns new call (call.run (procInitCode t)) := by
  have hup : call.esp - 4 + 8 = call.esp + 4 := by bv_omega
  have hnear : (Loc.word (call.esp + 4) : Loc ProcSym) ≠ .word (call.esp - 4) := by
    intro heq
    have := Loc.word.inj heq
    bv_omega
  have hproc : (call.pushWord (call.reg .ebp)).mem (.word (call.esp - 4 + 8)) = new := by
    rw [hup, Cpu.pushWord_mem, Function.update_of_ne hnear, h.param]
  have htop : (call.pushWord (call.reg .ebp)).mem (.word (new + procSpOfs)) = new + procSize := by
    rw [Cpu.pushWord_mem, Function.update_of_ne
      (word_ne_of_apart (inRange_sp h.fits) h.savedApart).symm, h.top]
  exact (h.forged t _).returns h (exec_forging t call hproc htop rfl)

/-- All that the call owes its caller is kept but for `edi`. -/
theorem InitReturns.keepsConvention_iff {after : ProcCpu} (h : InitReturns new call after) :
    KeepsConvention new call after ↔ call.reg .edi = new := by
  constructor
  · intro hkeeps
    rw [← hkeeps.edi, h.edi]
  · intro hedi
    exact ⟨h.saved .ebx (by decide) (by decide), h.saved .esi (by decide) (by decide),
      h.edi.trans hedi.symm, h.saved .ebp (by decide) (by decide), h.esp, h.eip, h.writes⟩

theorem proc_init_convention_iff (t : ProcText) (m : ProcCpu) (b : NewBlock m)
    (entry name ret : U32) :
    KeepsConvention b.new (m.callInit t b.new entry name ret)
        ((m.callInit t b.new entry name ret).run (procInitCode t)) ↔ m.reg .edi = b.new :=
  ((atInit_callInit t b entry name ret).returns t).keepsConvention_iff

/-- A caller that keeps a value of its own in `edi`. -/
def callerCpu : ProcCpu :=
  ⟨fun r => if r = .esp then 0x9000 else 7, .load 0, 0x100, fun _ => 0⟩

def callerBlock : NewBlock callerCpu := ⟨0x10000, by decide, by decide, by decide⟩

def callerText : ProcText := ⟨0x1000, 0x1100, 0x1110, 0x1200, 0x1300⟩

theorem proc_init_clobbers_edi :
    ¬ ∀ (t : ProcText) (m : ProcCpu) (b : NewBlock m) (entry name ret : U32),
      KeepsConvention b.new (m.callInit t b.new entry name ret)
        ((m.callInit t b.new entry name ret).run (procInitCode t)) := by
  intro hall
  have hkeeps := hall callerText callerCpu callerBlock 0x2000 0 0x3000
  have hreturns := (atInit_callInit callerText callerBlock 0x2000 0 0x3000).returns callerText
  have hedi : callerCpu.reg .edi = callerBlock.new := hreturns.keepsConvention_iff.1 hkeeps
  exact absurd hedi (by decide)

end DordOs
