import DordOs.Lib.X86
import DordOs.Lib.Run
import DordOs.Libk.Align

/-!
The routines of `proc.asm`: `proc_switch`, `proc_init`, and `proc_startup` before and after
its call of `proc_release`. Where the linker puts them is a parameter.
-/
namespace DordOs
open Lib Lib.X86

/-- The symbols `proc.asm` imports. -/
inductive ProcSym
  | procCurrent
  | pitSystimeMsec
  deriving DecidableEq

abbrev ProcCpu := Cpu ProcSym

/-- The addresses of the routines; `startupRest` is the one behind the call in
`proc_startup`. -/
structure ProcText where
  procSwitch : U32
  procStartup : U32
  startupRest : U32
  procInit : U32
  procRelease : U32

def procSpOfs : U32 := 0
def procEntryOfs : U32 := 4
def procTimeEndOfs : U32 := 12

def procSwitchCode : List (Insn ProcSym) :=
  [.push (.reg .ebx), .push (.reg .esi), .push (.reg .edi), .push (.reg .ebp), .pushfd,
    .mov (.reg .edi) (.sym .procCurrent),
    .test .edi .edi,
    .jz 1,
    .mov (.mem .edi procSpOfs) (.reg .esp),
    .mov (.reg .esi) (.mem .esp (6 * 4)),
    .mov (.reg .edi) (.sym .pitSystimeMsec),
    .add .edi 8,
    .mov (.mem .esi procTimeEndOfs) (.reg .edi),
    .mov (.reg .esp) (.mem .esi procSpOfs),
    .mov (.sym .procCurrent) (.reg .esi),
    .popfd, .pop .ebp, .pop .edi, .pop .esi, .pop .ebx, .ret]

def procStartupCode (t : ProcText) : List (Insn ProcSym) :=
  [.push (.imm (0x200 ||| 0x200000)), .call t.procRelease t.startupRest]

def startupRestCode : List (Insn ProcSym) := [.add .esp 4, .ret]

def procInitCode (t : ProcText) : List (Insn ProcSym) :=
  [.push (.reg .ebp),
    .mov (.reg .ebp) (.reg .esp),
    .mov (.reg .edi) (.mem .ebp 8),
    .mov (.reg .esp) (.mem .edi procSpOfs),
    .push (.imm 0),
    .push (.mem .edi procEntryOfs),
    .push (.imm t.procStartup),
    .push (.imm 0), .push (.imm 0), .push (.imm 0), .push (.imm 0), .push (.imm 0),
    .mov (.mem .edi procSpOfs) (.reg .esp),
    .mov (.reg .esp) (.reg .ebp),
    .pop .ebp,
    .ret]

def ProcCpu.procCurrent (m : ProcCpu) : U32 := m.mem (.sym .procCurrent)

/-- The machine after the pushes of `proc_switch`. -/
def ProcCpu.saved (m : ProcCpu) : ProcCpu :=
  m.pushWords [m.reg .ebx, m.reg .esi, m.reg .edi, m.reg .ebp, m.eflags.word]

/-- The memory once the stack pointer of the current process is stored. -/
def ProcCpu.parkedMem (m : ProcCpu) : Loc ProcSym → U32 :=
  if m.procCurrent = 0 then m.saved.mem
  else Function.update m.saved.mem (.word (m.procCurrent + procSpOfs)) m.saved.esp

/-- The memory when `proc_switch` pops, having been called for `proc`. -/
def ProcCpu.switchedMem (m : ProcCpu) (proc : U32) : Loc ProcSym → U32 :=
  Function.update (Function.update m.parkedMem (.word (proc + procTimeEndOfs))
    (m.parkedMem (.sym .pitSystimeMsec) + 8)) (.sym .procCurrent) proc

theorem exec_saved (m : ProcCpu) (code : List (Insn ProcSym)) :
    Cpu.exec 0 (.push (.reg .ebx) :: .push (.reg .esi) :: .push (.reg .edi) ::
      .push (.reg .ebp) :: .pushfd :: code) m = Cpu.exec 0 code m.saved := rfl

/-- What the pops of `proc_switch` make of the frame at `sp`. -/
structure Pops (mem : Loc ProcSym → U32) (sp : U32) (m' : ProcCpu) : Prop where
  eflags : m'.eflags = .load (mem (.word sp))
  ebp : m'.reg .ebp = mem (.word (sp + 4))
  edi : m'.reg .edi = mem (.word (sp + 8))
  esi : m'.reg .esi = mem (.word (sp + 12))
  ebx : m'.reg .ebx = mem (.word (sp + 16))
  eip : m'.eip = mem (.word (sp + 20))
  esp : m'.esp = sp + 24
  mem : m'.mem = mem

def popCode : List (Insn ProcSym) :=
  [.popfd, .pop .ebp, .pop .edi, .pop .esi, .pop .ebx, .ret]

theorem exec_popCode {m : ProcCpu} {mem : Loc ProcSym → U32} {sp : U32} (hmem : m.mem = mem)
    (hsp : m.esp = sp) : Pops mem sp (Cpu.exec 0 popCode m) := by
  subst hmem hsp
  have word {a b : U32} (h : a = b) : m.mem (.word a) = m.mem (.word b) := by rw [h]
  refine ⟨?_, ?_, ?_, ?_, ?_, ?_, ?_, rfl⟩
  · exact congrArg Eflags.load (word (show m.esp + 0 = m.esp by bv_omega))
  · exact word (show m.esp + 4 + 0 = m.esp + 4 by bv_omega)
  · exact word (show m.esp + 4 + 4 + 0 = m.esp + 8 by bv_omega)
  · exact word (show m.esp + 4 + 4 + 4 + 0 = m.esp + 12 by bv_omega)
  · exact word (show m.esp + 4 + 4 + 4 + 4 + 0 = m.esp + 16 by bv_omega)
  · exact word (show m.esp + 4 + 4 + 4 + 4 + 4 + 0 = m.esp + 20 by bv_omega)
  · exact show m.esp + 4 + 4 + 4 + 4 + 4 + 4 = m.esp + 24 by bv_omega

/-- `proc_switch` from the label `.no_current` on. -/
def noCurrentCode : List (Insn ProcSym) :=
  .mov (.reg .esi) (.mem .esp (6 * 4)) ::
    .mov (.reg .edi) (.sym .pitSystimeMsec) ::
    .add .edi 8 ::
    .mov (.mem .esi procTimeEndOfs) (.reg .edi) ::
    .mov (.reg .esp) (.mem .esi procSpOfs) ::
    .mov (.sym .procCurrent) (.reg .esi) :: popCode

theorem exec_noCurrent {m : ProcCpu} {proc : U32} (hproc : m.stack (6 * 4) = proc)
    {mem : Loc ProcSym → U32}
    (hmem : mem = Function.update (Function.update m.mem (.word (proc + procTimeEndOfs))
      (m.mem (.sym .pitSystimeMsec) + 8)) (.sym .procCurrent) proc) :
    Pops mem (mem (.word (proc + procSpOfs))) (Cpu.exec 0 noCurrentCode m) := by
  subst hproc hmem
  simp only [noCurrentCode, Cpu.exec]
  exact exec_popCode rfl rfl

/-- The machine at the jump of `proc_switch`. -/
def ProcCpu.tested (m : ProcCpu) : ProcCpu :=
  { m.saved.setReg .edi m.procCurrent with
    eflags := m.saved.eflags.ofTest (m.procCurrent &&& m.procCurrent) }

theorem exec_tested (m : ProcCpu) :
    m.run procSwitchCode = Cpu.exec (if m.tested.eflags.zf then 1 else 0)
      (.mov (.mem .edi procSpOfs) (.reg .esp) :: noCurrentCode) m.tested := by
  have hedi : m.saved.mem (.sym .procCurrent) = m.procCurrent := rfl
  simp only [Cpu.run, procSwitchCode]
  rw [exec_saved]
  simp only [Cpu.exec, Cpu.assign, Cpu.load, hedi, Cpu.setReg_self]
  rfl

theorem run_procSwitch (m : ProcCpu) {proc : U32}
    (hproc : m.parkedMem (.word (m.saved.esp + 6 * 4)) = proc) :
    Pops (m.switchedMem proc) (m.switchedMem proc (.word (proc + procSpOfs)))
      (m.run procSwitchCode) := by
  have hzf : m.tested.eflags.zf = decide (m.procCurrent = 0) := by
    rw [ProcCpu.tested, Eflags.zf_ofTest, BitVec.and_self]
  have hedi : m.tested.reg .edi = m.procCurrent :=
    Cpu.setReg_self m.saved .edi m.procCurrent
  have hesp : m.tested.reg .esp = m.saved.esp :=
    @Cpu.setReg_of_ne _ m.saved .edi .esp m.procCurrent (by decide)
  have hmem : m.tested.mem = m.saved.mem := rfl
  rw [exec_tested, hzf]
  by_cases hcur : m.procCurrent = 0
  · rw [ProcCpu.parkedMem, if_pos hcur] at hproc
    rw [decide_eq_true hcur, if_pos rfl, ProcCpu.switchedMem, ProcCpu.parkedMem, if_pos hcur]
    simp only [Cpu.exec]
    refine exec_noCurrent ?_ (by rw [hmem])
    rw [Cpu.stack, Cpu.esp, hesp, hmem]
    exact hproc
  · rw [ProcCpu.parkedMem, if_neg hcur] at hproc
    rw [decide_eq_false hcur, if_neg Bool.false_ne_true, ProcCpu.switchedMem, ProcCpu.parkedMem,
      if_neg hcur]
    simp only [Cpu.exec, Cpu.assign, Cpu.load, hedi, hesp]
    obtain ⟨n, hn⟩ : ∃ n, n = m.tested.store (.word (m.procCurrent + procSpOfs)) m.saved.esp :=
      ⟨_, rfl⟩
    have hnmem : n.mem =
        Function.update m.saved.mem (.word (m.procCurrent + procSpOfs)) m.saved.esp := by
      rw [hn, Cpu.store, hmem]
    have hnesp : n.reg .esp = m.saved.esp := by
      rw [hn, Cpu.store, hesp]
    rw [← hn]
    refine exec_noCurrent ?_ (by rw [hnmem])
    rw [Cpu.stack, Cpu.esp, hnesp, hnmem]
    exact hproc

/-- The end of `proc_init`, behind the pushes. -/
def initTailCode : List (Insn ProcSym) :=
  [.mov (.mem .edi procSpOfs) (.reg .esp), .mov (.reg .esp) (.reg .ebp), .pop .ebp, .ret]

theorem exec_initTail (m : ProcCpu) : (Cpu.exec 0 initTailCode m).mem =
    Function.update m.mem (.word (m.reg .edi + procSpOfs)) m.esp := rfl

/-- The forged frame, from the word at the top of the stack down. -/
def forgedWords (t : ProcText) (entry : U32) : List U32 := [0, entry, t.procStartup, 0, 0, 0, 0, 0]

/-- The machine when `proc_init` starts to forge the frame. -/
def ProcCpu.forging (m : ProcCpu) (proc top : U32) : ProcCpu :=
  let m1 := m.pushWord (m.reg .ebp)
  ((m1.setReg .ebp m1.esp).setReg .edi proc).setReg .esp top

theorem exec_forging (t : ProcText) (m : ProcCpu) {proc top entry : U32}
    (hproc : (m.pushWord (m.reg .ebp)).mem (.word (m.esp - 4 + 8)) = proc)
    (htop : (m.pushWord (m.reg .ebp)).mem (.word (proc + procSpOfs)) = top)
    (hentry : ((m.forging proc top).pushWord 0).mem (.word (proc + procEntryOfs)) = entry) :
    m.run (procInitCode t) =
      Cpu.exec 0 initTailCode ((m.forging proc top).pushWords (forgedWords t entry)) := by
  subst hproc htop hentry
  rfl

theorem run_procInit (t : ProcText) (m : ProcCpu) {proc top entry : U32}
    (hproc : (m.pushWord (m.reg .ebp)).mem (.word (m.esp - 4 + 8)) = proc)
    (htop : (m.pushWord (m.reg .ebp)).mem (.word (proc + procSpOfs)) = top)
    (hentry : ((m.forging proc top).pushWord 0).mem (.word (proc + procEntryOfs)) = entry) :
    (m.run (procInitCode t)).mem =
      Function.update ((m.forging proc top).pushWords (forgedWords t entry)).mem
        (.word (proc + procSpOfs)) (top - 32) := by
  have hedi : ((m.forging proc top).pushWords (forgedWords t entry)).reg .edi = proc := by
    rw [Cpu.pushWords_reg (by decide), ProcCpu.forging, Cpu.setReg_of_ne _ _ (by decide),
      Cpu.setReg_self]
  have hesp : ((m.forging proc top).pushWords (forgedWords t entry)).esp = top - 32 := by
    have hstart : (m.forging proc top).esp = top := Cpu.setReg_self _ _ _
    rw [Cpu.pushWords_esp, hstart]
    rfl
  rw [exec_forging t m hproc htop hentry, exec_initTail, hedi, hesp]

/-- `proc_startup` up to its call. -/
theorem run_procStartup (t : ProcText) (m : ProcCpu) :
    (m.run (procStartupCode t)).eip = t.procRelease ∧
      (m.run (procStartupCode t)).esp = m.esp - 8 ∧
      (m.run (procStartupCode t)).mem =
        (m.pushWords [0x200 ||| 0x200000, t.startupRest]).mem := by
  refine ⟨rfl, ?_, rfl⟩
  exact show m.esp - 4 - 4 = m.esp - 8 by bv_omega

theorem run_startupRest (m : ProcCpu) :
    (m.run startupRestCode).eip = m.stack 4 ∧ (m.run startupRestCode).esp = m.esp + 8 ∧
      (m.run startupRestCode).mem = m.mem := by
  refine ⟨?_, ?_, rfl⟩
  · exact congrArg (fun a => m.mem (.word a)) (show m.esp + 4 + 0 = m.esp + 4 by bv_omega)
  · exact show m.esp + 4 + 4 = m.esp + 8 by bv_omega

end DordOs
