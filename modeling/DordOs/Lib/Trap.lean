import DordOs.Lib.X86

/-!
Interrupts on the fragment of the x86: delivery through an interrupt gate without a change
of privilege, and the instructions of the routines a gate leads to.
-/
namespace DordOs.Lib.X86

namespace Eflags

/-- IF, TF and NT, which an interrupt gate clears. -/
def gateMask : BitVec 32 := 0x4300

def gated (f : Eflags) : Eflags := load (f.word &&& ~~~gateMask)

def interruptsOn (f : Eflags) : Bool := f.word.getLsbD 9

/-- `cld` -/
def clearDirection (f : Eflags) : Eflags := load (f.word &&& ~~~(0x400 : BitVec 32))

theorem gated_off (f : Eflags) : f.gated.interruptsOn = false := by
  simp [gated, interruptsOn, load, gateMask, flagMask]

end Eflags

/-- An instruction of the fragment that does not jump, or one of those that save and restore
the whole machine. -/
inductive TrapInsn (σ : Type)
  | plain (i : Insn σ)
  | pusha
  | popa
  | cld
  | andReg (dst : Reg) (v : BitVec 32)
  | iretd

/-- The registers in the order of `pusha`. -/
def pushaRegs : List Reg := [.eax, .ecx, .edx, .ebx, .esp, .ebp, .esi, .edi]

/-- How far up the stack `popa` finds a register. -/
def popaOfs : Reg → BitVec 32
  | .edi => 0
  | .esi => 4
  | .ebp => 8
  | .esp => 12
  | .ebx => 16
  | .edx => 20
  | .ecx => 24
  | .eax => 28

namespace Cpu

variable {σ : Type}

/-- `popa` skips the word of `esp`. -/
def popa (m : Cpu σ) : Cpu σ :=
  { m with reg := Function.update (fun r => m.stack (popaOfs r)) .esp (m.esp + 32) }

def iretd (m : Cpu σ) : Cpu σ :=
  { m.setReg .esp (m.esp + 12) with eip := m.stack 0, eflags := .load (m.stack 8) }

def andReg (m : Cpu σ) (dst : Reg) (v : BitVec 32) : Cpu σ :=
  { m.setReg dst (m.reg dst &&& v) with eflags := m.eflags.ofTest (m.reg dst &&& v) }

variable [DecidableEq σ]

def pusha (m : Cpu σ) : Cpu σ := m.pushWords (pushaRegs.map m.reg)

/-- An interrupt through the gate at `entry`, taken in the code segment `cs`. -/
def deliver (m : Cpu σ) (cs entry : BitVec 32) : Cpu σ :=
  { m.pushWords [m.eflags.word, cs, m.eip] with eflags := m.eflags.gated, eip := entry }

def execTrap : List (TrapInsn σ) → Cpu σ → Cpu σ
  | [], m => m
  | .plain i :: code, m => execTrap code (exec 0 [i] m)
  | .pusha :: code, m => execTrap code m.pusha
  | .popa :: code, m => execTrap code m.popa
  | .cld :: code, m => execTrap code { m with eflags := m.eflags.clearDirection }
  | .andReg dst v :: code, m => execTrap code (m.andReg dst v)
  | .iretd :: code, m => execTrap code m.iretd

def runTrap (m : Cpu σ) (code : List (TrapInsn σ)) : Cpu σ := execTrap code m

variable {m : Cpu σ} {words words' : List (BitVec 32)}

theorem pushWords_append (m : Cpu σ) (words words' : List (BitVec 32)) :
    m.pushWords (words ++ words') = (m.pushWords words).pushWords words' := by
  induction words generalizing m with
  | nil => rfl
  | cons v words ih => exact ih (m.pushWord v)

theorem pushWords_eflags (m : Cpu σ) (words : List (BitVec 32)) :
    (m.pushWords words).eflags = m.eflags := by
  induction words generalizing m with
  | nil => rfl
  | cons v words ih => exact ih (m.pushWord v)

theorem pushWords_sym (m : Cpu σ) (words : List (BitVec 32)) (s : σ) :
    (m.pushWords words).mem (.sym s) = m.mem (.sym s) :=
  pushWords_mem_of_ne fun _ _ h => nomatch h

/-- What is pushed depends on the stack pointer and the memory alone. -/
theorem pushWords_mem_congr {n : Cpu σ} (hesp : n.esp = m.esp) (hmem : n.mem = m.mem)
    (words : List (BitVec 32)) : (n.pushWords words).mem = (m.pushWords words).mem := by
  induction words generalizing m n with
  | nil => exact hmem
  | cons v words ih =>
      refine ih (n := n.pushWord v) (m := m.pushWord v) ?_ ?_
      · rw [pushWord_esp, pushWord_esp, hesp]
      · rw [pushWord_mem, pushWord_mem, hesp, hmem]

/-- A word above what is pushed, or below it. -/
theorem pushWords_word {a : BitVec 32} (hroom : 4 * words.length ≤ m.esp.toNat)
    (ha : a.toNat < m.esp.toNat - 4 * words.length ∨ m.esp.toNat ≤ a.toNat) :
    (m.pushWords words).mem (.word a) = m.mem (.word a) := by
  refine pushWords_mem_of_ne fun i hi => ?_
  rw [ne_eq, Loc.word.injEq]
  have hlt := m.esp.isLt
  bv_omega

theorem deliver_mem (m : Cpu σ) (cs entry : BitVec 32) :
    (m.deliver cs entry).mem = (m.pushWords [m.eflags.word, cs, m.eip]).mem := rfl

theorem deliver_esp (m : Cpu σ) (cs entry : BitVec 32) :
    (m.deliver cs entry).esp = m.esp - 12 :=
  @pushWords_esp _ _ m [m.eflags.word, cs, m.eip]

theorem deliver_reg (m : Cpu σ) (cs entry : BitVec 32) {r : Reg} (hr : r ≠ .esp) :
    (m.deliver cs entry).reg r = m.reg r :=
  @pushWords_reg _ _ m [m.eflags.word, cs, m.eip] r hr

end Cpu

/-- The words lie at the stack pointer `sp`, the first of them at the top. -/
def Stacked {σ : Type} (mem : Loc σ → BitVec 32) (sp : BitVec 32) (words : List (BitVec 32)) :
    Prop :=
  ∀ i < words.length, mem (.word (sp - BitVec.ofNat 32 (4 * (i + 1)))) = words.getD i 0

namespace Stacked

variable {σ : Type} {mem mem' : Loc σ → BitVec 32} {sp : BitVec 32} {words : List (BitVec 32)}

theorem congr (h : Stacked mem sp words) (hroom : 4 * words.length ≤ sp.toNat)
    (hsame : ∀ a : BitVec 32, sp.toNat - 4 * words.length ≤ a.toNat → a.toNat < sp.toNat →
      mem' (.word a) = mem (.word a)) : Stacked mem' sp words := by
  intro i hi
  have hlt := sp.isLt
  rw [hsame _ (by bv_omega) (by bv_omega)]
  exact h i hi

/-- The word `k` words above the innermost one. -/
theorem get (h : Stacked mem sp words) {base : BitVec 32} {k : Nat} (hk : k < words.length)
    (hbase : base = sp - BitVec.ofNat 32 (4 * words.length)) :
    mem (.word (base + BitVec.ofNat 32 (4 * k))) = words.getD (words.length - 1 - k) 0 := by
  have hat : base + BitVec.ofNat 32 (4 * k) =
      sp - BitVec.ofNat 32 (4 * (words.length - 1 - k + 1)) := by
    rw [hbase]
    bv_omega
  rw [hat]
  exact h _ (by omega)

theorem pushWords [DecidableEq σ] (m : Cpu σ) (hroom : 4 * words.length ≤ m.esp.toNat) :
    Stacked (m.pushWords words).mem m.esp words := by
  intro i hi
  have hlt := m.esp.isLt
  exact Cpu.pushWords_mem hi (by omega)

end Stacked

end DordOs.Lib.X86
