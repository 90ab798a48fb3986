import Mathlib.Algebra.Group.Nat.Defs
import Mathlib.Logic.Function.Basic
import Mathlib.Tactic.Common

/-!
A fragment of the 32-bit x86: straight-line routines of moves, pushes and pops that end in
`ret` or leave through a call. Memory is by words: an address stands for the aligned word
at it, and a variable that is known by its symbol only has a place of its own.
-/
namespace DordOs.Lib.X86

inductive Reg
  | eax
  | ebx
  | ecx
  | edx
  | esi
  | edi
  | ebp
  | esp
  deriving DecidableEq

/-- The bits of EFLAGS that `popfd` loads. -/
def flagMask : BitVec 32 := 0x00247FD5

/-- EFLAGS: the other bits are fixed. -/
structure Eflags where
  word : BitVec 32
  fixed : word &&& flagMask ||| 2 = word
  deriving DecidableEq

namespace Eflags

theorem load_fixed (v : BitVec 32) :
    (v &&& flagMask ||| 2) &&& flagMask ||| 2 = v &&& flagMask ||| 2 := by
  have hmask : (2 : BitVec 32) &&& flagMask = 0#32 := by decide
  rw [BitVec.and_or_distrib_right, BitVec.and_assoc, BitVec.and_self, hmask, BitVec.or_zero]

def load (v : BitVec 32) : Eflags := ⟨v &&& flagMask ||| 2, load_fixed v⟩

/-- What `pushfd` stores `popfd` restores. -/
theorem load_word (f : Eflags) : load f.word = f := by
  cases f with
  | mk word fixed =>
      simp only [load, mk.injEq]
      exact fixed

def zf (f : Eflags) : Bool := f.word.getLsbD 6

/-- The status flags CF, PF, AF, ZF, SF and OF. -/
def statusMask : BitVec 32 := 0x8D5

/-- The flags after an operation that gives the status flags these bits. -/
def withStatus (f : Eflags) (bits : BitVec 32) : Eflags :=
  load (f.word &&& ~~~statusMask ||| bits &&& statusMask)

def bit (b : Bool) (i : Nat) : BitVec 32 := if b then BitVec.twoPow 32 i else 0

/-- PF, ZF and SF of a result. -/
def ofResult (r : BitVec 32) : BitVec 32 :=
  bit (decide (((List.range 8).countP fun i => r.getLsbD i) % 2 = 0)) 2 |||
    bit (decide (r = 0)) 6 ||| bit r.msb 7

/-- The flags of `test`; AF is undefined, and kept here. -/
def ofTest (f : Eflags) (r : BitVec 32) : Eflags :=
  f.withStatus (ofResult r ||| f.word &&& 0x10)

def ofAdd (f : Eflags) (a b : BitVec 32) : Eflags :=
  f.withStatus (ofResult (a + b) ||| bit (decide (a + b < a)) 0 |||
    bit (decide (2 ^ 4 ≤ a.toNat % 2 ^ 4 + b.toNat % 2 ^ 4)) 4 ||| bit (BitVec.saddOverflow a b) 11)

theorem zf_withStatus (f : Eflags) (bits : BitVec 32) :
    (f.withStatus bits).zf = bits.getLsbD 6 := by
  simp [zf, withStatus, load, statusMask, flagMask]

theorem getLsbD_bit (b : Bool) {i : Nat} (hi : i < 32) (j : Nat) :
    (bit b i).getLsbD j = (b && decide (i = j)) := by
  cases b with
  | false => exact BitVec.getLsbD_zero
  | true =>
      have hwidth : decide (i < 32) = true := decide_eq_true hi
      simp only [bit, if_true, BitVec.getLsbD_twoPow, hwidth]

theorem zf_ofTest (f : Eflags) (r : BitVec 32) : (f.ofTest r).zf = decide (r = 0) := by
  have haf : (f.word &&& 0x10).getLsbD 6 = false := by simp
  rw [ofTest, zf_withStatus, ofResult]
  rw [BitVec.getLsbD_or, BitVec.getLsbD_or, BitVec.getLsbD_or, getLsbD_bit _ (by decide),
    getLsbD_bit _ (by decide), getLsbD_bit _ (by decide), haf]
  simp

end Eflags

/-- Where a word lies: at an address, or at a symbol of this type. -/
inductive Loc (σ : Type)
  | word (a : BitVec 32)
  | sym (s : σ)
  deriving DecidableEq

inductive Operand (σ : Type)
  | reg (r : Reg)
  | imm (v : BitVec 32)
  | mem (base : Reg) (disp : BitVec 32)
  | sym (s : σ)

/-- `jz` skips instructions of its routine; `call` names the address behind it. -/
inductive Insn (σ : Type)
  | push (src : Operand σ)
  | pop (dst : Reg)
  | pushfd
  | popfd
  | mov (dst src : Operand σ)
  | test (a b : Reg)
  | add (dst : Reg) (v : BitVec 32)
  | jz (skip : Nat)
  | call (target next : BitVec 32)
  | ret

structure Cpu (σ : Type) where
  reg : Reg → BitVec 32
  eflags : Eflags
  eip : BitVec 32
  mem : Loc σ → BitVec 32

namespace Cpu

variable {σ : Type}

def setReg (m : Cpu σ) (r : Reg) (v : BitVec 32) : Cpu σ :=
  { m with reg := Function.update m.reg r v }

def esp (m : Cpu σ) : BitVec 32 := m.reg .esp

/-- The word `disp` bytes above the stack pointer. -/
def stack (m : Cpu σ) (disp : BitVec 32) : BitVec 32 := m.mem (.word (m.esp + disp))

/-- The machine with the top of the stack removed. -/
def popped (m : Cpu σ) : Cpu σ := m.setReg .esp (m.esp + 4)

def load (m : Cpu σ) : Operand σ → BitVec 32
  | .reg r => m.reg r
  | .imm v => v
  | .mem base disp => m.mem (.word (m.reg base + disp))
  | .sym s => m.mem (.sym s)

theorem setReg_self (m : Cpu σ) (r : Reg) (v : BitVec 32) : (m.setReg r v).reg r = v := by
  simp only [setReg, Function.update_self]

theorem setReg_of_ne (m : Cpu σ) {r r' : Reg} (v : BitVec 32) (h : r' ≠ r) :
    (m.setReg r v).reg r' = m.reg r' := by
  simp only [setReg, Function.update_of_ne h]

variable [DecidableEq σ]

def store (m : Cpu σ) (l : Loc σ) (v : BitVec 32) : Cpu σ :=
  { m with mem := Function.update m.mem l v }

def pushWord (m : Cpu σ) (v : BitVec 32) : Cpu σ :=
  (m.setReg .esp (m.esp - 4)).store (.word (m.esp - 4)) v

def assign (m : Cpu σ) (dst : Operand σ) (v : BitVec 32) : Cpu σ :=
  match dst with
  | .reg r => m.setReg r v
  | .imm _ => m
  | .mem base disp => m.store (.word (m.reg base + disp)) v
  | .sym s => m.store (.sym s) v

/-- The instructions of a routine from its first on, up to the one that leaves it; the
number counts those still to be skipped. -/
def exec : Nat → List (Insn σ) → Cpu σ → Cpu σ
  | _, [], m => m
  | skip + 1, _ :: code, m => exec skip code m
  | 0, .push src :: code, m => exec 0 code (m.pushWord (m.load src))
  | 0, .pop dst :: code, m => exec 0 code (m.popped.setReg dst (m.stack 0))
  | 0, .pushfd :: code, m => exec 0 code (m.pushWord m.eflags.word)
  | 0, .popfd :: code, m => exec 0 code { m.popped with eflags := .load (m.stack 0) }
  | 0, .mov dst src :: code, m => exec 0 code (m.assign dst (m.load src))
  | 0, .test a b :: code, m =>
      exec 0 code { m with eflags := m.eflags.ofTest (m.reg a &&& m.reg b) }
  | 0, .add dst v :: code, m =>
      exec 0 code { m.setReg dst (m.reg dst + v) with eflags := m.eflags.ofAdd (m.reg dst) v }
  | 0, .jz skip :: code, m => exec (if m.eflags.zf then skip else 0) code m
  | 0, .call target next :: _, m => { m.pushWord next with eip := target }
  | 0, .ret :: _, m => { m.popped with eip := m.stack 0 }

def run (m : Cpu σ) (code : List (Insn σ)) : Cpu σ := exec 0 code m

theorem pushWord_esp (m : Cpu σ) (v : BitVec 32) : (m.pushWord v).esp = m.esp - 4 := rfl

theorem pushWord_mem (m : Cpu σ) (v : BitVec 32) :
    (m.pushWord v).mem = Function.update m.mem (.word (m.esp - 4)) v := rfl

theorem pushWord_reg (m : Cpu σ) (v : BitVec 32) {r : Reg} (h : r ≠ .esp) :
    (m.pushWord v).reg r = m.reg r :=
  m.setReg_of_ne (m.esp - 4) h

/-- Several pushes, the first of them first. -/
def pushWords (m : Cpu σ) : List (BitVec 32) → Cpu σ
  | [] => m
  | v :: vs => (m.pushWord v).pushWords vs

variable {m : Cpu σ} {vs : List (BitVec 32)}

theorem pushWords_esp : (m.pushWords vs).esp = m.esp - BitVec.ofNat 32 (4 * vs.length) := by
  induction vs generalizing m with
  | nil => exact (BitVec.sub_zero m.esp).symm
  | cons v vs ih =>
      rw [pushWords, ih, pushWord_esp, List.length_cons]
      bv_omega

theorem pushWords_reg {r : Reg} (h : r ≠ .esp) : (m.pushWords vs).reg r = m.reg r := by
  induction vs generalizing m with
  | nil => rfl
  | cons v vs ih => rw [pushWords, ih, pushWord_reg m v h]

/-- Pushes change nothing but the words below the stack pointer. -/
theorem pushWords_mem_of_ne {l : Loc σ}
    (h : ∀ i < vs.length, l ≠ .word (m.esp - BitVec.ofNat 32 (4 * (i + 1)))) :
    (m.pushWords vs).mem l = m.mem l := by
  induction vs generalizing m with
  | nil => rfl
  | cons v vs ih =>
      have hfirst : l ≠ .word (m.esp - 4) := h 0 (Nat.succ_pos _)
      rw [pushWords, ih fun i hi => ?_, pushWord_mem, Function.update_of_ne hfirst]
      have hnext : (m.pushWord v).esp - BitVec.ofNat 32 (4 * (i + 1)) =
          m.esp - BitVec.ofNat 32 (4 * (i + 1 + 1)) := by
        rw [pushWord_esp]
        bv_omega
      rw [hnext]
      exact h (i + 1) (Nat.succ_lt_succ hi)

/-- The words that were pushed lie below one another. -/
theorem pushWords_mem {i : Nat} (hi : i < vs.length) (hroom : 4 * vs.length < 2 ^ 32) :
    (m.pushWords vs).mem (.word (m.esp - BitVec.ofNat 32 (4 * (i + 1)))) = vs.getD i 0 := by
  induction vs generalizing m i with
  | nil => exact absurd hi (Nat.not_lt_zero i)
  | cons v vs ih =>
      rw [List.length_cons] at hi hroom
      cases i with
      | zero =>
          rw [pushWords, pushWords_mem_of_ne fun j hj => ?_, pushWord_mem]
          · exact Function.update_self _ _ _
          · rw [pushWord_esp, ne_eq, Loc.word.injEq]
            bv_omega
      | succ i =>
          have hnext : m.esp - BitVec.ofNat 32 (4 * (i + 1 + 1)) =
              (m.pushWord v).esp - BitVec.ofNat 32 (4 * (i + 1)) := by
            rw [pushWord_esp]
            bv_omega
          rw [pushWords, hnext, ih (Nat.lt_of_succ_lt_succ hi) (by omega)]
          rfl

end Cpu

end DordOs.Lib.X86
