import DordOs.Lib.Pic
import DordOs.Proc.Isr

/-!
From a vector to what is done about it: the gates of `idt_make_default` and the dispatch of
`interrupt_handler`.
-/
namespace DordOs
open Lib

/-- `idt_t`. -/
structure IdtEntry where
  offsetLow : U16
  selector : U16
  zero : U8
  attr : U8
  offsetHigh : U16
  deriving DecidableEq

abbrev Idt := U8 → IdtEntry

def idtGtypeIntr32 : U8 := 0x0E
def idtPresent : U8 := 1 <<< 7
def idtRing0 : U8 := 0

/-- `ADD_INTERRUPT` and `ADD_TRAP`, which are the same. -/
def addInterrupt (routine : U32) (n : U8) (idt : Idt) : Idt :=
  Function.update idt n
    { offsetLow := routine.setWidth 16
      selector := 0x8
      zero := 0
      attr := idtGtypeIntr32 ||| idtPresent ||| idtRing0
      offsetHigh := (routine >>> 16).setWidth 16 }

/-- The vectors in the order in which they are added: exceptions, PIC, APIC. -/
def idtVectors : List U8 :=
  (List.range 48).map (BitVec.ofNat 8) ++ (List.range' 64 23).map (BitVec.ofNat 8)

def idtMakeDefault (t : TrapText) (idt : Idt) : Idt :=
  addInterrupt t.isrSys 0xAE
    (idtVectors.foldl (fun idt n => addInterrupt (t.isr n) n idt) idt)

/-- The table before that. -/
def idtBlank : Idt := fun _ => ⟨0, 0, 0, 0, 0⟩

/-- Where the processor goes through an entry that is a present 32-bit interrupt gate of
ring 0: the selector and the offset. -/
def IdtEntry.gate (e : IdtEntry) : Option (U16 × U32) :=
  if e.attr = 0x8E then some (e.selector, e.offsetHigh ++ e.offsetLow) else none

/-- The routine of a vector that has one. -/
def idtRoutine (t : TrapText) (n : U8) : Option U32 :=
  if n = 0xAE then some t.isrSys
  else if n < 48 ∨ (64 ≤ n ∧ n < 87) then some (t.isr n)
  else none

theorem mem_idtVectors (n : U8) : n ∈ idtVectors ↔ n < 48 ∨ (64 ≤ n ∧ n < 87) := by
  have hvec (k : Nat) (hk : k < 256) : n = BitVec.ofNat 8 k ↔ k = n.toNat := by bv_omega
  have hlt := n.isLt
  simp only [idtVectors, List.mem_append, List.mem_map, List.mem_range, List.mem_range'_1,
    BitVec.lt_def, BitVec.le_def]
  constructor
  · rintro (⟨k, hk, rfl⟩ | ⟨k, hk, rfl⟩)
    · exact .inl (by simp; omega)
    · exact .inr (by simp; omega)
  · rintro (h | h)
    · exact .inl ⟨n.toNat, h, by simp⟩
    · exact .inr ⟨n.toNat, ⟨h.1, h.2⟩, by simp⟩

theorem addInterrupt_gate (routine : U32) (n : U8) (idt : Idt) (k : U8) :
    (addInterrupt routine n idt k).gate =
      if k = n then some (0x8, routine) else (idt k).gate := by
  have hoffset : (routine >>> 16).setWidth 16 ++ routine.setWidth 16 = routine := by
    refine BitVec.eq_of_getLsbD_eq fun i hi => ?_
    rw [BitVec.getLsbD_append]
    split
    next hlow => simp [hlow]
    next hlow =>
      have hpart : i - 16 < 16 := by omega
      have hback : 16 + (i - 16) = i := by omega
      simp [hpart, hback]
  rw [addInterrupt, Function.update_apply]
  split
  next =>
    have hattr : idtGtypeIntr32 ||| idtPresent ||| idtRing0 = 0x8E := rfl
    simp only [IdtEntry.gate, hattr, if_true, hoffset]
  next => rfl

/-- Every entry leads to the routine of its vector, or is not present. -/
theorem idt_gate (t : TrapText) (n : U8) :
    (idtMakeDefault t idtBlank n).gate = (idtRoutine t n).map fun routine => (0x8, routine) := by
  have hfold (vectors : List U8) (idt : Idt) :
      (vectors.foldl (fun idt n => addInterrupt (t.isr n) n idt) idt n).gate =
        if n ∈ vectors then some (0x8, t.isr n) else (idt n).gate := by
    induction vectors generalizing idt with
    | nil => rfl
    | cons v vectors ih =>
        rw [List.foldl_cons, ih, addInterrupt_gate]
        by_cases hv : n = v
        · simp [hv]
        · simp [hv]
  rw [idtMakeDefault, addInterrupt_gate, hfold, idtRoutine]
  split
  next => rfl
  next =>
    simp only [mem_idtVectors]
    split
    next => rfl
    next => rfl

def picIrqOffs : U8 := 0x20
def apicIrqOffs : U8 := 0x40

def irqPit : U8 := 0
def irqKb : U8 := 1
def irqCascade : U8 := 2
def irqMouse : U8 := 12
def irqAta1 : U8 := 14
def irqAta2 : U8 := 15

def isPicIrq (irq : U8) : Bool := decide (picIrqOffs ≤ irq) && decide (irq < picIrqOffs + 16)

def isApicIrq (irq : U8) : Bool := decide (apicIrqOffs ≤ irq) && decide (irq < apicIrqOffs + 24)

def isException (irq : U8) : Bool := decide (irq < picIrqOffs)

/-- What `interrupt_handler` calls. `schedule` is `proc_schedule` with the lock around it. -/
inductive IrqAction
  | pitHandleInterrupt
  | kbHandleInterrupt
  | mouseHandleInterrupt
  | dbgPuts (text : String)
  | dbgPrintf (format : String) (n : U8)
  | picEoi (irq : U8)
  | apicEoi (irq : U8)
  | schedule
  | hang
  deriving DecidableEq

/-- The cases of the switch that `break`. -/
def irqCase (irq : U8) : List IrqAction :=
  if irq = irqKb then [.kbHandleInterrupt]
  else if irq = irqCascade then []
  else if irq = irqAta1 then [.dbgPuts "ATA1 interrupt received\n"]
  else if irq = irqAta2 then [.dbgPuts "ATA2 interrupt received\n"]
  else if irq = irqMouse then [.mouseHandleInterrupt]
  else if irq = 7 then [.dbgPuts "Spurious interrupt\n"]
  else [.dbgPrintf "Unknown interrupt %ud\n" irq]

def exceptionCase (intr : U8) : List IrqAction :=
  if intr = 0 then [.dbgPuts "Divide by 0\n"]
  else if intr = 6 then [.dbgPuts "Invalid opcode\n"]
  else if intr = 10 then [.dbgPuts "Invalid TSS\n"]
  else if intr = 13 then [.dbgPuts "General protection fault\n"]
  else if intr = 14 then [.dbgPuts "Page fault\n"]
  else [.dbgPrintf "Unknown exception %ud\n" intr]

/-- `none` for vector 0xFF, where the `goto` skips the initializers of the variables that are
read then. -/
def interruptHandler (intr : U8) : Option (List IrqAction) :=
  if intr = 0xFF then none
  else
    let apic := isApicIrq intr
    let pic := isPicIrq intr
    let irq := if apic then intr - apicIrqOffs else if pic then intr - picIrqOffs else intr
    let eoi := if pic then [IrqAction.picEoi irq] else if apic then [.apicEoi irq] else []
    if apic || pic then
      if irq = irqPit then some (.pitHandleInterrupt :: (eoi ++ [.schedule]))
      else some (irqCase irq ++ eoi)
    else if isException intr then some (exceptionCase intr ++ [.hang])
    else some []

end DordOs
