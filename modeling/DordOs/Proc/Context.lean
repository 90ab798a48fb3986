import DordOs.Proc.Switch

/-!
Processes with stacks of their own under `proc_init` and `proc_switch`: a run is any
sequence of calls of the two, with anything the running process does to its own registers
and stack in between. A process that waits for its turn keeps its stack, and finds on it
what it needs to go on where it was.
-/
namespace DordOs
open Lib Lib.X86

/-- Where the processes lie: their `proc_t` by address, and the words of their stacks. The
stack of 0 is the one in use before there is a current process. -/
structure StackLayout where
  isProc : U32 → Prop
  lo : U32 → U32
  hi : U32 → U32
  ne_zero : ∀ p, isProc p → p ≠ 0
  room : ∀ p, isProc p → (lo p).toNat + 32 ≤ (hi p).toNat
  disjoint : ∀ o o', o = 0 ∨ isProc o → o' = 0 ∨ isProc o' → o ≠ o' →
    (hi o).toNat ≤ (lo o').toNat ∨ (hi o').toNat ≤ (lo o).toNat
  fields : ∀ p o, isProc p → o = 0 ∨ isProc o →
    ∀ ofs ∈ [procSpOfs, procEntryOfs, procTimeEndOfs],
      (p + ofs).toNat < (lo o).toNat ∨ (hi o).toNat ≤ (p + ofs).toNat
  structs : ∀ p q, isProc p → isProc q → p + procTimeEndOfs ≠ q + procSpOfs

namespace StackLayout

/-- The word at `a` lies on the stack of `o`. -/
def Stack (L : StackLayout) (o a : U32) : Prop :=
  (L.lo o).toNat ≤ a.toNat ∧ a.toNat < (L.hi o).toNat

def Owner (L : StackLayout) (o : U32) : Prop := o = 0 ∨ L.isProc o

end StackLayout

/-- What a process is waiting for, if it is: its first turn, or the return of the call of
`proc_switch` in which the machine was this one. -/
inductive ProcStatus
  | unprepared
  | fresh (entry : U32)
  | running
  | suspended (call : ProcCpu)

def ProcStatus.Waiting : ProcStatus → Prop
  | .fresh _ => True
  | .suspended _ => True
  | _ => False

structure ProcSystem where
  cpu : ProcCpu
  status : U32 → ProcStatus

namespace ProcSystem

def current (s : ProcSystem) : U32 := s.cpu.procCurrent

/-- The status of the processes while `proc_switch` runs: the current one waits, too. -/
def parked (s : ProcSystem) (p : U32) : ProcStatus :=
  if p = s.current ∧ p ≠ 0 then .suspended s.cpu else s.status p

theorem parked_current (s : ProcSystem) {p : U32} (hp : p = s.current) (hzero : p ≠ 0) :
    s.parked p = .suspended s.cpu := if_pos ⟨hp, hzero⟩

theorem parked_of_ne (s : ProcSystem) {p : U32} (hp : p ≠ s.current) : s.parked p = s.status p :=
  if_neg fun h => hp h.1

end ProcSystem

/-- The machine is at the first instruction of a routine that was called for `proc`, on the
current stack and with room for what the routine pushes. -/
structure AtCall (L : StackLayout) (m : ProcCpu) (routine proc : U32) (pushed : Nat) : Prop where
  eip : m.eip = routine
  param : m.stack 4 = proc
  low : (L.lo m.procCurrent).toNat + pushed ≤ m.esp.toNat
  high : m.esp.toNat + 8 ≤ (L.hi m.procCurrent).toNat

/-- What a process does on its own leaves the ones that wait alone. -/
structure Undisturbed (L : StackLayout) (s : ProcSystem) (m : ProcCpu) : Prop where
  current : m.procCurrent = s.current
  sp : ∀ p, (s.status p).Waiting →
    m.mem (.word (p + procSpOfs)) = s.cpu.mem (.word (p + procSpOfs))
  stack : ∀ p, (s.status p).Waiting → ∀ a, L.Stack p a → m.mem (.word a) = s.cpu.mem (.word a)

inductive ContextEvent
  | body
  | init (proc : U32)
  | switch (proc : U32)

inductive ContextStep (t : ProcText) (L : StackLayout) :
    ProcSystem → ContextEvent → ProcSystem → Prop
  | body {s : ProcSystem} {m : ProcCpu} : Undisturbed L s m →
      ContextStep t L s .body { s with cpu := m }
  | init {s : ProcSystem} {proc : U32} : L.isProc proc → s.status proc = .unprepared →
      AtCall L s.cpu t.procInit proc 4 → s.cpu.mem (.word (proc + procSpOfs)) = L.hi proc →
      ContextStep t L s (.init proc)
        ⟨s.cpu.run (procInitCode t), Function.update s.status proc
          (.fresh (s.cpu.mem (.word (proc + procEntryOfs))))⟩
  | switch {s : ProcSystem} {proc : U32} : (s.parked proc).Waiting →
      AtCall L s.cpu t.procSwitch proc 20 →
      ContextStep t L s (.switch proc)
        ⟨s.cpu.run procSwitchCode, Function.update s.parked proc .running⟩

/-- No process is prepared yet, but there may be a current one. -/
structure ContextStart (L : StackLayout) (s : ProcSystem) : Prop where
  current : L.Owner s.current
  status : ∀ p, s.status p = if p = s.current ∧ p ≠ 0 then .running else .unprepared

/-- The stack of a process that waits for its first turn. -/
structure FreshStack (t : ProcText) (L : StackLayout) (mem : Loc ProcSym → U32)
    (p entry : U32) : Prop where
  sp : mem (.word (p + procSpOfs)) = L.hi p - 32
  words : ∀ i < 8, mem (.word (L.hi p - BitVec.ofNat 32 (4 * (i + 1)))) =
    (forgedWords t entry).getD i 0

/-- The stack of a process that waits for its call of `proc_switch` to return. -/
structure SuspendedStack (L : StackLayout) (mem : Loc ProcSym → U32) (p : U32)
    (call : ProcCpu) : Prop where
  low : (L.lo p).toNat + 20 ≤ call.esp.toNat
  high : call.esp.toNat + 8 ≤ (L.hi p).toNat
  sp : mem (.word (p + procSpOfs)) = call.esp - 20
  words : ∀ a, L.Stack p a → mem (.word a) = call.saved.mem (.word a)

/-- The memory holds what a process of this status waits with. -/
def Keeps (t : ProcText) (L : StackLayout) (mem : Loc ProcSym → U32) (p : U32) :
    ProcStatus → Prop
  | .fresh entry => FreshStack t L mem p entry
  | .suspended call => SuspendedStack L mem p call
  | _ => True

structure ContextInv (t : ProcText) (L : StackLayout) (s : ProcSystem) : Prop where
  current : L.Owner s.current
  running : ∀ p, s.status p = .running ↔ p = s.current ∧ p ≠ 0
  isProc : ∀ p, (s.status p).Waiting → L.isProc p
  keeps : ∀ p, Keeps t L s.cpu.mem p (s.status p)

section Memory

variable {t : ProcText} {L : StackLayout} {mem mem' : Loc ProcSym → U32} {m : ProcCpu}
  {p q o a : U32} {st : ProcStatus}

theorem StackLayout.not_stack (hp : L.isProc p) (ho : L.Owner o) {ofs : U32}
    (hofs : ofs ∈ [procSpOfs, procEntryOfs, procTimeEndOfs]) : ¬ L.Stack o (p + ofs) := by
  rintro ⟨hlo, hhi⟩
  obtain h | h := L.fields p o hp ho ofs hofs <;> omega

theorem StackLayout.ne_field (hp : L.isProc p) (ho : L.Owner o) (ha : L.Stack o a) {ofs : U32}
    (hofs : ofs ∈ [procSpOfs, procEntryOfs, procTimeEndOfs]) :
    (Loc.word a : Loc ProcSym) ≠ .word (p + ofs) := by
  intro h
  exact L.not_stack hp ho hofs (Loc.word.inj h ▸ ha)

theorem StackLayout.not_stack_of_ne (ho : L.Owner o) (hp : L.Owner p) (hne : o ≠ p)
    (ha : L.Stack o a) : ¬ L.Stack p a := by
  rintro ⟨hlo, hhi⟩
  obtain ⟨hlo', hhi'⟩ := ha
  obtain h | h := L.disjoint o p ho hp hne <;> omega

theorem StackLayout.stack_top (hp : L.isProc p) {i : Nat} (hi : i < 8) :
    L.Stack p (L.hi p - BitVec.ofNat 32 (4 * (i + 1))) := by
  have hroom := L.room p hp
  refine ⟨?_, ?_⟩ <;> bv_omega

theorem AtCall.stack_push {routine : U32} {pushed : Nat} (h : AtCall L m routine p pushed)
    (hpushed : 4 ≤ pushed) : L.Stack m.procCurrent (m.esp - 4) := by
  have hlow := h.low
  have hhigh := h.high
  refine ⟨?_, ?_⟩ <;> bv_omega

theorem Keeps.of_not_waiting (h : ¬ st.Waiting) : Keeps t L mem p st := by
  cases st with
  | unprepared => trivial
  | running => trivial
  | fresh entry => exact absurd trivial h
  | suspended call => exact absurd trivial h

/-- A process keeps what it waits with while its stack and stack pointer are left alone. -/
theorem Keeps.congr (h : Keeps t L mem p st) (hp : L.isProc p)
    (hsp : mem' (.word (p + procSpOfs)) = mem (.word (p + procSpOfs)))
    (hstack : ∀ a, L.Stack p a → mem' (.word a) = mem (.word a)) : Keeps t L mem' p st := by
  cases st with
  | unprepared => trivial
  | running => trivial
  | fresh entry =>
      exact ⟨hsp.trans h.sp, fun i hi => (hstack _ (L.stack_top hp hi)).trans (h.words i hi)⟩
  | suspended call =>
      exact ⟨h.low, h.high, hsp.trans h.sp, fun a ha => (hstack a ha).trans (h.words a ha)⟩

theorem saved_esp : m.saved.esp = m.esp - 20 := Cpu.pushWords_esp

theorem saved_word (hroom : 20 ≤ m.esp.toNat)
    (ha : a.toNat < m.esp.toNat - 20 ∨ m.esp.toNat ≤ a.toNat) :
    m.saved.mem (.word a) = m.mem (.word a) := by
  refine Cpu.pushWords_mem_of_ne fun i hi => ?_
  have hi : i < 5 := hi
  rw [ne_eq, Loc.word.injEq]
  bv_omega

theorem saved_outside (hlow : (L.lo m.procCurrent).toNat + 20 ≤ m.esp.toNat)
    (hhigh : m.esp.toNat + 8 ≤ (L.hi m.procCurrent).toNat) (ha : ¬ L.Stack m.procCurrent a) :
    m.saved.mem (.word a) = m.mem (.word a) := by
  refine saved_word (by omega) ?_
  have hstack : ¬ ((L.lo m.procCurrent).toNat ≤ a.toNat ∧
    a.toNat < (L.hi m.procCurrent).toNat) := ha
  omega

theorem parkedMem_word (ha : m.procCurrent ≠ 0 → a ≠ m.procCurrent + procSpOfs) :
    m.parkedMem (.word a) = m.saved.mem (.word a) := by
  rw [ProcCpu.parkedMem]
  split
  next => rfl
  next hne => exact Function.update_of_ne (fun h => ha hne (Loc.word.inj h)) _ _

theorem switchedMem_word (ha : a ≠ q + procTimeEndOfs) :
    m.switchedMem q (.word a) = m.parkedMem (.word a) := by
  have hsym : (Loc.word a : Loc ProcSym) ≠ .sym .procCurrent := fun h => nomatch h
  rw [ProcCpu.switchedMem, Function.update_of_ne hsym,
    Function.update_of_ne fun h => ha (Loc.word.inj h)]

theorem mem_ofs : procSpOfs ∈ [procSpOfs, procEntryOfs, procTimeEndOfs] ∧
    procEntryOfs ∈ [procSpOfs, procEntryOfs, procTimeEndOfs] ∧
    procTimeEndOfs ∈ [procSpOfs, procEntryOfs, procTimeEndOfs] := by
  decide

/-- `proc_switch` stores nothing to a stack but its pushes. -/
theorem switchedMem_stack (hcur : L.Owner m.procCurrent) (hq : L.isProc q) (ho : L.Owner o)
    (ha : L.Stack o a) : m.switchedMem q (.word a) = m.saved.mem (.word a) := by
  rw [switchedMem_word fun h => L.not_stack hq ho mem_ofs.2.2 (h ▸ ha), parkedMem_word]
  intro hne h
  exact L.not_stack (hcur.resolve_left hne) ho mem_ofs.1 (h ▸ ha)

end Memory

section Steps

variable {t : ProcText} {L : StackLayout} {s s' : ProcSystem} {p q a : U32}

theorem ContextInv.waiting_ne (inv : ContextInv t L s) (hp : (s.status p).Waiting) :
    p ≠ s.current := by
  intro h
  have hrun := (inv.running p).mpr ⟨h, L.ne_zero p (inv.isProc p hp)⟩
  rw [hrun] at hp
  exact hp

/-- The current process is parked like the others. -/
theorem ContextInv.isProc_parked (inv : ContextInv t L s) (hp : (s.parked p).Waiting) :
    L.isProc p := by
  rw [ProcSystem.parked] at hp
  split at hp
  next h =>
      obtain ⟨rfl, hne⟩ := h
      exact inv.current.resolve_left hne
  next => exact inv.isProc p hp

/-- The other processes keep what they have, and the current one its own call. -/
theorem ContextInv.keeps_switched (inv : ContextInv t L s) (hq : L.isProc q)
    (hcall : AtCall L s.cpu t.procSwitch q 20) (p : U32) :
    Keeps t L (s.cpu.switchedMem q) p (s.parked p) := by
  rw [ProcSystem.parked]
  split
  next h =>
      obtain ⟨rfl, hne⟩ := h
      have hne : s.cpu.procCurrent ≠ 0 := hne
      have hcur : L.isProc s.cpu.procCurrent := inv.current.resolve_left hne
      refine ⟨hcall.low, hcall.high, ?_, fun a ha => ?_⟩
      · change s.cpu.switchedMem q (.word (s.cpu.procCurrent + procSpOfs)) = _
        rw [switchedMem_word (L.structs q _ hq hcur).symm, ProcCpu.parkedMem, if_neg hne,
          Function.update_self, saved_esp]
      · exact switchedMem_stack inv.current hq inv.current ha
  next h =>
      by_cases hwait : (s.status p).Waiting
      · have hp := inv.isProc p hwait
        have hne := inv.waiting_ne hwait
        refine (inv.keeps p).congr hp ?_ fun a ha => ?_
        · rw [switchedMem_word (L.structs q p hq hp).symm, parkedMem_word fun _ heq => ?_,
            saved_outside hcall.low hcall.high (L.not_stack hp inv.current mem_ofs.1)]
          exact hne ((BitVec.add_left_inj _).mp heq)
        · rw [switchedMem_stack inv.current hq (.inr hp) ha,
            saved_outside hcall.low hcall.high (L.not_stack_of_ne (.inr hp) inv.current hne ha)]
      · exact .of_not_waiting hwait

/-- `proc_switch` ends in the pops of the frame its parameter points to. -/
theorem ContextInv.pops (inv : ContextInv t L s) (hcall : AtCall L s.cpu t.procSwitch q 20) :
    Pops (s.cpu.switchedMem q) (s.cpu.switchedMem q (.word (q + procSpOfs)))
      (s.cpu.run procSwitchCode) := by
  have hlow := hcall.low
  have hhigh := hcall.high
  have hesp : s.cpu.saved.esp + 6 * 4 = s.cpu.esp + 4 := by
    rw [saved_esp]
    bv_omega
  have hstack : L.Stack s.cpu.procCurrent (s.cpu.esp + 4) := by
    refine ⟨?_, ?_⟩ <;> bv_omega
  refine run_procSwitch s.cpu ?_
  rw [hesp, parkedMem_word fun hne heq => ?_, saved_word (by omega) (.inr (by bv_omega))]
  · exact hcall.param
  · exact L.not_stack (inv.current.resolve_left hne) inv.current mem_ofs.1 (heq ▸ hstack)

theorem ContextInv.procCurrent_switch (inv : ContextInv t L s)
    (hcall : AtCall L s.cpu t.procSwitch q 20) :
    ProcCpu.procCurrent (s.cpu.run procSwitchCode) = q := by
  rw [ProcCpu.procCurrent, (inv.pops hcall).mem]
  exact Function.update_self _ _ _

theorem ContextInv.switch (inv : ContextInv t L s) (hwait : (s.parked q).Waiting)
    (hcall : AtCall L s.cpu t.procSwitch q 20) :
    ContextInv t L ⟨s.cpu.run procSwitchCode, Function.update s.parked q .running⟩ := by
  have hq := inv.isProc_parked hwait
  have hmem := (inv.pops hcall).mem
  have hcur := inv.procCurrent_switch hcall
  have hstatus (p : U32) (hp : p ≠ q) : Function.update s.parked q .running p = s.parked p :=
    Function.update_of_ne hp _ _
  refine ⟨.inr (hcur.symm ▸ hq), fun p => ?_, fun p hp => ?_, fun p => ?_⟩
  · change Function.update s.parked q .running p = .running ↔
      p = ProcCpu.procCurrent (s.cpu.run procSwitchCode) ∧ p ≠ 0
    rw [hcur]
    by_cases hpq : p = q
    · subst hpq
      rw [Function.update_self]
      exact ⟨fun _ => ⟨rfl, L.ne_zero p hq⟩, fun _ => rfl⟩
    · rw [hstatus p hpq, ProcSystem.parked]
      split
      next => exact ⟨fun h => (nomatch h), fun h => absurd h.1 hpq⟩
      next h => exact ⟨fun hrun => absurd ((inv.running p).mp hrun) h, fun h => absurd h.1 hpq⟩
  · by_cases hpq : p = q
    · exact hpq ▸ hq
    · exact inv.isProc_parked (hstatus p hpq ▸ hp)
  · change Keeps t L (s.cpu.run procSwitchCode).mem p (Function.update s.parked q .running p)
    by_cases hpq : p = q
    · rw [hpq, Function.update_self]
      trivial
    · rw [hstatus p hpq, hmem]
      exact inv.keeps_switched hq hcall p

/-- `proc_init` writes to the new process' stack and stack pointer, and one word on the
current stack. -/
theorem run_procInit_mem (hq : L.isProc q) (inv : ContextInv t L s)
    (hcall : AtCall L s.cpu t.procInit q 4)
    (htop : s.cpu.mem (.word (q + procSpOfs)) = L.hi q) :
    FreshStack t L (s.cpu.run (procInitCode t)).mem q
        (s.cpu.mem (.word (q + procEntryOfs))) ∧
      ∀ l, l ≠ .word (q + procSpOfs) → (∀ a, L.Stack q a → l ≠ .word a) →
        l ≠ .word (s.cpu.esp - 4) → (s.cpu.run (procInitCode t)).mem l = s.cpu.mem l := by
  have hlow := hcall.low
  have hhigh := hcall.high
  obtain ⟨m1, hm1⟩ : ∃ m1, m1 = (s.cpu.pushWord (s.cpu.reg .ebp)).mem := ⟨_, rfl⟩
  have hpush := hcall.stack_push (Nat.le_refl 4)
  have hframe {l : Loc ProcSym} (hl : l ≠ .word (s.cpu.esp - 4)) : m1 l = s.cpu.mem l := by
    rw [hm1, Cpu.pushWord_mem, Function.update_of_ne hl]
  have hfield {ofs : U32} (hofs : ofs ∈ [procSpOfs, procEntryOfs, procTimeEndOfs]) :
      m1 (.word (q + ofs)) = s.cpu.mem (.word (q + ofs)) :=
    hframe (L.ne_field hq inv.current hpush hofs).symm
  have hproc : m1 (.word (s.cpu.esp - 4 + 8)) = q := by
    have hesp : s.cpu.esp - 4 + 8 = s.cpu.esp + 4 := by bv_omega
    rw [hesp, hframe fun h => ?_]
    · exact hcall.param
    · have heq := Loc.word.inj h
      bv_omega
  have hsp : m1 (.word (q + procSpOfs)) = L.hi q := (hfield mem_ofs.1).trans htop
  obtain ⟨f, hf⟩ : ∃ f, f = s.cpu.forging q (L.hi q) := ⟨_, rfl⟩
  have hfmem : f.mem = m1 := by
    rw [hf, hm1]
    rfl
  have hfesp : f.esp = L.hi q := by
    rw [hf]
    exact Cpu.setReg_self _ _ _
  have hentry : (f.pushWord 0).mem (.word (q + procEntryOfs)) =
      s.cpu.mem (.word (q + procEntryOfs)) := by
    have hne : (Loc.word (L.hi q - 4) : Loc ProcSym) ≠ .word (q + procEntryOfs) :=
      L.ne_field hq (.inr hq) (L.stack_top hq (show 0 < 8 by decide)) mem_ofs.2.1
    rw [Cpu.pushWord_mem, hfesp, Function.update_of_ne hne.symm, hfmem, hfield mem_ofs.2.1]
  rw [hm1] at hproc hsp
  rw [hf] at hentry
  rw [run_procInit t s.cpu hproc hsp hentry, ← hf]
  refine ⟨⟨Function.update_self _ _ _, fun i hi => ?_⟩, fun l hl hstack hpushed => ?_⟩
  · rw [Function.update_of_ne (L.ne_field hq (.inr hq) (L.stack_top hq hi) mem_ofs.1), ← hfesp]
    exact Cpu.pushWords_mem hi (show 4 * 8 < 2 ^ 32 by decide)
  · rw [Function.update_of_ne hl, Cpu.pushWords_mem_of_ne fun i hi => ?_, hfmem, hframe hpushed]
    rw [hfesp]
    exact hstack _ (L.stack_top hq hi)

theorem ContextInv.init (inv : ContextInv t L s) (hq : L.isProc q)
    (hnew : s.status q = .unprepared) (hcall : AtCall L s.cpu t.procInit q 4)
    (htop : s.cpu.mem (.word (q + procSpOfs)) = L.hi q) :
    ContextInv t L ⟨s.cpu.run (procInitCode t), Function.update s.status q
      (.fresh (s.cpu.mem (.word (q + procEntryOfs))))⟩ := by
  obtain ⟨hfresh, hframe⟩ := run_procInit_mem hq inv hcall htop
  have hcur : ProcCpu.procCurrent (s.cpu.run (procInitCode t)) = s.current :=
    hframe (.sym .procCurrent) (fun h => nomatch h) (fun _ _ h => nomatch h) fun h => nomatch h
  have hpush := hcall.stack_push (Nat.le_refl 4)
  obtain ⟨status, hstatus⟩ : ∃ status, Function.update s.status q
    (.fresh (s.cpu.mem (.word (q + procEntryOfs)))) = status := ⟨_, rfl⟩
  have hself : status q = .fresh (s.cpu.mem (.word (q + procEntryOfs))) := by
    rw [← hstatus, Function.update_self]
  have hother {p : U32} (hp : p ≠ q) : status p = s.status p := by
    rw [← hstatus, Function.update_of_ne hp]
  rw [hstatus]
  refine ⟨?_, fun p => ?_, fun p hp => ?_, fun p => ?_⟩
  · change L.Owner (ProcCpu.procCurrent (s.cpu.run (procInitCode t)))
    rw [hcur]
    exact inv.current
  · change status p = .running ↔ p = ProcCpu.procCurrent (s.cpu.run (procInitCode t)) ∧ p ≠ 0
    rw [hcur]
    by_cases hpq : p = q
    · subst hpq
      rw [hself, ← inv.running p, hnew]
      exact ⟨fun h => (nomatch h), fun h => (nomatch h)⟩
    · rw [hother hpq]
      exact inv.running p
  · by_cases hpq : p = q
    · exact hpq ▸ hq
    · exact inv.isProc p (hother hpq ▸ hp)
  · change Keeps t L (s.cpu.run (procInitCode t)).mem p (status p)
    by_cases hpq : p = q
    · rw [hpq, hself]
      exact hfresh
    · rw [hother hpq]
      by_cases hwait : (s.status p).Waiting
      · have hp := inv.isProc p hwait
        refine (inv.keeps p).congr hp (hframe _ ?_ ?_ ?_) fun a ha => hframe _ ?_ ?_ ?_
        · exact fun h => hpq ((BitVec.add_left_inj _).mp (Loc.word.inj h))
        · exact fun a ha => (L.ne_field hp (.inr hq) ha mem_ofs.1).symm
        · exact (L.ne_field hp inv.current hpush mem_ofs.1).symm
        · exact L.ne_field hq (.inr hp) ha mem_ofs.1
        · intro b hb h
          exact L.not_stack_of_ne (.inr hp) (.inr hq) hpq ha (Loc.word.inj h ▸ hb)
        · intro h
          exact L.not_stack_of_ne (.inr hp) inv.current (inv.waiting_ne hwait) ha
            (Loc.word.inj h ▸ hpush)
      · exact .of_not_waiting hwait

theorem ContextInv.body (inv : ContextInv t L s) {m : ProcCpu} (h : Undisturbed L s m) :
    ContextInv t L { s with cpu := m } := by
  refine ⟨?_, fun p => ?_, inv.isProc, fun p => ?_⟩
  · change L.Owner m.procCurrent
    rw [h.current]
    exact inv.current
  · change s.status p = .running ↔ p = m.procCurrent ∧ p ≠ 0
    rw [h.current]
    exact inv.running p
  · by_cases hwait : (s.status p).Waiting
    · exact (inv.keeps p).congr (inv.isProc p hwait) (h.sp p hwait) (h.stack p hwait)
    · exact .of_not_waiting hwait

theorem ContextInv.start (h : ContextStart L s) : ContextInv t L s := by
  have hnot (p : U32) : ¬ (s.status p).Waiting := by
    rw [h.status p]
    split <;> exact id
  refine ⟨h.current, fun p => ?_, fun p hp => absurd hp (hnot p), fun p => .of_not_waiting (hnot p)⟩
  rw [h.status p]
  split
  next hcur => exact ⟨fun _ => hcur, fun _ => rfl⟩
  next hcur => exact ⟨fun hrun => (nomatch hrun), fun hp => absurd hp hcur⟩

/-- The machine calls `routine` for `proc`, with its stack pointer at the return address. -/
def ProcCpu.calls (m : ProcCpu) (routine proc sp : U32) : ProcCpu :=
  { m.setReg .esp sp with
    eip := routine
    mem := Function.update m.mem (.word (sp + 4)) proc }

theorem ProcCpu.calls_esp (m : ProcCpu) (routine proc sp : U32) :
    (m.calls routine proc sp).esp = sp := m.setReg_self .esp sp

theorem ProcCpu.calls_word (m : ProcCpu) (routine proc sp : U32) {a : U32} (ha : a ≠ sp + 4) :
    (m.calls routine proc sp).mem (.word a) = m.mem (.word a) := by
  have hword : (Loc.word a : Loc ProcSym) ≠ .word (sp + 4) := fun h => ha (Loc.word.inj h)
  exact Function.update_of_ne hword proc m.mem

theorem ProcCpu.calls_procCurrent (m : ProcCpu) (routine proc sp : U32) :
    (m.calls routine proc sp).procCurrent = m.procCurrent := by
  have hsym : (Loc.sym .procCurrent : Loc ProcSym) ≠ .word (sp + 4) := fun h => by cases h
  exact Function.update_of_ne hsym proc m.mem

/-- The running process calls `routine`. -/
def ProcSystem.calling (s : ProcSystem) (routine proc sp : U32) : ProcSystem :=
  { s with cpu := s.cpu.calls routine proc sp }

theorem ProcSystem.calling_current (s : ProcSystem) (routine proc sp : U32) :
    (s.calling routine proc sp).current = s.current := s.cpu.calls_procCurrent routine proc sp

/-- A call writes its parameter to the current stack. -/
theorem ContextInv.undisturbed_calls (inv : ContextInv t L s) (routine q : U32) {sp : U32}
    (hstack : L.Stack s.current (sp + 4)) : Undisturbed L s (s.cpu.calls routine q sp) := by
  refine ⟨s.cpu.calls_procCurrent routine q sp, fun p hp => ?_, fun p hp a ha => ?_⟩
  · refine ProcCpu.calls_word _ _ _ _ fun heq => ?_
    exact L.not_stack (inv.isProc p hp) inv.current mem_ofs.1 (heq.symm ▸ hstack)
  · refine ProcCpu.calls_word _ _ _ _ fun heq => ?_
    exact L.not_stack_of_ne (.inr (inv.isProc p hp)) inv.current (inv.waiting_ne hp) ha
      (heq.symm ▸ hstack)

theorem atCall_calls {m : ProcCpu} {cur routine sp : U32} {pushed : Nat}
    (hcur : m.procCurrent = cur)
    (hlow : (L.lo cur).toNat + pushed ≤ sp.toNat) (hhigh : sp.toNat + 8 ≤ (L.hi cur).toNat) :
    AtCall L (m.calls routine q sp) routine q pushed := by
  have hsame : (m.calls routine q sp).procCurrent = cur :=
    (m.calls_procCurrent routine q sp).trans hcur
  refine ⟨rfl, ?_, ?_, ?_⟩
  · rw [Cpu.stack, ProcCpu.calls_esp]
    exact Function.update_self (Loc.word (sp + 4)) q m.mem
  · rw [hsame, ProcCpu.calls_esp]
    exact hlow
  · rw [hsame, ProcCpu.calls_esp]
    exact hhigh

/-- Whoever runs can switch to a process that waits, from any place on its stack. -/
theorem ContextInv.can_switch (inv : ContextInv t L s) (q sp : U32)
    (hwait : (s.status q).Waiting) (hlow : (L.lo s.current).toNat + 20 ≤ sp.toNat)
    (hhigh : sp.toNat + 8 ≤ (L.hi s.current).toNat) :
    Undisturbed L s (s.cpu.calls t.procSwitch q sp) ∧
      ∃ v, ContextStep t L (s.calling t.procSwitch q sp) (.switch q) v ∧ v.current = q ∧
        v.status = Function.update (s.calling t.procSwitch q sp).parked q .running := by
  have hundisturbed := inv.undisturbed_calls t.procSwitch q
    (show L.Stack s.current (sp + 4) by refine ⟨?_, ?_⟩ <;> bv_omega)
  have hcall : AtCall L (s.cpu.calls t.procSwitch q sp) t.procSwitch q 20 :=
    atCall_calls rfl hlow hhigh
  have hne : q ≠ (s.calling t.procSwitch q sp).current := fun heq =>
    inv.waiting_ne hwait (heq.trans (s.calling_current _ _ _))
  have hparked : ((s.calling t.procSwitch q sp).parked q).Waiting := by
    rw [ProcSystem.parked_of_ne _ hne]
    exact hwait
  exact ⟨hundisturbed, _, .switch hparked hcall, (inv.body hundisturbed).procCurrent_switch hcall,
    rfl⟩

theorem ContextInv.step {e : ContextEvent} (inv : ContextInv t L s)
    (h : ContextStep t L s e s') : ContextInv t L s' := by
  cases h with
  | body h => exact inv.body h
  | init hq hnew hcall htop => exact inv.init hq hnew hcall htop
  | switch hwait hcall => exact inv.switch hwait hcall

theorem ContextInv.run {s₀ : ProcSystem} {tr : List (ProcSystem × ContextEvent)}
    (start : ContextStart L s₀) (run : Run (ContextStep t L) s₀ tr s) : ContextInv t L s :=
  run.invariant (.start start) fun _ _ _ inv h => inv.step h

end Steps

/-- `proc_release`, entered with `m`, has come back: the stack pointer is behind the return
address, and the words above its parameter are as they were. -/
structure Released (L : StackLayout) (proc : U32) (m m' : ProcCpu) : Prop where
  eip : m'.eip = m.stack 0
  esp : m'.esp = m.esp + 4
  stack : ∀ a, L.Stack proc a → m.esp.toNat + 8 ≤ a.toNat → m'.mem (.word a) = m.mem (.word a)

/-- A process takes its first turn: at `proc_startup`, which calls `proc_release` and then
goes to the entry point, with the stack pointer at the return slot. -/
structure FirstTurn (t : ProcText) (L : StackLayout) (proc entry : U32) (m : ProcCpu) :
    Prop where
  eip : m.eip = t.procStartup
  target : (m.run (procStartupCode t)).eip = t.procRelease
  param : (m.run (procStartupCode t)).stack 4 = 0x200 ||| 0x200000
  next : (m.run (procStartupCode t)).stack 0 = t.startupRest
  entry : ∀ m', Released L proc (m.run (procStartupCode t)) m' →
    m'.eip = t.startupRest ∧ (m'.run startupRestCode).eip = entry ∧
      (m'.run startupRestCode).esp = L.hi proc - 4 ∧ (m'.run startupRestCode).stack 0 = 0

/-- A call of `proc_switch` returns: everything is as it was when the call was made, but for
the stack below. `call` is the machine with the return address pushed. -/
structure Restored (L : StackLayout) (proc : U32) (call m : ProcCpu) : Prop where
  ebx : m.reg .ebx = call.reg .ebx
  esi : m.reg .esi = call.reg .esi
  edi : m.reg .edi = call.reg .edi
  ebp : m.reg .ebp = call.reg .ebp
  esp : m.esp = call.esp + 4
  eflags : m.eflags = call.eflags
  eip : m.eip = call.stack 0
  stack : ∀ a, L.Stack proc a → call.esp.toNat ≤ a.toNat → m.mem (.word a) = call.mem (.word a)

section Turns

variable {t : ProcText} {L : StackLayout} {mem : Loc ProcSym → U32} {q entry : U32}
  {m call : ProcCpu}

/-- The call of `proc_release` in `proc_startup`: its frame, and above it the entry point
and the return slot that `proc_init` left there. -/
structure AtRelease (t : ProcText) (L : StackLayout) (proc entry : U32) (k : ProcCpu) : Prop where
  esp : k.esp = L.hi proc - 16
  pushed : ∀ {i : Nat}, i < 2 → ∀ a, a = L.hi proc - 8 - BitVec.ofNat 32 (4 * (i + 1)) →
    k.mem (.word a) = [0x200 ||| 0x200000, t.startupRest].getD i 0
  forged : ∀ {i : Nat}, i < 2 → ∀ a, a = L.hi proc - BitVec.ofNat 32 (4 * (i + 1)) →
    k.mem (.word a) = (forgedWords t entry).getD i 0

theorem FreshStack.atRelease (h : FreshStack t L mem q entry) (hq : L.isProc q)
    (hpops : Pops mem (mem (.word (q + procSpOfs))) m) :
    AtRelease t L q entry (m.run (procStartupCode t)) := by
  have hroom := L.room q hq
  rw [h.sp] at hpops
  have hesp : m.esp = L.hi q - 8 := by
    rw [hpops.esp]
    bv_omega
  obtain ⟨-, hkesp, hkmem⟩ := run_procStartup t m
  refine ⟨?_, fun {i} hi a ha => ?_, fun {i} hi a ha => ?_⟩
  · rw [hkesp, hesp]
    bv_omega
  · rw [hkmem, ha, ← hesp]
    exact Cpu.pushWords_mem hi (show 4 * 2 < 2 ^ 32 by decide)
  · rw [hkmem, Cpu.pushWords_mem_of_ne fun j hj => ?_, hpops.mem, ha]
    · exact h.words i (by omega)
    · have hj : j < 2 := hj
      rw [hesp, ha, ne_eq, Loc.word.injEq]
      bv_omega

theorem AtRelease.next (h : AtRelease t L q entry m) : m.stack 0 = t.startupRest := by
  rw [Cpu.stack, h.esp]
  exact h.pushed (show 1 < 2 by decide) _ (by bv_omega)

/-- Once `proc_release` is back, the rest of `proc_startup` goes to the entry point. -/
theorem AtRelease.enters (h : AtRelease t L q entry m) (hq : L.isProc q) {m' : ProcCpu}
    (hreleased : Released L q m m') :
    m'.eip = t.startupRest ∧ (m'.run startupRestCode).eip = entry ∧
      (m'.run startupRestCode).esp = L.hi q - 4 ∧ (m'.run startupRestCode).stack 0 = 0 := by
  have hroom := L.room q hq
  have hkesp := h.esp
  obtain ⟨heip, hesp, hmem⟩ := run_startupRest m'
  have hm'esp : m'.esp = L.hi q - 12 := by
    rw [hreleased.esp, hkesp]
    bv_omega
  have hkept {i : Nat} (hi : i < 2) (a : U32) (ha : a = L.hi q - BitVec.ofNat 32 (4 * (i + 1))) :
      m'.mem (.word a) = (forgedWords t entry).getD i 0 := by
    rw [hreleased.stack a (ha ▸ L.stack_top hq (by omega)) (by rw [hkesp]; bv_omega)]
    exact h.forged hi a ha
  refine ⟨hreleased.eip.trans h.next, ?_, ?_, ?_⟩
  · rw [heip, Cpu.stack, hm'esp]
    exact hkept (show 1 < 2 by decide) _ (by bv_omega)
  · rw [hesp, hm'esp]
    bv_omega
  · rw [Cpu.stack, hesp, hm'esp, hmem]
    exact hkept (show 0 < 2 by decide) _ (by bv_omega)

theorem FreshStack.firstTurn (h : FreshStack t L mem q entry) (hq : L.isProc q)
    (hpops : Pops mem (mem (.word (q + procSpOfs))) m) : FirstTurn t L q entry m := by
  have hat := h.atRelease hq hpops
  obtain ⟨htarget, -, -⟩ := run_procStartup t m
  refine ⟨?_, htarget, ?_, hat.next, fun m' hreleased => hat.enters hq hreleased⟩
  · have hslot : L.hi q - 32 + 20 = L.hi q - BitVec.ofNat 32 (4 * (2 + 1)) := by bv_omega
    rw [hpops.eip, h.sp, hslot]
    exact h.words 2 (by decide)
  · rw [Cpu.stack, hat.esp]
    exact hat.pushed (show 0 < 2 by decide) _ (by bv_omega)

theorem SuspendedStack.restored (h : SuspendedStack L mem q call)
    (hpops : Pops mem (mem (.word (q + procSpOfs))) m) : Restored L q call m := by
  have hlow := h.low
  have hhigh := h.high
  have hpushed {i : Nat} (hi : i < 5) (a : U32)
      (ha : a = call.esp - BitVec.ofNat 32 (4 * (i + 1))) :
      mem (.word a) = [call.reg .ebx, call.reg .esi, call.reg .edi, call.reg .ebp,
        call.eflags.word].getD i 0 := by
    rw [ha, h.words _ (by refine ⟨?_, ?_⟩ <;> bv_omega)]
    exact Cpu.pushWords_mem hi (show 4 * 5 < 2 ^ 32 by decide)
  have habove {a : U32} (ha : L.Stack q a) (hge : call.esp.toNat ≤ a.toNat) :
      mem (.word a) = call.mem (.word a) := by
    rw [h.words a ha, saved_word (by omega) (.inr hge)]
  rw [h.sp] at hpops
  refine ⟨?_, ?_, ?_, ?_, ?_, ?_, ?_, fun a ha hge => ?_⟩
  · rw [hpops.ebx]
    exact hpushed (show 0 < 5 by decide) _ (by bv_omega)
  · rw [hpops.esi]
    exact hpushed (show 1 < 5 by decide) _ (by bv_omega)
  · rw [hpops.edi]
    exact hpushed (show 2 < 5 by decide) _ (by bv_omega)
  · rw [hpops.ebp]
    exact hpushed (show 3 < 5 by decide) _ (by bv_omega)
  · rw [hpops.esp]
    bv_omega
  · rw [hpops.eflags, hpushed (show 4 < 5 by decide) _ (by bv_omega)]
    exact Eflags.load_word call.eflags
  · have hret : call.esp - 20 + 20 = call.esp + 0 := by bv_omega
    rw [hpops.eip, hret]
    refine habove ⟨?_, ?_⟩ ?_ <;> bv_omega
  · rw [hpops.mem]
    exact habove ha hge

end Turns

/-- What a process waits for is the last thing that happened to it: the preparation by
`proc_init`, or a call of `proc_switch` of its own. -/
theorem waiting_history {t : ProcText} {L : StackLayout} {s₀ s : ProcSystem}
    {tr : List (ProcSystem × ContextEvent)} (start : ContextStart L s₀)
    (run : Run (ContextStep t L) s₀ tr s) (p : U32) :
    (∀ entry, s.status p = .fresh entry →
        ∃ x ∈ tr, x.2 = .init p ∧ x.1.cpu.mem (.word (p + procEntryOfs)) = entry) ∧
      ∀ call, s.status p = .suspended call →
        ∃ x ∈ tr, (∃ q, x.2 = .switch q) ∧ x.1.current = p ∧ x.1.cpu = call := by
  induction run with
  | nil =>
      rw [start.status p]
      split <;> exact ⟨fun _ h => (nomatch h), fun _ h => (nomatch h)⟩
  | @snoc tr u v e _ hstep ih =>
      have hlast : (u, e) ∈ tr ++ [(u, e)] := List.mem_append_right _ List.mem_cons_self
      have hold : (∀ entry, u.status p = .fresh entry → ∃ x ∈ tr ++ [(u, e)],
            x.2 = .init p ∧ x.1.cpu.mem (.word (p + procEntryOfs)) = entry) ∧
          ∀ call, u.status p = .suspended call → ∃ x ∈ tr ++ [(u, e)],
            (∃ q, x.2 = .switch q) ∧ x.1.current = p ∧ x.1.cpu = call := by
        refine ⟨fun entry h => ?_, fun call h => ?_⟩
        · obtain ⟨x, hx, hrest⟩ := ih.1 entry h
          exact ⟨x, List.mem_append_left _ hx, hrest⟩
        · obtain ⟨x, hx, hrest⟩ := ih.2 call h
          exact ⟨x, List.mem_append_left _ hx, hrest⟩
      cases hstep with
      | body _ => exact hold
      | @init proc _ _ _ _ =>
          by_cases hp : p = proc
          · subst hp
            dsimp only
            rw [Function.update_self]
            refine ⟨fun entry h => ⟨_, hlast, rfl, ?_⟩, fun _ h => (nomatch h)⟩
            exact ProcStatus.fresh.inj h
          · dsimp only
            rw [Function.update_of_ne hp]
            exact hold
      | @switch proc _ _ =>
          by_cases hp : p = proc
          · subst hp
            dsimp only
            rw [Function.update_self]
            exact ⟨fun _ h => (nomatch h), fun _ h => (nomatch h)⟩
          · dsimp only
            rw [Function.update_of_ne hp, ProcSystem.parked]
            split
            next hcur =>
                refine ⟨fun _ h => (nomatch h), fun call h => ⟨_, hlast, ⟨proc, rfl⟩, ?_, ?_⟩⟩
                · exact hcur.1.symm
                · exact ProcStatus.suspended.inj h
            next => exact hold

/-- In every run, whatever the order of the calls: a process switched to for the first time
starts, one switched to again returns from its own call, and the stacks of those that wait
are not touched. -/
theorem switch_restores {t : ProcText} {L : StackLayout} {s₀ s s' : ProcSystem}
    {tr : List (ProcSystem × ContextEvent)} {proc : U32} (start : ContextStart L s₀)
    (run : Run (ContextStep t L) s₀ tr s) (h : ContextStep t L s (.switch proc) s') :
    (∀ entry, s.parked proc = .fresh entry → FirstTurn t L proc entry s'.cpu) ∧
      (∀ call, s.parked proc = .suspended call → Restored L proc call s'.cpu) ∧
      ∀ p, (s.status p).Waiting → ∀ a, L.Stack p a →
        s'.cpu.mem (.word a) = s.cpu.mem (.word a) := by
  have inv := ContextInv.run start run
  cases h with
  | switch hwait hcall =>
      have hq := inv.isProc_parked hwait
      have hkeeps := inv.keeps_switched hq hcall proc
      have hpops := inv.pops hcall
      refine ⟨fun entry hentry => ?_, fun call hcall => ?_, fun p hp a ha => ?_⟩
      · rw [hentry] at hkeeps
        exact hkeeps.firstTurn hq hpops
      · rw [hcall] at hkeeps
        exact hkeeps.restored hpops
      · have howner : L.Owner p := .inr (inv.isProc p hp)
        change (s.cpu.run procSwitchCode).mem (.word a) = _
        rw [hpops.mem, switchedMem_stack inv.current hq howner ha,
          saved_outside hcall.low hcall.high
            (L.not_stack_of_ne howner inv.current (inv.waiting_ne hp) ha)]

/-- Two process blocks of 4 KiB, and a stack below them to start on. -/
def twoBlocks : StackLayout where
  isProc p := p = 0x10000 ∨ p = 0x20000
  lo o := if o = 0 then 0x8000 else o + 24
  hi o := if o = 0 then 0x9000 else o + 4096
  ne_zero := by
    rintro p (rfl | rfl) <;> decide
  room := by
    rintro p (rfl | rfl) <;> decide
  disjoint := by
    rintro o o' (rfl | rfl | rfl) (rfl | rfl | rfl) hne
    all_goals first | exact absurd rfl hne | decide
  fields := by
    intro p o hp ho ofs hofs
    simp only [List.mem_cons, List.not_mem_nil, or_false] at hofs
    rcases hp with rfl | rfl <;> rcases ho with rfl | rfl | rfl <;>
      rcases hofs with rfl | rfl | rfl <;> decide
  structs := by
    rintro p q (rfl | rfl) (rfl | rfl) <;> decide

def sampleText : ProcText := ⟨0x100000, 0x100040, 0x10004A, 0x100060, 0x101000⟩

/-- The machine in front of `proc_init(0x10000)`, without a current process. -/
def bootCpu : ProcCpu where
  reg r := if r = .esp then 0x8FF0 else 7
  eflags := .load 0
  eip := sampleText.procInit
  mem l := if l = .word 0x8FF4 then 0x10000
    else if l = .word 0x10000 then 0x11000 else if l = .word 0x10004 then 0x123456
    else if l = .word 0x20000 then 0x21000 else if l = .word 0x20004 then 0x654321 else 0

def bootSystem : ProcSystem := ⟨bootCpu, fun _ => .unprepared⟩

theorem bootSystem_start : ContextStart twoBlocks bootSystem :=
  ⟨.inl rfl, fun _ => (if_neg fun h => h.2 h.1).symm⟩

/-- The machine in front of `proc_init(0x20000)`. -/
def secondInitCpu : ProcCpu :=
  ProcCpu.calls (bootCpu.run (procInitCode sampleText)) sampleText.procInit 0x20000 0x8FF0

/-- Both processes are prepared. -/
def bothPrepared : ProcSystem :=
  ⟨secondInitCpu.run (procInitCode sampleText), Function.update
    (Function.update bootSystem.status 0x10000 (.fresh 0x123456)) 0x20000 (.fresh 0x654321)⟩

theorem bothPrepared_run :
    ∃ tr, Run (ContextStep sampleText twoBlocks) bootSystem tr bothPrepared := by
  have hinit : ContextStep sampleText twoBlocks bootSystem (.init 0x10000)
      ⟨bootCpu.run (procInitCode sampleText),
        Function.update bootSystem.status 0x10000 (.fresh 0x123456)⟩ :=
    .init (.inl rfl) rfl ⟨rfl, by decide, by decide, by decide⟩ (by decide)
  have inv := ContextInv.run bootSystem_start (Run.nil.snoc hinit)
  have hbody := inv.undisturbed_calls sampleText.procInit 0x20000
    (show twoBlocks.Stack 0 (0x8FF0 + 4) from ⟨by decide, by decide⟩)
  have hsecond : ContextStep sampleText twoBlocks ⟨secondInitCpu, Function.update
      bootSystem.status 0x10000 (.fresh 0x123456)⟩ (.init 0x20000) bothPrepared :=
    .init (show twoBlocks.isProc 0x20000 from .inr rfl) rfl
      (atCall_calls (show ProcCpu.procCurrent (bootCpu.run (procInitCode sampleText)) = 0 by decide)
        (by decide) (by decide)) (by decide)
  exact ⟨_, ((Run.nil.snoc hinit).snoc (.body hbody)).snoc hsecond⟩

/-- Both processes take their first turn, and the first one gets back what it had when it
called `proc_switch`. -/
theorem switch_restores_boot : ∃ tr s s' call,
    Run (ContextStep sampleText twoBlocks) bootSystem tr s ∧
      ContextStep sampleText twoBlocks s (.switch 0x10000) s' ∧
      s.current = 0x20000 ∧ s.parked 0x10000 = .suspended call ∧ call.esp = 0x10F00 ∧
      Restored twoBlocks 0x10000 call s'.cpu := by
  obtain ⟨tr₀, hrun₀⟩ := bothPrepared_run
  have hcurrent₀ : bothPrepared.current = 0 := by decide
  -- from the boot stack to 0x10000
  obtain ⟨hcalls₁, v₁, hswitch₁, hv₁, hstatus₁⟩ :=
    (ContextInv.run bootSystem_start hrun₀).can_switch 0x10000 0x8F80 trivial
      (by rw [hcurrent₀]; decide) (by rw [hcurrent₀]; decide)
  have hrun₁ := (hrun₀.snoc (.body hcalls₁)).snoc hswitch₁
  have hfresh : v₁.status 0x20000 = .fresh 0x654321 := by
    rw [hstatus₁, Function.update_of_ne (by decide), ProcSystem.parked_of_ne]
    · rfl
    · rw [ProcSystem.calling_current, hcurrent₀]
      decide
  -- from there to 0x20000
  obtain ⟨hcalls₂, v₂, hswitch₂, hv₂, hstatus₂⟩ :=
    (ContextInv.run bootSystem_start hrun₁).can_switch 0x20000 0x10F00
      (hfresh ▸ trivial) (by rw [hv₁]; decide) (by rw [hv₁]; decide)
  have hrun₂ := (hrun₁.snoc (.body hcalls₂)).snoc hswitch₂
  have hsuspended : v₂.status 0x10000 =
      .suspended (v₁.cpu.calls sampleText.procSwitch 0x20000 0x10F00) := by
    rw [hstatus₂, Function.update_of_ne (by decide), ProcSystem.parked_current _ _ (by decide)]
    · rfl
    · rw [ProcSystem.calling_current, hv₁]
  -- and back
  obtain ⟨hcalls₃, v₃, hswitch₃, -, -⟩ :=
    (ContextInv.run bootSystem_start hrun₂).can_switch 0x10000 0x20F00
      (hsuspended ▸ trivial) (by rw [hv₂]; decide) (by rw [hv₂]; decide)
  have hrun₃ := hrun₂.snoc (.body hcalls₃)
  have hcurrent₃ := (v₂.calling_current sampleText.procSwitch 0x10000 0x20F00).trans hv₂
  have hparked := (ProcSystem.parked_of_ne (v₂.calling sampleText.procSwitch 0x10000 0x20F00)
    (p := 0x10000) (by rw [hcurrent₃]; decide)).trans hsuspended
  exact ⟨_, _, v₃, _, hrun₃, hswitch₃, hcurrent₃, hparked, ProcCpu.calls_esp _ _ _ _,
    (switch_restores bootSystem_start hrun₃ hswitch₃).2.1 _ hparked⟩

end DordOs
