import DordOs.Proc.Context
import DordOs.Proc.Convention
import DordOs.Proc.Isr

/-!
The processes of `Context` under interrupts and system calls. A trap can come between any two
steps of the process that runs, its handler may be interrupted and may switch to another
process, and the others may run for as long as they like before it comes back.
-/
namespace DordOs
open Lib Lib.X86

/-- A trap that is being handled, and the machine it interrupted. -/
structure TrapFrame where
  trap : Trap
  cpu : ProcCpu

namespace TrapFrame

def base (f : TrapFrame) : U32 := f.trap.base f.cpu

/-- What the handler has to leave alone: the frame, and for an interrupt the whole stack of
the process it interrupted. A system call may store to where its parameters point. -/
def Protects (f : TrapFrame) (a : U32) : Prop :=
  f.base.toNat ≤ a.toNat ∧ (f.trap ≠ .sys ∨ a.toNat < f.cpu.esp.toNat)

end TrapFrame

/-- The traps that have not come back, for each stack, the innermost first. -/
structure TrapSystem where
  proc : ProcSystem
  frames : U32 → List TrapFrame

namespace TrapSystem

abbrev current (s : TrapSystem) : U32 := s.proc.current

abbrev cpu (s : TrapSystem) : ProcCpu := s.proc.cpu

/-- The traps whose handlers run on the current stack. -/
def pending (s : TrapSystem) : List TrapFrame := s.frames s.current

def withCpu (s : TrapSystem) (m : ProcCpu) : TrapSystem :=
  { s with proc := { s.proc with cpu := m } }

end TrapSystem

/-- What runs in a handler stays below its frame. -/
structure Spares (L : StackLayout) (s : TrapSystem) (m : ProcCpu) (f : TrapFrame) : Prop where
  stack : ∀ a, L.Stack s.current a → f.Protects a → m.mem (.word a) = s.cpu.mem (.word a)
  esp : m.esp.toNat ≤ f.base.toNat

/-- A trap is taken on the current stack, an interrupt only while they are on. -/
structure CanTrap (L : StackLayout) (s : TrapSystem) (k : Trap) : Prop where
  on : k ≠ .sys → s.cpu.eflags.interruptsOn = true
  low : (L.lo s.current).toNat + k.room ≤ s.cpu.esp.toNat
  high : s.cpu.esp.toNat ≤ (L.hi s.current).toNat

inductive TrapEvent
  | context (e : ContextEvent)
  | trap (k : Trap)
  | iret

inductive TrapStep (t : TrapText) (L : StackLayout) : TrapSystem → TrapEvent → TrapSystem → Prop
  | body {s : TrapSystem} {m : ProcCpu} : Undisturbed L s.proc m →
      (∀ f ∈ s.pending, Spares L s m f) → TrapStep t L s (.context .body) (s.withCpu m)
  | call {s : TrapSystem} {e : ContextEvent} {p : ProcSystem} : e ≠ .body →
      ContextStep t.toProcText L s.proc e p →
      (∀ f ∈ s.pending, s.cpu.esp.toNat + 8 ≤ f.base.toNat) →
      TrapStep t L s (.context e) { s with proc := p }
  | trap {s : TrapSystem} {k : Trap} : CanTrap L s k →
      TrapStep t L s (.trap k)
        { s.withCpu (s.cpu.enter t k) with
          frames := Function.update s.frames s.current (⟨k, s.cpu⟩ :: s.pending) }
  | iret {s : TrapSystem} {f : TrapFrame} {rest : List TrapFrame} : s.pending = f :: rest →
      Returned (f.cpu.enter t f.trap) s.cpu →
      TrapStep t L s .iret
        { s.withCpu (s.cpu.runTrap f.trap.restCode) with
          frames := Function.update s.frames s.current rest }

structure TrapStart (L : StackLayout) (s : TrapSystem) : Prop where
  context : ContextStart L s.proc
  frames : ∀ p, s.frames p = []

/-- The traps of a stack lie below one another on it, as they were taken. -/
structure FramesKept (L : StackLayout) (mem : Loc ProcSym → U32) (p : U32)
    (frames : List TrapFrame) : Prop where
  room : ∀ f ∈ frames, (L.lo p).toNat + f.trap.room ≤ f.cpu.esp.toNat ∧
    f.cpu.esp.toNat ≤ (L.hi p).toNat
  stacked : ∀ f ∈ frames, Stacked mem f.cpu.esp (f.trap.words f.cpu)
  above : ∀ f ∈ frames, f.trap ≠ .sys → ∀ a, L.Stack p a → f.cpu.esp.toNat ≤ a.toNat →
    mem (.word a) = f.cpu.mem (.word a)
  nested : frames.Pairwise fun inner outer => inner.cpu.esp.toNat ≤ outer.base.toNat

structure TrapInv (t : TrapText) (L : StackLayout) (s : TrapSystem) : Prop where
  context : ContextInv t.toProcText L s.proc
  kept : ∀ p, p = s.current ∨ (s.proc.status p).Waiting → FramesKept L s.cpu.mem p (s.frames p)
  below : ∀ f ∈ s.pending, s.cpu.esp.toNat ≤ f.base.toNat
  suspended : ∀ p call, s.proc.status p = .suspended call →
    ∀ f ∈ s.frames p, call.esp.toNat + 8 ≤ f.base.toNat
  idle : ∀ p, p ≠ 0 → (∀ call, s.proc.status p ≠ .suspended call) → p ≠ s.current →
    s.frames p = []

section Frames

variable {t : TrapText} {L : StackLayout} {mem mem' : Loc ProcSym → U32} {p : U32}
  {frames : List TrapFrame} {f : TrapFrame}

theorem FramesKept.nil : FramesKept L mem p [] :=
  ⟨fun _ h => (nomatch h), fun _ h => (nomatch h), fun _ h => (nomatch h), .nil⟩

theorem TrapFrame.toNat_base (hroom : f.trap.room ≤ f.cpu.esp.toNat) :
    f.base.toNat + f.trap.size = f.cpu.esp.toNat := DordOs.toNat_base hroom

/-- The frames stay as long as nothing they protect is written. -/
theorem FramesKept.congr (h : FramesKept L mem p frames)
    (hsame : ∀ f ∈ frames, ∀ a, L.Stack p a → f.Protects a → mem' (.word a) = mem (.word a)) :
    FramesKept L mem' p frames := by
  refine ⟨h.room, fun f hf => ?_, fun f hf hirq a ha hge => ?_, h.nested⟩
  · obtain ⟨hlow, hhigh⟩ := h.room f hf
    have hbase := TrapFrame.toNat_base (f := f) (by omega)
    have hlen := f.trap.length_words f.cpu
    have hsize := f.trap.size_lt_room
    refine (h.stacked f hf).congr (by omega) fun a hlo hhi => ?_
    exact hsame f hf a ⟨by omega, by omega⟩ ⟨by omega, .inr hhi⟩
  · have hbase := TrapFrame.toNat_base (f := f) (by have := (h.room f hf).1; omega)
    rw [hsame f hf a ha ⟨by omega, .inl hirq⟩, h.above f hf hirq a ha hge]

/-- A trap taken below the others is one more frame. -/
theorem FramesKept.cons {s : TrapSystem} {k : Trap} (hcan : CanTrap L s k)
    (h : FramesKept L s.cpu.mem s.current s.pending)
    (hbelow : ∀ f ∈ s.pending, s.cpu.esp.toNat ≤ f.base.toNat) :
    FramesKept L (s.cpu.enter t k).mem s.current (⟨k, s.cpu⟩ :: s.pending) := by
  have hlow := hcan.low
  have hentered := @entered t s.cpu k (by omega)
  have hsame : FramesKept L (s.cpu.enter t k).mem s.current s.pending :=
    h.congr fun f hf a _ hprot => hentered.word a (.inr (Nat.le_trans (hbelow f hf) hprot.1))
  refine ⟨fun f hf => ?_, fun f hf => ?_, fun f hf hirq a ha hge => ?_, ?_⟩
  · obtain rfl | hf := List.mem_cons.mp hf
    · exact ⟨hlow, hcan.high⟩
    · exact h.room f hf
  · obtain rfl | hf := List.mem_cons.mp hf
    · exact hentered.stacked
    · exact hsame.stacked f hf
  · obtain rfl | hf := List.mem_cons.mp hf
    · exact hentered.word a (.inr hge)
    · exact hsame.above f hf hirq a ha hge
  · exact List.pairwise_cons.mpr ⟨hbelow, h.nested⟩

theorem FramesKept.tail {rest : List TrapFrame} (h : FramesKept L mem p (f :: rest)) :
    FramesKept L mem p rest :=
  ⟨fun g hg => h.room g (List.mem_cons_of_mem _ hg),
    fun g hg => h.stacked g (List.mem_cons_of_mem _ hg),
    fun g hg => h.above g (List.mem_cons_of_mem _ hg), (List.pairwise_cons.mp h.nested).2⟩

end Frames

section Steps

variable {t : TrapText} {L : StackLayout} {s s' : TrapSystem} {p : U32}

/-- A trap writes below the stack pointer, and so to the current stack alone. -/
theorem TrapInv.undisturbed_enter (inv : TrapInv t L s) {k : Trap} (hcan : CanTrap L s k) :
    Undisturbed L s.proc (s.cpu.enter t k) := by
  have hlow := hcan.low
  have hhigh := hcan.high
  have hentered := @entered t s.cpu k (by omega)
  have houtside {a : U32} (ha : ¬ L.Stack s.current a) :
      (s.cpu.enter t k).mem (.word a) = s.cpu.mem (.word a) := by
    refine hentered.word a ?_
    have hstack : ¬ ((L.lo s.current).toNat ≤ a.toNat ∧ a.toNat < (L.hi s.current).toNat) := ha
    omega
  refine ⟨hentered.sym .procCurrent, fun p hp => ?_, fun p hp a ha => ?_⟩
  · exact houtside (L.not_stack (inv.context.isProc p hp) inv.context.current mem_ofs.1)
  · exact houtside (L.not_stack_of_ne (.inr (inv.context.isProc p hp)) inv.context.current
      (inv.context.waiting_ne hp) ha)

/-- A pending trap whose handler is back finds its frame. -/
theorem TrapInv.resumed (inv : TrapInv t L s) {f : TrapFrame} {rest : List TrapFrame}
    (hpending : s.pending = f :: rest) (h : Returned (f.cpu.enter t f.trap) s.cpu) :
    Resumed f.trap f.cpu (s.cpu.runTrap f.trap.restCode) ∧
      (f.trap = .sys → (s.cpu.runTrap f.trap.restCode).reg .eax = s.cpu.reg .eax) ∧
      (s.cpu.runTrap f.trap.restCode).mem = s.cpu.mem := by
  have hkept := inv.kept s.current (.inl rfl)
  have hf : f ∈ s.frames s.current := by
    change f ∈ s.pending
    rw [hpending]
    exact List.mem_cons_self
  exact DordOs.resumed (Nat.le_trans (Nat.le_add_left _ _) (hkept.room f hf).1)
    (hkept.stacked f hf) h

theorem undisturbed_of_mem {m : ProcCpu} (h : m.mem = s.cpu.mem) : Undisturbed L s.proc m :=
  ⟨congrFun h _, fun _ _ => congrFun h _, fun _ _ _ _ => congrFun h _⟩

/-- Whatever a step writes to the stacks of the processes that wait it leaves alone. -/
theorem TrapInv.withCpu (inv : TrapInv t L s) {m : ProcCpu} {frames : List TrapFrame}
    (h : Undisturbed L s.proc m) (hkept : FramesKept L m.mem s.current frames)
    (hbelow : ∀ f ∈ frames, m.esp.toNat ≤ f.base.toNat) :
    TrapInv t L { s.withCpu m with frames := Function.update s.frames s.current frames } := by
  have hcur : m.procCurrent = s.current := h.current
  have hother {p : U32} (hp : p ≠ s.current) :
      Function.update s.frames s.current frames p = s.frames p := Function.update_of_ne hp _ _
  have hself : Function.update s.frames s.current frames s.current = frames :=
    Function.update_self _ _ _
  refine ⟨inv.context.body h, fun p hp => ?_, ?_, fun p call hcall => ?_,
    fun p hzero hidle hp => ?_⟩
  · change FramesKept L m.mem p (Function.update s.frames s.current frames p)
    by_cases hpcur : p = s.current
    · rw [hpcur, hself]
      exact hkept
    · have hwait : (s.proc.status p).Waiting := hp.resolve_left fun heq => hpcur (heq.trans hcur)
      rw [hother hpcur]
      exact (inv.kept p (.inr hwait)).congr fun f _ a ha _ => h.stack p hwait a ha
  · change ∀ f ∈ Function.update s.frames s.current frames m.procCurrent, _
    rw [hcur, hself]
    exact hbelow
  · have hwait : (s.proc.status p).Waiting := by
      have hcall : s.proc.status p = .suspended call := hcall
      rw [hcall]
      trivial
    change ∀ f ∈ Function.update s.frames s.current frames p, _
    rw [hother (inv.context.waiting_ne hwait)]
    exact inv.suspended p call hcall
  · have hp : p ≠ s.current := fun heq => hp (heq.trans hcur.symm)
    change Function.update s.frames s.current frames p = []
    rw [hother hp]
    exact inv.idle p hzero hidle hp

theorem withCpu_frames (s : TrapSystem) (m : ProcCpu) :
    s.withCpu m = { s.withCpu m with frames := Function.update s.frames s.current s.pending } := by
  rw [show s.pending = s.frames s.current from rfl, Function.update_eq_self]
  rfl

theorem TrapInv.body (inv : TrapInv t L s) {m : ProcCpu} (h : Undisturbed L s.proc m)
    (hspares : ∀ f ∈ s.pending, Spares L s m f) : TrapInv t L (s.withCpu m) := by
  rw [withCpu_frames]
  exact inv.withCpu h
    ((inv.kept s.current (.inl rfl)).congr fun f hf a ha hprot => (hspares f hf).stack a ha hprot)
    fun f hf => (hspares f hf).esp

theorem TrapInv.trap (inv : TrapInv t L s) {k : Trap} (hcan : CanTrap L s k) :
    TrapInv t L { s.withCpu (s.cpu.enter t k) with
      frames := Function.update s.frames s.current (⟨k, s.cpu⟩ :: s.pending) } := by
  have hlow := hcan.low
  have hentered := @entered t s.cpu k (by omega)
  have hbase := @DordOs.toNat_base s.cpu k (by omega)
  have hhigh := hentered.high
  refine inv.withCpu (inv.undisturbed_enter hcan)
    (.cons hcan (inv.kept s.current (.inl rfl)) inv.below) fun f hf => ?_
  obtain rfl | hf := List.mem_cons.mp hf
  · exact Nat.le_trans (Nat.le_add_right _ 8) hhigh
  · exact Nat.le_trans (by omega) (inv.below f hf)

theorem TrapInv.iret (inv : TrapInv t L s) {f : TrapFrame} {rest : List TrapFrame}
    (hpending : s.pending = f :: rest) (h : Returned (f.cpu.enter t f.trap) s.cpu) :
    TrapInv t L { s.withCpu (s.cpu.runTrap f.trap.restCode) with
      frames := Function.update s.frames s.current rest } := by
  obtain ⟨hresumed, -, hmem⟩ := inv.resumed hpending h
  have hkept : FramesKept L s.cpu.mem s.current (f :: rest) :=
    hpending ▸ inv.kept s.current (.inl rfl)
  have hesp : (s.cpu.runTrap f.trap.restCode).esp = f.cpu.esp :=
    hresumed.reg .esp (.inl (by decide))
  refine inv.withCpu (undisturbed_of_mem hmem) (hmem ▸ hkept.tail) fun g hg => ?_
  rw [hesp]
  exact (List.pairwise_cons.mp hkept.nested).1 g hg

theorem run_procInit_esp (t : ProcText) (m : ProcCpu) :
    (m.run (procInitCode t)).esp = m.esp + 4 := by
  rw [exec_forging t m rfl rfl rfl]
  obtain ⟨-, -, hesp, -⟩ := exec_initTail_regs ((m.forging
    ((m.pushWord (m.reg .ebp)).mem (.word (m.esp - 4 + 8))) _).pushWords (forgedWords t _)) rfl
  rw [hesp, Cpu.pushWords_reg (by decide)]
  exact show m.esp - 4 + 8 = m.esp + 4 by bv_omega

theorem TrapInv.init (inv : TrapInv t L s) {q : U32} (hq : L.isProc q)
    (hnew : s.proc.status q = .unprepared) (hcall : AtCall L s.cpu t.procInit q 4)
    (htop : s.cpu.mem (.word (q + procSpOfs)) = L.hi q)
    (hpending : ∀ f ∈ s.pending, s.cpu.esp.toNat + 8 ≤ f.base.toNat) :
    TrapInv t L { s with proc := ⟨s.cpu.run (procInitCode t.toProcText),
      Function.update s.proc.status q (.fresh (s.cpu.mem (.word (q + procEntryOfs))))⟩ } := by
  obtain ⟨hfresh, hframe⟩ := run_procInit_mem hq inv.context hcall htop
  have hcontext := inv.context.init hq hnew hcall htop
  have hcur : ProcCpu.procCurrent (s.cpu.run (procInitCode t.toProcText)) = s.current :=
    hframe (.sym .procCurrent) (fun h => nomatch h) (fun _ _ h => nomatch h) fun h => nomatch h
  have hpush := hcall.stack_push (Nat.le_refl 4)
  have hhigh := hcall.high
  have hqcur : q ≠ s.current := fun heq => by
    have hrun := (inv.context.running q).mpr ⟨heq, L.ne_zero q hq⟩
    rw [hnew] at hrun
    cases hrun
  obtain ⟨status, hstatus⟩ : ∃ status, Function.update s.proc.status q
    (.fresh (s.cpu.mem (.word (q + procEntryOfs)))) = status := ⟨_, rfl⟩
  have hself : status q = .fresh (s.cpu.mem (.word (q + procEntryOfs))) := by
    rw [← hstatus, Function.update_self]
  have hother {p : U32} (hp : p ≠ q) : status p = s.proc.status p := by
    rw [← hstatus, Function.update_of_ne hp]
  have hword {p a : U32} (hp : p ≠ q) (ho : L.Owner p) (ha : L.Stack p a)
      (hne : a ≠ s.cpu.esp - 4) :
      (s.cpu.run (procInitCode t.toProcText)).mem (.word a) = s.cpu.mem (.word a) := by
    refine hframe _ (L.ne_field hq ho ha mem_ofs.1) (fun b hb h => ?_) fun h => hne (Loc.word.inj h)
    exact L.not_stack_of_ne ho (.inr hq) hp ha (Loc.word.inj h ▸ hb)
  rw [hstatus] at hcontext ⊢
  refine ⟨hcontext, fun p hp => ?_, ?_, fun p call hcall => ?_, fun p hzero hidle hp => ?_⟩
  · change FramesKept L (s.cpu.run (procInitCode t.toProcText)).mem p (s.frames p)
    by_cases hpcur : p = s.current
    · subst hpcur
      refine (inv.kept s.current (.inl rfl)).congr fun f hf a ha hprot => ?_
      have hbase := hpending f hf
      have hlo := hprot.1
      have hlt := s.cpu.esp.isLt
      refine hword (Ne.symm hqcur) inv.context.current ha fun heq => ?_
      have hlow := hcall.low
      have hfour : (s.cpu.esp - 4).toNat + 4 = s.cpu.esp.toNat := by bv_omega
      rw [heq] at hlo
      omega
    · have hwait : (status p).Waiting := hp.resolve_left fun heq => hpcur (heq.trans hcur)
      by_cases hpq : p = q
      · have hnil := inv.idle q (L.ne_zero q hq) (fun call h => by rw [hnew] at h; cases h) hqcur
        rw [hpq, hnil]
        exact .nil
      · rw [hother hpq] at hwait
        have hproc := inv.context.isProc p hwait
        refine (inv.kept p (.inr hwait)).congr fun f _ a ha _ => ?_
        refine hword hpq (.inr hproc) ha fun heq => ?_
        exact L.not_stack_of_ne (.inr hproc) inv.context.current hpcur ha (heq ▸ hpush)
  · change ∀ f ∈ s.frames (ProcCpu.procCurrent (s.cpu.run (procInitCode t.toProcText))),
      (s.cpu.run (procInitCode t.toProcText)).esp.toNat ≤ f.base.toNat
    intro f hf
    rw [hcur] at hf
    have hbase := hpending f hf
    have hlt := f.base.isLt
    rw [run_procInit_esp]
    bv_omega
  · have hcall : status p = .suspended call := hcall
    have hpq : p ≠ q := fun heq => by
      rw [heq, hself] at hcall
      cases hcall
    rw [hother hpq] at hcall
    exact inv.suspended p call hcall
  · have hp : p ≠ s.current := fun heq => hp (heq.trans hcur.symm)
    by_cases hpq : p = q
    · refine inv.idle p hzero (fun call h => ?_) hp
      rw [hpq, hnew] at h
      cases h
    · refine inv.idle p hzero (fun call h => hidle call ?_) hp
      change status p = .suspended call
      rw [hother hpq]
      exact h

theorem TrapInv.switch (inv : TrapInv t L s) {q : U32} (hwait : (s.proc.parked q).Waiting)
    (hcall : AtCall L s.cpu t.procSwitch q 20)
    (hpending : ∀ f ∈ s.pending, s.cpu.esp.toNat + 8 ≤ f.base.toNat) :
    TrapInv t L { s with proc := ⟨s.cpu.run procSwitchCode,
      Function.update s.proc.parked q .running⟩ } := by
  have hq := inv.context.isProc_parked hwait
  have hpops : Pops (s.cpu.switchedMem q) (s.cpu.switchedMem q (.word (q + procSpOfs)))
      (s.cpu.run procSwitchCode) := inv.context.pops hcall
  have hcontext := inv.context.switch hwait hcall
  have hkeeps := inv.context.keeps_switched hq hcall q
  have hhigh := hcall.high
  have hlow := hcall.low
  have hcur : ProcCpu.procCurrent (s.cpu.run procSwitchCode) = q := by
    rw [ProcCpu.procCurrent, hpops.mem]
    exact Function.update_self _ _ _
  have hparked {p : U32} (hp : (s.proc.parked p).Waiting) :
      p = s.current ∨ (s.proc.status p).Waiting := by
    rw [ProcSystem.parked] at hp
    split at hp
    next h => exact .inl h.1
    next => exact .inr hp
  have hself {p : U32} (hp : p = s.current) (hzero : p ≠ 0) :
      s.proc.parked p = .suspended s.cpu := if_pos ⟨hp, hzero⟩
  have hother {p : U32} (hp : p ≠ s.current) : s.proc.parked p = s.proc.status p :=
    if_neg fun h => hp h.1
  -- What the waiting processes and the one that is parked have pending stays as it is.
  have hkept {p : U32} (hp : p = s.current ∨ (s.proc.status p).Waiting) :
      FramesKept L (s.cpu.run procSwitchCode).mem p (s.frames p) := by
    have howner : L.Owner p := hp.elim (fun h => h ▸ inv.context.current)
      fun h => .inr (inv.context.isProc p h)
    refine (inv.kept p hp).congr fun f hf a ha hprot => ?_
    rw [hpops.mem, switchedMem_stack inv.context.current hq howner ha]
    by_cases hpcur : p = s.current
    · subst hpcur
      have hbase := hpending f hf
      have hlo := hprot.1
      exact @saved_word s.cpu a (by omega) (.inr (by omega))
    · exact saved_outside hlow hhigh (L.not_stack_of_ne howner inv.context.current hpcur ha)
  have hcalled {p : U32} {call : ProcCpu} (hp : s.proc.parked p = .suspended call)
      (hzero : p ≠ 0) : ∀ f ∈ s.frames p, call.esp.toNat + 8 ≤ f.base.toNat := by
    by_cases hpcur : p = s.current
    · rw [hself hpcur hzero] at hp
      obtain rfl := ProcStatus.suspended.inj hp
      exact hpcur ▸ hpending
    · rw [hother hpcur] at hp
      exact inv.suspended p call hp
  have hstatus {p : U32} (hp : p ≠ q) :
      Function.update s.proc.parked q .running p = s.proc.parked p := Function.update_of_ne hp _ _
  refine ⟨hcontext, fun p hp => ?_, ?_, fun p call hp => ?_, fun p hzero hidle hp => ?_⟩
  · by_cases hpq : p = q
    · exact hkept (hpq ▸ hparked hwait)
    · have hp := hp.resolve_left fun heq => hpq (heq.trans hcur)
      exact hkept (hparked (hstatus hpq ▸ hp))
  · change ∀ f ∈ s.frames (ProcCpu.procCurrent (s.cpu.run procSwitchCode)),
      (s.cpu.run procSwitchCode).esp.toNat ≤ f.base.toNat
    rw [hcur]
    cases hq' : s.proc.parked q with
    | unprepared => rw [hq'] at hwait; exact hwait.elim
    | running => rw [hq'] at hwait; exact hwait.elim
    | fresh entry =>
        have hqcur : q ≠ s.current := fun heq => by
          rw [hself heq (L.ne_zero q hq)] at hq'
          cases hq'
        rw [inv.idle q (L.ne_zero q hq) (fun call h => by rw [← hother hqcur, hq'] at h; cases h)
          hqcur]
        exact List.forall_mem_nil _
    | suspended call =>
        rw [hq'] at hkeeps
        intro f hf
        have hbase := hcalled hq' (L.ne_zero q hq) f hf
        have hlt := f.base.isLt
        rw [(SuspendedStack.restored hkeeps hpops).esp]
        bv_omega
  · have hp : Function.update s.proc.parked q .running p = .suspended call := hp
    have hpq : p ≠ q := fun heq => by
      rw [heq, Function.update_self] at hp
      cases hp
    rw [hstatus hpq] at hp
    by_cases hzero : p = 0
    · have hwaits : (s.proc.parked p).Waiting := by
        rw [hp]
        trivial
      exact absurd hzero (L.ne_zero p (inv.context.isProc_parked hwaits))
    · exact hcalled hp hzero
  · have hpq : p ≠ q := fun heq => hp (heq.trans hcur.symm)
    have hpcur : p ≠ s.current := fun heq =>
      hidle s.cpu ((hstatus hpq).trans (hself heq hzero))
    refine inv.idle p hzero (fun call h => hidle call ?_) hpcur
    exact (hstatus hpq).trans ((hother hpcur).trans h)

theorem TrapInv.start (h : TrapStart L s) : TrapInv t L s := by
  have hnil (p : U32) : s.frames p = [] := h.frames p
  have hpending : s.pending = [] := hnil _
  refine ⟨.start h.context, fun p _ => hnil p ▸ .nil, fun f hf => ?_, fun p _ _ f hf => ?_,
    fun p _ _ _ => hnil p⟩
  · rw [hpending] at hf
    cases hf
  · rw [hnil] at hf
    cases hf

theorem spares_of_mem {m : ProcCpu} {f : TrapFrame} (hmem : m.mem = s.cpu.mem)
    (hesp : m.esp.toNat ≤ f.base.toNat) : Spares L s m f :=
  ⟨fun _ _ _ => congrFun hmem _, hesp⟩

/-- So can a handler, from below its frame. -/
theorem TrapInv.can_switch (inv : TrapInv t L s) (q sp : U32)
    (hwait : (s.proc.status q).Waiting) (hlow : (L.lo s.current).toNat + 20 ≤ sp.toNat)
    (hhigh : sp.toNat + 8 ≤ (L.hi s.current).toNat)
    (hbelow : ∀ f ∈ s.pending, sp.toNat + 8 ≤ f.base.toNat) :
    ∃ u v, TrapStep t L s (.context .body) u ∧ TrapStep t L u (.context (.switch q)) v ∧
      u.proc = s.proc.calling t.procSwitch q sp ∧ u.frames = s.frames ∧ v.current = q ∧
      v.proc.status = Function.update u.proc.parked q .running ∧ v.frames = s.frames := by
  obtain ⟨hcalls, v, hswitch, hv, hstatus⟩ := inv.context.can_switch q sp hwait hlow hhigh
  have hspares : ∀ f ∈ s.pending, Spares L s (s.cpu.calls t.procSwitch q sp) f := by
    intro f hf
    have hbase := hbelow f hf
    refine ⟨fun a _ hprot => ProcCpu.calls_word _ _ _ _ fun heq => ?_, ?_⟩
    · have hlo := hprot.1
      have hlt := f.base.isLt
      rw [heq] at hlo
      bv_omega
    · rw [ProcCpu.calls_esp]
      omega
  have hcurrent : (s.withCpu (s.cpu.calls t.procSwitch q sp)).pending = s.pending :=
    congrArg s.frames hcalls.current
  have hcall : TrapStep t L (s.withCpu (s.cpu.calls t.procSwitch q sp)) (.context (.switch q))
      { s.withCpu (s.cpu.calls t.procSwitch q sp) with proc := v } := by
    refine .call (fun h => by cases h) hswitch fun f hf => ?_
    rw [hcurrent] at hf
    change (s.cpu.calls t.procSwitch q sp).esp.toNat + 8 ≤ _
    rw [ProcCpu.calls_esp]
    exact hbelow f hf
  exact ⟨_, _, .body hcalls hspares, hcall, rfl, rfl, hv, hstatus, rfl⟩

/-- A system without pending traps. -/
def TrapSystem.untrapped (p : ProcSystem) : TrapSystem := ⟨p, fun _ => []⟩

/-- Without traps the processes run as they do in `Context`. -/
theorem ContextStep.untrapped {p p' : ProcSystem} {e : ContextEvent}
    (h : ContextStep t.toProcText L p e p') :
    TrapStep t L (.untrapped p) (.context e) (.untrapped p') := by
  have hnone {f : TrapFrame} (hf : f ∈ (TrapSystem.untrapped p).pending) : False :=
    List.not_mem_nil hf
  cases h with
  | body h => exact .body h fun f hf => (hnone hf).elim
  | init hq hnew hcall htop =>
      exact .call (fun h => by cases h) (.init hq hnew hcall htop) fun f hf => (hnone hf).elim
  | switch hwait hcall =>
      exact .call (fun h => by cases h) (.switch hwait hcall) fun f hf => (hnone hf).elim

theorem TrapInv.step {e : TrapEvent} (inv : TrapInv t L s) (h : TrapStep t L s e s') :
    TrapInv t L s' := by
  cases h with
  | body h hspares => exact inv.body h hspares
  | call hne hstep hpending =>
      cases hstep with
      | body _ => exact absurd rfl hne
      | init hq hnew hcall htop => exact inv.init hq hnew hcall htop hpending
      | switch hwait hcall => exact inv.switch hwait hcall hpending
  | trap hcan => exact inv.trap hcan
  | iret hpending hret => exact inv.iret hpending hret

theorem TrapInv.run {s₀ : TrapSystem} {tr : List (TrapSystem × TrapEvent)} (start : TrapStart L s₀)
    (run : Run (TrapStep t L) s₀ tr s) : TrapInv t L s :=
  run.invariant (.start start) fun _ _ _ inv h => inv.step h

/-- Every pending trap was taken by the process on whose stack it is, which had then the ones
outside it pending. -/
theorem trap_history {s₀ : TrapSystem} {tr : List (TrapSystem × TrapEvent)}
    (start : TrapStart L s₀) (run : Run (TrapStep t L) s₀ tr s) (p : U32) {f : TrapFrame}
    (inner : List TrapFrame) {outer : List TrapFrame} (hframes : s.frames p = inner ++ f :: outer) :
    ∃ x ∈ tr, x.2 = .trap f.trap ∧ x.1.current = p ∧ x.1.cpu = f.cpu ∧ x.1.pending = outer := by
  induction run generalizing f inner outer with
  | nil =>
      rw [start.frames p] at hframes
      exact absurd (congrArg List.length hframes) (by simp)
  | @snoc tr u v e _ hstep ih =>
      have hold (inner' : List TrapFrame) (h : u.frames p = inner' ++ f :: outer) :
          ∃ x ∈ tr ++ [(u, e)], x.2 = .trap f.trap ∧ x.1.current = p ∧ x.1.cpu = f.cpu ∧
            x.1.pending = outer := by
        obtain ⟨x, hx, hrest⟩ := ih inner' h
        exact ⟨x, List.mem_append_left _ hx, hrest⟩
      cases hstep with
      | body _ _ => exact hold inner hframes
      | call _ _ _ => exact hold inner hframes
      | @trap k hcan =>
          by_cases hp : p = u.current
          · have hframes : ⟨k, u.cpu⟩ :: u.pending = inner ++ f :: outer := by
              rw [← hframes, hp]
              exact (@Function.update_self U32 _ _ u.current (⟨k, u.cpu⟩ :: u.pending)
                u.frames).symm
            cases inner with
            | nil =>
                obtain ⟨rfl, rfl⟩ := List.cons.inj hframes
                exact ⟨_, List.mem_append_right _ List.mem_cons_self, rfl, hp.symm, rfl, rfl⟩
            | cons g inner => exact hold inner (hp ▸ (List.cons.inj hframes).2)
          · exact hold inner ((@Function.update_of_ne U32 _ _ _ _ hp _ u.frames).symm.trans hframes)
      | @iret g rest hpending hret =>
          by_cases hp : p = u.current
          · have hframes : rest = inner ++ f :: outer := by
              rw [← hframes, hp]
              exact (@Function.update_self U32 _ _ u.current rest u.frames).symm
            refine hold (g :: inner) ?_
            rw [hp]
            exact hpending.trans (congrArg (g :: ·) hframes)
          · exact hold inner ((@Function.update_of_ne U32 _ _ _ _ hp _ u.frames).symm.trans hframes)

/-- A trap and its return are to the context switches what a process does on its own. -/
theorem TrapInv.contextStep {e : TrapEvent} (inv : TrapInv t L s) (h : TrapStep t L s e s') :
    ∃ e', ContextStep t.toProcText L s.proc e' s'.proc := by
  cases h with
  | body h _ => exact ⟨_, .body h⟩
  | call _ hstep _ => exact ⟨_, hstep⟩
  | trap hcan => exact ⟨_, .body (inv.undisturbed_enter hcan)⟩
  | iret hpending hret => exact ⟨_, .body (undisturbed_of_mem (inv.resumed hpending hret).2.2)⟩

end Steps

/-- Whatever has run in between, nested traps, other processes and further traps of theirs: the
`iretd` of a trap goes back to the machine that took it, with all registers and flags as they
were, but for the result of a system call. What an interrupt found on the stack is untouched,
and the traps outside it are the ones that were pending then. -/
theorem traps_resume {t : TrapText} {L : StackLayout} {s₀ s s' : TrapSystem}
    {tr : List (TrapSystem × TrapEvent)} (start : TrapStart L s₀)
    (run : Run (TrapStep t L) s₀ tr s) (h : TrapStep t L s .iret s') :
    ∃ x ∈ tr, ∃ k, x.2 = .trap k ∧ x.1.current = s.current ∧ Resumed k x.1.cpu s'.cpu ∧
      s'.pending = x.1.pending ∧ (k = .sys → s'.cpu.reg .eax = s.cpu.reg .eax) ∧
      (k ≠ .sys → ∀ a, L.Stack s.current a → x.1.cpu.esp.toNat ≤ a.toNat →
        s'.cpu.mem (.word a) = x.1.cpu.mem (.word a)) := by
  have inv := TrapInv.run start run
  cases h with
  | @iret f rest hpending hret =>
      obtain ⟨x, hx, htrap, hcur, hcpu, hrest⟩ :=
        trap_history start run s.current [] hpending
      obtain ⟨hresumed, heax, hmem⟩ := inv.resumed hpending hret
      have hf : f ∈ s.frames s.current := by
        change f ∈ s.pending
        rw [hpending]
        exact List.mem_cons_self
      have hsame : ProcCpu.procCurrent (s.cpu.runTrap f.trap.restCode) = s.current :=
        congrFun hmem _
      refine ⟨x, hx, f.trap, htrap, hcur, hcpu ▸ hresumed, ?_, heax, fun hirq a ha hge => ?_⟩
      · rw [hrest]
        change Function.update s.frames s.current rest
          (ProcCpu.procCurrent (s.cpu.runTrap f.trap.restCode)) = rest
        rw [hsame, Function.update_self]
      · rw [hcpu] at hge ⊢
        exact (congrFun hmem _).trans ((inv.kept s.current (.inl rfl)).above f hf hirq a ha hge)

/-- Under traps the switches are those of a system without: every run is one of that system,
and each switch starts its process or returns from that process' own call. -/
theorem traps_refine_context {t : TrapText} {L : StackLayout} {s₀ s s' : TrapSystem}
    {tr : List (TrapSystem × TrapEvent)} {proc : U32} (start : TrapStart L s₀)
    (run : Run (TrapStep t L) s₀ tr s) :
    (∃ tr', Run (ContextStep t.toProcText L) s₀.proc tr' s.proc) ∧
      (TrapStep t L s (.context (.switch proc)) s' →
        (∀ entry, s.proc.parked proc = .fresh entry →
          FirstTurn t.toProcText L proc entry s'.cpu ∧ s'.pending = []) ∧
        ∀ call, s.proc.parked proc = .suspended call → Restored L proc call s'.cpu) := by
  constructor
  · induction run with
    | nil => exact ⟨[], .nil⟩
    | @snoc tr u v e run hstep ih =>
        obtain ⟨tr', hrun⟩ := ih
        obtain ⟨e', hstep'⟩ := (TrapInv.run start run).contextStep hstep
        exact ⟨_, hrun.snoc hstep'⟩
  · intro h
    have inv := TrapInv.run start run
    cases h with
    | call _ hstep _ =>
        cases hstep with
        | switch hwait hcall =>
            have hq := inv.context.isProc_parked hwait
            have hkeeps := inv.context.keeps_switched hq hcall proc
            have hpops := inv.context.pops hcall
            have hzero := L.ne_zero proc hq
            refine ⟨fun entry hentry => ⟨?_, ?_⟩, fun call hsuspended => ?_⟩
            · rw [hentry] at hkeeps
              exact hkeeps.firstTurn hq hpops
            · have hcur : ProcCpu.procCurrent (s.proc.cpu.run procSwitchCode) = proc := by
                rw [ProcCpu.procCurrent, hpops.mem]
                exact Function.update_self _ _ _
              have hne : proc ≠ s.current := fun heq => by
                rw [show s.proc.parked proc = .suspended s.cpu from if_pos ⟨heq, hzero⟩] at hentry
                cases hentry
              have hstatus : s.proc.status proc = .fresh entry :=
                (if_neg fun h => hne h.1).symm.trans hentry
              change s.frames (ProcCpu.procCurrent (s.proc.cpu.run procSwitchCode)) = []
              rw [hcur]
              refine inv.idle proc hzero (fun call h => ?_) hne
              rw [hstatus] at h
              cases h
            · rw [hsuspended] at hkeeps
              exact SuspendedStack.restored hkeeps hpops

def trapText : TrapText where
  toProcText := sampleText
  isr n := 0x102000 + n.setWidth 32
  interruptHandler := 0x103000
  isrRest := 0x102800
  isrSys := 0x102900
  sysHandler := 0x104000
  sysRest := 0x102910

def bootTraps : TrapSystem := .untrapped bootSystem

theorem bootTraps_start : TrapStart twoBlocks bootTraps := ⟨bootSystem_start, fun _ => rfl⟩

/-- A run in which the timer has interrupted 0x10000 in the machine `m`, and nothing else. -/
structure TimerRun (tr : List (TrapSystem × TrapEvent)) (s : TrapSystem) (m : ProcCpu) : Prop where
  run : Run (TrapStep trapText twoBlocks) bootTraps tr s
  frames : s.frames = Function.update (fun _ => []) 0x10000 [⟨.irq 32, m⟩]
  esp : m.esp = 0x10F00
  traps : ∀ x ∈ tr, ∀ k, x.2 = .trap k → k = .irq 32 ∧ x.1.cpu = m

theorem TimerRun.snoc {tr : List (TrapSystem × TrapEvent)} {s s' : TrapSystem} {m : ProcCpu}
    {e : ContextEvent} (h : TimerRun tr s m)
    (hstep : TrapStep trapText twoBlocks s (.context e) s') (hframes : s'.frames = s.frames) :
    TimerRun (tr ++ [(s, .context e)]) s' m := by
  refine ⟨h.run.snoc hstep, hframes.trans h.frames, h.esp, fun x hx k hk => ?_⟩
  obtain hx | hx := List.mem_append.mp hx
  · exact h.traps x hx k hk
  · rw [List.mem_singleton.mp hx] at hk
    cases hk

theorem TimerRun.pending {tr : List (TrapSystem × TrapEvent)} {s : TrapSystem} {m : ProcCpu}
    (h : TimerRun tr s m) (hcurrent : s.current = 0x10000) : s.pending = [⟨.irq 32, m⟩] := by
  change s.frames s.current = _
  rw [hcurrent, h.frames, Function.update_self]

theorem TimerRun.base {tr : List (TrapSystem × TrapEvent)} {s : TrapSystem} {m : ProcCpu}
    (h : TimerRun tr s m) : (TrapFrame.base ⟨.irq 32, m⟩).toNat + 44 = 0x10F00 := by
  have hesp : m.esp.toNat = 0x10F00 := congrArg BitVec.toNat h.esp
  exact (TrapFrame.toNat_base (f := ⟨.irq 32, m⟩) (show 67 ≤ m.esp.toNat by omega)).trans hesp

/-- The first process takes its first turn, switches interrupts on, and is interrupted. -/
theorem timer_taken : ∃ tr s m, TimerRun tr s m ∧ s.current = 0x10000 ∧
    s.cpu = m.enter trapText (.irq 32) ∧ s.proc.status 0x20000 = .fresh 0x654321 := by
  obtain ⟨tr₀, hrun₀⟩ := bothPrepared_run
  have hrun₀ : Run (TrapStep trapText twoBlocks) bootTraps
      (tr₀.map fun x => (.untrapped x.1, .context x.2)) (.untrapped bothPrepared) :=
    hrun₀.map fun _ _ _ h => ContextStep.untrapped (t := trapText) h
  have hcurrent₀ : (TrapSystem.untrapped bothPrepared).current = 0 := by decide
  obtain ⟨u, v, hbody, hswitch, hu, -, hv, hstatus, hframes⟩ :=
    (TrapInv.run bootTraps_start hrun₀).can_switch 0x10000 0x8F80 trivial
      (by rw [hcurrent₀]; decide) (by rw [hcurrent₀]; decide) (List.forall_mem_nil _)
  have hrun₁ := (hrun₀.snoc hbody).snoc hswitch
  have hfresh : v.proc.status 0x20000 = .fresh 0x654321 := by
    rw [hstatus, Function.update_of_ne (by decide), ProcSystem.parked_of_ne, hu]
    · rfl
    · rw [hu, ProcSystem.calling_current]
      exact fun h => absurd (h.trans hcurrent₀) (by decide)
  obtain ⟨m, hm⟩ : ∃ m : ProcCpu, m = { v.cpu.setReg .esp 0x10F00 with eflags := .load 0x202 } :=
    ⟨_, rfl⟩
  have hmem : m.mem = v.cpu.mem := hm ▸ rfl
  have hesp : m.esp = 0x10F00 := hm ▸ v.cpu.setReg_self .esp 0x10F00
  have hcurrent : (v.withCpu m).current = 0x10000 := (congrFun hmem _).trans hv
  have hpending : v.pending = [] := congrFun hframes _
  have hidle : TrapStep trapText twoBlocks v (.context .body) (v.withCpu m) :=
    .body (undisturbed_of_mem hmem) fun f hf => by
      rw [hpending] at hf
      cases hf
  have hon : m.eflags.interruptsOn = true := by
    rw [hm]
    exact (by decide : (Eflags.load 0x202).interruptsOn = true)
  have hcan : CanTrap twoBlocks (v.withCpu m) (.irq 32) := by
    refine ⟨fun _ => hon, ?_, ?_⟩ <;>
    · rw [hcurrent, show (v.withCpu m).cpu.esp = 0x10F00 from hesp]
      decide
  have hentered := @entered trapText m (.irq 32) (by rw [hesp]; decide)
  refine ⟨_, _, m, ⟨(hrun₁.snoc hidle).snoc (.trap hcan), ?_, hesp, fun x hx k hk => ?_⟩,
    (hentered.sym .procCurrent).trans hcurrent, rfl, hfresh⟩
  · change Function.update v.frames (v.withCpu m).current
      (⟨.irq 32, m⟩ :: (v.withCpu m).pending) = _
    rw [show (v.withCpu m).pending = v.frames (v.withCpu m).current from rfl, hcurrent, hframes]
    rfl
  · simp only [List.append_assoc, List.mem_append, List.mem_map, List.mem_cons, List.not_mem_nil,
      or_false, List.cons_append, List.nil_append] at hx
    obtain ⟨y, -, rfl⟩ | rfl | rfl | rfl | rfl := hx
    · cases hk
    · cases hk
    · cases hk
    · cases hk
    · exact ⟨(TrapEvent.trap.inj hk).symm, rfl⟩

/-- Its handler switches to the second process. -/
theorem timer_away : ∃ tr u v m, TimerRun tr u m ∧
    TrapStep trapText twoBlocks u (.context (.switch 0x20000)) v ∧ u.current = 0x10000 ∧
    u.proc.parked 0x20000 = .fresh 0x654321 ∧ v.frames = u.frames ∧ v.current = 0x20000 ∧
    v.proc.status 0x10000 = .suspended u.cpu := by
  obtain ⟨tr, s, m, h, hcurrent, hcpu, hfresh⟩ := timer_taken
  obtain ⟨u, v, hbody, hswitch, hu, huframes, hv, hstatus, hframes⟩ :=
    (TrapInv.run bootTraps_start h.run).can_switch 0x20000 0x10E00
      (hfresh ▸ trivial) (by rw [hcurrent]; decide) (by rw [hcurrent]; decide) fun f hf => by
        have hsp : (0x10E00 : U32).toNat = 0x10E00 := rfl
        have hbase := h.base
        rw [h.pending hcurrent] at hf
        obtain rfl := List.mem_singleton.mp hf
        omega
  have hucurrent : u.current = 0x10000 := by
    rw [← hcurrent]
    exact (congrArg ProcSystem.current hu).trans (s.proc.calling_current _ _ _)
  refine ⟨_, u, v, m, h.snoc hbody huframes, hswitch, hucurrent, ?_, hframes.trans huframes.symm, hv,
    ?_⟩
  · have hne : (0x20000 : U32) ≠ u.current := by
      rw [hucurrent]
      decide
    rw [ProcSystem.parked_of_ne _ hne, hu]
    exact hfresh
  · rw [hstatus, Function.update_of_ne (by decide)]
    exact ProcSystem.parked_current _ hucurrent.symm (by decide)

/-- The second process switches back. -/
theorem timer_back : ∃ tr u v m call, TimerRun tr u m ∧
    TrapStep trapText twoBlocks u (.context (.switch 0x10000)) v ∧
    u.proc.parked 0x10000 = .suspended call ∧ v.frames = u.frames ∧ v.current = 0x10000 ∧
    ∃ x ∈ tr, x.2 = .context (.switch 0x20000) := by
  obtain ⟨tr, away, s, m, h, haway, -, -, hsframes, hcurrent, hsuspended⟩ := timer_away
  have hs := h.snoc haway hsframes
  have hpending : s.pending = [] := by
    change s.frames s.current = []
    rw [hcurrent, hs.frames, Function.update_of_ne (by decide)]
  obtain ⟨u, v, hbody, hswitch, hu, huframes, hv, -, hframes⟩ :=
    (TrapInv.run bootTraps_start hs.run).can_switch 0x10000 0x20F00
      (hsuspended ▸ trivial) (by rw [hcurrent]; decide) (by rw [hcurrent]; decide) fun f hf => by
        rw [hpending] at hf
        cases hf
  have hucurrent : u.current = 0x20000 := by
    rw [← hcurrent]
    exact (congrArg ProcSystem.current hu).trans (s.proc.calling_current _ _ _)
  refine ⟨_, u, v, m, away.cpu, hs.snoc hbody huframes, hswitch, ?_, hframes.trans huframes.symm,
    hv, _, List.mem_append_left _ (List.mem_append_right _ List.mem_cons_self), rfl⟩
  have hne : (0x10000 : U32) ≠ u.current := by
    rw [hucurrent]
    decide
  rw [ProcSystem.parked_of_ne _ hne, hu]
  exact hsuspended

/-- The handler, back from its call of `proc_switch`, returns. -/
theorem timer_done : ∃ tr s s' m, TimerRun tr s m ∧ TrapStep trapText twoBlocks s .iret s' ∧
    s.current = 0x10000 ∧ ∃ x ∈ tr, x.2 = .context (.switch 0x20000) := by
  obtain ⟨tr, back, s, m, _, h, hback, -, hsframes, hcurrent, x, hx, haway⟩ := timer_back
  have hs := h.snoc hback hsframes
  have hpending := hs.pending hcurrent
  have hentered := @entered trapText m (.irq 32) (by rw [hs.esp]; decide)
  obtain ⟨e, he⟩ : ∃ e, e = m.enter trapText (.irq 32) := ⟨_, rfl⟩
  rw [← he] at hentered
  obtain ⟨framed, hframed⟩ : ∃ framed, framed = s.cpu.setReg .ebp (e.reg .ebp) := ⟨_, rfl⟩
  obtain ⟨n, hn⟩ : ∃ n : ProcCpu, n = { framed.setReg .esp (e.esp + 4) with eip := e.stack 0 } :=
    ⟨_, rfl⟩
  have hmem : n.mem = s.cpu.mem := by rw [hn, hframed]; rfl
  have hesp : n.esp = e.esp + 4 := by rw [hn]; exact framed.setReg_self .esp (e.esp + 4)
  have hebp : n.reg .ebp = e.reg .ebp := by
    rw [hn]
    refine (framed.setReg_of_ne (e.esp + 4) (show Reg.ebp ≠ .esp by decide)).trans ?_
    rw [hframed]
    exact s.cpu.setReg_self .ebp (e.reg .ebp)
  have hreturned : Returned (m.enter trapText (.irq 32)) n := by
    rw [← he]
    exact ⟨by rw [hn], hesp, hebp⟩
  have hbody : TrapStep trapText twoBlocks s (.context .body) (s.withCpu n) := by
    refine .body (undisturbed_of_mem hmem) fun f hf => spares_of_mem hmem ?_
    rw [hpending] at hf
    obtain rfl := List.mem_singleton.mp hf
    have hhigh := hentered.high
    rw [hesp]
    change (e.esp + 4).toNat ≤ ((Trap.irq 32).base m).toNat
    bv_omega
  have hncurrent : (s.withCpu n).current = 0x10000 := (congrFun hmem _).trans hcurrent
  exact ⟨_, _, _, m, hs.snoc hbody rfl,
    .iret ((congrArg s.frames (hncurrent.trans hcurrent.symm)).trans hpending) hreturned,
    hncurrent, x,
    List.mem_append_left _ (List.mem_append_left _ hx), haway⟩

/-- The timer interrupts the first process, whose handler lets the second one run; when it is
back, the first process goes on where it was. -/
theorem traps_resume_timer : ∃ tr s s', Run (TrapStep trapText twoBlocks) bootTraps tr s ∧
    TrapStep trapText twoBlocks s .iret s' ∧ (∃ x ∈ tr, x.2 = .context (.switch 0x20000)) ∧
    ∃ x ∈ tr, x.2 = .trap (.irq 32) ∧ x.1.cpu.esp = 0x10F00 ∧ Resumed (.irq 32) x.1.cpu s'.cpu ∧
      ∀ a, twoBlocks.Stack 0x10000 a → 0x10F00 ≤ a.toNat →
        s'.cpu.mem (.word a) = x.1.cpu.mem (.word a) := by
  obtain ⟨tr, s, s', m, h, hiret, hcurrent, haway⟩ := timer_done
  obtain ⟨x, hx, k, hk, -, hresumed, -, -, hstack⟩ := traps_resume bootTraps_start h.run hiret
  obtain ⟨rfl, hcpu⟩ := h.traps x hx k hk
  have hesp : x.1.cpu.esp = 0x10F00 := hcpu ▸ h.esp
  refine ⟨tr, s, s', h.run, hiret, haway, x, hx, hk, hesp, hresumed, fun a ha hge => ?_⟩
  exact hstack (by decide) a (hcurrent ▸ ha) (by rw [hesp]; exact hge)

/-- Under the interrupt the second process takes its first turn, without a pending trap, and
the first one gets back from the call of its handler. -/
theorem traps_refine_context_timer :
    (∃ tr u v, Run (TrapStep trapText twoBlocks) bootTraps tr u ∧
      TrapStep trapText twoBlocks u (.context (.switch 0x20000)) v ∧ u.pending ≠ [] ∧
      FirstTurn sampleText twoBlocks 0x20000 0x654321 v.cpu ∧ v.pending = []) ∧
    ∃ tr u v call, Run (TrapStep trapText twoBlocks) bootTraps tr u ∧
      TrapStep trapText twoBlocks u (.context (.switch 0x10000)) v ∧ u.frames 0x10000 ≠ [] ∧
      Restored twoBlocks 0x10000 call v.cpu ∧
      ∃ tr', Run (ContextStep sampleText twoBlocks) bootSystem tr' u.proc := by
  constructor
  · obtain ⟨tr, u, v, m, h, hswitch, hcurrent, hfresh, -, -, -⟩ := timer_away
    have hpending := h.pending hcurrent
    obtain ⟨hturn, hnone⟩ :=
      ((traps_refine_context bootTraps_start h.run).2 hswitch).1 _ hfresh
    exact ⟨tr, u, v, h.run, hswitch, hpending ▸ List.cons_ne_nil _ _, hturn, hnone⟩
  · obtain ⟨tr, u, v, m, call, h, hswitch, hsuspended, -, -, -⟩ := timer_back
    have hframes : u.frames 0x10000 = [⟨.irq 32, m⟩] := by
      rw [h.frames, Function.update_self]
    obtain ⟨hcontext, hturns⟩ := @traps_refine_context _ _ _ _ v _ 0x10000 bootTraps_start h.run
    exact ⟨tr, u, v, call, h.run, hswitch, hframes ▸ List.cons_ne_nil _ _,
      (hturns hswitch).2 _ hsuspended, hcontext⟩

end DordOs
