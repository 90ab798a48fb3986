import DordOs.Kernel.Interrupts
import DordOs.Lib.Run
import Mathlib.Tactic.IntervalCases

/-!
The legacy interrupt controllers under the kernel. Devices raise their lines at any moment;
the processor acknowledges an interrupt when interrupts are on and runs `interrupt_handler`,
which sends the end of interrupt itself. Behind that `proc_schedule` may leave the handler of
the timer for another process, and a new process turns interrupts on.
-/
namespace DordOs
open Lib

def pic1Cmd : U16 := 0x20
def pic1Data : U16 := 0x21
def pic2Cmd : U16 := 0xA0
def pic2Data : U16 := 0xA1

def icw1Icw4 : U8 := 0x01
def icw1Init : U8 := 0x10
def icw4X86 : U8 := 0x01
def picEoiWord : U8 := 0x20

/-- `pic_initialize`. The masks that it reads first are not used. -/
def picInitialize (p : PicPair) : Option PicPair := do
  let p ← p.out pic1Cmd (icw1Init ||| icw1Icw4)
  let p ← p.out pic2Cmd (icw1Init ||| icw1Icw4)
  let p ← p.out pic1Data picIrqOffs
  let p ← p.out pic2Data (picIrqOffs + 8)
  let p ← p.out pic1Data 4
  let p ← p.out pic2Data 2
  let p ← p.out pic1Data icw4X86
  p.out pic2Data icw4X86

def picUnmaskAll (p : PicPair) : Option PicPair := do
  let p ← p.out pic1Data 0
  p.out pic2Data 0

def picEoi (p : PicPair) (irq : U8) : Option PicPair := do
  let p ← if 8 ≤ irq then p.out pic2Cmd picEoiWord else some p
  p.out pic1Cmd picEoiWord

/-- How a process that is not running goes on: with the interrupt flag that `proc_release` gives
it, and with the rest of `interrupt_handler` if it was switched away from in there. -/
structure Parked where
  interrupts : Bool
  handler : Option (List IrqAction)
  deriving DecidableEq

/-- A process before its first turn: `proc_startup` turns interrupts on. -/
def Parked.startup : Parked := ⟨true, none⟩

/-- The controllers, the clock of the timer interrupt, whether interrupts are on, what
`interrupt_handler` still has to do while it runs, `proc_current` and the other processes. -/
structure IrqSystem where
  pics : PicPair
  pitSystimeMsec : U32
  interrupts : Bool
  handler : Option (List IrqAction)
  current : U32
  parked : U32 → Option Parked

/-- What an action of the handler does to them. `proc_schedule` is here the one that comes
back without a switch, with the lock around it. `hang` never ends. -/
def IrqSystem.act (s : IrqSystem) : IrqAction → Option IrqSystem
  | .pitHandleInterrupt => some { s with pitSystimeMsec := s.pitSystimeMsec + 1 }
  | .picEoi irq => (picEoi s.pics irq).map fun p => { s with pics := p }
  | .hang => none
  | _ => some s

/-- `proc_switch` to `p`. The current process, if there is one, will go on as `left` says. -/
def IrqSystem.switchTo (s : IrqSystem) (left : Parked) (p : U32) (next : Parked) : IrqSystem :=
  let parked := if s.current = 0 then s.parked else Function.update s.parked s.current (some left)
  { s with
    interrupts := next.interrupts
    handler := next.handler
    current := p
    parked := Function.update parked p none }

inductive IrqEvent
  | raise (line : Nat)
  | withdraw (line : Nat)
  | cli
  | sti
  | take (vector : U8)
  | act (action : IrqAction)
  | leave
  | create (p : U32)
  | switch (p : U32)
  | exit (p : U32)
  deriving DecidableEq

/-- `switch` is the `proc_switch` of `proc_schedule`, in the handler or in the code of a process,
and `exit` the one in `proc_exit`. -/
inductive IrqStep (t : TrapText) : IrqSystem → IrqEvent → IrqSystem → Prop
  | raise {s : IrqSystem} {i : Nat} (line : PicPair.Line i) :
      IrqStep t s (.raise i) { s with pics := s.pics.raise i }
  | withdraw {s : IrqSystem} {i : Nat} (line : PicPair.Line i) :
      IrqStep t s (.withdraw i) { s with pics := s.pics.withdraw i }
  | cli {s : IrqSystem} (outside : s.handler = none) :
      IrqStep t s .cli { s with interrupts := false }
  | sti {s : IrqSystem} (outside : s.handler = none) :
      IrqStep t s .sti { s with interrupts := true }
  | take {s : IrqSystem} {p : PicPair} {v : U8} {acts : List IrqAction} (on : s.interrupts = true)
      (ack : s.pics.acknowledge = some (p, v))
      (gate : (idtMakeDefault t idtBlank v).gate = some (0x8, t.isr v))
      (handler : interruptHandler v = some acts) :
      IrqStep t s (.take v) { s with pics := p, interrupts := false, handler := some acts }
  | act {s s' : IrqSystem} {a : IrqAction} {rest : List IrqAction}
      (handler : s.handler = some (a :: rest)) (done : s.act a = some s') :
      IrqStep t s (.act a) { s' with handler := some rest }
  | leave {s : IrqSystem} (handler : s.handler = some []) :
      IrqStep t s .leave { s with interrupts := true, handler := none }
  | create {s : IrqSystem} {p : U32} (ne : p ≠ 0) (other : p ≠ s.current)
      (fresh : s.parked p = none) :
      IrqStep t s (.create p)
        { s with parked := Function.update s.parked p (some .startup) }
  | preempt {s : IrqSystem} {rest : List IrqAction} {p : U32} {next : Parked}
      (handler : s.handler = some (.schedule :: rest)) (parked : s.parked p = some next) :
      IrqStep t s (.switch p) (s.switchTo ⟨s.interrupts, some rest⟩ p next)
  | switch {s : IrqSystem} {p : U32} {next : Parked} (outside : s.handler = none)
      (parked : s.parked p = some next) :
      IrqStep t s (.switch p) (s.switchTo ⟨s.interrupts, none⟩ p next)
  | exit {s : IrqSystem} {p : U32} {next : Parked} (outside : s.handler = none)
      (parked : s.parked p = some next) :
      IrqStep t s (.exit p)
        (IrqSystem.switchTo { s with current := 0 } ⟨s.interrupts, none⟩ p next)

theorem bind_of_some {α β : Type} {x : Option α} {a : α} (h : x = some a) {f : α → Option β} :
    (x >>= f) = f a := by
  rw [h]
  rfl

/-- Whatever the controllers were doing, they come up set up, with nothing requested and
nothing in service. -/
theorem picInitialize_nested (p : PicPair) :
    ∃ q, picInitialize p = some q ∧ q.Nested picIrqOffs ∧ q.Idle ∧ ∀ i, ¬ q.Requested i := by
  obtain ⟨p₁, h₁, b₁⟩ := PicPair.restart_master p
  obtain ⟨p₂, h₂, b₂⟩ := b₁.restart_slave
  obtain ⟨p₃, h₃, b₃⟩ := b₂.out_master picIrqOffs
  obtain ⟨p₄, h₄, b₄⟩ := b₃.out_slave (picIrqOffs + 8)
  obtain ⟨p₅, h₅, b₅⟩ := b₄.out_master 4
  obtain ⟨p₆, h₆, b₆⟩ := b₅.out_slave 2
  obtain ⟨p₇, h₇, b₇⟩ := b₆.out_master icw4X86
  obtain ⟨q, h₈, b₈⟩ := b₇.out_slave icw4X86
  have hmode : icw4X86 = 1 := rfl
  have hbase : picIrqOffs &&& 0xF8 = picIrqOffs := rfl
  have hbase' : (picIrqOffs + 8) &&& 0xF8 = picIrqOffs + 8 := rfl
  rw [hmode, Pic.restarted_data, Pic.restarted_data, hbase, hbase'] at b₈
  obtain ⟨⟨request, hmaster, hrequest⟩, hslave⟩ := b₈
  have hnone : q.slave.pending = none := by
    have hzero : (0 : U8) &&& ~~~0 = 0 := BitVec.zero_and
    simp only [hslave, Pic.pending, hzero, firstSet_zero]
  refine ⟨q, ?_, ⟨?_, ?_, fun hpending => ?_⟩, ⟨?_, ?_⟩, fun i hi => ?_⟩
  · rw [picInitialize]
    refine (bind_of_some h₁).trans ((bind_of_some h₂).trans ((bind_of_some h₃).trans ?_))
    refine (bind_of_some h₄).trans ((bind_of_some h₅).trans ((bind_of_some h₆).trans ?_))
    exact (bind_of_some h₇).trans h₈
  · rw [hmaster]
    exact ⟨rfl, rfl, rfl, rfl, rfl, rfl⟩
  · rw [hslave]
    exact ⟨rfl, rfl, rfl, rfl, rfl, rfl⟩
  · rw [hnone] at hpending
    cases hpending
  · rw [hmaster]
  · rw [hslave]
  · by_cases h8 : i < 8
    · have hbit := hi.master h8
      rw [hmaster] at hbit
      have hzero : (0 : U8).getLsbD i = false := BitVec.getLsbD_zero
      cases hzero.symm.trans ((hrequest i h8 hi.1.2).symm.trans hbit)
    · exact hi.slave_ne_zero h8 (by rw [hslave])

theorem picUnmaskAll_nested {p : PicPair} (h : p.Nested picIrqOffs) (idle : p.Idle) :
    ∃ q, picUnmaskAll p = some q ∧ q.Nested picIrqOffs ∧ q.Idle ∧
      ∀ i, q.Requested i ↔ p.Requested i := by
  have hmaster : p.out pic1Data 0 = some p.settle := by
    change some (PicPair.settle { p with master := p.master.data 0 }) = _
    rw [h.master.data_zero]
  have hnested : p.settle.Nested picIrqOffs := PicPair.nested_settle h.master h.slave
  have hslave : p.settle.out pic2Data 0 = some p.settle.settle := by
    change some (PicPair.settle { p.settle with slave := p.settle.slave.data 0 }) = _
    rw [hnested.slave.data_zero]
  refine ⟨p.settle.settle, ?_, PicPair.nested_settle hnested.master hnested.slave,
    idle.congr (by simp) (by simp), fun i => by simp⟩
  rw [picUnmaskAll, hmaster]
  exact hslave

/-- The end of interrupt for the line in service leaves nothing in service. -/
theorem picEoi_spec {p : PicPair} {i : Nat} (h : p.Nested picIrqOffs) (service : p.InService i) :
    ∃ q, picEoi p (BitVec.ofNat 8 i) = some q ∧ q.Nested picIrqOffs ∧ q.Idle ∧
      ∀ j, q.Requested j ↔ p.Requested j := by
  cases service with
  | first line slave master =>
      obtain ⟨q, hout, hnested, hzero, hslave, hrequests⟩ :=
        PicPair.out_master h line (master.imp_right And.right)
      have hlow : ¬ (8 : U8) ≤ BitVec.ofNat 8 i := by bv_omega
      refine ⟨q, ?_, hnested, ⟨hzero, hslave.trans slave⟩, hrequests⟩
      simp only [picEoi, if_neg hlow, Option.bind_eq_bind, Option.bind_some]
      exact hout
  | second line master slave =>
      obtain ⟨p', hout', hnested', hzero', hmaster', hrequests'⟩ :=
        PicPair.out_slave h (k := i - 8) (by omega) (slave.imp_right And.right)
      obtain ⟨q, hout, hnested, hzero, hslave, hrequests⟩ :=
        PicPair.out_master hnested' (k := 2) (by decide) (.inl (hmaster'.trans master))
      have hhigh : (8 : U8) ≤ BitVec.ofNat 8 i := by bv_omega
      refine ⟨q, ?_, hnested, ⟨hzero, hslave.trans hzero'⟩,
        fun j => (hrequests j).trans (hrequests' j)⟩
      have hfirst : p.out pic2Cmd picEoiWord = some p' := hout'
      simp only [picEoi, if_pos hhigh, hfirst, Option.bind_eq_bind, Option.bind_some]
      exact hout

/-- The vector of a line. -/
def picVector (i : Nat) : U8 := picIrqOffs + BitVec.ofNat 8 i

theorem picVector_inj {i j : Nat} (hi : i < 16) (hj : j < 16) (h : picVector i = picVector j) :
    i = j := by
  simp only [picVector, picIrqOffs] at h
  bv_omega

/-- What the handler does for a line before and after the end of interrupt. -/
def irqBefore (i : Nat) : List IrqAction :=
  if i = 0 then [.pitHandleInterrupt] else irqCase (BitVec.ofNat 8 i)

def irqAfter (i : Nat) : List IrqAction := if i = 0 then [.schedule] else []

/-- Not an end of interrupt, not a switch, and not the end of everything. -/
def IrqAction.early : IrqAction → Bool
  | .picEoi _ | .apicEoi _ | .schedule | .hang => false
  | _ => true

theorem interruptHandler_pic {i : Nat} (hi : i < 16) : interruptHandler (picVector i) =
    some (irqBefore i ++ .picEoi (BitVec.ofNat 8 i) :: irqAfter i) := by
  interval_cases i <;> rfl

theorem early_irq {i : Nat} (hi : i < 16) : ∀ a ∈ irqBefore i, a.early = true := by
  rw [← List.all_eq_true]
  interval_cases i <;> rfl

theorem pic_gate (t : TrapText) {i : Nat} (hi : i < 16) :
    (idtMakeDefault t idtBlank (picVector i)).gate = some (0x8, t.isr (picVector i)) := by
  have hne : picVector i ≠ 0xAE := by
    simp only [picVector, picIrqOffs]
    bv_omega
  have hlow : picVector i < 48 := by
    simp only [picVector, picIrqOffs]
    bv_omega
  rw [idt_gate, idtRoutine, if_neg hne, if_pos (.inl hlow)]
  rfl

/-- Where `interrupt_handler` is: not running, before its end of interrupt, or behind it. -/
inductive IrqPhase (s : IrqSystem) : Prop
  | outside (handler : s.handler = none) (idle : s.pics.Idle)
  | before (i : Nat) (pre : List IrqAction) (off : s.interrupts = false)
      (handler : s.handler = some (pre ++ .picEoi (BitVec.ofNat 8 i) :: irqAfter i))
      (early : ∀ a ∈ pre, a.early = true) (service : s.pics.InService i)
  | after (acts : List IrqAction) (off : s.interrupts = false) (handler : s.handler = some acts)
      (rest : acts = [] ∨ acts = [.schedule]) (idle : s.pics.Idle)

/-- Not in the handler, or on the way out of it. -/
structure Parked.Behind (q : Parked) : Prop where
  rest : q.handler = none ∨ q.handler = some []
  off : q.handler = some [] → q.interrupts = false

structure IrqInv (s : IrqSystem) : Prop where
  nested : s.pics.Nested picIrqOffs
  phase : IrqPhase s
  parked : ∀ p q, s.parked p = some q → q.Behind

theorem irqAfter_rest (i : Nat) : irqAfter i = [] ∨ irqAfter i = [.schedule] := by
  rw [irqAfter]
  split
  · exact .inr rfl
  · exact .inl rfl

section Step

variable {t : TrapText} {s s' : IrqSystem} {i : Nat}

/-- What an action of the handler leaves alone. -/
structure IrqSystem.Acted (s s' : IrqSystem) : Prop where
  interrupts : s'.interrupts = s.interrupts
  current : s'.current = s.current
  parked : s'.parked = s.parked

theorem act_acted {a : IrqAction} (h : s.act a = some s') : s.Acted s' := by
  cases a with
  | pitHandleInterrupt | kbHandleInterrupt | mouseHandleInterrupt | schedule =>
      cases h
      exact ⟨rfl, rfl, rfl⟩
  | dbgPuts text | dbgPrintf format n | apicEoi irq =>
      cases h
      exact ⟨rfl, rfl, rfl⟩
  | picEoi irq =>
      obtain ⟨p, -, rfl⟩ := Option.map_eq_some_iff.mp h
      exact ⟨rfl, rfl, rfl⟩
  | hang => cases h

theorem act_early {a : IrqAction} (ha : a.early = true) :
    ∃ s', s.act a = some s' ∧ s'.pics = s.pics ∧
      s'.pitSystimeMsec = s.pitSystimeMsec + BitVec.ofNat 32 ([a].count .pitHandleInterrupt) := by
  cases a with
  | pitHandleInterrupt => exact ⟨_, rfl, rfl, rfl⟩
  | kbHandleInterrupt | mouseHandleInterrupt => exact ⟨_, rfl, rfl, (BitVec.add_zero _).symm⟩
  | dbgPuts text | dbgPrintf format n => exact ⟨_, rfl, rfl, (BitVec.add_zero _).symm⟩
  | picEoi irq | apicEoi irq | schedule | hang => cases ha

/-- Lines going up or down do not disturb the handler. -/
theorem IrqPhase.atLine {f : Pic → Nat → Pic} (h : IrqPhase s) (hf : PicPair.Asks f) (i : Nat) :
    IrqPhase { s with pics := s.pics.atLine f i } := by
  cases h with
  | outside handler idle => exact .outside handler (idle.atLine hf i)
  | before k pre off handler early service =>
      exact .before k pre off handler early (service.atLine hf i)
  | after acts off handler rest idle => exact .after acts off handler rest (idle.atLine hf i)

/-- Interrupts are on only where nothing is in service. -/
theorem IrqInv.idle (inv : IrqInv s) (h : s.handler = none) : s.pics.Idle := by
  cases inv.phase with
  | outside _ idle => exact idle
  | before _ _ _ handler => cases h.symm.trans handler
  | after _ _ handler => cases h.symm.trans handler

/-- `proc_schedule` is called only where nothing is in service, and at the end. -/
theorem IrqInv.schedule (inv : IrqInv s) {rest : List IrqAction}
    (h : s.handler = some (.schedule :: rest)) :
    rest = [] ∧ s.interrupts = false ∧ s.pics.Idle := by
  cases inv.phase with
  | outside handler _ => cases h.symm.trans handler
  | before i pre _ handler early _ =>
      have hacts := Option.some.inj (h.symm.trans handler)
      cases pre with
      | nil => cases hacts
      | cons a pre =>
          obtain ⟨rfl, -⟩ := List.cons.inj hacts
          cases early _ List.mem_cons_self
  | after acts off handler hrest idle =>
      obtain rfl := Option.some.inj (h.symm.trans handler)
      obtain hnil | hone := hrest
      · cases hnil
      · exact ⟨(List.cons.inj hone).2, off, idle⟩

/-- The other process is where the invariant wants it. -/
theorem IrqInv.switchTo {p : U32} {left next : Parked} (inv : IrqInv s) (idle : s.pics.Idle)
    (hleft : left.Behind) (hnext : s.parked p = some next) : IrqInv (s.switchTo left p next) := by
  have behind := inv.parked p next hnext
  refine ⟨inv.nested, ?_, fun p' q hq => ?_⟩
  · obtain hnone | hnil := behind.rest
    · exact .outside hnone idle
    · exact .after [] (behind.off hnil) hnil (.inl rfl) idle
  · simp only [IrqSystem.switchTo, Function.update_apply] at hq
    split at hq
    · cases hq
    · split at hq
      · exact inv.parked p' q hq
      · rw [Function.update_apply] at hq
        split at hq
        · exact Option.some.inj hq ▸ hleft
        · exact inv.parked p' q hq

theorem IrqInv.outside (inv : IrqInv s) (h : s.interrupts = true) : s.handler = none := by
  cases inv.phase with
  | outside handler _ => exact handler
  | before _ _ off => cases h.symm.trans off
  | after _ off => cases h.symm.trans off

/-- Taking an interrupt. -/
structure Taken (t : TrapText) (s : IrqSystem) (i : Nat) (s' : IrqSystem) : Prop where
  serves : s.pics.Serves i
  line : i < 16 ∧ i ≠ 2
  nested : s'.pics.Nested picIrqOffs
  service : s'.pics.InService i
  requests : ∀ j, s'.pics.Requested j ↔ s.pics.Requested j ∧ j ≠ i
  off : s'.interrupts = false
  handler : s'.handler = some (irqBefore i ++ .picEoi (BitVec.ofNat 8 i) :: irqAfter i)
  systime : s'.pitSystimeMsec = s.pitSystimeMsec
  current : s'.current = s.current
  parked : s'.parked = s.parked

theorem IrqInv.canTake (inv : IrqInv s) (on : s.interrupts = true) :
    ∃ i s', IrqStep t s (.take (picVector i)) s' ∧ Taken t s i s' := by
  obtain ⟨p, i, hack, ack⟩ := PicPair.acknowledge_idle inv.nested (inv.idle (inv.outside on))
  exact ⟨i, _, .take on hack (pic_gate t ack.line.1) (interruptHandler_pic ack.line.1),
    ack.serves, ack.line, ack.nested, ack.service, ack.requests, rfl, rfl, rfl, rfl, rfl⟩

theorem IrqInv.taken (inv : IrqInv s) {v : U8} (h : IrqStep t s (.take v) s') :
    ∃ i, v = picVector i ∧ Taken t s i s' := by
  cases h with
  | @take p _ acts on hack gate handler =>
      obtain ⟨q, i, hack', ack⟩ :=
        PicPair.acknowledge_idle inv.nested (inv.idle (inv.outside on))
      obtain ⟨rfl, rfl⟩ := Prod.mk.inj (Option.some.inj (hack.symm.trans hack'))
      have hacts : acts = irqBefore i ++ .picEoi (BitVec.ofNat 8 i) :: irqAfter i :=
        Option.some.inj (handler.symm.trans (interruptHandler_pic ack.line.1))
      exact ⟨i, rfl, ack.serves, ack.line, ack.nested, ack.service, ack.requests, rfl,
        congrArg some hacts, rfl, rfl, rfl⟩

theorem IrqInv.act (inv : IrqInv s) {a : IrqAction} {rest : List IrqAction}
    (h : s.handler = some (a :: rest)) :
    ∃ s', s.act a = some s' ∧ IrqInv { s' with handler := some rest } ∧
      (∀ j, s'.pics.Requested j ↔ s.pics.Requested j) ∧
      s'.pitSystimeMsec = s.pitSystimeMsec + BitVec.ofNat 32 ([a].count .pitHandleInterrupt) := by
  cases inv.phase with
  | outside handler _ => cases h.symm.trans handler
  | before i pre off handler early service =>
      have hacts := Option.some.inj (h.symm.trans handler)
      cases pre with
      | nil =>
          obtain ⟨rfl, rfl⟩ := List.cons.inj hacts
          obtain ⟨q, hq, hnested, hidle, hrequests⟩ := picEoi_spec inv.nested service
          have hact : s.act (.picEoi (BitVec.ofNat 8 i)) = some { s with pics := q } := by
            rw [IrqSystem.act, hq, Option.map_some]
          exact ⟨_, hact, ⟨hnested, .after _ off rfl (irqAfter_rest i) hidle, inv.parked⟩,
            hrequests, (BitVec.add_zero _).symm⟩
      | cons b pre =>
          obtain ⟨rfl, rfl⟩ := List.cons.inj hacts
          obtain ⟨hearly, hrest⟩ := List.forall_mem_cons.mp early
          obtain ⟨s', hact, hpics, hsystime⟩ := act_early (s := s) hearly
          have acted := act_acted hact
          refine ⟨s', hact, ⟨?_, .before i pre (acted.interrupts.trans off) rfl hrest ?_, ?_⟩,
            fun j => ?_, hsystime⟩
          · exact hpics ▸ inv.nested
          · exact hpics ▸ service
          · exact acted.parked ▸ inv.parked
          · rw [hpics]
  | after acts off handler hrest idle =>
      obtain rfl := Option.some.inj (h.symm.trans handler)
      obtain hnil | hone := hrest
      · cases hnil
      · obtain ⟨rfl, rfl⟩ := List.cons.inj hone
        exact ⟨s, rfl, ⟨inv.nested, .after [] off rfl (.inl rfl) idle, inv.parked⟩,
          fun _ => Iff.rfl, (BitVec.add_zero _).symm⟩

theorem IrqInv.step {e : IrqEvent} (inv : IrqInv s) (h : IrqStep t s e s') : IrqInv s' := by
  cases h with
  | raise line =>
      exact ⟨inv.nested.atLine PicPair.asksFor_raise.asks _,
        inv.phase.atLine PicPair.asksFor_raise.asks _, inv.parked⟩
  | withdraw line =>
      exact ⟨inv.nested.atLine PicPair.asksFor_withdraw.asks _,
        inv.phase.atLine PicPair.asksFor_withdraw.asks _, inv.parked⟩
  | cli outside | sti outside =>
      exact ⟨inv.nested, .outside outside (inv.idle outside), inv.parked⟩
  | take on hack gate handler =>
      obtain ⟨i, _, htaken⟩ := inv.taken (.take on hack gate handler)
      exact ⟨htaken.nested, .before i _ htaken.off htaken.handler (early_irq htaken.line.1)
        htaken.service, inv.parked⟩
  | act handler done =>
      obtain ⟨u, hact, hinv, _⟩ := inv.act handler
      obtain rfl := Option.some.inj (done.symm.trans hact)
      exact hinv
  | leave handler =>
      refine ⟨inv.nested, ?_, inv.parked⟩
      cases inv.phase with
      | outside handler' _ => cases handler.symm.trans handler'
      | before _ pre _ handler' =>
          have hacts := Option.some.inj (handler.symm.trans handler')
          exact absurd hacts.symm (List.append_ne_nil_of_right_ne_nil _ (List.cons_ne_nil _ _))
      | after _ _ _ _ idle => exact .outside rfl idle
  | @create p ne other fresh =>
      have phase : IrqPhase
          { s with parked := Function.update s.parked p (some Parked.startup) } := by
        cases inv.phase with
        | outside handler idle => exact .outside handler idle
        | before i pre off handler early service => exact .before i pre off handler early service
        | after acts off handler rest idle => exact .after acts off handler rest idle
      refine ⟨inv.nested, phase, fun p' q hq => ?_⟩
      simp only [Function.update_apply] at hq
      split_ifs at hq with hp
      · exact Option.some.inj hq ▸ ⟨.inl rfl, fun h => by cases h⟩
      · exact inv.parked p' q hq
  | preempt handler parked =>
      obtain ⟨rfl, off, idle⟩ := inv.schedule handler
      exact inv.switchTo idle ⟨.inr rfl, fun _ => off⟩ parked
  | switch outside parked =>
      exact inv.switchTo (inv.idle outside) ⟨.inl rfl, fun h => by cases h⟩ parked
  | exit outside parked =>
      have idle := inv.idle outside
      exact IrqInv.switchTo ⟨inv.nested, .outside outside idle, inv.parked⟩ idle
        ⟨.inl rfl, fun h => by cases h⟩ parked

/-- A line is requested after a step if it was before and the request was neither withdrawn
nor served, or if the step raised it. -/
theorem IrqInv.requested_iff {e : IrqEvent} (inv : IrqInv s) (h : IrqStep t s e s')
    (hi : PicPair.Line i) : s'.pics.Requested i ↔
      s.pics.Requested i ∧ e ≠ .withdraw i ∧ e ≠ .take (picVector i) ∨ e = .raise i := by
  cases h with
  | @raise j line =>
      refine (PicPair.requested_raise line i).trans ?_
      simp only [ne_eq, reduceCtorEq, not_false_eq_true, and_true, IrqEvent.raise.injEq]
      exact or_congr_right eq_comm
  | @withdraw j line =>
      refine (PicPair.requested_withdraw line i).trans ?_
      simp only [ne_eq, reduceCtorEq, not_false_eq_true, and_true, or_false,
        IrqEvent.withdraw.injEq]
      exact and_congr_right fun _ => not_congr eq_comm
  | cli _ | sti _ | leave _ | create _ _ _ => simp
  | preempt _ _ | switch _ _ | exit _ _ => simp [IrqSystem.switchTo]
  | @take p v acts on hack gate handler =>
      obtain ⟨k, rfl, htaken⟩ := inv.taken (.take on hack gate handler)
      refine (htaken.requests i).trans ?_
      simp only [ne_eq, reduceCtorEq, not_false_eq_true, true_and, or_false, IrqEvent.take.injEq]
      refine and_congr_right fun _ => not_congr ⟨fun h => h ▸ rfl, fun h => ?_⟩
      exact (picVector_inj htaken.line.1 hi.1 h).symm
  | @act u a rest handler done =>
      obtain ⟨u', hact, _, hrequests, _⟩ := inv.act handler
      obtain rfl := Option.some.inj (done.symm.trans hact)
      refine (hrequests i).trans ?_
      simp

end Step

/-- How often a line was raised, and how often its interrupt was taken. -/
def raisedCount (i : Nat) (tr : List (IrqSystem × IrqEvent)) : Nat :=
  tr.countP fun x => x.2 = .raise i

def takenCount (i : Nat) (tr : List (IrqSystem × IrqEvent)) : Nat :=
  tr.countP fun x => x.2 = .take (picVector i)

/-- Timer interrupts that were taken but not counted yet. -/
def IrqSystem.uncounted (s : IrqSystem) : Nat :=
  (s.handler.getD []).count .pitHandleInterrupt

/-- Up to `s` no line was served more often than raised, and the clock counts the timer
interrupts. Inputs 7 and 15 are also what the controllers give when a request has gone. -/
structure IrqCounted (s₀ : IrqSystem) (tr : List (IrqSystem × IrqEvent)) (s : IrqSystem) :
    Prop where
  served : ∀ i, PicPair.Line i → i ≠ 7 → i ≠ 15 → takenCount i tr ≤ raisedCount i tr ∧
    (s.pics.Requested i → takenCount i tr < raisedCount i tr)
  systime : s.pitSystimeMsec + BitVec.ofNat 32 s.uncounted =
    s₀.pitSystimeMsec + BitVec.ofNat 32 (takenCount 0 tr)

theorem Parked.Behind.uncounted {q : Parked} (h : q.Behind) :
    (q.handler.getD []).count .pitHandleInterrupt = 0 := by
  obtain hnone | hnil := h.rest
  · rw [hnone]
    rfl
  · rw [hnil]
    rfl

section Count

variable {t : TrapText} {s₀ s s' : IrqSystem} {tr : List (IrqSystem × IrqEvent)} {e : IrqEvent}

theorem raisedCount_snoc (i : Nat) :
    raisedCount i (tr ++ [(s, e)]) = raisedCount i tr + if e = .raise i then 1 else 0 := by
  rw [raisedCount, List.countP_append, List.countP_singleton]
  simp only [decide_eq_true_eq]
  rfl

theorem takenCount_snoc (i : Nat) :
    takenCount i (tr ++ [(s, e)]) =
      takenCount i tr + if e = .take (picVector i) then 1 else 0 := by
  rw [takenCount, List.countP_append, List.countP_singleton]
  simp only [decide_eq_true_eq]
  rfl

theorem pit_count {i : Nat} (hi : i < 16) :
    (irqBefore i ++ .picEoi (BitVec.ofNat 8 i) :: irqAfter i).count .pitHandleInterrupt =
      if i = 0 then 1 else 0 := by
  interval_cases i <;> rfl

/-- The line whose interrupt is taken was requested, if it is no line of vanished requests. -/
theorem Taken.requested {i : Nat} (h : Taken t s i s') (h7 : i ≠ 7) (h15 : i ≠ 15) :
    s.pics.Requested i := by
  cases h.serves with
  | request asked _ => exact asked
  | gone line _ => exact absurd line h7
  | goneSecond line _ => exact absurd line h15

theorem IrqCounted.served_step (inv : IrqInv s) (hcount : IrqCounted s₀ tr s)
    (h : IrqStep t s e s') {i : Nat} (hi : PicPair.Line i) (h7 : i ≠ 7) (h15 : i ≠ 15) :
    takenCount i (tr ++ [(s, e)]) ≤ raisedCount i (tr ++ [(s, e)]) ∧
      (s'.pics.Requested i →
        takenCount i (tr ++ [(s, e)]) < raisedCount i (tr ++ [(s, e)])) := by
  obtain ⟨hle, hlt⟩ := hcount.served i hi h7 h15
  have hrequests := inv.requested_iff h hi
  rw [raisedCount_snoc, takenCount_snoc]
  by_cases htake : e = .take (picVector i)
  · subst htake
    obtain ⟨k, hk, htaken⟩ := inv.taken h
    obtain rfl := picVector_inj hi.1 htaken.line.1 hk
    have hless := hlt (htaken.requested h7 h15)
    have hnot : ¬ s'.pics.Requested i := fun hreq => ((htaken.requests i).mp hreq).2 rfl
    simp only [reduceCtorEq, if_true, if_false]
    exact ⟨by omega, fun hreq => absurd hreq hnot⟩
  · rw [if_neg htake]
    by_cases hraise : e = .raise i
    · rw [if_pos hraise]
      exact ⟨by omega, fun _ => by omega⟩
    · rw [if_neg hraise]
      exact ⟨hle, fun hreq => hlt ((hrequests.mp hreq).resolve_right hraise).1⟩

theorem IrqCounted.systime_step (inv : IrqInv s) (hcount : IrqCounted s₀ tr s)
    (h : IrqStep t s e s') : s'.pitSystimeMsec + BitVec.ofNat 32 s'.uncounted =
      s₀.pitSystimeMsec + BitVec.ofNat 32 (takenCount 0 (tr ++ [(s, e)])) := by
  have hbefore := hcount.systime
  rw [takenCount_snoc]
  cases h with
  | raise _ | withdraw _ | cli _ | sti _ => simpa [IrqSystem.uncounted] using hbefore
  | create _ _ _ => simpa [IrqSystem.uncounted] using hbefore
  | leave handler => simpa [IrqSystem.uncounted, handler] using hbefore
  | preempt handler parked =>
      obtain ⟨rfl, -, -⟩ := inv.schedule handler
      have hnone := (inv.parked _ _ parked).uncounted
      simpa [IrqSystem.uncounted, IrqSystem.switchTo, handler, hnone] using hbefore
  | switch outside parked | exit outside parked =>
      have hnone := (inv.parked _ _ parked).uncounted
      simpa [IrqSystem.uncounted, IrqSystem.switchTo, outside, hnone] using hbefore
  | @take p v acts on hack gate handler =>
      have hnone := inv.outside on
      obtain ⟨k, rfl, htaken⟩ := inv.taken (.take on hack gate handler)
      have hacts : acts = irqBefore k ++ .picEoi (BitVec.ofNat 8 k) :: irqAfter k :=
        Option.some.inj htaken.handler
      have hvector : picVector k = picVector 0 ↔ k = 0 :=
        ⟨fun h => picVector_inj htaken.line.1 (by decide) h, fun h => h ▸ rfl⟩
      simp only [IrqSystem.uncounted, hnone, Option.getD_none, List.count_nil] at hbefore
      simp only [IrqSystem.uncounted, Option.getD_some, hacts, pit_count htaken.line.1,
        IrqEvent.take.injEq, hvector, BitVec.ofNat_add, ← BitVec.add_assoc, ← hbefore]
      simp
  | @act u a rest handler done =>
      obtain ⟨u', hact, _, _, hsystime⟩ := inv.act handler
      obtain rfl := Option.some.inj (done.symm.trans hact)
      have hsplit : (a :: rest).count .pitHandleInterrupt =
          [a].count .pitHandleInterrupt + rest.count .pitHandleInterrupt :=
        @List.count_append _ _ _ [a] rest
      simp only [IrqSystem.uncounted, handler, Option.getD_some, hsplit] at hbefore
      simp only [IrqSystem.uncounted, Option.getD_some, hsystime, reduceCtorEq, if_false,
        Nat.add_zero, ← hbefore, BitVec.ofNat_add, BitVec.add_assoc]

end Count

/-- The controllers have just been set up, interrupts are still off, and no process runs. -/
structure IrqStart (s : IrqSystem) : Prop where
  setUp : ∃ p q, picInitialize p = some q ∧ picUnmaskAll q = some s.pics
  handler : s.handler = none
  interrupts : s.interrupts = false
  current : s.current = 0
  parked : ∀ p, s.parked p = none

/-- What holds of the state `s` to which the steps `tr` lead. -/
structure IrqSound (t : TrapText) (s₀ : IrqSystem) (tr : List (IrqSystem × IrqEvent))
    (s : IrqSystem) : Prop where
  idle : s.handler = none → s.pics.Idle
  off : s.handler ≠ none → s.interrupts = false
  canTake : s.interrupts = true → ∃ v s', IrqStep t s (.take v) s'
  takes : ∀ v s', IrqStep t s (.take v) s' → ∃ i, PicPair.Line i ∧ v = picVector i ∧
    s.pics.Serves i ∧
    s'.handler = some (irqBefore i ++ .picEoi (BitVec.ofNat 8 i) :: irqAfter i)
  switches : ∀ p s', IrqStep t s (.switch p) s' ∨ IrqStep t s (.exit p) s' →
    s.pics.Idle ∧ (s.handler = none ∨ s.handler = some [.schedule])
  suspended : ∀ p acts, (s.parked p).bind Parked.handler = some acts →
    acts = [] ∧ (s.parked p).map Parked.interrupts = some false
  finishes : ∃ tr' s', Run (IrqStep t) s tr' s' ∧ s'.handler = none ∧
    (∀ x ∈ tr', x.2 = .leave ∨ ∃ a, x.2 = .act a) ∧ ∀ i, s'.pics.Requested i ↔ s.pics.Requested i
  kept : ∀ i tr' s', PicPair.Line i → Run (IrqStep t) s tr' s' →
    (∀ x ∈ tr', x.2 ≠ .withdraw i ∧ x.2 ≠ .take (picVector i)) →
    s.pics.Requested i → s'.pics.Requested i
  served : ∀ i, PicPair.Line i → i ≠ 7 → i ≠ 15 → takenCount i tr ≤ raisedCount i tr
  systime : s.handler = none →
    s.pitSystimeMsec = s₀.pitSystimeMsec + BitVec.ofNat 32 (takenCount 0 tr)

section Runs

variable {t : TrapText} {s₀ s s' : IrqSystem} {tr : List (IrqSystem × IrqEvent)}

theorem IrqStart.inv (start : IrqStart s) : IrqInv s ∧ ∀ i, ¬ s.pics.Requested i := by
  obtain ⟨p, q, hinit, hunmask⟩ := start.setUp
  obtain ⟨q', hinit', hnested, hidle, hnone⟩ := picInitialize_nested p
  obtain rfl := Option.some.inj (hinit.symm.trans hinit')
  obtain ⟨u, hunmask', hnested', hidle', hrequests⟩ := picUnmaskAll_nested hnested hidle
  obtain rfl := Option.some.inj (hunmask.symm.trans hunmask')
  refine ⟨⟨hnested', .outside start.handler hidle', fun p q hq => ?_⟩,
    fun i hi => hnone i ((hrequests i).mp hi)⟩
  cases (start.parked p).symm.trans hq

theorem IrqInv.run (inv : IrqInv s) (run : Run (IrqStep t) s tr s') : IrqInv s' :=
  run.invariant inv fun _ _ _ hinv hstep => hinv.step hstep

theorem IrqStart.counted (start : IrqStart s₀) (run : Run (IrqStep t) s₀ tr s) :
    IrqCounted s₀ tr s := by
  induction run with
  | nil =>
      refine ⟨fun i _ _ _ => ⟨Nat.le_refl 0, fun hi => absurd hi (start.inv.2 i)⟩, ?_⟩
      rw [IrqSystem.uncounted, start.handler]
      rfl
  | @snoc tr u v e hrun hstep ih =>
      have inv := start.inv.1.run hrun
      exact ⟨fun i hi h7 h15 => ih.served_step inv hstep hi h7 h15, ih.systime_step inv hstep⟩

/-- The handler comes to its end by its own steps. -/
theorem IrqInv.finishes (inv : IrqInv s) (t : TrapText) :
    ∃ tr' s', Run (IrqStep t) s tr' s' ∧ s'.handler = none ∧
      (∀ x ∈ tr', x.2 = .leave ∨ ∃ a, x.2 = .act a) ∧
      ∀ i, s'.pics.Requested i ↔ s.pics.Requested i := by
  cases hhandler : s.handler with
  | none => exact ⟨[], s, .nil, hhandler, List.forall_mem_nil _, fun _ => Iff.rfl⟩
  | some acts =>
      induction acts generalizing s with
      | nil =>
          refine ⟨_, _, Run.nil.snoc (.leave hhandler), rfl, fun x hx => ?_, fun _ => Iff.rfl⟩
          rw [List.mem_singleton.mp hx]
          exact .inl rfl
      | cons a rest ih =>
          obtain ⟨u, hact, hinv, hrequests, _⟩ := inv.act hhandler
          obtain ⟨tr', s', hrun, hnone, hown, hsame⟩ := ih hinv rfl
          refine ⟨_, s', (Run.nil.snoc (.act hhandler hact)).append hrun, hnone, fun x hx => ?_,
            fun i => (hsame i).trans (hrequests i)⟩
          obtain hx | hx := List.mem_append.mp hx
          · rw [List.mem_singleton.mp hx]
            exact .inr ⟨a, rfl⟩
          · exact hown x hx

/-- The kernel, its processes and the controllers: in every run from the set-up, nothing is in
service when the processor is not in the handler or switches processes; an interrupt that is
taken is that of the first requested line, with the handler's case for it; a suspended handler
has its end of interrupt behind it, and one that runs comes to its end; a request stays until it
is served or withdrawn; no line is served more often than raised; and the clock counts the
timer's. -/
theorem irq_protocol (start : IrqStart s₀) (run : Run (IrqStep t) s₀ tr s) :
    IrqSound t s₀ tr s := by
  have inv := start.inv.1.run run
  have hcount := start.counted run
  constructor
  case idle => exact inv.idle
  case off =>
      intro h
      cases hoff : s.interrupts with
      | false => rfl
      | true => exact absurd (inv.outside hoff) h
  case canTake =>
      intro on
      obtain ⟨i, s', hstep, _⟩ := inv.canTake (t := t) on
      exact ⟨_, s', hstep⟩
  case takes =>
      intro v s' hstep
      obtain ⟨i, hv, htaken⟩ := inv.taken hstep
      exact ⟨i, htaken.line, hv, htaken.serves, htaken.handler⟩
  case switches =>
      rintro p s' (hstep | hstep)
      · cases hstep with
        | preempt handler parked =>
            obtain ⟨rfl, -, idle⟩ := inv.schedule handler
            exact ⟨idle, .inr handler⟩
        | switch outside parked => exact ⟨inv.idle outside, .inl outside⟩
      · cases hstep with
        | exit outside parked => exact ⟨inv.idle outside, .inl outside⟩
  case suspended =>
      intro p acts h
      obtain ⟨q, hq, hacts⟩ := Option.bind_eq_some_iff.mp h
      have behind := inv.parked p q hq
      have hnil : acts = [] := by
        obtain hnone | hnil := behind.rest
        · cases hnone.symm.trans hacts
        · exact Option.some.inj (hacts.symm.trans hnil)
      rw [hq, Option.map_some, behind.off (hnil ▸ hacts)]
      exact ⟨hnil, rfl⟩
  case finishes => exact inv.finishes t
  case kept =>
      intro i tr' s' hi hrun hguard hreq
      have hboth : IrqInv s' ∧ s'.pics.Requested i := by
        refine Run.invariant_of_guard (I := fun u => IrqInv u ∧ u.pics.Requested i)
          (C := fun _ e => e ≠ .withdraw i ∧ e ≠ .take (picVector i)) hrun hguard ⟨inv, hreq⟩
          fun a e b hinv hc hstep => ?_
        refine ⟨hinv.1.step hstep, (hinv.1.requested_iff hstep hi).mpr (.inl ?_)⟩
        exact ⟨hinv.2, hc.1, hc.2⟩
      exact hboth.2
  case served => exact fun i hi h7 h15 => (hcount.served i hi h7 h15).1
  case systime =>
      intro h
      have hsystime := hcount.systime
      rw [IrqSystem.uncounted, h] at hsystime
      exact (BitVec.add_zero _).symm.trans hsystime

/-- A tick that switches: the timer's interrupt is taken, counted and ended, and
`proc_schedule` switches to `p`. -/
theorem IrqInv.tick (inv : IrqInv s) (t : TrapText) (on : s.interrupts = true)
    (asked : s.pics.Requested 0) (p : U32) (next : Parked) (hp : s.parked p = some next) :
    ∃ (tr' : List (IrqSystem × IrqEvent)) (u : IrqSystem),
      Run (IrqStep t) s tr' (u.switchTo ⟨false, some []⟩ p next) ∧
      IrqInv (u.switchTo ⟨false, some []⟩ p next) ∧ u.current = s.current ∧
      u.parked = s.parked ∧ ∀ j, u.pics.Requested j ↔ s.pics.Requested j ∧ j ≠ 0 := by
  obtain ⟨i, s₁, htake, taken⟩ := inv.canTake (t := t) on
  have hi : i = 0 := by
    cases taken.serves with
    | request _ first =>
        have hrank := first 0 asked
        simp only [PicPair.rank] at hrank
        split_ifs at hrank <;> omega
    | gone _ none => exact absurd asked (none 0)
    | goneSecond _ none => exact absurd (none 0 asked).1 (by decide)
  subst hi
  have hacts : s₁.handler = some [.pitHandleInterrupt, .picEoi 0, .schedule] := taken.handler
  obtain ⟨u₁, hpit, inv₁, hreq₁, -⟩ := (inv.step htake).act hacts
  obtain ⟨u₂, heoi, inv₂, hreq₂, -⟩ := inv₁.act rfl
  have acted₁ := act_acted hpit
  have acted₂ := act_acted heoi
  have hparked : u₂.parked = s.parked := acted₂.parked.trans (acted₁.parked.trans taken.parked)
  have hleft : (⟨u₂.interrupts, some []⟩ : Parked) = ⟨false, some []⟩ :=
    congrArg (Parked.mk · _) (acted₂.interrupts.trans (acted₁.interrupts.trans taken.off))
  obtain ⟨u, hu⟩ : ∃ u : IrqSystem, u = { u₂ with handler := some [.schedule] } := ⟨_, rfl⟩
  rw [← hu] at inv₂
  have hrun : Run (IrqStep t) s _ u :=
    hu ▸ ((Run.nil.snoc htake).snoc (.act hacts hpit)).snoc (.act rfl heoi)
  have hswitch : IrqStep t u (.switch p) (u.switchTo ⟨u.interrupts, some []⟩ p next) :=
    .preempt (by rw [hu]) (by rw [hu]; exact hparked ▸ hp)
  rw [show u.interrupts = u₂.interrupts by rw [hu], hleft] at hswitch
  refine ⟨_, u, hrun.snoc hswitch, inv₂.step hswitch, ?_, ?_, fun j => ?_⟩
  · rw [hu]
    exact acted₂.current.trans (acted₁.current.trans taken.current)
  · rw [hu]
    exact hparked
  · rw [hu]
    exact (hreq₂ j).trans ((hreq₁ j).trans (taken.requests j))

end Runs

def someRoutines : TrapText where
  procSwitch := 0x100000
  procStartup := 0x100040
  startupRest := 0x10004A
  procInit := 0x100060
  procRelease := 0x101000
  isr n := 0x102000 + n.setWidth 32
  interruptHandler := 0x103000
  isrRest := 0x102800
  isrSys := 0x102900
  sysHandler := 0x104000
  sysRest := 0x102910

/-- Two processes are created. A tick switches from the boot to the first one and the next tick
from there to the second one, whose interrupts are on: the disk is served while the handler of
the first one is suspended. -/
theorem irq_protocol_timer : ∃ s₀ tr s s', IrqStart s₀ ∧ Run (IrqStep someRoutines) s₀ tr s ∧
    s.current = 0x20000 ∧ s.parked 0x10000 = some ⟨false, some []⟩ ∧ s.interrupts = true ∧
    IrqStep someRoutines s (.take 0x2E) s' ∧
    s'.handler = some [.dbgPuts "ATA1 interrupt received\n", .picEoi 14] := by
  obtain ⟨q, hinit, hnested, hidle, _⟩ :=
    picInitialize_nested ⟨⟨0, 0, 0, 0, 0, false, false, .ready⟩,
      ⟨0, 0, 0, 0, 0, false, false, .ready⟩⟩
  obtain ⟨u, hunmask, _⟩ := picUnmaskAll_nested hnested hidle
  have start : IrqStart ⟨u, 0, false, none, 0, fun _ => none⟩ :=
    ⟨⟨_, q, hinit, hunmask⟩, rfl, rfl, rfl, fun _ => rfl⟩
  have line14 : PicPair.Line 14 := ⟨by decide, by decide⟩
  have line0 : PicPair.Line 0 := ⟨by decide, by decide⟩
  obtain ⟨inv, hquiet⟩ := start.inv
  have hfirst : (0x10000 : U32) ≠ 0 := by decide
  have hsecond : (0x20000 : U32) ≠ 0 := by decide
  have hapart : (0x20000 : U32) ≠ 0x10000 := by decide
  -- the boot creates both and is switched away from
  have run₁ : Run (IrqStep someRoutines) ⟨u, 0, false, none, 0, fun _ => none⟩ _ _ :=
    (((Run.nil.snoc (.create hfirst hfirst rfl)).snoc (.create hsecond hsecond rfl)).snoc
      (.raise line0)).snoc (.sti rfl)
  obtain ⟨tr₁, u₁, htick₁, inv₁, hcurrent₁, hparked₁, hreq₁⟩ := (inv.run run₁).tick someRoutines rfl
    ((PicPair.requested_raise line0 0).mpr (.inr rfl)) 0x10000 .startup rfl
  -- so is the first process, while the disk asks
  have hready : (u₁.switchTo ⟨false, some []⟩ 0x10000 .startup).parked 0x20000 =
      some .startup := by
    simp [IrqSystem.switchTo, hcurrent₁, hparked₁]
  have run₂ : Run (IrqStep someRoutines) _ _ _ :=
    ((run₁.append htick₁).snoc (.raise line14)).snoc (.raise line0)
  obtain ⟨tr₂, u₂, htick₂, inv₂, hcurrent₂, hparked₂, hreq₂⟩ := (inv.run run₂).tick someRoutines rfl
    ((PicPair.requested_raise line0 0).mpr (.inr rfl)) 0x20000 .startup hready
  have sound := irq_protocol start (run₂.append htick₂)
  have hrequested (j : Nat) : u₂.pics.Requested j ↔ j = 14 := by
    have hnone : ¬ u₁.pics.Requested j := fun h => by
      obtain ⟨hreq, hne⟩ := (hreq₁ j).mp h
      exact ((PicPair.requested_raise line0 j).mp hreq).elim (hquiet j) hne
    refine (hreq₂ j).trans ⟨fun h => ?_, fun h => ?_⟩
    · obtain hreq | hzero := (PicPair.requested_raise line0 j).mp h.1
      · exact ((PicPair.requested_raise line14 j).mp hreq).resolve_left hnone
      · exact absurd hzero h.2
    · subst h
      have hdisk := (PicPair.requested_raise line14 14 (p := u₁.pics)).mpr (.inr rfl)
      exact ⟨(PicPair.requested_raise line0 14).mpr (.inl hdisk), by decide⟩
  obtain ⟨v, s', hstep⟩ := sound.canTake rfl
  obtain ⟨i, hline, rfl, hserves, hhandler⟩ := sound.takes v s' hstep
  have hi : i = 14 := by
    cases hserves with
    | request asked _ => exact (hrequested i).mp asked
    | gone _ none => exact absurd ((hrequested 14).mpr rfl) (none 14)
    | goneSecond _ none => exact absurd (none 14 ((hrequested 14).mpr rfl)).2 (by decide)
  subst hi
  refine ⟨_, _, _, s', start, run₂.append htick₂, rfl, ?_, rfl, hstep, hhandler⟩
  simp [IrqSystem.switchTo, hcurrent₂]

end DordOs
