import DordOs.Libk.Spinlock
import DordOs.Proc.Runs

/-!
The boot CPU under the scheduler, one instruction at a time. The routines of
`proc.c` and the timer handler are sequences of the steps that touch the lock,
the flags register or the processes; an interrupt may fall between any two of
them while the interrupt flag is set, and `proc_switch` leaves the rest of a
sequence, with the flags values on its stack, for the process' next turn.
-/
namespace DordOs
open Lib

/-- The parts of the routines between taking and giving back the lock, up to the
call of `proc_schedule` if there is one, and the tick of the timer handler. -/
inductive SchedAct
  | register (proc : Usz)
  | sleep (msec : U32)
  | yield
  | exit
  | tick

inductive Instr
  | getf
  | cli
  | spinlockLock
  | act (a : SchedAct)
  | procSchedule
  | spinlockRelease
  | setf
  | iret

def procLockCode : List Instr := [.getf, .cli, .spinlockLock]

def procReleaseCode : List Instr := [.spinlockRelease, .setf]

inductive Routine
  | register (proc : Usz)
  | sleep (msec : U32)
  | yield
  | exit

def Routine.code : Routine → List Instr
  | .register proc => procLockCode ++ [.act (.register proc)] ++ procReleaseCode
  | .sleep msec => procLockCode ++ [.act (.sleep msec), .procSchedule] ++ procReleaseCode
  | .yield => procLockCode ++ [.act .yield] ++ procReleaseCode
  | .exit => procLockCode ++ [.act .exit, .procSchedule] ++ procReleaseCode

def timerHandlerCode : List Instr :=
  [.act .tick] ++ procLockCode ++ [.procSchedule] ++ procReleaseCode ++ [.iret]

/-- What is left to run, the flags values pushed on the stack, innermost first,
and the flags register. The empty code is the process' own. -/
structure Context where
  code : List Instr
  locals : List U32
  eflags : U32

def interruptFlag : U32 := 0x200

/-- Interrupts are enabled. -/
def interrupts (eflags : U32) : Bool := eflags.getLsbD 9

def maskInterrupts (eflags : U32) : U32 := eflags &&& ~~~interruptFlag

/-- What `proc_init` prepares: `proc_startup` with its pushed argument, and the
flags `proc_switch` pops. -/
def procInit : Context := ⟨procReleaseCode, [0x200 ||| 0x200000], 0⟩

structure Machine where
  procs : SchedState
  schedLock : Slock
  cpu : Context
  saved : Usz → Context

def SchedState.act (c : SchedState) : SchedAct → Option SchedState
  | .register proc =>
      if proc ∈ c.created then
        some { c with
          sched := procRegister c.sched proc
          created := c.created.erase proc
          registered := proc :: c.registered }
      else none
  | .sleep msec => some { c with sched := procSleepMsecEnter c.sched msec }
  | .yield => some { c with sched := procYield c.sched }
  | .exit => some { c with
      sched := procExitEnter c.sched
      registered := c.registered.erase c.sched.procCurrent
      live := c.live.erase ⟨c.sched.procCurrent, procSize⟩ }
  | .tick => some { c with sched := pitHandleInterrupt c.sched }

namespace Machine

/-- The stack switch of `proc_switch`. -/
def switch (m : Machine) (current target : Usz) : Machine :=
  let saved := if current ≠ 0 then Function.update m.saved current m.cpu else m.saved
  { m with saved := saved, cpu := saved target }

/-- The next instruction. A lock that is held is tried again. -/
def exec (m : Machine) : Option Machine :=
  match m.cpu.code with
  | [] => none
  | .getf :: rest =>
      some { m with cpu := { m.cpu with code := rest, locals := m.cpu.eflags :: m.cpu.locals } }
  | .cli :: rest =>
      some { m with cpu := { m.cpu with code := rest, eflags := maskInterrupts m.cpu.eflags } }
  | .spinlockLock :: rest =>
      some { m with
        schedLock := m.schedLock.tryLock.2
        cpu := if m.schedLock.tryLock.1 then { m.cpu with code := rest } else m.cpu }
  | .act a :: rest =>
      (m.procs.act a).map fun c => { m with procs := c, cpu := { m.cpu with code := rest } }
  | .procSchedule :: rest =>
      (procSchedule m.procs.sched).map fun r =>
        let next := { m with
          procs := { m.procs with sched := r.1 }
          cpu := { m.cpu with code := rest } }
        match r.2 with
        | none => next
        | some target => next.switch m.procs.sched.procCurrent target
  | .spinlockRelease :: rest =>
      some { m with schedLock := m.schedLock.release, cpu := { m.cpu with code := rest } }
  | .setf :: rest | .iret :: rest =>
      match m.cpu.locals with
      | [] => none
      | flags :: locals => some { m with cpu := ⟨rest, locals, flags⟩ }

/-- The timer's interrupt gate: the flags are pushed and interrupts masked. -/
def interrupt (m : Machine) : Machine :=
  { m with cpu :=
    { code := timerHandlerCode ++ m.cpu.code
      locals := m.cpu.eflags :: m.cpu.locals
      eflags := maskInterrupts m.cpu.eflags } }

end Machine

inductive MachineEvent
  | exec
  | interrupt
  | call (routine : Routine)
  | create (entry name : Usz)

inductive MachineStep : Machine → MachineEvent → Machine → Prop
  | exec (m m' : Machine) : m.exec = some m' → MachineStep m .exec m'
  | interrupt (m : Machine) :
      interrupts m.cpu.eflags = true → MachineStep m .interrupt m.interrupt
  | call (m : Machine) (routine : Routine) :
      m.cpu.code = [] → m.procs.sched.InProcess →
      MachineStep m (.call routine) { m with cpu := { m.cpu with code := routine.code } }
  | create (m : Machine) (entry name : Usz) :
      m.cpu.code = [] → m.procs.sched.InProcess →
      (procCreate m.procs.sched entry name).1 ≠ 0 →
      MachineStep m (.create entry name) { m with
        procs := { m.procs with
          sched := (procCreate m.procs.sched entry name).2
          created := (procCreate m.procs.sched entry name).1 :: m.procs.created
          live := ⟨(procCreate m.procs.sched entry name).1, procSize⟩ :: m.procs.live }
        saved := Function.update m.saved (procCreate m.procs.sched entry name).1 procInit }

/-- `kernel_enter` about to make its first call of `proc_schedule`, after any
number of processes has been created and registered. -/
structure MachineBoot (bits : Nat → U32) (m : Machine) : Prop where
  reached : ∃ s entry name tr, Unscheduled bits s ∧
    Run SchedStep (schedBoot s entry name) tr m.procs
  current : m.procs.sched.procCurrent = 0
  schedLock : m.schedLock = slockInit
  code : m.cpu.code = [.procSchedule]
  masked : interrupts m.cpu.eflags = false
  saved : ∀ p ∈ m.procs.sched.procIdle :: (m.procs.created ++ m.procs.registered),
    m.saved p = procInit

theorem interrupts_maskInterrupts (eflags : U32) : interrupts (maskInterrupts eflags) = false := by
  simp only [interrupts, maskInterrupts]
  rw [BitVec.getLsbD_and, show (~~~interruptFlag).getLsbD 9 = false by decide, Bool.and_false]

namespace Machine

variable (m : Machine) {current target p : Usz}

theorem switch_saved_self (h : current ≠ 0) : (m.switch current target).saved current = m.cpu := by
  have hsaved : (m.switch current target).saved = Function.update m.saved current m.cpu := if_pos h
  rw [hsaved, Function.update_self]

theorem switch_saved_of_ne (h : p ≠ current) : (m.switch current target).saved p = m.saved p := by
  by_cases h0 : current ≠ 0
  · have hsaved : (m.switch current target).saved = Function.update m.saved current m.cpu :=
      if_pos h0
    rw [hsaved, Function.update_of_ne h]
  · have hsaved : (m.switch current target).saved = m.saved := if_neg h0
    rw [hsaved]

theorem switch_cpu (h : target ≠ current) : (m.switch current target).cpu = m.saved target := by
  have hcpu : (m.switch current target).cpu = (m.switch current target).saved target := rfl
  rw [hcpu, m.switch_saved_of_ne h]

end Machine

end DordOs
