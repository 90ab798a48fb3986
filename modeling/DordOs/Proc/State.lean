import DordOs.Pmman.Alloc
import Mathlib.Logic.Function.Basic

/-!
The scheduler of `proc.c` on its own memory: the fields of every `proc_t` by
address, the two queues as pointers to their first process, the tick counter and
the allocator. Queues are walked through a pointer to the link under inspection,
as in the source; a walk that has not ended after as many steps as there are
addresses never will, and yields `none`.
-/
namespace DordOs

def procActive : U32 := 0
def procReady : U32 := 1
def procSleep : U32 := 2
def procIdleTag : U32 := 3

def procSize : Usz := 4096

/-- `proc_t` fields are functions of the block's address. -/
structure Sched where
  entry : Usz → Usz
  next : Usz → Usz
  timeEnd : Usz → U32
  name : Usz → Usz
  state : Usz → U32
  procCurrent : Usz
  procIdle : Usz
  readyQ : Usz
  waitingQ : Usz
  pitSystimeMsec : U32
  pmmanKernelMap : PmmanMap

/-- What a `proc_t**` can point to. -/
inductive Link
  | readyQ
  | waitingQ
  | next (proc : Usz)
  deriving DecidableEq

namespace Sched

def load (s : Sched) : Link → Usz
  | .readyQ => s.readyQ
  | .waitingQ => s.waitingQ
  | .next proc => s.next proc

def store (s : Sched) (it : Link) (proc : Usz) : Sched :=
  match it with
  | .readyQ => { s with readyQ := proc }
  | .waitingQ => { s with waitingQ := proc }
  | .next q => { s with next := Function.update s.next q proc }

def setNext (s : Sched) (proc next : Usz) : Sched :=
  { s with next := Function.update s.next proc next }

def setState (s : Sched) (proc : Usz) (state : U32) : Sched :=
  { s with state := Function.update s.state proc state }

def setTimeEnd (s : Sched) (proc : Usz) (timeEnd : U32) : Sched :=
  { s with timeEnd := Function.update s.timeEnd proc timeEnd }

end Sched

/-- The new process, 0 if `pmman_alloc` failed, and the memory afterwards; the
fields `proc_create` does not write keep what the block held before. -/
def procCreate (s : Sched) (entry name : Usz) : Usz × Sched :=
  let (proc, map) := pmmanAlloc s.pmmanKernelMap procSize
  (proc, { s with
    pmmanKernelMap := map
    entry := Function.update s.entry proc entry
    next := Function.update s.next proc 0
    name := Function.update s.name proc name })

def procInitScheduler (s : Sched) (entry name : Usz) : Sched :=
  let (proc, s) := procCreate s entry name
  { s with procIdle := proc }.setState proc procIdleTag

def procRegister (s : Sched) (proc : Usz) : Sched :=
  let s := s.setState proc procReady
  let s := s.setNext proc s.readyQ
  { s with readyQ := proc }

/-- As many steps as a walk over distinct addresses can take. -/
def walkSteps : Nat := 2 ^ 32

/-- The first loop of `proc_schedule`. -/
def procWake : Nat → Sched → Link → Option Sched
  | 0, _, _ => none
  | n + 1, s, it =>
      let proc := s.load it
      if proc = 0 then some s
      else if s.pitSystimeMsec ≥ s.timeEnd proc then
        let s := s.store it (s.next proc)
        let s := s.setState proc procReady
        let s := s.setNext proc s.readyQ
        procWake n { s with readyQ := proc } it
      else procWake n s (.next proc)

/-- The second loop of `proc_schedule`, down to the store through its cursor. -/
def procAppend : Nat → Sched → Link → Option Sched
  | 0, _, _ => none
  | n + 1, s, it =>
      if s.load it = 0 then some (s.store it s.procCurrent)
      else procAppend n s (.next (s.load it))

/-- The part of `proc_switch` the scheduler sees: the new time slice and the new
current process. -/
def procSwitch (s : Sched) (proc : Usz) : Sched :=
  { s.setTimeEnd proc (s.pitSystimeMsec + 8) with procCurrent := proc }

/-- The end of `proc_schedule`, from `next_proc = ready_q` on. -/
def procDispatch (s : Sched) : Sched × Option Usz :=
  let nextProc := s.readyQ
  let s := { s with readyQ := s.next s.readyQ }
  let s := s.setNext nextProc 0
  if s.procCurrent = nextProc then (s, none)
  else (procSwitch (s.setState nextProc procActive) nextProc, some nextProc)

/-- Returns the process switched to, if any. -/
def procSchedule (s : Sched) : Option (Sched × Option Usz) := do
  let s ← procWake walkSteps s .waitingQ
  if s.readyQ = 0 then
    if (s.procCurrent = 0 ∨
        s.state s.procCurrent ≠ procActive ∧ s.state s.procCurrent ≠ procIdleTag) ∧
        s.procIdle ≠ 0 then
      return (procSwitch s s.procIdle, some s.procIdle)
    else return (s, none)
  else if s.procCurrent ≠ 0 ∧ s.state s.procCurrent = procActive then
    if s.pitSystimeMsec < s.timeEnd s.procCurrent then return (s, none)
    else
      let s ← procAppend walkSteps s .readyQ
      return procDispatch (s.setNext s.procCurrent 0)
  else return procDispatch s

/-- `proc_exit` up to its call of `proc_schedule`. -/
def procExitEnter (s : Sched) : Sched :=
  { s with
    pmmanKernelMap := pmmanFree s.pmmanKernelMap s.procCurrent procSize
    procCurrent := 0 }

def procExit (s : Sched) : Option (Sched × Option Usz) := procSchedule (procExitEnter s)

/-- `proc_sleep_msec` up to its call of `proc_schedule`. -/
def procSleepMsecEnter (s : Sched) (msec : U32) : Sched :=
  let s := s.setTimeEnd s.procCurrent (s.pitSystimeMsec + msec)
  let s := s.setNext s.procCurrent s.waitingQ
  let s := { s with waitingQ := s.procCurrent }
  s.setState s.procCurrent procSleep

def procSleepMsec (s : Sched) (msec : U32) : Option (Sched × Option Usz) :=
  procSchedule (procSleepMsecEnter s msec)

def procYield (s : Sched) : Sched :=
  s.setTimeEnd s.procCurrent s.pitSystimeMsec

def pitHandleInterrupt (s : Sched) : Sched :=
  { s with pitSystimeMsec := s.pitSystimeMsec + 1 }

/-- The timer branch of `interrupt_handler`. -/
def timerInterrupt (s : Sched) : Option (Sched × Option Usz) :=
  procSchedule (pitHandleInterrupt s)

end DordOs
