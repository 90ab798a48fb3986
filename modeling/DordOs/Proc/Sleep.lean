import DordOs.Proc.Lost

/-!
How long `proc_sleep_msec` sleeps. The deadline is the tick counter plus the
wait, in 32 bits. If the sum fits, a process stays in the waiting queue until the
counter gets there, whatever the scheduler does in between; if it does not, the
deadline is in the past and the process is woken within its own call.
-/
namespace DordOs
open Lib

namespace ListSched

variable {a : ListSched} {reg : List Usz} {p : Usz} {deadline : U32}

/-- `p` waits for the counter to get to `deadline`. -/
structure Sleeping (a : ListSched) (p : Usz) (deadline : U32) : Prop where
  waiting : p ∈ a.waiting
  timeEnd : a.timeEnd p = deadline

theorem dispatch_now (p : Usz) : (a.dispatch p).1.now = a.now := by
  simp only [dispatch]
  split <;> rfl

theorem dispatch_timeEnd {q : Usz} (h : q ≠ p) :
    (a.dispatch p).1.timeEnd q = a.timeEnd q := by
  simp only [dispatch]
  split
  · rfl
  · exact Function.update_of_ne h (a.now + 8) a.timeEnd

theorem Next.now {r : ListSched × Option Usz} (h : a.Next r) : r.1.now = a.now := by
  cases h with
  | idle | stay | slice => rfl
  | requeue p rest | take p rest => exact dispatch_now p

theorem Next.timeEnd {r : ListSched × Option Usz} (h : a.Next r) (hne : p ≠ r.1.current) :
    r.1.timeEnd p = a.timeEnd p := by
  cases h with
  | idle => exact Function.update_of_ne hne (a.now + 8) a.timeEnd
  | stay | slice => rfl
  | requeue q rest | take q rest =>
      rw [dispatch_current] at hne
      exact dispatch_timeEnd hne

theorem schedule_now : a.schedule.1.now = a.now := (next_cases a.wake).now

theorem mem_schedule_waiting :
    p ∈ a.schedule.1.waiting ↔ p ∈ a.waiting ∧ a.due p = false := by
  have hwaiting : a.schedule.1.waiting = a.wake.waiting := next_waiting
  rw [hwaiting, mem_wake_waiting]

/-- Scheduling leaves a sleeper alone until its deadline. -/
theorem Sleeping.schedule (h : a.Sleeping p deadline) (entry : a.Entry reg)
    (early : a.now < deadline) : a.schedule.1.Sleeping p deadline := by
  have hdue : a.due p = false := by
    refine decide_eq_false ?_
    rw [h.timeEnd]
    exact BitVec.not_le.mpr early
  have hwaiting := mem_schedule_waiting.mpr ⟨h.waiting, hdue⟩
  have hne : p ≠ a.schedule.1.current := fun heq =>
    entry.schedule.1.currentWaiting (heq ▸ hwaiting)
  exact ⟨hwaiting, ((next_cases a.wake).timeEnd hne).trans h.timeEnd⟩

theorem goToSleep_timeEnd (msec : U32) :
    (a.goToSleep msec).timeEnd = Function.update a.timeEnd a.current (a.now + msec) := rfl

theorem yield_timeEnd : a.yield.timeEnd = Function.update a.timeEnd a.current a.now := rfl

/-- The counter as the next call of the scheduler sees it. -/
def nowAt (a : ListSched) (e : SchedEvent) : U32 := if e = .timer then a.now + 1 else a.now

theorem act_now (e : SchedEvent) : (a.act e).now = a.nowAt e := by
  cases e with
  | create | register | yield => rfl
  | start | timer | sleep | exit => exact schedule_now

theorem Sleeping.ne_current (h : a.Sleeping p deadline) (settled : a.Settled reg) :
    p ≠ a.current :=
  fun heq => settled.currentWaiting (heq ▸ h.waiting)

theorem Sleeping.goToSleep (h : a.Sleeping p deadline) (settled : a.Settled reg) (msec : U32) :
    (a.goToSleep msec).Sleeping p deadline := by
  refine ⟨List.mem_cons_of_mem _ h.waiting, ?_⟩
  rw [goToSleep_timeEnd, Function.update_of_ne (h.ne_current settled)]
  exact h.timeEnd

theorem Sleeping.yield (h : a.Sleeping p deadline) (settled : a.Settled reg) :
    a.yield.Sleeping p deadline := by
  refine ⟨h.waiting, ?_⟩
  rw [yield_timeEnd, Function.update_of_ne (h.ne_current settled)]
  exact h.timeEnd

/-- Who goes to sleep sleeps, if the deadline has not passed by then. -/
theorem Settled.sleep (h : a.Settled reg) (hcur : a.current ∈ reg) {msec : U32}
    (early : a.now < a.now + msec) :
    (a.act (.sleep msec)).Sleeping a.current (a.now + msec) := by
  have hself : (a.goToSleep msec).Sleeping a.current (a.now + msec) := by
    refine ⟨List.mem_cons_self, ?_⟩
    rw [goToSleep_timeEnd, Function.update_self]
  exact hself.schedule (h.goToSleep hcur msec) early

/-- Otherwise it is woken at once. -/
theorem sleep_over {msec : U32} (late : a.now + msec ≤ a.now) :
    a.current ∉ (a.act (.sleep msec)).waiting := by
  intro hmem
  have hdue : (a.goToSleep msec).due a.current = false := (mem_schedule_waiting.mp hmem).2
  refine of_decide_eq_false hdue ?_
  rw [goToSleep_timeEnd, Function.update_self]
  exact late

end ListSched

section

variable {bits : Nat → U32} {c d : SchedState} {e : SchedEvent} {a : ListSched} {p : Usz}
  {deadline : U32}

/-- A step leaves a sleeper asleep until the counter has reached the deadline. -/
theorem SchedStep.sleeping (hstep : SchedStep c e d) (rep : c.sched.Represents a)
    (settled : a.Settled c.registered) (h : a.Sleeping p deadline)
    (early : a.nowAt e < deadline) : (a.act e).Sleeping p deadline := by
  cases hstep with
  | create entry name hp => exact h
  | register q hq => exact ⟨h.waiting, h.timeEnd⟩
  | start s' target hcur hs => exact h.schedule settled.entry early
  | timer s' target hcur hs =>
      have htick : a.tick.Sleeping p deadline := ⟨h.waiting, h.timeEnd⟩
      exact htick.schedule settled.tick early
  | sleep msec s' target hin hs =>
      have entry := settled.goToSleep (hin.registered rep settled) msec
      exact (h.goToSleep settled msec).schedule entry early
  | yield hin => exact h.yield settled
  | exit s' target hin hs =>
      have hleave : a.leave.Sleeping p deadline := ⟨h.waiting, h.timeEnd⟩
      exact hleave.schedule settled.leave early

end

/-- The ticks delivered in a run. -/
def ticks (tr : List (SchedState × SchedEvent)) : Nat := tr.countP fun x => x.2 = .timer

theorem ticks_snoc (tr : List (SchedState × SchedEvent)) (c : SchedState) (e : SchedEvent) :
    ticks (tr ++ [(c, e)]) = ticks tr + if e = .timer then 1 else 0 := by
  simp only [ticks, List.countP_append, List.countP_singleton, decide_eq_true_eq]

/-- Until as many ticks as fit below the deadline have come, a sleeper sleeps. -/
theorem sleeping_of_run {bits : Nat → U32} (h0 : bitAt bits 0 = true) {d e : SchedState}
    {tr : List (SchedState × SchedEvent)} (run : Run SchedStep d tr e) {a : ListSched} {p : Usz}
    {deadline : U32} (h : SchedInvariant bits d) (rep : d.sched.Represents a)
    (settled : a.Settled d.registered) (sleeping : a.Sleeping p deadline)
    (early : a.now.toNat + ticks tr < deadline.toNat) :
    ∃ b : ListSched, e.sched.Represents b ∧ b.Settled e.registered ∧ b.Sleeping p deadline ∧
      b.now.toNat = a.now.toNat + ticks tr := by
  induction run with
  | nil => exact ⟨a, rep, settled, sleeping, rfl⟩
  | @snoc tr t u ev hrun hstep ih =>
      rw [ticks_snoc] at early ⊢
      obtain ⟨b, repb, settledb, sleepingb, hnow⟩ := ih (by omega)
      have ht : SchedInvariant bits t := hrun.invariant h fun _ _ _ hi hs => hi.step h0 hs
      have hat : (b.nowAt ev).toNat = a.now.toNat + (ticks tr + if ev = .timer then 1 else 0) := by
        have hlt := deadline.isLt
        simp only [ListSched.nowAt]
        split
        · rename_i hev
          rw [if_pos hev] at early
          rw [BitVec.toNat_add_of_lt (by rw [hnow]; change _ + 1 < _; omega), hnow]
          rfl
        · exact hnow
      have hearly : b.nowAt ev < deadline := by
        rw [BitVec.lt_def, hat]
        exact early
      obtain ⟨repu, settledu⟩ := ht.act hstep repb settledb
      refine ⟨b.act ev, repu, settledu, hstep.sleeping repb settledb sleepingb hearly, ?_⟩
      rw [ListSched.act_now]
      exact hat

/-- A process that calls `proc_sleep_msec` sleeps for as many ticks as it asks
for exactly when its deadline fits the 32 bits of the tick counter. -/
theorem sleeper_waits_iff {bits : Nat → U32} {s : Sched} (boot : Unscheduled bits s)
    {entry name : Usz} {tr : List (SchedState × SchedEvent)} {c d : SchedState} {msec : U32}
    (run : Run SchedStep (schedBoot s entry name) tr c) (sleep : SchedStep c (.sleep msec) d) :
    (∀ tr' e, Run SchedStep d tr' e → ticks tr' < msec.toNat →
      OnQueue e.sched e.sched.waitingQ c.sched.procCurrent) ↔
      c.sched.pitSystimeMsec.toNat + msec.toNat < 2 ^ 32 := by
  have hc := SchedInvariant.of_run boot run
  have hd := hc.step boot.low sleep
  obtain ⟨a, rep, settled⟩ := hc.lists
  obtain ⟨repd, settledd⟩ := hc.act sleep rep settled
  have hcur : a.current ∈ c.registered := by
    cases sleep with
    | sleep _ _ _ hin _ => exact hin.registered rep settled
  rw [rep.now, rep.current]
  have hsum : (a.now + msec).toNat = (a.now.toNat + msec.toNat) % 2 ^ 32 := BitVec.toNat_add ..
  have hnow := a.now.isLt
  have hmsec := msec.isLt
  constructor
  · intro hwaits
    by_contra hwrap
    have hlate : a.now + msec ≤ a.now := by
      rw [BitVec.le_def, hsum]
      omega
    refine ListSched.sleep_over hlate ((onQueue_iff repd.waiting).mp ?_)
    exact hwaits [] d .nil (by change 0 < _; omega)
  · intro hfits tr' e run' hticks
    rw [Nat.mod_eq_of_lt hfits] at hsum
    have hearly : a.now < a.now + msec := by
      rw [BitVec.lt_def, hsum]
      omega
    obtain ⟨b, repb, _, hb, _⟩ := sleeping_of_run boot.low run' hd repd settledd
      (settled.sleep hcur hearly) (by
        rw [ListSched.act_now, hsum]
        change a.now.toNat + _ < _
        omega)
    exact (onQueue_iff repb.waiting).mpr hb.waiting

/-- The first process sleeps for 20 ms. -/
theorem sleeper_waits_iff_twenty :
    ∃ c d, c.sched.procCurrent = 32768 ∧ SchedStep c (.sleep 20) d ∧
      ∀ tr e, Run SchedStep d tr e → ticks tr < 20 → OnQueue e.sched e.sched.waitingQ 32768 := by
  obtain ⟨r, hr⟩ := Option.isSome_iff_exists.mp (show (execRun schedExec (schedBoot emptySched 0 0)
    [.create 0 0, .register 32768, .start]).isSome by decide +kernel)
  have hend : (execRun schedExec (schedBoot emptySched 0 0)
      [.create 0 0, .register 32768, .start]).map (fun r => (r.2.sched.procCurrent,
        r.2.sched.pitSystimeMsec, (schedExec r.2 (.sleep 20)).isSome)) =
      some (32768, 0, true) := by decide +kernel
  rw [hr] at hend
  obtain ⟨hcurrent, hrest⟩ := Prod.mk.inj (Option.some.inj hend)
  obtain ⟨hnow, hsleep⟩ := Prod.mk.inj hrest
  obtain ⟨d, hd⟩ := Option.isSome_iff_exists.mp hsleep
  have waits := (sleeper_waits_iff unscheduled_empty
    (Run.of_exec (fun _ _ _ => schedExec_sound) hr) (schedExec_sound hd)).mpr (by
      rw [hnow]
      decide)
  rw [hcurrent] at waits
  exact ⟨r.2, d, hcurrent, schedExec_sound hd, waits⟩

/-- The same memory 49.7 days later, one tick before the counter wraps. -/
def lateSched : Sched := { emptySched with pitSystimeMsec := 0xFFFFFFFF }

theorem unscheduled_late : Unscheduled lowBits lateSched where
  map := rfl
  low := by decide
  current := rfl
  readyQ := rfl
  waitingQ := rfl
  room := by decide +kernel

/-- A sleep of 1 ms is over before it has begun. -/
theorem sleeper_wakes_early :
    ¬ ∀ (bits : Nat → U32) (s : Sched) (entry name : Usz) (tr : List (SchedState × SchedEvent))
      (c d : SchedState) (msec : U32), Unscheduled bits s →
      Run SchedStep (schedBoot s entry name) tr c → SchedStep c (.sleep msec) d →
      ∀ tr' e, Run SchedStep d tr' e → ticks tr' < msec.toNat →
        OnQueue e.sched e.sched.waitingQ c.sched.procCurrent := by
  intro claim
  obtain ⟨r, hr⟩ := Option.isSome_iff_exists.mp (show (execRun schedExec (schedBoot lateSched 0 0)
    [.create 0 0, .register 32768, .start]).isSome by decide +kernel)
  have hend : (execRun schedExec (schedBoot lateSched 0 0)
      [.create 0 0, .register 32768, .start]).map (fun r =>
        (schedExec r.2 (.sleep 1)).map fun d => d.sched.waitingQ) = some (some 0) := by
    decide +kernel
  rw [hr] at hend
  obtain ⟨d, hd, hempty⟩ := Option.map_eq_some_iff.mp (Option.some.inj hend)
  have hqueued := claim lowBits lateSched 0 0 r.1 r.2 d 1 unscheduled_late
    (Run.of_exec (fun _ _ _ => schedExec_sound) hr) (schedExec_sound hd) [] d .nil (by decide)
  rw [hempty, onQueue_iff (l := []) rfl] at hqueued
  exact List.not_mem_nil hqueued

end DordOs
