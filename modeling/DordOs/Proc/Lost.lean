import DordOs.Proc.Runs

/-!
No process is lost, except in one way. `proc_sleep_msec` with a wait that is over
at once wakes the caller inside its own call, and `proc_schedule` then returns to
it without making it active again. The next tick takes the running process for
one that is queued, and drops it.
-/
namespace DordOs
open Lib

/-- An element of the queue that starts at `q`. -/
def OnQueue (s : Sched) (q p : Usz) : Prop := ∃ l, Chain s.next 0 q l ∧ p ∈ l

/-- Every process that is registered and has not exited is running or queued. -/
def NoneLost (c : SchedState) : Prop :=
  ∀ p ∈ c.registered, p = c.sched.procCurrent ∨ OnQueue c.sched c.sched.readyQ p ∨
    OnQueue c.sched c.sched.waitingQ p

/-- The step is not a tick that finds the running process marked ready. -/
def TickFindsActive (c : SchedState) (e : SchedEvent) : Prop :=
  e = .timer → c.sched.state c.sched.procCurrent ≠ procReady

instance (c : SchedState) (e : SchedEvent) : Decidable (TickFindsActive c e) :=
  inferInstanceAs (Decidable (_ → _))

theorem onQueue_iff {s : Sched} {q p : Usz} {l : List Usz} (h : Chain s.next 0 q l) :
    OnQueue s q p ↔ p ∈ l := by
  constructor
  · rintro ⟨l', hl', hp⟩
    rwa [h.unique hl']
  · exact fun hp => ⟨l, h, hp⟩

theorem noneLost_iff {c : SchedState} {a : ListSched} (rep : c.sched.Represents a) :
    NoneLost c ↔ a.Accounted c.registered := by
  simp only [NoneLost, ListSched.Accounted]
  rw [rep.current]
  exact forall_congr' fun p => imp_congr_right fun _ => or_congr_right
    (or_congr (onQueue_iff rep.ready) (onQueue_iff rep.waiting))

theorem SchedInvariant.noneLost_step {bits : Nat → U32} {c d : SchedState} {e : SchedEvent}
    (h : SchedInvariant bits c) (hc : NoneLost c) (hstep : SchedStep c e d) :
    NoneLost d ↔ TickFindsActive c e := by
  obtain ⟨a, rep, settled⟩ := h.lists
  simp only [TickFindsActive]
  rw [noneLost_iff (h.act hstep rep settled).1, rep.current, rep.state]
  exact h.act_accounted hstep rep settled ((noneLost_iff rep).mp hc)

/-- No process is lost at any point of a run exactly when no tick of the run
finds the running process marked ready. -/
theorem none_lost_iff_ticks_find_active {bits : Nat → U32} {s : Sched} (boot : Unscheduled bits s)
    {entry name : Usz} {tr : List (SchedState × SchedEvent)} {c : SchedState}
    (run : Run SchedStep (schedBoot s entry name) tr c) :
    ((∀ x ∈ tr, NoneLost x.1) ∧ NoneLost c) ↔ ∀ x ∈ tr, TickFindsActive x.1 x.2 :=
  run.forall_iff_guard (schedInvariant_boot boot entry name)
    (fun _ hp => absurd hp List.not_mem_nil) (fun _ _ _ h hstep => h.step boot.low hstep)
    fun _ _ _ h hc hstep => h.noneLost_step hc hstep

namespace ListSched

variable {a : ListSched} {reg : List Usz}

theorem due_goToSleep_self (msec : U32) :
    (a.goToSleep msec).due a.current = decide (a.now + msec ≤ a.now) := by
  change decide (Function.update a.timeEnd a.current (a.now + msec) a.current ≤ a.now) = _
  rw [Function.update_self]

theorem due_goToSleep_of_ne (msec : U32) {p : Usz} (h : p ≠ a.current) :
    (a.goToSleep msec).due p = a.due p := by
  change decide (Function.update a.timeEnd a.current (a.now + msec) p ≤ a.now) = _
  rw [Function.update_of_ne h]
  rfl

/-- The caller of `proc_sleep_msec` heads the ready list again when its wait is
over at once and nobody else's is. -/
theorem Settled.head_goToSleep (h : a.Settled reg) (msec : U32) {p : Usz} {rest : List Usz}
    (hready : (a.goToSleep msec).wake.ready = p :: rest) :
    p = a.current ↔ a.now + msec ≤ a.now ∧ ∀ q ∈ a.waiting, a.due q = false := by
  have hdue : a.waiting.filter (a.goToSleep msec).due = a.waiting.filter a.due :=
    List.filter_congr fun q hq =>
      due_goToSleep_of_ne msec fun heq => h.currentWaiting (heq ▸ hq)
  have hlist : ((a.current :: a.waiting).filter (a.goToSleep msec).due).reverse ++ a.ready =
      p :: rest := hready
  constructor
  · rintro rfl
    have hself : a.now + msec ≤ a.now := by
      obtain hw | hr := mem_wake_ready.mp (hready ▸ List.mem_cons_self)
      · have hd := hw.2
        rw [due_goToSleep_self] at hd
        exact of_decide_eq_true hd
      · exact absurd hr h.currentReady
    refine ⟨hself, fun q hq => ?_⟩
    rw [List.filter_cons_of_pos (by rw [due_goToSleep_self]; exact decide_eq_true hself), hdue,
      List.reverse_cons, List.append_assoc] at hlist
    cases hothers : (a.waiting.filter a.due).reverse with
    | nil =>
        have hnone := List.filter_eq_nil_iff.mp (List.reverse_eq_nil_iff.mp hothers) q hq
        exact Bool.eq_false_iff.mpr hnone
    | cons x xs =>
        rw [hothers] at hlist
        have hx : x ∈ a.waiting := by
          have hmem : x ∈ (a.waiting.filter a.due).reverse := hothers ▸ List.mem_cons_self
          exact List.mem_of_mem_filter (List.mem_reverse.mp hmem)
        rw [(List.cons.inj hlist).1] at hx
        exact absurd hx h.currentWaiting
  · rintro ⟨hself, hothers⟩
    have hnil : a.waiting.filter a.due = [] :=
      List.filter_eq_nil_iff.mpr fun q hq => by simp [hothers q hq]
    rw [List.filter_cons_of_pos (by rw [due_goToSleep_self]; exact decide_eq_true hself), hdue,
      hnil] at hlist
    exact (List.cons.inj hlist).1.symm

/-- Who goes to sleep is neither active nor the idle process when the due processes
have been woken. -/
theorem Settled.goToSleep_state (h : a.Settled reg) (hcur : a.current ∈ reg) (msec : U32) :
    (a.goToSleep msec).wake.state a.current ≠ procActive ∧
      (a.goToSleep msec).wake.state a.current ≠ procIdleTag := by
  have awake := (h.goToSleep hcur msec).wake
  obtain hr | hw := mem_waiting_wake (a := a.goToSleep msec) List.mem_cons_self
  · rw [show (a.goToSleep msec).wake.state a.current = procReady from awake.woken hr]
    decide
  · rw [show (a.goToSleep msec).wake.state a.current = procSleep from awake.asleep hw]
    decide

/-- How the running process comes to be marked ready: a sleep that is over at
once while no other process is due. -/
theorem Settled.sleep_marks_ready_iff (h : a.Settled reg) (hcur : a.current ∈ reg) (msec : U32) :
    let b := (a.goToSleep msec).schedule.1
    b.state b.current = procReady ↔
      a.now + msec ≤ a.now ∧ ∀ q ∈ a.waiting, a.due q = false := by
  have awake := (h.goToSleep hcur msec).wake
  have hasleep := h.goToSleep_state hcur msec
  have hinactive : ¬ (a.goToSleep msec).wake.Active := fun hactive => hasleep.1 hactive.2
  have hnext := next_cases (a.goToSleep msec).wake
  simp only [schedule]
  generalize (a.goToSleep msec).wake.next = r at hnext ⊢
  cases hnext with
  | idle hready _ =>
      refine iff_of_false ?_ ?_
      · intro hstate
        have htag : procIdleTag = procReady := awake.idleTag.symm.trans hstate
        cases htag
      · intro hself
        have hmem : a.current ∈ (a.goToSleep msec).wake.ready :=
          mem_wake_ready.mpr (Or.inl ⟨List.mem_cons_self, by
            rw [due_goToSleep_self]
            exact decide_eq_true hself.1⟩)
        rw [hready] at hmem
        cases hmem
  | stay _ hstay => exact absurd ⟨Or.inr hasleep, awake.idle.1⟩ hstay
  | slice hactive _ => exact absurd hactive hinactive
  | requeue p rest _ hactive => exact absurd hactive hinactive
  | take p rest hready _ =>
      rw [dispatch_current, ← h.head_goToSleep msec hready]
      simp only [dispatch]
      split
      case isTrue heq =>
        refine iff_of_true ?_ (show p = a.current from heq.symm)
        subst heq
        exact awake.woken (hready ▸ List.mem_cons_self)
      case isFalse hne =>
        refine iff_of_false ?_ (fun heq => hne heq.symm)
        change Function.update (a.goToSleep msec).wake.state p procActive p ≠ procReady
        rw [Function.update_self]
        decide

end ListSched

theorem SchedInvariant.sleep_marks_ready_iff {bits : Nat → U32} {c d : SchedState} {msec : U32}
    (h : SchedInvariant bits c) (hstep : SchedStep c (.sleep msec) d) :
    d.sched.state d.sched.procCurrent = procReady ↔
      c.sched.pitSystimeMsec + msec ≤ c.sched.pitSystimeMsec ∧
        ∀ p, OnQueue c.sched c.sched.waitingQ p → c.sched.due p = false := by
  obtain ⟨a, rep, settled⟩ := h.lists
  cases hstep with
  | sleep _ s' target hin hs =>
      have hreg := hin.registered rep settled
      have rep₁ := rep.goToSleep msec (fun h0 => settled.zero (h0 ▸ hreg))
        settled.currentWaiting settled.currentReady
      have rep' := (rep₁.reschedule (settled.goToSleep hreg msec) hs).1
      dsimp only
      rw [rep'.state, rep'.current, rep.now, rep.due]
      refine (settled.sleep_marks_ready_iff hreg msec).trans (and_congr_right fun _ => ?_)
      exact forall_congr' fun p => imp_congr_left (onQueue_iff rep.waiting).symm

/-- Two processes take turns, one of them asleep for a tick. -/
theorem none_lost_iff_ticks_find_active_turns :
    ∃ c : SchedState, c.registered = [49152, 32768] ∧ NoneLost c := by
  obtain ⟨r, hr⟩ := Option.isSome_iff_exists.mp (show (execRun schedExec (schedBoot emptySched 0 0)
    [.create 0 0, .create 0 0, .register 32768, .register 49152, .start, .timer, .sleep 1,
      .yield, .timer]).isSome by decide +kernel)
  have hend : (execRun schedExec (schedBoot emptySched 0 0)
      [.create 0 0, .create 0 0, .register 32768, .register 49152, .start, .timer, .sleep 1,
        .yield, .timer]).map (fun r => (r.2.registered,
          decide (∀ x ∈ r.1, TickFindsActive x.1 x.2))) =
      some ([49152, 32768], true) := by decide +kernel
  rw [hr] at hend
  obtain ⟨hregistered, hactive⟩ := Prod.mk.inj (Option.some.inj hend)
  exact ⟨r.2, hregistered, ((none_lost_iff_ticks_find_active unscheduled_empty
    (Run.of_exec (fun _ _ _ => schedExec_sound) hr)).mpr (of_decide_eq_true hactive)).2⟩

/-- The first process sleeps for 0 ms and runs on; the next tick switches to the
second one and leaves the first in no queue. -/
theorem sleep_zero_loses_process :
    ¬ ∀ (bits : Nat → U32) (s : Sched) (entry name : Usz) (tr : List (SchedState × SchedEvent))
      (c : SchedState), Unscheduled bits s → Run SchedStep (schedBoot s entry name) tr c →
      NoneLost c := by
  intro claim
  obtain ⟨r, hr⟩ := Option.isSome_iff_exists.mp (show (execRun schedExec (schedBoot emptySched 0 0)
    [.create 0 0, .create 0 0, .register 32768, .register 49152, .start, .sleep 0,
      .timer]).isSome by decide +kernel)
  have hend : (execRun schedExec (schedBoot emptySched 0 0)
      [.create 0 0, .create 0 0, .register 32768, .register 49152, .start, .sleep 0,
        .timer]).map (fun r => (r.2.registered, r.2.sched.procCurrent, r.2.sched.readyQ,
          r.2.sched.waitingQ)) = some ([49152, 32768], 32768, 0, 0) := by decide +kernel
  rw [hr] at hend
  obtain ⟨hregistered, hrest⟩ := Prod.mk.inj (Option.some.inj hend)
  obtain ⟨hcurrent, hrest⟩ := Prod.mk.inj hrest
  obtain ⟨hready, hwaiting⟩ := Prod.mk.inj hrest
  have hlost := claim lowBits emptySched 0 0 r.1 r.2 unscheduled_empty
    (Run.of_exec (fun _ _ _ => schedExec_sound) hr) 49152 (hregistered ▸ List.mem_cons_self)
  rw [hcurrent, hready, hwaiting, onQueue_iff (l := []) rfl] at hlost
  exact absurd hlost (by simp)

end DordOs
