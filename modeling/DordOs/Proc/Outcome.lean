import DordOs.Proc.Runs

/-!
What `proc_schedule` leaves behind, read off the two queues it is called with.
The list scheduler decides it; the queues need not come from a run.
-/
namespace DordOs
open Lib

namespace Sched

/-- A process is running and marked active. -/
def Active (s : Sched) : Prop := s.procCurrent ≠ 0 ∧ s.state s.procCurrent = procActive

instance (s : Sched) : Decidable s.Active := inferInstanceAs (Decidable (_ ∧ _))

/-- Nobody may go on running. -/
def Vacant (s : Sched) : Prop :=
  s.procCurrent = 0 ∨ s.state s.procCurrent ≠ procActive ∧ s.state s.procCurrent ≠ procIdleTag

instance (s : Sched) : Decidable s.Vacant := inferInstanceAs (Decidable (_ ∨ _))

/-- A heap with the two queues in it: disjoint, null-terminated and without the
idle process. The running process is in neither, unless it has just gone to
sleep. -/
structure Queued (s : Sched) (waiting ready : List Usz) : Prop where
  waitingQ : Chain s.next 0 s.waitingQ waiting
  readyQ : Chain s.next 0 s.readyQ ready
  disjoint : ∀ p ∈ waiting, p ∉ ready
  idle : s.procIdle ≠ 0
  idleWaiting : s.procIdle ∉ waiting
  idleReady : s.procIdle ∉ ready
  current : s.procCurrent ∉ ready
  asleep : s.procCurrent ∈ waiting → s.state s.procCurrent = procSleep

/-- The ready queue once the due processes are in front of it, the last one
first. -/
def readied (s : Sched) (waiting ready : List Usz) : List Usz :=
  (waiting.filter s.due).reverse ++ ready

/-- The ready queue, the running process and the switch made, if any, when the
queue `r` is ready. -/
structure Outcome (s : Sched) (r ready : List Usz) (current : Usz) (target : Option Usz) :
    Prop where
  idle : r = [] →
    ready = [] ∧ target = (if s.Vacant then some s.procIdle else none) ∧
      current = if s.Vacant then s.procIdle else s.procCurrent
  slice : r ≠ [] → s.Active → s.pitSystimeMsec < s.timeEnd s.procCurrent →
    ready = r ∧ target = none ∧ current = s.procCurrent
  turn : ∀ p rest, r = p :: rest →
    ¬ (s.Active ∧ s.pitSystimeMsec < s.timeEnd s.procCurrent) →
    ready = rest ++ (if s.Active then [s.procCurrent] else []) ∧
      target = (if s.procCurrent = p then none else some p) ∧ current = p

/-- Afterwards every process is in one place at most, and in one place if it was
queued or active. -/
structure Placed (s : Sched) (waiting ready waiting' ready' : List Usz) (current : Usz) :
    Prop where
  nodup : (current :: (waiting' ++ ready')).Nodup
  kept : ∀ p, p ∈ waiting ++ ready ∨ p = s.procCurrent ∧ s.Active →
    p ∈ current :: (waiting' ++ ready')

/-- The heap as the list scheduler sees it. -/
def lists (s : Sched) (waiting ready : List Usz) : ListSched :=
  ⟨waiting, ready, s.procCurrent, s.procIdle, s.pitSystimeMsec, s.timeEnd, s.state⟩

end Sched

namespace ListSched

variable {a : ListSched}

/-- Waking changes nothing about an active process. -/
theorem Wf.wake_active_iff (h : a.Wf) : a.wake.Active ↔ a.Active := by
  constructor
  · intro hactive
    have hstate := wake_state_of_not fun hw => h.wake_active hactive hw.1
    exact ⟨hactive.1, hstate.symm.trans hactive.2⟩
  · intro hactive
    have hw : a.current ∉ a.waiting := by
      intro hw
      have hstate := h.asleep hw
      rw [hactive.2] at hstate
      cases hstate
    exact ⟨hactive.1, (wake_state_of_not fun hp => hw hp.1).trans hactive.2⟩

theorem wake_state_of_empty (h : a.wake.ready = []) : a.wake.state = a.state := by
  funext p
  refine wake_state_of_not fun hp => ?_
  have hmem := mem_wake_ready.mpr (Or.inl hp)
  rw [h] at hmem
  cases hmem

theorem next_of_nil (h : a.ready = []) : a.next = a.goIdle := by
  simp only [next, h]

theorem next_of_slice (h : a.ready ≠ []) (active : a.Active) (slice : a.now < a.timeEnd a.current) :
    a.next = (a, none) := by
  obtain ⟨p, rest, hready⟩ := List.exists_cons_of_ne_nil h
  simp only [next, hready]
  rw [if_pos active, if_pos slice]

theorem next_of_turn {p : Usz} {rest : List Usz} (h : a.ready = p :: rest)
    (turn : ¬ (a.Active ∧ a.now < a.timeEnd a.current)) :
    a.next = { a with ready := rest ++ if a.Active then [a.current] else [] }.dispatch p := by
  simp only [next, h]
  by_cases hactive : a.Active
  · rw [if_pos hactive, if_pos hactive, if_neg fun hslice => turn ⟨hactive, hslice⟩]
  · rw [if_neg hactive, if_neg hactive, List.append_nil]

theorem dispatch_target (p : Usz) :
    (a.dispatch p).2 = if a.current = p then none else some p := by
  simp only [dispatch]
  split <;> rfl

/-- Waking only moves processes. -/
theorem wake_perm : (a.wake.waiting ++ a.wake.ready).Perm (a.waiting ++ a.ready) := by
  change (a.waiting.filter (fun p => !a.due p) ++
    ((a.waiting.filter a.due).reverse ++ a.ready)).Perm _
  rw [← List.append_assoc]
  refine List.Perm.append_right _ ?_
  refine (List.Perm.append_left _ (List.reverse_perm _)).trans ?_
  exact List.perm_append_comm.trans (List.filter_append_perm a.due a.waiting)

end ListSched

namespace Sched

variable {s : Sched} {waiting ready : List Usz}

theorem Queued.represents (h : s.Queued waiting ready) :
    s.Represents (s.lists waiting ready) :=
  ⟨h.waitingQ, h.readyQ, rfl, rfl, rfl, rfl, rfl⟩

theorem Queued.wf (h : s.Queued waiting ready) : (s.lists waiting ready).Wf :=
  ⟨h.disjoint, h.current, h.asleep⟩

theorem Queued.nodup (h : s.Queued waiting ready) : (waiting ++ ready).Nodup :=
  h.waitingQ.nodup.append h.readyQ.nodup h.disjoint

theorem Queued.active_wake_iff (h : s.Queued waiting ready) :
    (s.lists waiting ready).wake.Active ↔ s.Active :=
  h.wf.wake_active_iff

/-- An active process is in no queue. -/
theorem Queued.active_outside (h : s.Queued waiting ready) (active : s.Active) :
    s.procCurrent ∉ waiting ++ ready := by
  have hactive := h.active_wake_iff.mpr active
  intro hmem
  obtain hw | hr := List.mem_append.mp hmem
  · exact h.wf.wake_active hactive hw
  · exact h.current hr

/-- Who may go on running is in no queue either. -/
theorem Queued.remaining_outside (h : s.Queued waiting ready) (remains : ¬ s.Vacant) :
    s.procCurrent ∉ waiting ++ ready := by
  intro hmem
  obtain hw | hr := List.mem_append.mp hmem
  · refine remains (Or.inr ?_)
    rw [h.asleep hw]
    decide
  · exact h.current hr

theorem Queued.idle_outside (h : s.Queued waiting ready) : s.procIdle ∉ waiting ++ ready :=
  fun hmem => (List.mem_append.mp hmem).elim h.idleWaiting h.idleReady

theorem Queued.goIdle (h : s.Queued waiting ready) (empty : s.readied waiting ready = []) :
    (s.lists waiting ready).schedule.1.ready = [] ∧
      (s.lists waiting ready).schedule.2 = (if s.Vacant then some s.procIdle else none) ∧
      (s.lists waiting ready).schedule.1.current =
        if s.Vacant then s.procIdle else s.procCurrent := by
  have hready : (s.lists waiting ready).wake.ready = [] := empty
  have hstate := ListSched.wake_state_of_empty hready
  have hvacant : ((s.lists waiting ready).wake.current = 0 ∨
      (s.lists waiting ready).wake.state (s.lists waiting ready).wake.current ≠ procActive ∧
      (s.lists waiting ready).wake.state (s.lists waiting ready).wake.current ≠ procIdleTag) ∧
      (s.lists waiting ready).wake.idle ≠ 0 ↔ s.Vacant := by
    rw [hstate]
    exact and_iff_left h.idle
  simp only [ListSched.schedule]
  rw [ListSched.next_of_nil hready]
  simp only [ListSched.goIdle, hvacant]
  split
  · exact ⟨hready, rfl, rfl⟩
  · exact ⟨hready, rfl, rfl⟩

theorem Queued.slice (h : s.Queued waiting ready) (nonempty : s.readied waiting ready ≠ [])
    (active : s.Active) (slice : s.pitSystimeMsec < s.timeEnd s.procCurrent) :
    (s.lists waiting ready).schedule = ((s.lists waiting ready).wake, none) :=
  ListSched.next_of_slice nonempty (h.active_wake_iff.mpr active) slice

theorem Queued.turn (h : s.Queued waiting ready) {p : Usz} {rest : List Usz}
    (first : s.readied waiting ready = p :: rest)
    (turn : ¬ (s.Active ∧ s.pitSystimeMsec < s.timeEnd s.procCurrent)) :
    (s.lists waiting ready).schedule = { (s.lists waiting ready).wake with
      ready := rest ++ if s.Active then [s.procCurrent] else [] }.dispatch p := by
  have hturn : ¬ ((s.lists waiting ready).wake.Active ∧
      (s.lists waiting ready).wake.now < (s.lists waiting ready).wake.timeEnd
        (s.lists waiting ready).wake.current) := by
    rw [h.active_wake_iff]
    exact turn
  refine (ListSched.next_of_turn first hturn).trans ?_
  simp only [h.active_wake_iff]
  rfl

theorem Queued.outcome (h : s.Queued waiting ready) :
    s.Outcome (s.readied waiting ready) (s.lists waiting ready).schedule.1.ready
      (s.lists waiting ready).schedule.1.current (s.lists waiting ready).schedule.2 where
  idle := h.goIdle
  slice := fun nonempty active slice => by
    rw [h.slice nonempty active slice]
    exact ⟨rfl, rfl, rfl⟩
  turn := fun p rest first turn => by
    rw [h.turn first turn]
    exact ⟨ListSched.dispatch_ready _ _, ListSched.dispatch_target _,
      ListSched.dispatch_current _ _⟩

section Placed

variable {waiting' ready' : List Usz} {current : Usz}

/-- Every queued process is in one place, and one more is that was in none. -/
theorem Queued.placed_cons (h : s.Queued waiting ready) {x : Usz} (hx : x ∉ waiting ++ ready)
    (perm : (current :: (waiting' ++ ready')).Perm (x :: (waiting ++ ready)))
    (active : s.Active → x = s.procCurrent) :
    s.Placed waiting ready waiting' ready' current where
  nodup := perm.nodup_iff.mpr (List.nodup_cons.mpr ⟨hx, h.nodup⟩)
  kept := by
    rintro p (hp | ⟨rfl, hactive⟩)
    · exact perm.mem_iff.mpr (List.mem_cons_of_mem x hp)
    · exact perm.mem_iff.mpr (active hactive ▸ List.mem_cons_self)

theorem Queued.placed_perm (h : s.Queued waiting ready)
    (perm : (current :: (waiting' ++ ready')).Perm (waiting ++ ready)) (inactive : ¬ s.Active) :
    s.Placed waiting ready waiting' ready' current where
  nodup := perm.nodup_iff.mpr h.nodup
  kept := by
    rintro p (hp | ⟨_, hactive⟩)
    · exact perm.mem_iff.mpr hp
    · exact absurd hactive inactive

end Placed

/-- The head of the ready queue runs; the active process, if any, queues up. -/
theorem Queued.placed_turn (h : s.Queued waiting ready) {p : Usz} {rest : List Usz}
    (first : s.readied waiting ready = p :: rest) :
    s.Placed waiting ready (s.lists waiting ready).wake.waiting
      (rest ++ if s.Active then [s.procCurrent] else []) p := by
  have perm : (p :: ((s.lists waiting ready).wake.waiting ++ rest)).Perm (waiting ++ ready) := by
    have hwake : ((s.lists waiting ready).wake.waiting ++ s.readied waiting ready).Perm
      (waiting ++ ready) := ListSched.wake_perm
    rw [first] at hwake
    exact List.perm_middle.symm.trans hwake
  by_cases hactive : s.Active
  · rw [if_pos hactive]
    refine h.placed_cons (h.active_outside hactive) ?_ fun _ => rfl
    rw [← List.append_assoc, ← List.cons_append]
    exact (List.perm_append_singleton _ _).trans (perm.cons _)
  · rw [if_neg hactive, List.append_nil]
    exact h.placed_perm perm hactive

theorem Queued.placed (h : s.Queued waiting ready) :
    s.Placed waiting ready (s.lists waiting ready).schedule.1.waiting
      (s.lists waiting ready).schedule.1.ready (s.lists waiting ready).schedule.1.current := by
  have hwaiting : (s.lists waiting ready).schedule.1.waiting =
      (s.lists waiting ready).wake.waiting := ListSched.next_waiting
  have perm : ((s.lists waiting ready).wake.waiting ++ s.readied waiting ready).Perm
    (waiting ++ ready) := ListSched.wake_perm
  rw [hwaiting]
  cases hr : s.readied waiting ready with
  | nil =>
      obtain ⟨hready, _, hcurrent⟩ := h.goIdle hr
      rw [hready, hcurrent]
      rw [hr] at perm
      by_cases hvacant : s.Vacant
      · rw [if_pos hvacant]
        refine h.placed_cons h.idle_outside (perm.cons _) fun hactive => ?_
        obtain h0 | htag := hvacant
        · exact absurd h0 hactive.1
        · exact absurd hactive.2 htag.1
      · rw [if_neg hvacant]
        exact h.placed_cons (h.remaining_outside hvacant) (perm.cons _) fun _ => rfl
  | cons p rest =>
      by_cases hslice : s.Active ∧ s.pitSystimeMsec < s.timeEnd s.procCurrent
      · obtain ⟨hactive, hslice⟩ := hslice
        rw [h.slice (hr ▸ List.cons_ne_nil p rest) hactive hslice]
        exact h.placed_cons (h.active_outside hactive) (perm.cons _) fun _ => rfl
      · rw [h.turn hr hslice, ListSched.dispatch_ready, ListSched.dispatch_current]
        exact h.placed_turn hr

end Sched

/-- From any heap with two well-formed queues `proc_schedule` returns. The due
processes leave the waiting queue and go to the front of the ready one, whose
head runs next unless the active process has time left; the idle process, unless
it is itself marked active, runs only if nobody else can; and no process gets
lost or into two places. -/
theorem procSchedule_outcome {s : Sched} {waiting ready : List Usz} (h : s.Queued waiting ready) :
    ∃ s' target waiting' ready', procSchedule s = some (s', target) ∧
      Chain s'.next 0 s'.waitingQ waiting' ∧ Chain s'.next 0 s'.readyQ ready' ∧
      waiting' = waiting.filter (fun p => !s.due p) ∧
      s.Outcome (s.readied waiting ready) ready' s'.procCurrent target ∧
      s.Placed waiting ready waiting' ready' s'.procCurrent ∧
      (s.state s.procIdle ≠ procActive → s'.procCurrent = s.procIdle →
        s.readied waiting ready = []) := by
  obtain ⟨s', hs', rep, _⟩ := h.represents.schedule h.wf
  refine ⟨s', _, _, _, hs', rep.waiting, rep.ready, ListSched.next_waiting, ?_⟩
  rw [rep.current]
  refine ⟨h.outcome, h.placed, fun hstate hcurrent => ?_⟩
  cases hr : s.readied waiting ready with
  | nil => rfl
  | cons p rest =>
      exfalso
      by_cases hslice : s.Active ∧ s.pitSystimeMsec < s.timeEnd s.procCurrent
      · obtain ⟨_, _, hcur⟩ := h.outcome.slice (hr ▸ List.cons_ne_nil p rest) hslice.1 hslice.2
        exact hstate ((hcur.symm.trans hcurrent) ▸ hslice.1.2)
      · obtain ⟨_, _, hcur⟩ := h.outcome.turn p rest hr hslice
        have hp : p ∈ waiting ++ ready := by
          have hmem : p ∈ s.readied waiting ready := hr ▸ List.mem_cons_self
          obtain hw | hq := List.mem_append.mp hmem
          · exact List.mem_append_left _ (List.mem_of_mem_filter (List.mem_reverse.mp hw))
          · exact List.mem_append_right _ hq
        exact h.idle_outside ((hcur.symm.trans hcurrent) ▸ hp)

/-- A heap with a process at 0x1000 that is due, one at 0x2000 that is not, a
ready one at 0x3000 and a running one at 0x4000 whose slice is over. -/
def busySched : Sched where
  entry := fun _ => 0
  next := fun p => if p = 4096 then 8192 else 0
  timeEnd := fun p => if p = 8192 then 9 else 5
  name := fun _ => 0
  state := fun p => if p = 16384 then procActive else if p = 12288 then procReady else procSleep
  procCurrent := 16384
  procIdle := 20480
  readyQ := 12288
  waitingQ := 4096
  pitSystimeMsec := 5
  pmmanKernelMap := pmmanKernelMap lowBits

theorem queued_busy : busySched.Queued [4096, 8192] [12288] where
  waitingQ := by decide
  readyQ := by decide
  disjoint := by simp
  idle := by decide
  idleWaiting := by decide
  idleReady := by decide
  current := by decide
  asleep := by decide

theorem procSchedule_outcome_busy :
    ∃ s' target, procSchedule busySched = some (s', target) ∧ s'.procCurrent = 4096 ∧
      Chain s'.next 0 s'.waitingQ [8192] ∧ Chain s'.next 0 s'.readyQ [12288, 16384] := by
  obtain ⟨s', target, waiting', ready', hs', hwaiting, hready, hleft, houtcome, _⟩ :=
    procSchedule_outcome queued_busy
  obtain ⟨hrest, _, hcurrent⟩ := houtcome.turn 4096 [12288] (by decide) (by decide)
  refine ⟨s', target, hs', hcurrent, ?_, ?_⟩
  · have hone : waiting' = [8192] := hleft.trans (by decide)
    rwa [hone] at hwaiting
  · have htwo : ready' = [12288, 16384] := hrest.trans (by decide)
    rwa [htwo] at hready

/-- With the idle process marked active, as `proc_init_scheduler` never leaves it. -/
def activeIdleSched : Sched :=
  { busySched with procIdle := 16384, timeEnd := fun _ => 9 }

theorem queued_activeIdle : activeIdleSched.Queued [4096, 8192] [12288] where
  waitingQ := queued_busy.waitingQ
  readyQ := queued_busy.readyQ
  disjoint := queued_busy.disjoint
  idle := by decide
  idleWaiting := by decide
  idleReady := by decide
  current := queued_busy.current
  asleep := queued_busy.asleep

/-- It keeps the CPU for the rest of its slice, like any active process. -/
theorem active_idle_runs_on :
    ¬ ∀ (s : Sched) (waiting ready : List Usz), s.Queued waiting ready →
      ∀ s' target, procSchedule s = some (s', target) → s'.procCurrent = s.procIdle →
        s.readied waiting ready = [] := by
  intro claim
  obtain ⟨r, hr⟩ := Option.isSome_iff_exists.mp
    (show (procSchedule activeIdleSched).isSome by decide)
  have hcurrent : (procSchedule activeIdleSched).map (fun r => r.1.procCurrent) = some 16384 := by
    decide
  rw [hr] at hcurrent
  have hnil := claim activeIdleSched _ _ queued_activeIdle r.1 r.2 hr (Option.some.inj hcurrent)
  exact absurd hnil (by decide)

end DordOs
