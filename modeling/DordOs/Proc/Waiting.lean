import DordOs.Proc.Sleep
import DordOs.Proc.Outcome

/-!
How long a ready process waits. Nobody overtakes it but the processes that are woken or
registered meanwhile, since those go to the front of the ready queue, and whoever runs gives
way at the latest eight ticks after its turn began. What bounds the wait is therefore the
place in the queue and the number of those that join in front.
-/
namespace DordOs
open Lib

namespace ListSched

variable {a : ListSched} {reg : List Usz} {p : Usz} {before after : List Usz}

/-- The ticks up to the one that takes the CPU from the current process, given that somebody
is ready. -/
def sliceLeft (a : ListSched) : Nat :=
  if a.Active ∧ a.now + 1 < a.timeEnd a.current then
    (a.timeEnd a.current - (a.now + 1)).toNat + 1
  else 1

theorem sliceLeft_pos : 0 < a.sliceLeft := by
  simp only [sliceLeft]
  split
  · exact Nat.succ_pos _
  · exact Nat.one_pos

theorem sliceLeft_of_not_active (h : ¬ a.Active) : a.sliceLeft = 1 :=
  if_neg fun hand => h hand.1

theorem sliceLeft_switch (q : Usz) : (a.switch q).sliceLeft ≤ 8 := by
  have hend : (a.switch q).timeEnd (a.switch q).current = a.now + 8 :=
    @Function.update_self _ (fun _ => U32) _ q (a.now + 8) a.timeEnd
  have hnow : (a.switch q).now = a.now := rfl
  simp only [sliceLeft]
  rw [hend, hnow]
  split
  · have hsub : a.now + 8 - (a.now + 1) = 7 := by bv_omega
    rw [hsub]
    decide
  · decide

theorem sliceLeft_dispatch (q : Usz) (h : a.current = q → ¬ a.Active) :
    (a.dispatch q).1.sliceLeft ≤ 8 := by
  simp only [dispatch]
  split
  next heq =>
    rw [sliceLeft_of_not_active (h heq)]
    decide
  next => exact sliceLeft_switch q

/-- A tick within the slice uses up one tick of it. -/
theorem sliceLeft_tick (active : a.Active) (h : a.now + 1 < a.timeEnd a.current)
    {b : ListSched} (hnow : b.now = a.now + 1)
    (hend : b.timeEnd b.current = a.timeEnd a.current) : b.sliceLeft + 1 ≤ a.sliceLeft := by
  have ha : a.sliceLeft = (a.timeEnd a.current - (a.now + 1)).toNat + 1 := if_pos ⟨active, h⟩
  rw [ha]
  simp only [sliceLeft]
  rw [hend, hnow]
  split <;> bv_omega

theorem sliceLeft_yield (h : a.now ≠ 0xFFFFFFFF) : a.yield.sliceLeft = 1 := by
  refine if_neg fun hand => ?_
  have hend : a.yield.timeEnd a.yield.current = a.now :=
    @Function.update_self _ (fun _ => U32) _ a.current a.now a.timeEnd
  have hlt := hand.2
  rw [hend] at hlt
  change a.now + 1 < a.now at hlt
  bv_omega

/-- The processes that are woken, in the order they are in front of the ready list. -/
def woken (a : ListSched) : List Usz := (a.waiting.filter a.due).reverse

/-- How a call of the scheduler moves a ready process: it runs, or the call returned to a
process within its slice, or one of those in front of it left the queue. -/
structure Moved (a b : ListSched) (p : Usz) (before before' : List Usz) : Prop where
  ready : ∃ after, b.ready = before' ++ p :: after
  turn : (a.wake.Active ∧ a.now < a.timeEnd a.current ∧ b = a.wake ∧
      before' = a.woken ++ before) ∨
    ((∃ q, q :: before' = a.woken ++ before) ∧ b.sliceLeft ≤ 8)

theorem wake_ready_split (h : a.ready = before ++ p :: after) :
    a.wake.ready = (a.woken ++ before) ++ p :: after := by
  change (a.waiting.filter a.due).reverse ++ a.ready = _
  rw [h, List.append_assoc]
  rfl

/-- Taking the head `q` of the ready list, whoever queues up at its end. -/
theorem moved_of_head {rest : List Usz} (more : List Usz) {q : Usz} {b : ListSched}
    (hhead : (a.woken ++ before) ++ p :: after = q :: rest)
    (hready : b.ready = rest ++ more) (hcur : b.current = q) (hslice : b.sliceLeft ≤ 8) :
    b.current = p ∨ ∃ before', a.Moved b p before before' := by
  cases hpre : a.woken ++ before with
  | nil =>
      rw [hpre] at hhead
      obtain ⟨hq, _⟩ := List.cons.inj hhead
      exact .inl (hcur.trans hq.symm)
  | cons x pre =>
      rw [hpre] at hhead
      obtain ⟨_, hrest⟩ := List.cons.inj hhead
      refine .inr ⟨pre, ⟨after ++ more, ?_⟩, .inr ⟨⟨x, hpre.symm⟩, hslice⟩⟩
      rw [hready, ← hrest]
      exact List.append_assoc pre (p :: after) more

theorem Entry.schedule_moves (entry : a.Entry reg) (hready : a.ready = before ++ p :: after) :
    a.schedule.1.current = p ∨ ∃ before', a.Moved a.schedule.1 p before before' := by
  have awake := entry.wake
  have hwake := wake_ready_split hready
  have hnil : a.wake.ready ≠ [] := by
    rw [hwake]
    exact List.append_ne_nil_of_right_ne_nil _ (List.cons_ne_nil _ _)
  have hnext := next_cases a.wake
  simp only [ListSched.schedule]
  generalize a.wake.next = r at hnext ⊢
  cases hnext with
  | idle hempty _ => exact absurd hempty hnil
  | stay hempty _ => exact absurd hempty hnil
  | slice hactive hslice => exact .inr ⟨_, ⟨after, hwake⟩, .inl ⟨hactive, hslice, rfl, rfl⟩⟩
  | requeue q rest hhead hactive =>
      have hne : a.wake.current ≠ q := fun heq =>
        (awake.active_outside hactive).1 (hhead ▸ heq ▸ List.mem_cons_self)
      refine moved_of_head [a.wake.current] (hwake.symm.trans hhead) (dispatch_ready _ q)
        (dispatch_current _ q) (sliceLeft_dispatch q fun heq => absurd heq hne)
  | take q rest hhead hinactive =>
      refine moved_of_head [] (hwake.symm.trans hhead) ?_ (dispatch_current _ q)
        (sliceLeft_dispatch q fun _ => hinactive)
      exact (dispatch_ready _ q).trans (List.append_nil rest).symm

/-- The processes that join the ready list in front, the last one first. -/
def joined (a : ListSched) : SchedEvent → List Usz
  | .create _ _ | .yield => []
  | .register q => [q]
  | .start => a.woken
  | .timer => a.tick.woken
  | .sleep msec => (a.goToSleep msec).woken
  | .exit => a.leave.woken

/-- What a step leaves of the wait of a process: in front of it some of those that were and
of those that joined, in their order, and eight ticks for each. -/
structure Waits (a b : ListSched) (e : SchedEvent) (p : Usz) (before before' : List Usz) :
    Prop where
  ready : ∃ after, b.ready = before' ++ p :: after
  places : before'.Sublist (a.joined e ++ before)
  ticks : 8 * before'.length + b.sliceLeft + (if e = .timer then 1 else 0) ≤
    8 * ((a.joined e).length + before.length) + a.sliceLeft

/-- A call of the scheduler that does not return to a process within its slice. -/
theorem Moved.waits {b c : ListSched} {e : SchedEvent} {before' : List Usz}
    (h : c.Moved b p before before') (hjoined : c.woken = a.joined e)
    (inactive : ¬ c.wake.Active) : a.Waits b e p before before' := by
  obtain hslice | ⟨⟨q, hq⟩, hleft⟩ := h.turn
  · exact absurd hslice.1 inactive
  · rw [hjoined] at hq
    have hlen := congrArg List.length hq
    rw [List.length_cons, List.length_append] at hlen
    refine ⟨h.ready, hq ▸ List.sublist_cons_self q before', ?_⟩
    have hpos : 0 < a.sliceLeft := sliceLeft_pos
    split <;> omega

/-- A tick. -/
theorem Moved.waits_tick {b : ListSched} {before' : List Usz} (settled : a.Settled reg)
    (h : a.tick.Moved b p before before') : a.Waits b .timer p before before' := by
  have hpos : 0 < a.sliceLeft := sliceLeft_pos
  obtain ⟨hactive, hslice, rfl, rfl⟩ | ⟨⟨q, hq⟩, hleft⟩ := h.turn
  · have hactive : a.Active := settled.tick.wf.wake_active_iff.mp hactive
    have hslice : a.now + 1 < a.timeEnd a.current := hslice
    have hleft : a.tick.wake.sliceLeft + 1 ≤ a.sliceLeft := sliceLeft_tick hactive hslice rfl rfl
    refine ⟨h.ready, List.Sublist.refl _, ?_⟩
    change 8 * (a.joined .timer ++ before).length + _ + _ ≤ _
    rw [if_pos rfl, List.length_append]
    omega
  · change q :: before' = a.joined .timer ++ before at hq
    have hlen := congrArg List.length hq
    rw [List.length_cons, List.length_append] at hlen
    refine ⟨h.ready, hq ▸ List.sublist_cons_self q before', ?_⟩
    rw [if_pos rfl]
    omega

/-- A step that puts processes in front and gives nobody a turn. -/
theorem Waits.of_ready {b : ListSched} {e : SchedEvent}
    (hready : b.ready = (a.joined e ++ before) ++ p :: after)
    (hslice : b.sliceLeft ≤ a.sliceLeft) (he : e ≠ .timer) :
    a.Waits b e p before (a.joined e ++ before) := by
  refine ⟨⟨after, hready⟩, List.Sublist.refl _, ?_⟩
  rw [if_neg he, List.length_append]
  omega

theorem sliceLeft_register (q : Usz) : (a.register q).sliceLeft ≤ a.sliceLeft := by
  by_cases hactive : (a.register q).Active
  · have hne : a.current ≠ q := by
      rintro rfl
      have hstate : (a.register a.current).state a.current = procActive := hactive.2
      rw [register_state, Function.update_self] at hstate
      cases hstate
    have hstate : (a.register q).state a.current = a.state a.current := by
      rw [register_state, Function.update_of_ne hne]
    have hold : a.Active := ⟨hactive.1, hstate.symm.trans hactive.2⟩
    have hiff : (a.register q).Active ↔ a.Active := iff_of_true hactive hold
    have hslice : (a.register q).sliceLeft = a.sliceLeft :=
      if_congr (and_congr_left' hiff) rfl rfl
    exact Nat.le_of_eq hslice
  · rw [sliceLeft_of_not_active hactive]
    exact sliceLeft_pos

end ListSched

section

variable {bits : Nat → U32} {c d : SchedState} {e : SchedEvent} {a : ListSched} {p : Usz}
  {before after : List Usz}

/-- A step lets a ready process run, or leaves it waiting. Only a process that yields at the
last tick before the counter wraps keeps the CPU for longer. -/
theorem SchedStep.waits (hstep : SchedStep c e d) (rep : c.sched.Represents a)
    (settled : a.Settled c.registered) (hready : a.ready = before ++ p :: after)
    (hyield : e = .yield → a.now ≠ 0xFFFFFFFF) :
    (a.act e).current = p ∨ ∃ before', a.Waits (a.act e) e p before before' := by
  cases hstep with
  | create entry name hp =>
      exact .inr ⟨before, .of_ready hready (Nat.le_refl _) (by simp)⟩
  | register q hq =>
      have hfront : (a.register q).ready = (q :: before) ++ p :: after := congrArg (q :: ·) hready
      exact .inr ⟨q :: before, .of_ready hfront (ListSched.sliceLeft_register q) (by simp)⟩
  | start s' target hcur hs =>
      obtain hrun | ⟨before', h⟩ := settled.entry.schedule_moves hready
      · exact .inl hrun
      · exact .inr ⟨before', h.waits rfl fun hactive => hactive.1 (rep.current.symm.trans hcur)⟩
  | timer s' target hcur hs =>
      obtain hrun | ⟨before', h⟩ := settled.tick.schedule_moves hready
      · exact .inl hrun
      · exact .inr ⟨before', h.waits_tick settled⟩
  | sleep msec s' target hin hs =>
      have hreg := hin.registered rep settled
      have entry := settled.goToSleep hreg msec
      have hinactive : ¬ (a.goToSleep msec).wake.Active := fun hactive =>
        (settled.goToSleep_state hreg msec).1 hactive.2
      obtain hrun | ⟨before', h⟩ := entry.schedule_moves hready
      · exact .inl hrun
      · exact .inr ⟨before', h.waits rfl hinactive⟩
  | yield hin =>
      refine .inr ⟨before, .of_ready hready ?_ (by simp)⟩
      rw [show (a.act .yield).sliceLeft = 1 from ListSched.sliceLeft_yield (hyield rfl)]
      exact ListSched.sliceLeft_pos
  | exit s' target hin hs =>
      obtain hrun | ⟨before', h⟩ := settled.leave.schedule_moves hready
      · exact .inl hrun
      · exact .inr ⟨before', h.waits rfl fun hactive => hactive.1 rfl⟩

end

namespace Sched

variable (s : Sched)

/-- The ticks up to the one that takes the CPU from the current process. -/
def sliceLeft : Nat :=
  if s.Active ∧ s.pitSystimeMsec + 1 < s.timeEnd s.procCurrent then
    (s.timeEnd s.procCurrent - (s.pitSystimeMsec + 1)).toNat + 1
  else 1

/-- The due processes of the queue at `p`, the last one first. -/
def dueFrom : Nat → Usz → List Usz
  | 0, _ => []
  | n + 1, p => if p = 0 then [] else dueFrom n (s.next p) ++ if s.due p then [p] else []

/-- The processes a step puts at the front of the ready queue, the last one first. -/
def joined : SchedEvent → List Usz
  | .create _ _ | .yield => []
  | .register q => [q]
  | .start => s.dueFrom walkSteps s.waitingQ
  | .timer => (pitHandleInterrupt s).dueFrom walkSteps s.waitingQ
  | .sleep msec => (procSleepMsecEnter s msec).dueFrom walkSteps s.procCurrent
  | .exit => (procExitEnter s).dueFrom walkSteps s.waitingQ

variable {s} {a : ListSched} {reg : List Usz}

theorem dueFrom_eq {n : Nat} {p : Usz} {l : List Usz} (h : Chain s.next 0 p l)
    (hn : l.length < n) : s.dueFrom n p = (l.filter s.due).reverse := by
  induction l generalizing n p with
  | nil =>
      obtain ⟨n, rfl⟩ := Nat.exists_eq_succ_of_ne_zero (by omega : n ≠ 0)
      exact if_pos h
  | cons x l ih =>
      obtain ⟨n, rfl⟩ := Nat.exists_eq_succ_of_ne_zero (by omega : n ≠ 0)
      obtain ⟨rfl, hne, hl⟩ := h
      rw [dueFrom, if_neg hne, ih hl (Nat.lt_of_succ_lt_succ hn), List.filter_cons]
      split
      · exact List.reverse_cons.symm
      · exact List.append_nil _

theorem Represents.dueFrom (h : s.Represents a) :
    s.dueFrom walkSteps s.waitingQ = a.woken := by
  rw [dueFrom_eq h.waiting (queue_length_lt h.waiting), h.due]
  rfl

theorem Represents.active_iff (h : s.Represents a) : s.Active ↔ a.Active := by
  rw [Active, ListSched.Active, h.current, h.state]

theorem Represents.sliceLeft (h : s.Represents a) : s.sliceLeft = a.sliceLeft := by
  rw [Sched.sliceLeft, ListSched.sliceLeft, h.now, h.timeEnd, h.current]
  exact if_congr (and_congr_left' h.active_iff) rfl rfl

theorem Represents.joined {c d : SchedState} {e : SchedEvent} (h : c.sched.Represents a)
    (settled : a.Settled c.registered) (hstep : SchedStep c e d) :
    c.sched.joined e = a.joined e := by
  cases hstep with
  | create entry name hp => rfl
  | register q hq => rfl
  | yield hin => rfl
  | start s' target hcur hs => exact h.dueFrom
  | timer s' target hcur hs => exact h.tick.dueFrom
  | exit s' target hin hs => exact h.leave.dueFrom
  | sleep msec s' target hin hs =>
      have hreg := hin.registered h settled
      exact (h.goToSleep msec (fun h0 => settled.zero (h0 ▸ hreg)) settled.currentWaiting
        settled.currentReady).dueFrom

end Sched

/-- The processes that went to the front of the ready queue in a run, the last one first. -/
def joined (tr : List (SchedState × SchedEvent)) : List Usz :=
  (tr.reverse.map fun x => x.1.sched.joined x.2).flatten

theorem joined_snoc (tr : List (SchedState × SchedEvent)) (c : SchedState) (e : SchedEvent) :
    joined (tr ++ [(c, e)]) = c.sched.joined e ++ joined tr := by
  rw [joined, List.reverse_append, List.reverse_singleton, List.map_append, List.map_singleton,
    List.flatten_append, List.flatten_singleton]
  rfl

/-- What is left of the wait of `p` after a run from a state in which it had `first` in front
of it and the running one had `left` ticks to go. -/
structure StillReady (bits : Nat → U32) (p : Usz) (first : List Usz) (left : Nat)
    (tr : List (SchedState × SchedEvent)) (c : SchedState) : Prop where
  keeps : SchedInvariant bits c
  wait : ∃ (a : ListSched) (before after : List Usz), c.sched.Represents a ∧
    a.Settled c.registered ∧ a.ready = before ++ p :: after ∧ before.Sublist (joined tr ++ first) ∧
    8 * before.length + a.sliceLeft + ticks tr ≤ 8 * ((joined tr).length + first.length) + left

theorem StillReady.step {bits : Nat → U32} (h0 : bitAt bits 0 = true) {p : Usz}
    {first : List Usz} {left : Nat} {tr : List (SchedState × SchedEvent)} {c d : SchedState} {e : SchedEvent}
    (h : StillReady bits p first left tr c)
    (hyield : e = .yield → c.sched.pitSystimeMsec ≠ 0xFFFFFFFF) (hstep : SchedStep c e d) :
    d.sched.procCurrent = p ∨ StillReady bits p first left (tr ++ [(c, e)]) d := by
  obtain ⟨a, before, after, rep, settled, hready, hplaces, hticks⟩ := h.wait
  obtain ⟨rep', settled'⟩ := h.keeps.act hstep rep settled
  rw [rep.now] at hyield
  obtain hrun | ⟨before', hwaits⟩ := hstep.waits rep settled hready hyield
  · exact .inl (rep'.current.trans hrun)
  · obtain ⟨after', hready'⟩ := hwaits.ready
    have hplaces' := hwaits.places
    have hticks' := hwaits.ticks
    refine .inr ⟨h.keeps.step h0 hstep, a.act e, before', after', rep', settled', hready', ?_, ?_⟩
    all_goals rw [joined_snoc, rep.joined settled hstep]
    · rw [List.append_assoc]
      exact hplaces'.trans (hplaces.append_left (a.joined e))
    · rw [ticks_snoc, List.length_append]
      omega

/-- A ready process with `before` in front of it runs at the latest after the rest of the
running slice and eight ticks for each process in front of it, those that join in front
meanwhile included; until then it stays in the queue, and in front of it are only some of
them, in their order. -/
theorem ready_process_runs {bits : Nat → U32} {s : Sched} (boot : Unscheduled bits s)
    {entry name : Usz} {tr₀ tr : List (SchedState × SchedEvent)} {c d : SchedState} {p : Usz}
    {before after : List Usz} (reached : Run SchedStep (schedBoot s entry name) tr₀ c)
    (run : Run SchedStep c tr d)
    (ready : Chain c.sched.next 0 c.sched.readyQ (before ++ p :: after))
    (yields : ∀ x ∈ tr, x.2 = .yield → x.1.sched.pitSystimeMsec ≠ 0xFFFFFFFF) :
    ((∃ x ∈ tr, x.1.sched.procCurrent = p) ∨ d.sched.procCurrent = p) ∨
      ∃ before' after', Chain d.sched.next 0 d.sched.readyQ (before' ++ p :: after') ∧
        before'.Sublist (joined tr ++ before) ∧
        8 * before'.length + ticks tr <
          8 * ((joined tr).length + before.length) + c.sched.sliceLeft := by
  have inv := SchedInvariant.of_run boot reached
  obtain ⟨a, rep, settled⟩ := inv.lists
  have hstart : StillReady bits p before c.sched.sliceLeft [] c := by
    refine ⟨inv, a, before, after, rep, settled, rep.ready.unique ready, List.Sublist.refl _, ?_⟩
    rw [rep.sliceLeft]
    exact Nat.le_of_eq (congrArg (8 * · + a.sliceLeft) (Nat.zero_add _).symm)
  refine (run.unless yields hstart fun tr u e v h hyield hstep =>
    h.step boot.low hyield hstep).imp_right fun h => ?_
  obtain ⟨b, before', after', rep', _, hready', hplaces, hticks⟩ := h.wait
  have hpos : 0 < b.sliceLeft := ListSched.sliceLeft_pos
  refine ⟨before', after', ?_, hplaces, by omega⟩
  rw [← hready']
  exact rep'.ready

/-- Of processes that never give way the second one runs within 16 ticks, though a third one
is registered meanwhile. -/
theorem ready_process_runs_second : ∃ c tr d, c.sched.procCurrent = 49152 ∧
    Run SchedStep c tr d ∧ joined tr = [65536] ∧ ticks tr = 16 ∧
    ((∃ x ∈ tr, x.1.sched.procCurrent = 32768) ∨ d.sched.procCurrent = 32768) := by
  have hend : ((execRun schedExec (schedBoot emptySched 0 0)
      [.create 0 0, .create 0 0, .register 32768, .register 49152, .start]).bind fun r₀ =>
        (execRun schedExec r₀.2 ([.create 0 0, .register 65536] ++ List.replicate 16 .timer)).map
          fun r => (r₀.2.sched.procCurrent, r₀.2.sched.sliceLeft, ticks r.1, joined r.1,
            decide (Chain r₀.2.sched.next 0 r₀.2.sched.readyQ ([] ++ [32768])),
            decide (∀ x ∈ r.1, x.2 = .yield → x.1.sched.pitSystimeMsec ≠ 0xFFFFFFFF))) =
      some (49152, 8, 16, [65536], true, true) := by decide +kernel
  obtain ⟨r₀, hr₀, hend⟩ := Option.bind_eq_some_iff.mp hend
  obtain ⟨r, hr, hend⟩ := Option.map_eq_some_iff.mp hend
  obtain ⟨hcurrent, hend⟩ := Prod.mk.inj hend
  obtain ⟨hslice, hend⟩ := Prod.mk.inj hend
  obtain ⟨hticks, hend⟩ := Prod.mk.inj hend
  obtain ⟨hjoined, hend⟩ := Prod.mk.inj hend
  obtain ⟨hready, hyields⟩ := Prod.mk.inj hend
  have hrun : Run SchedStep r₀.2 r.1 r.2 := Run.of_exec (fun _ _ _ => schedExec_sound) hr
  refine ⟨r₀.2, r.1, r.2, hcurrent, hrun, hjoined, hticks, ?_⟩
  refine (ready_process_runs unscheduled_empty (Run.of_exec (fun _ _ _ => schedExec_sound) hr₀)
    hrun (of_decide_eq_true hready) (of_decide_eq_true hyields)).resolve_right fun hwait => ?_
  obtain ⟨before', _, _, _, hbound⟩ := hwait
  rw [hticks, hjoined, hslice, List.length_nil, List.length_singleton] at hbound
  omega

end DordOs
