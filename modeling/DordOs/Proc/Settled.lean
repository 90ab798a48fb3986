import DordOs.Proc.Schedule

/-!
What a call of the scheduler makes of the processes, on lists. Between calls
every registered process is in at most one place and the current one in no
queue. A call keeps that, and it loses a process in one case only: the current
process is awake but marked ready, so that it counts as queued when it is not.
-/
namespace DordOs
open Lib

namespace ListSched

/-- Where processes may be, given the registered ones. -/
structure Located (a : ListSched) (reg : List Usz) : Prop where
  waitingNodup : a.waiting.Nodup
  readyNodup : a.ready.Nodup
  disjoint : ∀ p ∈ a.waiting, p ∉ a.ready
  waiting : ∀ p ∈ a.waiting, p ∈ reg
  ready : ∀ p ∈ a.ready, p ∈ reg
  idle : a.idle ≠ 0 ∧ a.idle ∉ reg
  idleTag : a.state a.idle = procIdleTag
  zero : 0 ∉ reg
  current : a.current = 0 ∨ a.current = a.idle ∨ a.current ∈ reg

/-- The tag of a process that runs. -/
def Running (a : ListSched) (p : Usz) : Prop :=
  a.state p = procActive ∨ a.state p = procReady

/-- Between two steps. -/
structure Settled (a : ListSched) (reg : List Usz) : Prop extends Located a reg where
  currentReady : a.current ∉ a.ready
  currentWaiting : a.current ∉ a.waiting
  tag : a.current ∈ reg → a.Running a.current

/-- On entry to `proc_schedule`: the current process may have gone to sleep. -/
structure Entry (a : ListSched) (reg : List Usz) : Prop extends Located a reg where
  currentReady : a.current ∉ a.ready
  asleep : a.current ∈ a.waiting → a.state a.current = procSleep
  tag : a.current ∈ reg → a.current ∉ a.waiting → a.Running a.current

/-- Once the due processes have been woken, the current one perhaps among them. -/
structure Awake (a : ListSched) (reg : List Usz) : Prop extends Located a reg where
  woken : a.current ∈ a.ready → a.state a.current = procReady
  asleep : a.current ∈ a.waiting → a.state a.current = procSleep
  tag : a.current ∈ reg → a.current ∉ a.ready → a.current ∉ a.waiting → a.Running a.current

/-- No registered process is lost. -/
def Accounted (a : ListSched) (reg : List Usz) : Prop :=
  ∀ p ∈ reg, p = a.current ∨ p ∈ a.ready ∨ p ∈ a.waiting

variable {a : ListSched} {reg : List Usz}

theorem Settled.entry (h : a.Settled reg) : a.Entry reg :=
  { h with
    asleep := fun hw => absurd hw h.currentWaiting
    tag := fun hr _ => h.tag hr }

theorem Entry.wf (h : a.Entry reg) : a.Wf :=
  ⟨h.disjoint, h.currentReady, h.asleep⟩

theorem mem_wake_ready {p : Usz} :
    p ∈ a.wake.ready ↔ p ∈ a.waiting ∧ a.due p = true ∨ p ∈ a.ready := by
  change p ∈ (a.waiting.filter a.due).reverse ++ a.ready ↔ _
  rw [List.mem_append, List.mem_reverse, List.mem_filter]

theorem mem_wake_waiting {p : Usz} :
    p ∈ a.wake.waiting ↔ p ∈ a.waiting ∧ a.due p = false := by
  change p ∈ a.waiting.filter (fun p => !a.due p) ↔ _
  rw [List.mem_filter, Bool.not_eq_true']

theorem mem_waiting_wake {p : Usz} (hp : p ∈ a.waiting) :
    p ∈ a.wake.ready ∨ p ∈ a.wake.waiting := by
  cases hdue : a.due p with
  | true => exact Or.inl (mem_wake_ready.mpr (Or.inl ⟨hp, hdue⟩))
  | false => exact Or.inr (mem_wake_waiting.mpr ⟨hp, hdue⟩)

theorem wake_state_of_due {p : Usz} (hp : p ∈ a.waiting) (hdue : a.due p = true) :
    a.wake.state p = procReady :=
  if_pos ⟨hp, hdue⟩

theorem wake_state_of_not {p : Usz} (h : ¬ (p ∈ a.waiting ∧ a.due p = true)) :
    a.wake.state p = a.state p :=
  if_neg h

theorem Entry.wake (h : a.Entry reg) : a.wake.Awake reg where
  waitingNodup := h.waitingNodup.filter _
  readyNodup := by
    refine List.Nodup.append (List.nodup_reverse.mpr (h.waitingNodup.filter _)) h.readyNodup ?_
    intro p hp
    rw [List.mem_reverse, List.mem_filter] at hp
    exact h.disjoint p hp.1
  disjoint := h.wf.wake_disjoint
  waiting := fun p hp => h.waiting p (mem_wake_waiting.mp hp).1
  ready := by
    intro p hp
    obtain hp | hp := mem_wake_ready.mp hp
    · exact h.waiting p hp.1
    · exact h.ready p hp
  idle := h.idle
  idleTag := by
    refine (wake_state_of_not ?_).trans h.idleTag
    exact fun hp => h.idle.2 (h.waiting _ hp.1)
  zero := h.zero
  current := h.current
  woken := by
    intro hp
    obtain hp | hp := mem_wake_ready.mp hp
    · exact wake_state_of_due hp.1 hp.2
    · exact absurd hp h.currentReady
  asleep := by
    intro hp
    obtain ⟨hp, hdue⟩ := mem_wake_waiting.mp hp
    refine (wake_state_of_not ?_).trans (h.asleep hp)
    intro hboth
    have htrue : a.due a.current = true := hboth.2
    rw [show a.due a.current = false from hdue] at htrue
    cases htrue
  tag := by
    intro hreg hready hwaiting
    have hnot : a.current ∉ a.waiting := fun hp => (mem_waiting_wake hp).elim hready hwaiting
    have hstate : a.wake.state a.current = a.state a.current :=
      wake_state_of_not fun hp => hnot hp.1
    have htag := h.tag hreg hnot
    simp only [Running] at htag ⊢
    rw [← hstate] at htag
    exact htag

section Dispatch

variable (a) (p : Usz)

@[simp] theorem dispatch_current : (a.dispatch p).1.current = p := by
  simp only [dispatch]
  split
  · assumption
  · rfl

@[simp] theorem dispatch_waiting : (a.dispatch p).1.waiting = a.waiting := by
  simp only [dispatch]
  split <;> rfl

@[simp] theorem dispatch_ready : (a.dispatch p).1.ready = a.ready := by
  simp only [dispatch]
  split <;> rfl

@[simp] theorem dispatch_idle : (a.dispatch p).1.idle = a.idle := by
  simp only [dispatch]
  split <;> rfl

theorem dispatch_state_of_ne {q : Usz} (h : q ≠ p) : (a.dispatch p).1.state q = a.state q := by
  simp only [dispatch]
  split
  · rfl
  · exact Function.update_of_ne h procActive a.state

theorem dispatch_running (h : a.current = p → a.state p = procReady) :
    (a.dispatch p).1.Running p := by
  simp only [dispatch, Running]
  split
  · exact Or.inr (h ‹_›)
  · left
    change Function.update a.state p procActive p = procActive
    exact Function.update_self p procActive a.state

end Dispatch

/-- Nobody may go on running, and there is an idle process. -/
def Idles (a : ListSched) : Prop :=
  (a.current = 0 ∨ a.state a.current ≠ procActive ∧ a.state a.current ≠ procIdleTag) ∧ a.idle ≠ 0

/-- How a call can end once the due processes are ready. -/
inductive Next (a : ListSched) : ListSched × Option Usz → Prop
  | idle : a.ready = [] → a.Idles → Next a (a.switch a.idle, some a.idle)
  | stay : a.ready = [] → ¬ a.Idles → Next a (a, none)
  | slice : a.Active → a.now < a.timeEnd a.current → Next a (a, none)
  | requeue (p : Usz) (rest : List Usz) : a.ready = p :: rest → a.Active →
      Next a ({ a with ready := rest ++ [a.current] }.dispatch p)
  | take (p : Usz) (rest : List Usz) : a.ready = p :: rest → ¬ a.Active →
      Next a ({ a with ready := rest }.dispatch p)

theorem next_cases (a : ListSched) : a.Next a.next := by
  simp only [next]
  split
  next hready =>
    simp only [goIdle]
    split
    next hidle => exact .idle hready hidle
    next hstay => exact .stay hready hstay
  next p rest hready =>
    split
    next hactive =>
      split
      next hslice => exact .slice hactive hslice
      next => exact .requeue p rest hready hactive
    next hinactive => exact .take p rest hready hinactive

theorem Next.waiting {r : ListSched × Option Usz} (h : a.Next r) : r.1.waiting = a.waiting := by
  cases h with
  | idle | stay | slice => rfl
  | requeue p rest | take p rest => exact dispatch_waiting _ p

theorem next_waiting : a.next.1.waiting = a.waiting := (next_cases a).waiting

theorem Located.dispatch {p : Usz} {rest : List Usz}
    (h : ({ a with ready := p :: rest } : ListSched).Located reg)
    (woken : a.current = p → a.state p = procReady) :
    ({ a with ready := rest }.dispatch p).1.Settled reg := by
  obtain ⟨hprest, hrest⟩ := List.nodup_cons.mp h.readyNodup
  obtain ⟨hpreg, hrestreg⟩ := List.forall_mem_cons.mp h.ready
  have hpw : p ∉ a.waiting := fun hw => h.disjoint p hw List.mem_cons_self
  have hidle : a.idle ≠ p := fun heq => h.idle.2 (heq ▸ hpreg)
  constructor
  · constructor
    · simpa using h.waitingNodup
    · simpa using hrest
    · simpa using fun q hq hmem => h.disjoint q hq (List.mem_cons_of_mem p hmem)
    · simpa using h.waiting
    · simpa using hrestreg
    · simpa using h.idle
    · rw [dispatch_idle, dispatch_state_of_ne _ _ hidle]
      exact h.idleTag
    · exact h.zero
    · rw [dispatch_current]
      exact Or.inr (Or.inr hpreg)
  · simpa using hprest
  · simpa using hpw
  · intro _
    rw [dispatch_current]
    exact dispatch_running _ p woken

/-- The idle process is never active, so an active one is registered. -/
theorem Located.active_registered (h : a.Located reg) (active : a.Active) : a.current ∈ reg := by
  obtain h0 | hidle | hreg := h.current
  · exact absurd h0 active.1
  · have hstate := active.2
    rw [hidle, h.idleTag] at hstate
    cases hstate
  · exact hreg

theorem Located.enqueue (h : a.Located reg) (hreg : a.current ∈ reg) (hready : a.current ∉ a.ready)
    (hwaiting : a.current ∉ a.waiting) :
    ({ a with ready := a.ready ++ [a.current] } : ListSched).Located reg :=
  { h with
    readyNodup := h.readyNodup.append (List.nodup_singleton _) (by simpa using hready)
    disjoint := by
      intro p hp hmem
      obtain hmem | hmem := List.mem_append.mp hmem
      · exact h.disjoint p hp hmem
      · exact hwaiting (List.mem_singleton.mp hmem ▸ hp)
    ready := by
      intro p hp
      obtain hp | hp := List.mem_append.mp hp
      · exact h.ready p hp
      · exact List.mem_singleton.mp hp ▸ hreg }

theorem Awake.active_outside (h : a.Awake reg) (active : a.Active) :
    a.current ∉ a.ready ∧ a.current ∉ a.waiting := by
  constructor
  · intro hr
    have hstate := h.woken hr
    rw [active.2] at hstate
    cases hstate
  · intro hw
    have hstate := h.asleep hw
    rw [active.2] at hstate
    cases hstate

/-- Staying without a ready process: whoever runs may go on. -/
theorem Awake.settled_of_stay (h : a.Awake reg) (hready : a.ready = []) (hstay : ¬ a.Idles) :
    a.Settled reg ∧ a.current ≠ 0 := by
  have hempty : a.current ∉ a.ready := by
    rw [hready]
    exact List.not_mem_nil
  have hwaiting : a.current ∉ a.waiting := by
    intro hw
    refine hstay ⟨Or.inr ?_, h.idle.1⟩
    rw [h.asleep hw]
    decide
  exact ⟨⟨h.toLocated, hempty, hwaiting, fun hreg => h.tag hreg hempty hwaiting⟩,
    fun h0 => hstay ⟨Or.inl h0, h.idle.1⟩⟩

theorem Awake.settled_of_idle (h : a.Awake reg) : (a.switch a.idle).Settled reg where
  toLocated := { h with current := Or.inr (Or.inl rfl) }
  currentReady := fun hr => h.idle.2 (h.ready _ hr)
  currentWaiting := fun hw => h.idle.2 (h.waiting _ hw)
  tag := fun hreg => absurd hreg h.idle.2

/-- Running the head of the ready list leaves a process running that is settled. -/
theorem Located.settled_of_dispatch {p : Usz} {rest : List Usz}
    (h : ({ a with ready := p :: rest } : ListSched).Located reg)
    (woken : a.current = p → a.state p = procReady) :
    ({ a with ready := rest }.dispatch p).1.Settled reg ∧
      ({ a with ready := rest }.dispatch p).1.current ≠ 0 ∧
      ({ a with ready := rest }.dispatch p).1.idle = a.idle := by
  refine ⟨h.dispatch woken, ?_, dispatch_idle _ p⟩
  rw [dispatch_current]
  exact fun h0 => h.zero (h0 ▸ h.ready p List.mem_cons_self)

theorem Awake.next_settled (h : a.Awake reg) {r : ListSched × Option Usz} (next : a.Next r) :
    r.1.Settled reg ∧ r.1.current ≠ 0 ∧ r.1.idle = a.idle := by
  cases next with
  | idle _ _ => exact ⟨h.settled_of_idle, h.idle.1, rfl⟩
  | stay hready hstay =>
      obtain ⟨settled, hcur⟩ := h.settled_of_stay hready hstay
      exact ⟨settled, hcur, rfl⟩
  | slice hactive _ =>
      obtain ⟨hready, hwaiting⟩ := h.active_outside hactive
      exact ⟨⟨h.toLocated, hready, hwaiting, fun _ => Or.inl hactive.2⟩, hactive.1, rfl⟩
  | requeue p rest hready hactive =>
      obtain ⟨hnotReady, hnotWaiting⟩ := h.active_outside hactive
      have hqueued := h.enqueue (h.active_registered hactive) hnotReady hnotWaiting
      rw [hready, List.cons_append] at hqueued
      refine hqueued.settled_of_dispatch fun heq => ?_
      exact absurd (hready ▸ heq ▸ List.mem_cons_self) hnotReady
  | take p rest hready _ =>
      have hlocated : ({ a with ready := p :: rest } : ListSched).Located reg := by
        rw [← hready]
        exact h.toLocated
      refine hlocated.settled_of_dispatch fun heq => ?_
      subst heq
      exact h.woken (hready ▸ List.mem_cons_self)

/-- The current process counts as queued but is in no queue. -/
def Stray (a : ListSched) (reg : List Usz) : Prop :=
  a.current ∈ reg ∧ a.current ∉ a.ready ∧ a.current ∉ a.waiting ∧ a.state a.current = procReady

theorem not_stray_of_active (h : a.Active) : ¬ a.Stray reg := by
  intro hstray
  have hstate := hstray.2.2.2
  rw [h.2] at hstate
  cases hstate

/-- Giving up the CPU without queueing up: what was queued still has a place. -/
theorem Awake.accounted_of_leave (h : a.Awake reg) (acc : a.Accounted reg)
    (inactive : ¬ a.Active) {b : ListSched}
    (places : ∀ p ∈ reg, (p = b.current ∨ p ∈ b.ready ∨ p ∈ b.waiting) ↔
      (p ∈ a.ready ∨ p ∈ a.waiting)) :
    b.Accounted reg ↔ ¬ a.Stray reg := by
  constructor
  · intro hb ⟨hreg, hready, hwaiting, _⟩
    obtain hr | hw := (places _ hreg).mp (hb _ hreg)
    · exact hready hr
    · exact hwaiting hw
  · intro hstray p hp
    refine (places p hp).mpr ?_
    obtain rfl | hplace := acc p hp
    · by_contra hout
      obtain ⟨hready, hwaiting⟩ := not_or.mp hout
      obtain hactive | htag := h.tag hp hready hwaiting
      · exact inactive ⟨fun h0 => h.zero (h0 ▸ hp), hactive⟩
      · exact hstray ⟨hp, hready, hwaiting, htag⟩
    · exact hplace

theorem Awake.next_accounted (h : a.Awake reg) (acc : a.Accounted reg)
    {r : ListSched × Option Usz} (next : a.Next r) : r.1.Accounted reg ↔ ¬ a.Stray reg := by
  cases next with
  | idle _ hidle =>
      refine h.accounted_of_leave acc ?_ fun p hp => ?_
      · intro hactive
        obtain h0 | htag := hidle.1
        · exact hactive.1 h0
        · exact htag.1 hactive.2
      · have hne : p ≠ a.idle := fun heq => h.idle.2 (heq ▸ hp)
        exact or_iff_right hne
  | stay _ hstay =>
      refine iff_of_true acc fun hstray => hstay ⟨Or.inr ?_, h.idle.1⟩
      rw [hstray.2.2.2]
      decide
  | slice hactive _ => exact iff_of_true acc (not_stray_of_active hactive)
  | requeue p rest hready hactive =>
      refine iff_of_true (fun q hq => ?_) (not_stray_of_active hactive)
      have hplace := acc q hq
      rw [hready] at hplace
      simp only [dispatch_current, dispatch_ready, dispatch_waiting, List.mem_append,
        List.mem_cons, List.not_mem_nil, or_false] at hplace ⊢
      obtain hcur | (hp | hr) | hw := hplace
      · exact Or.inr (Or.inl (Or.inr hcur))
      · exact Or.inl hp
      · exact Or.inr (Or.inl (Or.inl hr))
      · exact Or.inr (Or.inr hw)
  | take p rest hready hinactive =>
      refine h.accounted_of_leave acc hinactive fun q _ => ?_
      rw [dispatch_current, dispatch_ready, dispatch_waiting, hready, List.mem_cons, or_assoc]

theorem accounted_wake : a.wake.Accounted reg ↔ a.Accounted reg := by
  refine forall_congr' fun p => imp_congr_right fun _ => or_congr_right ?_
  rw [mem_wake_ready, mem_wake_waiting]
  cases a.due p <;> simp [or_comm]

/-- A call of `proc_schedule` finds the current process again and loses no other:
what it loses is a current process that is awake and marked ready. -/
theorem Entry.schedule (h : a.Entry reg) :
    a.schedule.1.Settled reg ∧ a.schedule.1.current ≠ 0 ∧ a.schedule.1.idle = a.idle :=
  h.wake.next_settled (next_cases a.wake)

theorem Entry.schedule_accounted (h : a.Entry reg) (acc : a.Accounted reg) :
    a.schedule.1.Accounted reg ↔ ¬ (a.current ∈ reg ∧ a.current ∉ a.waiting ∧
      a.state a.current = procReady) := by
  refine (h.wake.next_accounted (accounted_wake.mpr acc) (next_cases a.wake)).trans (not_congr ?_)
  constructor
  · intro ⟨hreg, hready, hwaiting, hstate⟩
    have hnot : a.current ∉ a.waiting := fun hp => (mem_waiting_wake hp).elim hready hwaiting
    exact ⟨hreg, hnot, (wake_state_of_not fun hp => hnot hp.1).symm.trans hstate⟩
  · intro ⟨hreg, hwaiting, hstate⟩
    refine ⟨hreg, ?_, ?_, (wake_state_of_not fun hp => hwaiting hp.1).trans hstate⟩
    · intro hr
      obtain hp | hp := mem_wake_ready.mp hr
      · exact hwaiting hp.1
      · exact h.currentReady hp
    · exact fun hw => hwaiting (mem_wake_waiting.mp hw).1

/-- Who runs after a call: the target of the switch, or whoever ran before. -/
def Turn (a : ListSched) (reg : List Usz) : ListSched × Option Usz → Prop
  | (b, none) => b.current = a.current
  | (b, some p) => b.current = p ∧ p ≠ a.current ∧ (p = a.idle ∨ p ∈ reg)

theorem dispatch_turn {b : ListSched} (hb : b.current = a.current) {p : Usz} (hp : p ∈ reg) :
    a.Turn reg (b.dispatch p) := by
  simp only [dispatch]
  split
  case isTrue => exact hb
  case isFalse hne => exact ⟨rfl, fun heq => hne (hb.trans heq.symm), Or.inr hp⟩

theorem Awake.next_turn (h : a.Awake reg) {r : ListSched × Option Usz} (next : a.Next r) :
    a.Turn reg r := by
  cases next with
  | idle _ hidle =>
      refine ⟨rfl, fun heq => ?_, Or.inl rfl⟩
      obtain h0 | htag := hidle.1
      · exact h.idle.1 (heq.trans h0)
      · exact htag.2 ((congrArg a.state heq).symm.trans h.idleTag)
  | stay | slice => exact rfl
  | requeue p rest hready | take p rest hready =>
      exact dispatch_turn rfl (h.ready p (hready ▸ List.mem_cons_self))

theorem Entry.schedule_turn (h : a.Entry reg) : a.Turn reg a.schedule :=
  h.wake.next_turn (next_cases a.wake)

end ListSched

end DordOs
