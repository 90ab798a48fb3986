import DordOs.Proc.Queues

/-!
`proc_schedule` refines a scheduler on lists. The list scheduler states what the
pointer loops are for: processes that are due go to the front of the ready list,
the last one first, and the head of that list runs next, behind which an active
process whose slice is over queues up again.
-/
namespace DordOs
open Lib

structure ListSched where
  waiting : List Usz
  ready : List Usz
  current : Usz
  idle : Usz
  now : U32
  timeEnd : Usz → U32
  state : Usz → U32

namespace ListSched

variable (a : ListSched)

def due (p : Usz) : Bool := a.now ≥ a.timeEnd p

def wake : ListSched :=
  { a with
    waiting := a.waiting.filter fun p => !a.due p
    ready := (a.waiting.filter a.due).reverse ++ a.ready
    state := fun p => if p ∈ a.waiting ∧ a.due p = true then procReady else a.state p }

def switch (p : Usz) : ListSched :=
  { a with timeEnd := Function.update a.timeEnd p (a.now + 8), current := p }

/-- Run `p`, unless it is running already. -/
def dispatch (p : Usz) : ListSched × Option Usz :=
  if a.current = p then (a, none)
  else ({ a with state := Function.update a.state p procActive }.switch p, some p)

/-- Nothing is ready: idle, unless somebody may go on running. -/
def goIdle : ListSched × Option Usz :=
  if (a.current = 0 ∨ a.state a.current ≠ procActive ∧ a.state a.current ≠ procIdleTag) ∧
      a.idle ≠ 0 then
    (a.switch a.idle, some a.idle)
  else (a, none)

/-- The current process is active. -/
def Active : Prop := a.current ≠ 0 ∧ a.state a.current = procActive

instance : Decidable a.Active := inferInstanceAs (Decidable (_ ∧ _))

/-- What happens once the due processes are ready. -/
def next : ListSched × Option Usz :=
  match a.ready with
  | [] => a.goIdle
  | p :: rest =>
      if a.Active then
        if a.now < a.timeEnd a.current then (a, none)
        else { a with ready := rest ++ [a.current] }.dispatch p
      else { a with ready := rest }.dispatch p

def schedule : ListSched × Option Usz := a.wake.next

/-- The processes are where `proc_schedule` expects them: the queues are
disjoint, and the current process is in none of them unless it has just gone to
sleep. -/
structure Wf : Prop where
  disjoint : ∀ p ∈ a.waiting, p ∉ a.ready
  current : a.current ∉ a.ready
  asleep : a.current ∈ a.waiting → a.state a.current = procSleep

end ListSched

/-- The memory holds the two lists as null-terminated queues. -/
structure Sched.Represents (s : Sched) (a : ListSched) : Prop where
  waiting : Chain s.next 0 s.waitingQ a.waiting
  ready : Chain s.next 0 s.readyQ a.ready
  current : s.procCurrent = a.current
  idle : s.procIdle = a.idle
  now : s.pitSystimeMsec = a.now
  timeEnd : s.timeEnd = a.timeEnd
  state : s.state = a.state

section

variable {s : Sched} {a : ListSched}

theorem Sched.Represents.due (h : s.Represents a) : s.due = a.due := by
  funext p
  simp only [Sched.due, ListSched.due]
  rw [h.now, h.timeEnd]

theorem Sched.Represents.wake (h : s.Represents a) (disjoint : ∀ p ∈ a.waiting, p ∉ a.ready) :
    ∃ s', procWake walkSteps s .waitingQ = some s' ∧ s'.Represents a.wake ∧
      s'.pmmanKernelMap = s.pmmanKernelMap := by
  obtain ⟨s', hs', hwoken⟩ := procWake_spec (queue_length_lt h.waiting)
    (show Chain s.next 0 (s.load .waitingQ) a.waiting from h.waiting) h.ready disjoint
    (by simp) (by simp) (by simp)
  have hwaiting := hwoken.waiting
  have hready := hwoken.ready
  have hstate := hwoken.state
  rw [h.due] at hwaiting hready hstate
  rw [h.state] at hstate
  refine ⟨s', hs', ⟨hwaiting, hready, ?_, ?_, ?_, ?_, hstate⟩, ?_⟩
  all_goals rw [hwoken.only]
  · exact h.current
  · exact h.idle
  · exact h.now
  · exact h.timeEnd

theorem Sched.Represents.append (h : s.Represents a) (disjoint : ∀ p ∈ a.waiting, p ∉ a.ready)
    (hcur0 : a.current ≠ 0) (hready : a.current ∉ a.ready) (hwaiting : a.current ∉ a.waiting) :
    ∃ s', procAppend walkSteps s .readyQ = some s' ∧
      (s'.setNext s'.procCurrent 0).Represents { a with ready := a.ready ++ [a.current] } ∧
      s'.pmmanKernelMap = s.pmmanKernelMap := by
  rw [← h.current] at hcur0 hready hwaiting
  obtain ⟨s', hs', happ⟩ := procAppend_spec (queue_length_lt h.ready)
    (show Chain s.next 0 (s.load .readyQ) a.ready from h.ready) hready (by simp)
  have hcurrent : s'.procCurrent = s.procCurrent := by rw [happ.only]
  have hlinks : ∀ p ∈ a.waiting, s'.next p = s.next p := fun p hp =>
    happ.links (.next p) (by simp) fun q hq heq => disjoint p hp (Link.next.inj heq ▸ hq)
  have hhead : s'.waitingQ = s.waitingQ := happ.links .waitingQ (by simp) (by simp)
  have htail : Chain (s'.setNext s'.procCurrent 0).next s.procCurrent s'.readyQ a.ready := by
    rw [hcurrent]
    exact happ.queue.update_of_notMem 0 hready
  refine ⟨s', hs', ⟨?_, ?_, ?_, ?_, ?_, ?_, ?_⟩, ?_⟩
  · change Chain (Function.update s'.next s'.procCurrent 0) 0 s'.waitingQ a.waiting
    rw [hcurrent, hhead]
    exact (h.waiting.congr hlinks).update_of_notMem 0 hwaiting
  · rw [← h.current]
    refine htail.snoc h.ready.ne_stop hcur0 ?_
    rw [← hcurrent]
    exact Function.update_self s'.procCurrent 0 s'.next
  all_goals rw [happ.only]
  · exact h.current
  · exact h.idle
  · exact h.now
  · exact h.timeEnd
  · exact h.state

theorem Sched.Represents.dispatch {p : Usz} {rest : List Usz}
    (h : s.Represents { a with ready := p :: rest }) (hwaiting : p ∉ a.waiting) :
    (procDispatch s).1.Represents ({ a with ready := rest }.dispatch p).1 ∧
      (procDispatch s).2 = ({ a with ready := rest }.dispatch p).2 ∧
      (procDispatch s).1.pmmanKernelMap = s.pmmanKernelMap := by
  have hrest : p ∉ rest := (List.nodup_cons.mp h.ready.nodup).1
  obtain ⟨hhead, _, htail⟩ := h.ready
  have hw := h.waiting.update_of_notMem 0 hwaiting
  have hr := htail.update_of_notMem 0 hrest
  simp only [procDispatch, ListSched.dispatch]
  simp only [hhead, Sched.setNext, h.current]
  by_cases heq : a.current = p
  · simp only [if_pos heq]
    exact ⟨⟨hw, hr, rfl, h.idle, h.now, h.timeEnd, h.state⟩, trivial, trivial⟩
  · simp only [if_neg heq]
    refine ⟨⟨hw, hr, rfl, h.idle, h.now, ?_, ?_⟩, trivial, rfl⟩
    · change Function.update s.timeEnd p (s.pitSystimeMsec + 8) = _
      rw [h.timeEnd, h.now]
      rfl
    · change Function.update s.state p procActive = _
      rw [h.state]
      rfl

theorem ListSched.Wf.wake_disjoint (h : a.Wf) : ∀ p ∈ a.wake.waiting, p ∉ a.wake.ready := by
  intro p hp hready
  obtain ⟨hp, hdue⟩ := List.mem_filter.mp hp
  obtain hq | hq := List.mem_append.mp hready
  · rw [List.mem_reverse, List.mem_filter] at hq
    rw [hq.2] at hdue
    cases hdue
  · exact h.disjoint p hp hq

/-- An active process is in no queue. -/
theorem ListSched.Wf.wake_active (h : a.Wf) (active : a.wake.Active) : a.current ∉ a.waiting := by
  intro hcur
  have hstate : (if a.current ∈ a.waiting ∧ a.due a.current = true then procReady
      else a.state a.current) = procActive := active.2
  rw [h.asleep hcur] at hstate
  split at hstate <;> cases hstate

theorem ListSched.Wf.wake_active_ready (h : a.Wf) (active : a.wake.Active) :
    a.current ∉ a.wake.ready := by
  intro hready
  obtain hq | hq := List.mem_append.mp hready
  · rw [List.mem_reverse, List.mem_filter] at hq
    exact h.wake_active active hq.1
  · exact h.current hq

theorem ListSched.Wf.wake_active_waiting (h : a.Wf) (active : a.wake.Active) :
    a.current ∉ a.wake.waiting :=
  fun hq => h.wake_active active (List.mem_of_mem_filter hq)

/-- From memory that holds two well-formed queues `proc_schedule` returns, and
does what the list scheduler does. -/
theorem Sched.Represents.schedule (h : s.Represents a) (wf : a.Wf) :
    ∃ s', procSchedule s = some (s', a.schedule.2) ∧ s'.Represents a.schedule.1 ∧
      s'.pmmanKernelMap = s.pmmanKernelMap := by
  obtain ⟨s₁, hwake, h₁, hmap⟩ := h.wake wf.disjoint
  have hdis := wf.wake_disjoint
  simp only [procSchedule, ListSched.schedule, ListSched.next]
  simp only [hwake, Option.bind_eq_bind, Option.bind_some]
  cases hready : a.wake.ready with
  | nil =>
      have hempty : s₁.readyQ = 0 := h₁.ready.eq_nil_iff.mp hready
      simp only [if_pos hempty, ListSched.goIdle, h₁.current, h₁.idle, h₁.state]
      split
      · refine ⟨_, rfl, ⟨h₁.waiting, h₁.ready, rfl, h₁.idle, h₁.now, ?_, h₁.state⟩, hmap⟩
        change Function.update s₁.timeEnd _ (s₁.pitSystimeMsec + 8) = _
        rw [h₁.timeEnd, h₁.now]
        rfl
      · exact ⟨_, rfl, h₁, hmap⟩
  | cons p rest =>
      have hne : s₁.readyQ ≠ 0 := by
        intro hzero
        rw [h₁.ready.eq_nil_iff.mpr hzero] at hready
        cases hready
      have hp : p ∉ a.wake.waiting := fun hw => hdis p hw (hready ▸ List.mem_cons_self)
      simp only [if_neg hne, h₁.current, h₁.state, h₁.now, h₁.timeEnd]
      by_cases hactive : a.wake.Active
      · have hconcrete : a.wake.current ≠ 0 ∧ a.wake.state a.wake.current = procActive := hactive
        rw [if_pos hactive, if_pos hconcrete]
        by_cases hslice : a.wake.now < a.wake.timeEnd a.wake.current
        · rw [if_pos hslice, if_pos hslice]
          exact ⟨_, rfl, h₁, hmap⟩
        · rw [if_neg hslice, if_neg hslice]
          obtain ⟨s₂, happ, h₂, hmap₂⟩ := h₁.append hdis hactive.1 (wf.wake_active_ready hactive)
            (wf.wake_active_waiting hactive)
          rw [hready, List.cons_append] at h₂
          obtain ⟨h₃, htarget, hmap₃⟩ := h₂.dispatch hp
          simp only [happ, Option.bind_some]
          exact ⟨_, congrArg some (Prod.ext rfl htarget), h₃, (hmap₃.trans hmap₂).trans hmap⟩
      · have hconcrete : ¬ (a.wake.current ≠ 0 ∧ a.wake.state a.wake.current = procActive) :=
          hactive
        rw [if_neg hactive, if_neg hconcrete]
        have h₂ : s₁.Represents { a.wake with ready := p :: rest } := by
          rw [← hready]
          exact h₁
        obtain ⟨h₃, htarget, hmap₃⟩ := h₂.dispatch hp
        exact ⟨_, congrArg some (Prod.ext rfl htarget), h₃, hmap₃.trans hmap⟩

end

end DordOs
