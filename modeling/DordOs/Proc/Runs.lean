import DordOs.Pmman.Isolation
import DordOs.Proc.Settled

/-!
Runs of the scheduler. From the state `proc_init_scheduler` leaves, processes are
created and registered, the timer ticks, and the running process sleeps, yields
and exits, in any order. Along every such run the queues stay intact and every
process in them, running or idle lives in memory `pmman_alloc` handed out.
-/
namespace DordOs
open Lib

/-- The scheduler's memory, with what the run has done so far: the processes
created but not registered, those registered and not exited, and the allocations
made and not freed. -/
structure SchedState where
  sched : Sched
  created : List Usz
  registered : List Usz
  live : List Allocation

inductive SchedEvent
  | create (entry name : Usz)
  | register (proc : Usz)
  | start
  | timer
  | sleep (msec : U32)
  | yield
  | exit
  deriving DecidableEq

/-- A process other than the idle one is running. -/
def Sched.InProcess (s : Sched) : Prop := s.procCurrent ≠ 0 ∧ s.procCurrent ≠ s.procIdle

/-- `start` is the first `proc_schedule`, made by `kernel_enter` itself. -/
inductive SchedStep : SchedState → SchedEvent → SchedState → Prop
  | create (c : SchedState) (entry name : Usz) :
      (procCreate c.sched entry name).1 ≠ 0 →
      SchedStep c (.create entry name) { c with
        sched := (procCreate c.sched entry name).2
        created := (procCreate c.sched entry name).1 :: c.created
        live := ⟨(procCreate c.sched entry name).1, procSize⟩ :: c.live }
  | register (c : SchedState) (proc : Usz) :
      proc ∈ c.created →
      SchedStep c (.register proc) { c with
        sched := procRegister c.sched proc
        created := c.created.erase proc
        registered := proc :: c.registered }
  | start (c : SchedState) (s' : Sched) (target : Option Usz) :
      c.sched.procCurrent = 0 → procSchedule c.sched = some (s', target) →
      SchedStep c .start { c with sched := s' }
  | timer (c : SchedState) (s' : Sched) (target : Option Usz) :
      c.sched.procCurrent ≠ 0 → timerInterrupt c.sched = some (s', target) →
      SchedStep c .timer { c with sched := s' }
  | sleep (c : SchedState) (msec : U32) (s' : Sched) (target : Option Usz) :
      c.sched.InProcess → procSleepMsec c.sched msec = some (s', target) →
      SchedStep c (.sleep msec) { c with sched := s' }
  | yield (c : SchedState) :
      c.sched.InProcess →
      SchedStep c .yield { c with sched := procYield c.sched }
  | exit (c : SchedState) (s' : Sched) (target : Option Usz) :
      c.sched.InProcess → procExit c.sched = some (s', target) →
      SchedStep c .exit { c with
        sched := s'
        registered := c.registered.erase c.sched.procCurrent
        live := c.live.erase ⟨c.sched.procCurrent, procSize⟩ }

/-- The state `kernel_enter` calls `proc_init_scheduler` in: no process yet, and
room for the idle one. -/
structure Unscheduled (bits : Nat → U32) (s : Sched) : Prop where
  map : s.pmmanKernelMap = pmmanKernelMap bits
  low : bitAt bits 0 = true
  current : s.procCurrent = 0
  readyQ : s.readyQ = 0
  waitingQ : s.waitingQ = 0
  room : (pmmanAlloc s.pmmanKernelMap procSize).1 ≠ 0

def schedBoot (s : Sched) (entry name : Usz) : SchedState :=
  let s := procInitScheduler s entry name
  ⟨s, [], [], [⟨s.procIdle, procSize⟩]⟩

namespace ListSched

variable {a : ListSched} {reg : List Usz} {p : Usz}

def register (a : ListSched) (p : Usz) : ListSched :=
  { a with ready := p :: a.ready, state := Function.update a.state p procReady }

def tick (a : ListSched) : ListSched := { a with now := a.now + 1 }

/-- The part of `proc_sleep_msec` before it schedules. -/
def goToSleep (a : ListSched) (msec : U32) : ListSched :=
  { a with
    waiting := a.current :: a.waiting
    timeEnd := Function.update a.timeEnd a.current (a.now + msec)
    state := Function.update a.state a.current procSleep }

def yield (a : ListSched) : ListSched :=
  { a with timeEnd := Function.update a.timeEnd a.current a.now }

/-- The part of `proc_exit` before it schedules. -/
def leave (a : ListSched) : ListSched := { a with current := 0 }

/-- What a step of the scheduler does to the lists. -/
def act (a : ListSched) : SchedEvent → ListSched
  | .create _ _ => a
  | .register p => a.register p
  | .start => a.schedule.1
  | .timer => a.tick.schedule.1
  | .sleep msec => (a.goToSleep msec).schedule.1
  | .yield => a.yield
  | .exit => a.leave.schedule.1

theorem register_state : (a.register p).state = Function.update a.state p procReady := rfl

theorem goToSleep_state (msec : U32) :
    (a.goToSleep msec).state = Function.update a.state a.current procSleep := rfl

theorem Settled.register (h : a.Settled reg) (h0 : p ≠ 0) (hidle : p ≠ a.idle) (hp : p ∉ reg) :
    (a.register p).Settled (p :: reg) := by
  have hcur : a.current ≠ p := by
    rintro rfl
    obtain hz | hi | hr := h.current
    · exact h0 hz
    · exact hidle hi
    · exact hp hr
  have hstate : ∀ q, q ≠ p → (a.register p).state q = a.state q := by
    intro q hq
    rw [register_state, Function.update_of_ne hq]
  constructor
  · constructor
    · exact h.waitingNodup
    · exact List.nodup_cons.mpr ⟨fun hr => hp (h.ready p hr), h.readyNodup⟩
    · intro q hq hmem
      obtain rfl | hmem := List.mem_cons.mp hmem
      · exact hp (h.waiting q hq)
      · exact h.disjoint q hq hmem
    · exact fun q hq => List.mem_cons_of_mem p (h.waiting q hq)
    · exact fun q hq => List.cons_subset_cons p h.ready hq
    · exact ⟨h.idle.1, List.not_mem_cons_of_ne_of_not_mem hidle.symm h.idle.2⟩
    · exact (hstate _ hidle.symm).trans h.idleTag
    · exact List.not_mem_cons_of_ne_of_not_mem h0.symm h.zero
    · obtain hz | hi | hr := h.current
      · exact Or.inl hz
      · exact Or.inr (Or.inl hi)
      · exact Or.inr (Or.inr (List.mem_cons_of_mem p hr))
  · exact List.not_mem_cons_of_ne_of_not_mem hcur h.currentReady
  · exact h.currentWaiting
  · intro hr
    have htag := h.tag ((List.mem_cons.mp hr).resolve_left hcur)
    simp only [Running] at htag ⊢
    rw [← hstate _ hcur] at htag
    exact htag

theorem Settled.yield (h : a.Settled reg) : a.yield.Settled reg :=
  { h with }

theorem Settled.tick (h : a.Settled reg) : a.tick.Entry reg :=
  { h.entry with }

theorem Settled.goToSleep (h : a.Settled reg) (hcur : a.current ∈ reg) (msec : U32) :
    (a.goToSleep msec).Entry reg := by
  have hidle : a.idle ≠ a.current := fun heq => h.idle.2 (heq ▸ hcur)
  constructor
  · exact { h with
      waitingNodup := List.nodup_cons.mpr ⟨h.currentWaiting, h.waitingNodup⟩
      disjoint := List.forall_mem_cons.mpr ⟨h.currentReady, h.disjoint⟩
      waiting := List.forall_mem_cons.mpr ⟨hcur, h.waiting⟩
      idleTag := by
        rw [goToSleep_state]
        exact (Function.update_of_ne hidle _ _).trans h.idleTag }
  · exact h.currentReady
  · intro _
    rw [goToSleep_state]
    exact Function.update_self _ _ _
  · exact fun _ hout => absurd List.mem_cons_self hout

theorem Settled.leave (h : a.Settled reg) : a.leave.Entry (reg.erase a.current) := by
  have hne : ∀ q ∈ a.waiting, q ≠ a.current := fun q hq heq => h.currentWaiting (heq ▸ hq)
  have hneR : ∀ q ∈ a.ready, q ≠ a.current := fun q hq heq => h.currentReady (heq ▸ hq)
  have hzero : (0 : Usz) ∉ reg.erase a.current := fun hq => h.zero (List.mem_of_mem_erase hq)
  constructor
  · exact { h with
      waiting := fun q hq => (List.mem_erase_of_ne (hne q hq)).mpr (h.waiting q hq)
      ready := fun q hq => (List.mem_erase_of_ne (hneR q hq)).mpr (h.ready q hq)
      idle := ⟨h.idle.1, fun hq => h.idle.2 (List.mem_of_mem_erase hq)⟩
      zero := hzero
      current := Or.inl rfl }
  · exact fun hq => h.zero (h.ready _ hq)
  · exact fun hq => absurd (h.waiting _ hq) h.zero
  · exact fun hq => absurd hq hzero

/-- The idle process is never marked ready, so at a tick a running process that
is marked ready is a registered one. -/
theorem Settled.not_stray_iff (h : a.Settled reg) (h0 : a.current ≠ 0) :
    ¬ (a.tick.current ∈ reg ∧ a.tick.current ∉ a.tick.waiting ∧
      a.tick.state a.tick.current = procReady) ↔
      (SchedEvent.timer = .timer → a.state a.current ≠ procReady) := by
  constructor
  · intro hstray _ hstate
    obtain hz | hi | hr := h.current
    · exact h0 hz
    · rw [hi, h.idleTag] at hstate
      cases hstate
    · exact hstray ⟨hr, h.currentWaiting, hstate⟩
  · exact fun hne hstray => hne rfl hstray.2.2

theorem Accounted.register (h : a.Accounted reg) : (a.register p).Accounted (p :: reg) := by
  intro q hq
  obtain rfl | hq := List.mem_cons.mp hq
  · exact Or.inr (Or.inl List.mem_cons_self)
  · obtain hc | hr | hw := h q hq
    · exact Or.inl hc
    · exact Or.inr (Or.inl (List.mem_cons_of_mem p hr))
    · exact Or.inr (Or.inr hw)

theorem Accounted.goToSleep (h : a.Accounted reg) (msec : U32) :
    (a.goToSleep msec).Accounted reg := by
  intro q hq
  obtain hc | hr | hw := h q hq
  · exact Or.inl hc
  · exact Or.inr (Or.inl hr)
  · exact Or.inr (Or.inr (List.mem_cons_of_mem _ hw))

theorem Accounted.leave (h : a.Accounted reg) (hnodup : reg.Nodup) :
    a.leave.Accounted (reg.erase a.current) := by
  intro q hq
  obtain ⟨hne, hq⟩ := hnodup.mem_erase_iff.mp hq
  exact Or.inr ((h q hq).resolve_left hne)

end ListSched

section

variable {s s' : Sched} {a : ListSched} {reg : List Usz} {p : Usz} {target : Option Usz}

theorem Sched.Represents.register (h : s.Represents a) (hp0 : p ≠ 0) (hw : p ∉ a.waiting)
    (hr : p ∉ a.ready) : (procRegister s p).Represents (a.register p) where
  waiting := h.waiting.update_of_notMem _ hw
  ready := by
    refine ⟨rfl, hp0, ?_⟩
    have hhead : (procRegister s p).next p = s.readyQ :=
      @Function.update_self _ (fun _ => Usz) _ p _ _
    rw [hhead]
    exact h.ready.update_of_notMem _ hr
  current := h.current
  idle := h.idle
  now := h.now
  timeEnd := h.timeEnd
  state := by
    change Function.update s.state p procReady = _
    rw [h.state]
    rfl

theorem Sched.Represents.create {entry name : Usz} (h : s.Represents a)
    (hw : (procCreate s entry name).1 ∉ a.waiting) (hr : (procCreate s entry name).1 ∉ a.ready) :
    (procCreate s entry name).2.Represents a :=
  ⟨h.waiting.update_of_notMem _ hw, h.ready.update_of_notMem _ hr, h.current, h.idle, h.now,
    h.timeEnd, h.state⟩

theorem Sched.Represents.goToSleep (h : s.Represents a) (msec : U32) (h0 : a.current ≠ 0)
    (hw : a.current ∉ a.waiting) (hr : a.current ∉ a.ready) :
    (procSleepMsecEnter s msec).Represents (a.goToSleep msec) := by
  rw [← h.current] at h0 hw hr
  constructor
  · change Chain (Function.update s.next s.procCurrent s.waitingQ) 0 s.procCurrent
      (a.current :: a.waiting)
    rw [← h.current, chain_cons, Function.update_self]
    exact ⟨rfl, h0, h.waiting.update_of_notMem _ hw⟩
  · exact h.ready.update_of_notMem _ hr
  · exact h.current
  · exact h.idle
  · exact h.now
  · change Function.update s.timeEnd s.procCurrent (s.pitSystimeMsec + msec) = _
    rw [h.timeEnd, h.current, h.now]
    rfl
  · change Function.update s.state s.procCurrent procSleep = _
    rw [h.state, h.current]
    rfl

theorem Sched.Represents.leave (h : s.Represents a) : (procExitEnter s).Represents a.leave :=
  ⟨h.waiting, h.ready, rfl, h.idle, h.now, h.timeEnd, h.state⟩

theorem Sched.Represents.tick (h : s.Represents a) : (pitHandleInterrupt s).Represents a.tick := by
  refine ⟨h.waiting, h.ready, h.current, h.idle, ?_, h.timeEnd, h.state⟩
  change s.pitSystimeMsec + 1 = a.now + 1
  rw [h.now]

theorem Sched.Represents.yield (h : s.Represents a) : (procYield s).Represents a.yield := by
  refine ⟨h.waiting, h.ready, h.current, h.idle, h.now, ?_, h.state⟩
  change Function.update s.timeEnd s.procCurrent s.pitSystimeMsec = _
  rw [h.timeEnd, h.current, h.now]
  rfl

theorem Sched.Represents.reschedule (h : s.Represents a) (entry : a.Entry reg)
    (hs : procSchedule s = some (s', target)) :
    s'.Represents a.schedule.1 ∧ s'.procIdle = s.procIdle ∧
      s'.pmmanKernelMap = s.pmmanKernelMap := by
  obtain ⟨s'', hs'', hrep, hmap⟩ := h.schedule entry.wf
  rw [hs''] at hs
  obtain ⟨rfl, _⟩ := Prod.mk.inj (Option.some.inj hs)
  exact ⟨hrep, hrep.idle.trans (entry.schedule.2.2.trans h.idle.symm), hmap⟩

theorem Sched.InProcess.registered (h : s.InProcess) (rep : s.Represents a)
    (settled : a.Settled reg) : a.current ∈ reg := by
  obtain h0 | hidle | hreg := settled.current
  · exact absurd (rep.current.trans h0) h.1
  · exact absurd (rep.current.trans (hidle.trans rep.idle.symm)) h.2
  · exact hreg

end

/-- Every process in use has memory of its own. -/
structure Kept (bits : Nat → U32) (c : SchedState) : Prop where
  fresh : (0 :: c.sched.procIdle :: (c.created ++ c.registered)).Nodup
  alloc : AllocInvariant bits ⟨c.sched.pmmanKernelMap, c.live⟩
  live : ∀ p ∈ c.sched.procIdle :: (c.created ++ c.registered), ⟨p, procSize⟩ ∈ c.live

/-- The invariant of every run. -/
structure SchedInvariant (bits : Nat → U32) (c : SchedState) : Prop extends Kept bits c where
  lists : ∃ a : ListSched, c.sched.Represents a ∧ a.Settled c.registered

/-- `pmman_alloc` does not return what is still allocated. -/
theorem AllocInvariant.alloc_fresh {bits : Nat → U32} {map : PmmanMap} {live : List Allocation}
    (h : AllocInvariant bits ⟨map, live⟩) {size : Usz} (hp : (pmmanAlloc map size).1 ≠ 0) :
    ⟨(pmmanAlloc map size).1, size⟩ ∉ live := by
  intro hmem
  obtain ⟨start, hok⟩ := alloc_nonnull_success h.kernel hp
  have hcross := (List.pairwise_cons.mp (hok.owns h.owns).disjoint).1
  have hself := hcross _ (List.mem_map_of_mem hmem)
  have hpos := hok.pos
  have hfirst : (pmmanAlloc map size).1.toNat / 16384 ∈
      (Allocation.mk (pmmanAlloc map size).1 size).blocks :=
    ⟨Nat.le_refl _, Nat.lt_add_of_pos_right hpos⟩
  exact Set.disjoint_left.mp hself hfirst hfirst

theorem AllocInvariant.erase {bits : Nat → U32} (h0 : bitAt bits 0 = true) {map : PmmanMap}
    {live : List Allocation} (h : AllocInvariant bits ⟨map, live⟩) {x : Allocation}
    (hx : x ∈ live) : AllocInvariant bits ⟨pmmanFree map x.addr x.size, live.erase x⟩ := by
  obtain ⟨before, after, _, hlive, herase⟩ := List.exists_erase_eq hx
  rw [herase]
  rw [hlive] at h
  exact h.step h0 (.free map before after x)

namespace Kept

variable {bits : Nat → U32} {c : SchedState}

theorem create_fresh (h : Kept bits c) {entry name : Usz}
    (hp : (procCreate c.sched entry name).1 ≠ 0) :
    (procCreate c.sched entry name).1 ∉ c.sched.procIdle :: (c.created ++ c.registered) :=
  fun hmem => h.alloc.alloc_fresh hp (h.live _ hmem)

theorem register_fresh (h : Kept bits c) {p : Usz} (hp : p ∈ c.created) :
    p ≠ 0 ∧ p ≠ c.sched.procIdle ∧ p ∉ c.registered := by
  have hmem : p ∈ c.created ++ c.registered := List.mem_append_left _ hp
  obtain ⟨hzero, hfresh⟩ := List.nodup_cons.mp h.fresh
  obtain ⟨hidle, hfresh⟩ := List.nodup_cons.mp hfresh
  exact ⟨fun heq => hzero (heq ▸ List.mem_cons_of_mem _ hmem), fun heq => hidle (heq ▸ hmem),
    fun hr => (List.nodup_append.mp hfresh).2.2 p hp p hr rfl⟩

theorem registered_nodup (h : Kept bits c) : c.registered.Nodup := by
  obtain ⟨_, hfresh⟩ := List.nodup_cons.mp h.fresh
  obtain ⟨_, hfresh⟩ := List.nodup_cons.mp hfresh
  exact (List.nodup_append.mp hfresh).2.1

theorem of_sched (h : Kept bits c) {s' : Sched} (hidle : s'.procIdle = c.sched.procIdle)
    (hmap : s'.pmmanKernelMap = c.sched.pmmanKernelMap) : Kept bits { c with sched := s' } := by
  constructor
  all_goals dsimp only
  · rw [hidle]
    exact h.fresh
  · rw [hmap]
    exact h.alloc
  · rw [hidle]
    exact h.live

theorem create (h0 : bitAt bits 0 = true) (h : Kept bits c) {entry name : Usz}
    (hp : (procCreate c.sched entry name).1 ≠ 0) :
    Kept bits { c with
      sched := (procCreate c.sched entry name).2
      created := (procCreate c.sched entry name).1 :: c.created
      live := ⟨(procCreate c.sched entry name).1, procSize⟩ :: c.live } := by
  have hnew := h.create_fresh hp
  have hperm : ((procCreate c.sched entry name).1 :: c.sched.procIdle ::
      (c.created ++ c.registered)).Perm (c.sched.procIdle ::
      ((procCreate c.sched entry name).1 :: c.created ++ c.registered)) := List.Perm.swap ..
  refine ⟨(hperm.cons 0).nodup_iff.mp ?_, h.alloc.step h0 (.alloc _ _ _ hp), fun p hmem => ?_⟩
  · obtain ⟨hzero, hrest⟩ := List.nodup_cons.mp h.fresh
    exact List.nodup_cons.mpr ⟨List.not_mem_cons_of_ne_of_not_mem hp.symm hzero,
      List.nodup_cons.mpr ⟨hnew, hrest⟩⟩
  · obtain rfl | hmem := List.mem_cons.mp (hperm.mem_iff.mpr hmem)
    · exact List.mem_cons_self
    · exact List.mem_cons_of_mem _ (h.live p hmem)

theorem register (h : Kept bits c) {p : Usz} (hp : p ∈ c.created) :
    Kept bits { c with
      sched := procRegister c.sched p
      created := c.created.erase p
      registered := p :: c.registered } := by
  have hperm : (c.created.erase p ++ p :: c.registered).Perm (c.created ++ c.registered) :=
    List.perm_middle.trans ((List.perm_cons_erase hp).symm.append_right _)
  exact ⟨((hperm.cons _).cons _).nodup_iff.mpr h.fresh, h.alloc,
    fun q hq => h.live q ((hperm.cons _).mem_iff.mp hq)⟩

theorem mem_erase (h : Kept bits c) {q : Usz} (hreg : q ∈ c.registered) {p : Usz}
    (hp : p ∈ c.sched.procIdle :: (c.created ++ c.registered.erase q)) :
    p ∈ c.sched.procIdle :: (c.created ++ c.registered) ∧ p ≠ q := by
  obtain ⟨_, hfresh⟩ := List.nodup_cons.mp h.fresh
  obtain ⟨hnot, hfresh⟩ := List.nodup_cons.mp hfresh
  obtain ⟨_, hnodup, hcross⟩ := List.nodup_append.mp hfresh
  obtain rfl | hp := List.mem_cons.mp hp
  · exact ⟨List.mem_cons_self, fun heq => hnot (heq ▸ List.mem_append_right _ hreg)⟩
  · obtain hp | hp := List.mem_append.mp hp
    · exact ⟨List.mem_cons_of_mem _ (List.mem_append_left _ hp),
        fun heq => hcross p hp q hreg heq⟩
    · obtain ⟨hne, hp⟩ := hnodup.mem_erase_iff.mp hp
      exact ⟨List.mem_cons_of_mem _ (List.mem_append_right _ hp), hne⟩

theorem exit (h0 : bitAt bits 0 = true) (h : Kept bits c)
    (hreg : c.sched.procCurrent ∈ c.registered) :
    Kept bits { c with
      sched := procExitEnter c.sched
      registered := c.registered.erase c.sched.procCurrent
      live := c.live.erase ⟨c.sched.procCurrent, procSize⟩ } := by
  have hcur := h.live _ (List.mem_cons_of_mem _ (List.mem_append_right _ hreg))
  have hfreed := h.alloc.erase h0 hcur
  have hsub : (c.created ++ c.registered.erase c.sched.procCurrent).Sublist
      (c.created ++ c.registered) := (List.Sublist.refl _).append List.erase_sublist
  refine ⟨h.fresh.sublist ((hsub.cons_cons _).cons_cons _), hfreed, fun p hp => ?_⟩
  obtain ⟨hp, hne⟩ := h.mem_erase hreg hp
  have hother : Allocation.mk p procSize ≠ ⟨c.sched.procCurrent, procSize⟩ :=
    fun heq => hne (congrArg Allocation.addr heq)
  exact (List.mem_erase_of_ne hother).mpr (h.live p hp)

end Kept

section

variable {bits : Nat → U32} {c d : SchedState} {e : SchedEvent} {a : ListSched}

/-- A step does on lists what it does in memory. -/
theorem SchedInvariant.act (h : SchedInvariant bits c) (hstep : SchedStep c e d)
    (rep : c.sched.Represents a) (settled : a.Settled c.registered) :
    d.sched.Represents (a.act e) ∧ (a.act e).Settled d.registered := by
  cases hstep with
  | create entry name hp =>
      obtain ⟨_, hnew⟩ := not_or.mp (mt List.mem_cons.mpr (h.create_fresh hp))
      have hreg : (procCreate c.sched entry name).1 ∉ c.registered :=
        fun hr => hnew (List.mem_append_right _ hr)
      refine ⟨rep.create ?_ ?_, settled⟩
      · exact fun hw => hreg (settled.waiting _ hw)
      · exact fun hr => hreg (settled.ready _ hr)
  | register p hp =>
      obtain ⟨hp0, hpi, hpr⟩ := h.register_fresh hp
      rw [rep.idle] at hpi
      refine ⟨rep.register hp0 ?_ ?_, settled.register hp0 hpi hpr⟩
      · exact fun hw => hpr (settled.waiting p hw)
      · exact fun hr => hpr (settled.ready p hr)
  | start s' target hcur hs =>
      exact ⟨(rep.reschedule settled.entry hs).1, settled.entry.schedule.1⟩
  | timer s' target hcur hs =>
      exact ⟨(rep.tick.reschedule settled.tick hs).1, settled.tick.schedule.1⟩
  | sleep msec s' target hin hs =>
      have hreg := hin.registered rep settled
      have entry := settled.goToSleep hreg msec
      have rep₁ := rep.goToSleep msec (fun h0 => settled.zero (h0 ▸ hreg))
        settled.currentWaiting settled.currentReady
      exact ⟨(rep₁.reschedule entry hs).1, entry.schedule.1⟩
  | yield hin => exact ⟨rep.yield, settled.yield⟩
  | exit s' target hin hs =>
      dsimp only
      rw [rep.current]
      exact ⟨(rep.leave.reschedule settled.leave hs).1, settled.leave.schedule.1⟩

/-- A step keeps every registered process in its place, unless the timer finds
the running process marked ready. -/
theorem SchedInvariant.act_accounted (h : SchedInvariant bits c) (hstep : SchedStep c e d)
    (rep : c.sched.Represents a) (settled : a.Settled c.registered)
    (acc : a.Accounted c.registered) :
    (a.act e).Accounted d.registered ↔ (e = .timer → a.state a.current ≠ procReady) := by
  cases hstep with
  | create entry name hp => exact iff_of_true acc (by simp)
  | register p hp => exact iff_of_true acc.register (by simp)
  | start s' target hcur hs =>
      refine (settled.entry.schedule_accounted acc).trans (iff_of_true ?_ (by simp))
      rintro ⟨hreg, _⟩
      rw [← rep.current, hcur] at hreg
      exact settled.zero hreg
  | timer s' target hcur hs =>
      rw [rep.current] at hcur
      exact (settled.tick.schedule_accounted acc).trans (settled.not_stray_iff hcur)
  | sleep msec s' target hin hs =>
      have entry := settled.goToSleep (hin.registered rep settled) msec
      refine (entry.schedule_accounted (acc.goToSleep msec)).trans (iff_of_true ?_ (by simp))
      exact fun hstray => hstray.2.1 List.mem_cons_self
  | yield hin => exact iff_of_true acc (by simp)
  | exit s' target hin hs =>
      have entry := settled.leave
      dsimp only
      rw [rep.current]
      refine (entry.schedule_accounted (acc.leave h.registered_nodup)).trans
        (iff_of_true ?_ (by simp))
      exact fun hstray => entry.zero hstray.1

theorem SchedInvariant.keeps (h0 : bitAt bits 0 = true) (h : SchedInvariant bits c)
    (hstep : SchedStep c e d) : Kept bits d := by
  obtain ⟨a, rep, settled⟩ := h.lists
  cases hstep with
  | create entry name hp => exact h.create h0 hp
  | register p hp => exact h.register hp
  | start s' target hcur hs =>
      obtain ⟨_, hidle, hmap⟩ := rep.reschedule settled.entry hs
      exact h.of_sched hidle hmap
  | timer s' target hcur hs =>
      obtain ⟨_, hidle, hmap⟩ := rep.tick.reschedule settled.tick hs
      exact h.of_sched hidle hmap
  | sleep msec s' target hin hs =>
      have hreg := hin.registered rep settled
      have rep₁ := rep.goToSleep msec (fun h0 => settled.zero (h0 ▸ hreg))
        settled.currentWaiting settled.currentReady
      obtain ⟨_, hidle, hmap⟩ := rep₁.reschedule (settled.goToSleep hreg msec) hs
      exact h.of_sched hidle hmap
  | yield hin => exact h.of_sched rfl rfl
  | exit s' target hin hs =>
      have hreg := hin.registered rep settled
      rw [← rep.current] at hreg
      have hexit := h.exit h0 hreg
      obtain ⟨_, hidle, hmap⟩ := rep.leave.reschedule settled.leave hs
      exact hexit.of_sched hidle hmap

theorem SchedInvariant.step (h0 : bitAt bits 0 = true) (h : SchedInvariant bits c)
    (hstep : SchedStep c e d) : SchedInvariant bits d := by
  obtain ⟨a, rep, settled⟩ := h.lists
  exact ⟨h.keeps h0 hstep, a.act e, h.act hstep rep settled⟩

end

theorem schedInvariant_boot {bits : Nat → U32} {s : Sched} (h : Unscheduled bits s)
    (entry name : Usz) : SchedInvariant bits (schedBoot s entry name) := by
  have halloc : AllocInvariant bits ⟨s.pmmanKernelMap, []⟩ := by
    rw [h.map]
    exact allocInvariant_init bits
  refine ⟨⟨?_, halloc.step h.low (.alloc _ _ _ h.room), ?_⟩,
    ⟨[], [], 0, _, _, _, _⟩, ⟨h.waitingQ, h.readyQ, h.current, rfl, rfl, rfl, rfl⟩, ?_⟩
  · refine List.nodup_cons.mpr ⟨fun hmem => ?_, List.nodup_singleton _⟩
    exact h.room (List.mem_singleton.mp hmem).symm
  · intro p hp
    rw [List.mem_singleton.mp hp]
    exact List.mem_singleton_self _
  · constructor
    · constructor
      · exact List.nodup_nil
      · exact List.nodup_nil
      · exact fun _ hp => absurd hp List.not_mem_nil
      · exact fun _ hp => absurd hp List.not_mem_nil
      · exact fun _ hp => absurd hp List.not_mem_nil
      · exact ⟨h.room, List.not_mem_nil⟩
      · exact @Function.update_self _ (fun _ => U32) _ _ _ _
      · exact List.not_mem_nil
      · exact Or.inl rfl
    · exact List.not_mem_nil
    · exact List.not_mem_nil
    · exact fun hp => absurd hp List.not_mem_nil

theorem SchedInvariant.of_run {bits : Nat → U32} {s : Sched} (boot : Unscheduled bits s)
    {entry name : Usz} {tr : List (SchedState × SchedEvent)} {c : SchedState}
    (run : Run SchedStep (schedBoot s entry name) tr c) : SchedInvariant bits c :=
  run.invariant (schedInvariant_boot boot entry name) fun _ _ _ h hstep => h.step boot.low hstep

/-- The walks over the queues end: whatever may happen next can happen. -/
theorem SchedInvariant.progress {bits : Nat → U32} {c : SchedState} (h : SchedInvariant bits c) :
    (c.sched.procCurrent = 0 → ∃ d, SchedStep c .start d) ∧
      (c.sched.procCurrent ≠ 0 → ∃ d, SchedStep c .timer d) ∧
      (c.sched.InProcess →
        (∀ msec, ∃ d, SchedStep c (.sleep msec) d) ∧ ∃ d, SchedStep c .exit d) := by
  obtain ⟨a, rep, settled⟩ := h.lists
  refine ⟨fun hcur => ?_, fun hcur => ?_, fun hin => ⟨fun msec => ?_, ?_⟩⟩
  · obtain ⟨s', hs', _⟩ := rep.schedule settled.entry.wf
    exact ⟨_, .start c s' _ hcur hs'⟩
  · obtain ⟨s', hs', _⟩ := rep.tick.schedule settled.tick.wf
    exact ⟨_, .timer c s' _ hcur hs'⟩
  · have hreg := hin.registered rep settled
    have rep₁ := rep.goToSleep msec (fun h0 => settled.zero (h0 ▸ hreg))
      settled.currentWaiting settled.currentReady
    obtain ⟨s', hs', _⟩ := rep₁.schedule (settled.goToSleep hreg msec).wf
    exact ⟨_, .sleep c msec s' _ hin hs'⟩
  · obtain ⟨s', hs', _⟩ := rep.leave.schedule settled.leave.wf
    exact ⟨_, .exit c s' _ hin hs'⟩

/-- The process' memory was handed out by `pmman_alloc`, not taken back by
`pmman_free` since, and its blocks are still marked. -/
structure Alive (c : SchedState) (p : Usz) : Prop where
  live : ⟨p, procSize⟩ ∈ c.live
  marked : ∀ b ∈ (Allocation.mk p procSize).blocks, c.sched.pmmanKernelMap.marked b = true

structure QueuesIntact (c : SchedState) (ready waiting : List Usz) : Prop where
  readyQ : Chain c.sched.next 0 c.sched.readyQ ready
  waitingQ : Chain c.sched.next 0 c.sched.waitingQ waiting
  readyNodup : ready.Nodup
  waitingNodup : waiting.Nodup
  disjoint : ∀ p ∈ waiting, p ∉ ready
  idle : c.sched.procIdle ∉ ready ∧ c.sched.procIdle ∉ waiting
  current : c.sched.procCurrent ∉ ready ∧ c.sched.procCurrent ∉ waiting
  readyAlive : ∀ p ∈ ready, Alive c p
  waitingAlive : ∀ p ∈ waiting, Alive c p
  idleAlive : Alive c c.sched.procIdle
  currentAlive : c.sched.procCurrent ≠ 0 → Alive c c.sched.procCurrent

theorem SchedInvariant.queuesIntact {bits : Nat → U32} {c : SchedState}
    (h : SchedInvariant bits c) : ∃ ready waiting, QueuesIntact c ready waiting := by
  obtain ⟨a, rep, settled⟩ := h.lists
  have halive : ∀ p ∈ c.sched.procIdle :: (c.created ++ c.registered), Alive c p := by
    intro p hp
    have hlive := h.live p hp
    exact ⟨hlive, fun b hb => h.alloc.owns.chunk_subset (List.mem_map_of_mem hlive) hb⟩
  have hregistered : ∀ p ∈ c.registered, Alive c p := fun p hp =>
    halive p (List.mem_cons_of_mem _ (List.mem_append_right _ hp))
  refine ⟨a.ready, a.waiting, rep.ready, rep.waiting, settled.readyNodup, settled.waitingNodup,
    settled.disjoint, ?_, ?_, ?_, ?_, halive _ List.mem_cons_self, ?_⟩
  · rw [rep.idle]
    exact ⟨fun hr => settled.idle.2 (settled.ready _ hr),
      fun hw => settled.idle.2 (settled.waiting _ hw)⟩
  · rw [rep.current]
    exact ⟨settled.currentReady, settled.currentWaiting⟩
  · exact fun p hp => hregistered p (settled.ready p hp)
  · exact fun p hp => hregistered p (settled.waiting p hp)
  · intro h0
    rw [rep.current] at h0 ⊢
    obtain hz | hi | hr := settled.current
    · exact absurd hz h0
    · rw [hi, ← rep.idle]
      exact halive _ List.mem_cons_self
    · exact hregistered _ hr

/-- Along every run both queues stay intact, and no process in use has been
freed. -/
theorem queues_stay_intact {bits : Nat → U32} {s : Sched} (boot : Unscheduled bits s)
    {entry name : Usz} {tr : List (SchedState × SchedEvent)} {c : SchedState}
    (run : Run SchedStep (schedBoot s entry name) tr c) :
    ∃ ready waiting, QueuesIntact c ready waiting :=
  (SchedInvariant.of_run boot run).queuesIntact

/-- The executable reading of `SchedStep`. -/
def schedExec (c : SchedState) : SchedEvent → Option SchedState
  | .create entry name =>
      let (proc, s) := procCreate c.sched entry name
      if proc ≠ 0 then
        some { c with sched := s, created := proc :: c.created, live := ⟨proc, procSize⟩ :: c.live }
      else none
  | .register proc =>
      if proc ∈ c.created then
        some { c with
          sched := procRegister c.sched proc
          created := c.created.erase proc
          registered := proc :: c.registered }
      else none
  | .start =>
      if c.sched.procCurrent = 0 then (procSchedule c.sched).map fun r => { c with sched := r.1 }
      else none
  | .timer =>
      if c.sched.procCurrent ≠ 0 then (timerInterrupt c.sched).map fun r => { c with sched := r.1 }
      else none
  | .sleep msec =>
      if c.sched.procCurrent ≠ 0 ∧ c.sched.procCurrent ≠ c.sched.procIdle then
        (procSleepMsec c.sched msec).map fun r => { c with sched := r.1 }
      else none
  | .yield =>
      if c.sched.procCurrent ≠ 0 ∧ c.sched.procCurrent ≠ c.sched.procIdle then
        some { c with sched := procYield c.sched }
      else none
  | .exit =>
      if c.sched.procCurrent ≠ 0 ∧ c.sched.procCurrent ≠ c.sched.procIdle then
        (procExit c.sched).map fun r => { c with
          sched := r.1
          registered := c.registered.erase c.sched.procCurrent
          live := c.live.erase ⟨c.sched.procCurrent, procSize⟩ }
      else none

theorem schedExec_sound {c d : SchedState} {e : SchedEvent} (h : schedExec c e = some d) :
    SchedStep c e d := by
  cases e with
  | create entry name =>
      obtain ⟨hp, heq⟩ := Option.ite_none_right_eq_some.mp h
      cases heq
      exact .create c entry name hp
  | register proc =>
      obtain ⟨hp, heq⟩ := Option.ite_none_right_eq_some.mp h
      cases heq
      exact .register c proc hp
  | yield =>
      obtain ⟨hp, heq⟩ := Option.ite_none_right_eq_some.mp h
      cases heq
      exact .yield c hp
  | start =>
      obtain ⟨hp, heq⟩ := Option.ite_none_right_eq_some.mp h
      obtain ⟨r, hr, rfl⟩ := Option.map_eq_some_iff.mp heq
      exact .start c r.1 r.2 hp hr
  | timer =>
      obtain ⟨hp, heq⟩ := Option.ite_none_right_eq_some.mp h
      obtain ⟨r, hr, rfl⟩ := Option.map_eq_some_iff.mp heq
      exact .timer c r.1 r.2 hp hr
  | sleep msec =>
      obtain ⟨hp, heq⟩ := Option.ite_none_right_eq_some.mp h
      obtain ⟨r, hr, rfl⟩ := Option.map_eq_some_iff.mp heq
      exact .sleep c msec r.1 r.2 hp hr
  | exit =>
      obtain ⟨hp, heq⟩ := Option.ite_none_right_eq_some.mp h
      obtain ⟨r, hr, rfl⟩ := Option.map_eq_some_iff.mp heq
      exact .exit c r.1 r.2 hp hr

/-- Memory without a process, in which only block 0 is taken. -/
def emptySched : Sched where
  entry := fun _ => 0
  next := fun _ => 0
  timeEnd := fun _ => 0
  name := fun _ => 0
  state := fun _ => 0
  procCurrent := 0
  procIdle := 0
  readyQ := 0
  waitingQ := 0
  pitSystimeMsec := 0
  pmmanKernelMap := pmmanKernelMap lowBits

theorem unscheduled_empty : Unscheduled lowBits emptySched where
  map := rfl
  low := by decide
  current := rfl
  readyQ := rfl
  waitingQ := rfl
  room := by decide +kernel

/-- One process sleeps while the other exits, and a third is created in the
block that becomes free. -/
theorem queues_stay_intact_reuse : ∃ c ready waiting, c.created = [32768] ∧
    c.registered = [49152] ∧ QueuesIntact c ready waiting := by
  obtain ⟨r, hr⟩ := Option.isSome_iff_exists.mp (show (execRun schedExec (schedBoot emptySched 0 0)
    [.create 0 0, .create 0 0, .register 32768, .register 49152, .start, .sleep 20, .exit,
      .timer, .create 0 0]).isSome by decide +kernel)
  have hend : (execRun schedExec (schedBoot emptySched 0 0)
      [.create 0 0, .create 0 0, .register 32768, .register 49152, .start, .sleep 20, .exit,
        .timer, .create 0 0]).map (fun r => (r.2.created, r.2.registered)) =
      some ([32768], [49152]) := by decide +kernel
  rw [hr] at hend
  obtain ⟨hcreated, hregistered⟩ := Prod.mk.inj (Option.some.inj hend)
  obtain ⟨ready, waiting, h⟩ := queues_stay_intact unscheduled_empty
    (Run.of_exec (fun _ _ _ => schedExec_sound) hr)
  exact ⟨r.2, ready, waiting, hcreated, hregistered, h⟩

end DordOs
