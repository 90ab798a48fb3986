import DordOs.Proc.Machine

/-!
The scheduler's lock is taken by one process and given back by another, so the
discipline is a property of what each suspended process still has to run: with
interrupts masked and the lock held, it gives the lock back before anything
else. `Disciplined` follows a code list with the state of the two switches.
-/
namespace DordOs
open Lib

/-- Where an act may stand: the tick outside the lock, the others inside it and
in a process' own routine, and those that call `proc_schedule` right before it. -/
def SchedAct.Allowed (user : Prop) (held : Bool) (rest : List Instr) : SchedAct → Prop
  | .tick => held = false
  | .register _ | .yield => user ∧ held = true
  | .sleep _ | .exit => user ∧ held = true ∧ rest.head? = some .procSchedule

/-- The code runs properly from the given flags on the stack, interrupt flag and
lock; `user` says that it is not the idle process'. -/
def Disciplined (user : Prop) : List Instr → List Bool → Bool → Bool → Prop
  | [], _, enabled, held => enabled = true ∧ held = false
  | .getf :: rest, locals, enabled, held =>
      held = false ∧ Disciplined user rest (enabled :: locals) enabled false
  | .cli :: rest, locals, _, held => held = false ∧ Disciplined user rest locals false false
  | .spinlockLock :: rest, locals, enabled, held =>
      enabled = false ∧ held = false ∧ Disciplined user rest locals false true
  | .act a :: rest, locals, enabled, held =>
      enabled = false ∧ a.Allowed user held rest ∧ Disciplined user rest locals false held
  | .procSchedule :: rest, locals, enabled, held =>
      enabled = false ∧ held = true ∧ rest.head? = some .spinlockRelease ∧
        Disciplined user rest locals false true
  | .spinlockRelease :: rest, locals, enabled, held =>
      enabled = false ∧ held = true ∧ Disciplined user rest locals false false
  | .setf :: rest, flags :: locals, _, held | .iret :: rest, flags :: locals, _, held =>
      held = false ∧ Disciplined user rest locals flags false
  | .setf :: _, [], _, _ | .iret :: _, [], _, _ => False

variable {user user' : Prop} {code : List Instr} {locals : List Bool} {enabled held : Bool}

theorem Disciplined.free_of_enabled (h : Disciplined user code locals true held) :
    held = false := by
  unfold Disciplined at h
  split at h <;> simp_all

theorem Disciplined.mono (h : Disciplined user code locals enabled held) (himp : user → user') :
    Disciplined user' code locals enabled held := by
  induction code generalizing locals enabled held with
  | nil => exact h
  | cons i rest ih =>
      cases i with
      | getf | cli => exact ⟨h.1, ih h.2⟩
      | spinlockLock | spinlockRelease => exact ⟨h.1, h.2.1, ih h.2.2⟩
      | procSchedule => exact ⟨h.1, h.2.1, h.2.2.1, ih h.2.2.2⟩
      | act a =>
          refine ⟨h.1, ?_, ih h.2.2⟩
          have hallowed := h.2.1
          cases a with
          | tick => exact hallowed
          | register | yield => exact ⟨himp hallowed.1, hallowed.2⟩
          | sleep | exit => exact ⟨himp hallowed.1, hallowed.2⟩
      | setf | iret =>
          cases locals with
          | nil => exact h
          | cons flags locals => exact ⟨h.1, ih h.2⟩

/-- A routine called with interrupts enabled and the lock free. -/
theorem Routine.disciplined (routine : Routine) (huser : user) :
    Disciplined user routine.code locals true false := by
  cases routine with
  | register | sleep | yield | exit =>
      simp [Routine.code, procLockCode, procReleaseCode, Disciplined, SchedAct.Allowed, huser]

/-- The handler, entered on top of code that was running with interrupts enabled. -/
theorem timerHandler_disciplined (h : Disciplined user code locals true false) :
    Disciplined user (timerHandlerCode ++ code) (true :: locals) false false := by
  simpa [timerHandlerCode, procLockCode, procReleaseCode, Disciplined, SchedAct.Allowed] using h

namespace Machine

/-- The running process is not the idle one. -/
def User (m : Machine) : Prop := m.procs.sched.procCurrent ≠ m.procs.sched.procIdle

def Controlled (m : Machine) (held : Bool) : Prop :=
  Disciplined m.User m.cpu.code (m.cpu.locals.map interrupts) (interrupts m.cpu.eflags) held

end Machine

/-- A process' suspended code gives the lock back first. -/
structure Context.Suspended (user : Prop) (ctx : Context) : Prop where
  releases : ctx.code.head? = some .spinlockRelease
  disciplined : Disciplined user ctx.code (ctx.locals.map interrupts) (interrupts ctx.eflags) true

theorem procInit_suspended (user : Prop) : procInit.Suspended user :=
  ⟨rfl, by decide, rfl, rfl, by decide, rfl⟩

/-- The invariant from the first switch on. `held` is the state of the lock as
the code sees it; it differs from the lock only until the first process starts,
which gives back a lock that was never taken. -/
structure MachineInvariant (bits : Nat → U32) (m : Machine) (held : Bool) : Prop where
  kept : Kept bits m.procs
  lists : ∃ a : ListSched, m.procs.sched.Represents a ∧ a.Entry m.procs.registered ∧
    (m.cpu.code.head? ≠ some .procSchedule → a.Settled m.procs.registered ∧ a.current ≠ 0)
  suspended : ∀ p ∈ m.procs.sched.procIdle :: (m.procs.created ++ m.procs.registered),
    p ≠ m.procs.sched.procCurrent → (m.saved p).Suspended (p ≠ m.procs.sched.procIdle)
  control : m.Controlled held
  free : m.schedLock.Held → held = true
  taken : held = true → m.schedLock.Held ∨ m.cpu.code = procReleaseCode

/-- The lock as the code sees it, one step later. -/
def Machine.heldAfter (m : Machine) (e : MachineEvent) (held : Bool) : Bool :=
  match e, m.cpu.code.head? with
  | .exec, some .spinlockLock => true
  | .exec, some .spinlockRelease => false
  | _, _ => held

section

variable {bits : Nat → U32} {m m' : Machine} {rest : List Instr} {a : ListSched}

/-- What a call of `proc_schedule` finds: the processes that wait, and the code behind
the call. -/
structure Machine.AtSchedule (m : Machine) (rest : List Instr) : Prop where
  suspended : ∀ p ∈ m.procs.sched.procIdle :: (m.procs.created ++ m.procs.registered),
    p ≠ m.procs.sched.procCurrent → (m.saved p).Suspended (p ≠ m.procs.sched.procIdle)
  self : m.procs.sched.procCurrent ≠ 0 → Context.Suspended m.User { m.cpu with code := rest }
  lock : m.schedLock.Held ∨ m.procs.sched.procCurrent = 0 ∧
    ∀ p ∈ m.procs.sched.procIdle :: (m.procs.created ++ m.procs.registered), m.saved p = procInit

theorem schedule_same {s' : Sched} (call : m.AtSchedule rest)
    (kept' : Kept bits { m.procs with sched := s' }) (rep' : s'.Represents a)
    (settled : a.Settled m.procs.registered) (hcurrent : a.current ≠ 0)
    (hidle : s'.procIdle = m.procs.sched.procIdle)
    (hsame : s'.procCurrent = m.procs.sched.procCurrent) :
    MachineInvariant bits
        { m with procs := { m.procs with sched := s' }, cpu := { m.cpu with code := rest } } true ∧
      rest.head? = some .spinlockRelease := by
  have hne : m.procs.sched.procCurrent ≠ 0 := by
    rw [← hsame, rep'.current]
    exact hcurrent
  have hself := call.self hne
  refine ⟨⟨kept', ⟨a, rep', settled.entry, fun _ => ⟨settled, hcurrent⟩⟩, ?_, ?_,
    fun _ => rfl, ?_⟩, hself.releases⟩
  · dsimp only
    rw [hidle, hsame]
    exact call.suspended
  · unfold Machine.Controlled Machine.User
    dsimp only
    rw [hidle, hsame]
    exact hself.disciplined
  · exact fun _ => Or.inl (call.lock.resolve_right fun hboot => hne hboot.1)

theorem schedule_switched {s' : Sched} {q : Usz} (call : m.AtSchedule rest)
    (hfresh : 0 ∉ m.procs.sched.procIdle :: (m.procs.created ++ m.procs.registered))
    (kept' : Kept bits { m.procs with sched := s' }) (rep' : s'.Represents a)
    (settled : a.Settled m.procs.registered) (hcurrent : a.current ≠ 0)
    (hidle : s'.procIdle = m.procs.sched.procIdle) (hq : s'.procCurrent = q)
    (hne : q ≠ m.procs.sched.procCurrent)
    (hmem : q ∈ m.procs.sched.procIdle :: (m.procs.created ++ m.procs.registered))
    (hswitch : m' = { m with
      procs := { m.procs with sched := s' }, cpu := { m.cpu with code := rest } }.switch
        m.procs.sched.procCurrent q) :
    MachineInvariant bits m' true ∧ m'.cpu.code.head? = some .spinlockRelease := by
  have hother : ∀ p, p ≠ m.procs.sched.procCurrent → m'.saved p = m.saved p := by
    intro p hp
    rw [hswitch]
    exact Machine.switch_saved_of_ne _ hp
  have hself : m.procs.sched.procCurrent ≠ 0 →
      m'.saved m.procs.sched.procCurrent = { m.cpu with code := rest } := by
    intro h0
    rw [hswitch]
    exact Machine.switch_saved_self _ h0
  have hcpu : m'.cpu = m.saved q := by
    rw [hswitch]
    exact Machine.switch_cpu _ hne
  have hprocs : m'.procs = { m.procs with sched := s' } := by
    rw [hswitch]
    rfl
  have hlock : m'.schedLock = m.schedLock := by
    rw [hswitch]
    rfl
  have hresume := call.suspended q hmem hne
  rw [← hcpu] at hresume
  refine ⟨⟨?_, ?_, ?_, ?_, fun _ => rfl, ?_⟩, hresume.releases⟩
  · rw [hprocs]
    exact kept'
  · rw [hprocs]
    exact ⟨a, rep', settled.entry, fun _ => ⟨settled, hcurrent⟩⟩
  · rw [hprocs]
    dsimp only
    rw [hidle, hq]
    intro p hp hpq
    by_cases hpc : p = m.procs.sched.procCurrent
    · have h0 : m.procs.sched.procCurrent ≠ 0 := fun h0 => hfresh (h0 ▸ hpc ▸ hp)
      rw [hpc, hself h0]
      exact call.self h0
    · rw [hother p hpc]
      exact call.suspended p hp hpc
  · simp only [Machine.Controlled, Machine.User]
    rw [hprocs]
    dsimp only
    rw [hidle, hq]
    exact hresume.disciplined
  · intro _
    rw [hlock, hcpu]
    obtain hheld | ⟨_, hinit⟩ := call.lock
    · exact Or.inl hheld
    · exact Or.inr (congrArg Context.code (hinit q hmem))

/-- A call of `proc_schedule` that may switch leaves code running that gives the
lock back first. -/
theorem schedule_invariant (kept : Kept bits m.procs) (rep : m.procs.sched.Represents a)
    (entry : a.Entry m.procs.registered) (call : m.AtSchedule rest)
    (hcode : m.cpu.code = .procSchedule :: rest) (hexec : m.exec = some m') :
    MachineInvariant bits m' true ∧ m'.cpu.code.head? = some .spinlockRelease := by
  obtain ⟨s', hs', rep', hmap⟩ := rep.schedule entry.wf
  obtain ⟨settled, hcurrent, hidle⟩ := entry.schedule
  have turn := entry.schedule_turn
  have hidle' : s'.procIdle = m.procs.sched.procIdle :=
    rep'.idle.trans (hidle.trans rep.idle.symm)
  have kept' := kept.of_sched hidle' hmap
  simp only [Machine.exec] at hexec
  rw [hcode] at hexec
  simp only [hs', Option.map_some, Option.some.injEq] at hexec
  simp only [ListSched.Turn] at turn
  split at turn
  case h_1 b heq =>
    rw [heq] at hexec rep' settled hcurrent
    have hsame : s'.procCurrent = m.procs.sched.procCurrent :=
      rep'.current.trans (turn.trans rep.current.symm)
    subst hexec
    exact schedule_same call kept' rep' settled hcurrent hidle' hsame
  case h_2 b q heq =>
    rw [heq] at hexec rep' settled hcurrent
    obtain ⟨hq, hne, hknown⟩ := turn
    rw [← rep.current] at hne
    have hmem : q ∈ m.procs.sched.procIdle :: (m.procs.created ++ m.procs.registered) := by
      obtain hi | hr := hknown
      · rw [hi, ← rep.idle]
        exact List.mem_cons_self
      · exact List.mem_cons_of_mem _ (List.mem_append_right _ hr)
    obtain ⟨hfresh, -⟩ := List.nodup_cons.mp kept.fresh
    exact schedule_switched call hfresh kept' rep' settled hcurrent hidle'
      (rep'.current.trans hq) hne hmem hexec.symm

variable {held held' : Bool}

theorem head_ne {code : List Instr} (hcode : m.cpu.code = code)
    (hhead : code.head? ≠ some .procSchedule) : m.cpu.code.head? ≠ some .procSchedule := by
  rw [hcode]
  exact hhead

theorem MachineInvariant.control_of_code (h : MachineInvariant bits m held) {code : List Instr}
    (hcode : m.cpu.code = code) :
    Disciplined m.User code (m.cpu.locals.map interrupts) (interrupts m.cpu.eflags) held := by
  rw [← hcode]
  exact h.control

theorem MachineInvariant.of_cpu (h : MachineInvariant bits m held)
    (hhead : m.cpu.code.head? ≠ some .procSchedule) {cpu : Context} {lock : Slock}
    (control :
      Disciplined m.User cpu.code (cpu.locals.map interrupts) (interrupts cpu.eflags) held')
    (free : lock.Held → held' = true)
    (taken : held' = true → lock.Held ∨ cpu.code = procReleaseCode) :
    MachineInvariant bits { m with schedLock := lock, cpu := cpu } held' := by
  obtain ⟨a, rep, entry, hsettled⟩ := h.lists
  exact ⟨h.kept, ⟨a, rep, entry, fun _ => hsettled hhead⟩, h.suspended, control, free, taken⟩

theorem MachineInvariant.act (h0 : bitAt bits 0 = true) (h : MachineInvariant bits m held)
    {act : SchedAct} (hcode : m.cpu.code = .act act :: rest) {c : SchedState}
    (hact : m.procs.act act = some c) :
    MachineInvariant bits { m with procs := c, cpu := { m.cpu with code := rest } } held := by
  obtain ⟨hmasked, hallowed, hrest⟩ := h.control_of_code hcode
  rw [← hmasked] at hrest
  obtain ⟨a, rep, _, hsettled⟩ := h.lists
  obtain ⟨settled, hcurrent⟩ := hsettled (head_ne hcode fun heq => nomatch heq)
  have htaken : held = true → m.schedLock.Held ∨ rest = procReleaseCode := fun hheld =>
    Or.inl ((h.taken hheld).resolve_right fun heq => nomatch hcode.symm.trans heq)
  have hin : m.User → m.procs.sched.InProcess := fun huser => ⟨rep.current ▸ hcurrent, huser⟩
  cases act with
  | register p =>
      obtain ⟨hp, hc⟩ := Option.ite_none_right_eq_some.mp hact
      cases hc
      obtain ⟨hp0, hpi, hpr⟩ := h.kept.register_fresh hp
      rw [rep.idle] at hpi
      have hperm : (m.procs.created.erase p ++ p :: m.procs.registered).Perm
          (m.procs.created ++ m.procs.registered) :=
        List.perm_middle.trans ((List.perm_cons_erase hp).symm.append_right _)
      have hrep := rep.register hp0 (fun hw => hpr (settled.waiting p hw))
        fun hr => hpr (settled.ready p hr)
      have hsettled' := settled.register hp0 hpi hpr
      exact ⟨h.kept.register hp, ⟨_, hrep, hsettled'.entry, fun _ => ⟨hsettled', hcurrent⟩⟩,
        fun q hq => h.suspended q ((hperm.cons _).mem_iff.mp hq), hrest, h.free, htaken⟩
  | sleep msec =>
      cases hact
      obtain ⟨huser, _, hnext⟩ := hallowed
      have hreg := (hin huser).registered rep settled
      have hrep := rep.goToSleep msec hcurrent settled.currentWaiting settled.currentReady
      exact ⟨h.kept.of_sched rfl rfl, ⟨_, hrep, settled.goToSleep hreg msec, fun hne =>
        absurd hnext hne⟩, h.suspended, hrest, h.free, htaken⟩
  | yield =>
      cases hact
      exact ⟨h.kept.of_sched rfl rfl, ⟨_, rep.yield, settled.yield.entry, fun _ =>
        ⟨settled.yield, hcurrent⟩⟩, h.suspended, hrest, h.free, htaken⟩
  | tick =>
      cases hact
      have hticked : a.tick.Settled m.procs.registered := { settled with }
      exact ⟨h.kept.of_sched rfl rfl, ⟨_, rep.tick, hticked.entry, fun _ =>
        ⟨hticked, hcurrent⟩⟩, h.suspended, hrest, h.free, htaken⟩
  | exit =>
      cases hact
      obtain ⟨huser, _, hnext⟩ := hallowed
      have hreg := (hin huser).registered rep settled
      rw [← rep.current] at hreg
      have entry := settled.leave
      rw [← rep.current] at entry
      refine ⟨h.kept.exit h0 hreg, ⟨_, rep.leave, entry, fun hne => absurd hnext hne⟩, ?_, ?_,
        h.free, htaken⟩
      · intro p hp _
        obtain ⟨hp, hne⟩ := h.kept.mem_erase hreg hp
        exact h.suspended p hp hne
      · refine hrest.mono fun _ => ?_
        change 0 ≠ m.procs.sched.procIdle
        rw [rep.idle]
        exact settled.idle.1.symm

theorem MachineInvariant.schedule (h : MachineInvariant bits m held)
    (hcode : m.cpu.code = .procSchedule :: rest) (hexec : m.exec = some m') :
    held = true ∧ MachineInvariant bits m' true ∧
      m'.cpu.code.head? = some .spinlockRelease := by
  obtain ⟨hmasked, rfl, hreleases, hrest⟩ := h.control_of_code hcode
  rw [← hmasked] at hrest
  obtain ⟨a, rep, entry, _⟩ := h.lists
  have hheld := (h.taken rfl).resolve_right fun heq => nomatch hcode.symm.trans heq
  exact ⟨rfl, schedule_invariant h.kept rep entry
    ⟨h.suspended, fun _ => ⟨hreleases, hrest⟩, Or.inl hheld⟩ hcode hexec⟩

theorem MachineInvariant.exec (h0 : bitAt bits 0 = true) (h : MachineInvariant bits m held)
    (hexec : m.exec = some m') : MachineInvariant bits m' (m.heldAfter .exec held) := by
  have control := h.control
  have hstep := hexec
  simp only [Machine.Controlled] at control
  simp only [Machine.exec] at hexec
  simp only [Machine.heldAfter]
  split at hexec
  case h_1 => cases hexec
  case h_2 rest hcode =>
    rw [hcode] at control ⊢
    obtain ⟨rfl, hrest⟩ := control
    cases hexec
    exact h.of_cpu (head_ne hcode fun heq => nomatch heq) hrest h.free fun heq => nomatch heq
  case h_3 rest hcode =>
    rw [hcode] at control ⊢
    obtain ⟨rfl, hrest⟩ := control
    cases hexec
    refine h.of_cpu (head_ne hcode fun heq => nomatch heq) ?_ h.free fun heq => nomatch heq
    dsimp only
    rw [interrupts_maskInterrupts]
    exact hrest
  case h_4 rest hcode =>
    rw [hcode] at control ⊢
    obtain ⟨hmasked, rfl, hrest⟩ := control
    have hended : m.schedLock.tryLock.1 = true :=
      (Slock.tryLock_fst _).mpr fun hheld => nomatch h.free hheld
    rw [← hmasked] at hrest
    rw [if_pos hended] at hexec
    obtain rfl := Option.some.inj hexec
    exact h.of_cpu (head_ne hcode fun heq => nomatch heq) hrest (fun _ => rfl)
      fun _ => Or.inl (Slock.held_tryLock _)
  case h_5 act rest hcode =>
    obtain ⟨c, hact, rfl⟩ := Option.map_eq_some_iff.mp hexec
    rw [hcode]
    exact h.act h0 hcode hact
  case h_6 rest hcode =>
    obtain ⟨rfl, hnext, _⟩ := h.schedule hcode hstep
    rw [hcode]
    exact hnext
  case h_7 rest hcode =>
    rw [hcode] at control ⊢
    obtain ⟨hmasked, rfl, hrest⟩ := control
    cases hexec
    refine h.of_cpu (head_ne hcode fun heq => nomatch heq) ?_
      (fun hheld => absurd hheld (Slock.not_held_release _)) fun heq => nomatch heq
    dsimp only
    rw [hmasked]
    exact hrest
  all_goals
    rename_i rest hcode
    rw [hcode] at control ⊢
    cases hlocals : m.cpu.locals with
    | nil =>
        rw [hlocals] at hexec
        cases hexec
    | cons flags locals =>
        rw [hlocals] at hexec control
        obtain ⟨rfl, hrest⟩ := control
        cases hexec
        exact h.of_cpu (head_ne hcode fun heq => nomatch heq) hrest h.free
          fun heq => nomatch heq

/-- One step of the CPU keeps the invariant, with the lock as the code sees it. -/
theorem MachineInvariant.step (h0 : bitAt bits 0 = true) (h : MachineInvariant bits m held)
    {e : MachineEvent} (hstep : MachineStep m e m') :
    MachineInvariant bits m' (m.heldAfter e held) := by
  have control := h.control
  simp only [Machine.Controlled] at control
  cases hstep with
  | exec m' hexec => exact h.exec h0 hexec
  | interrupt hset =>
      rw [hset] at control
      obtain rfl := control.free_of_enabled
      have hhead : m.cpu.code.head? ≠ some .procSchedule := by
        intro hhead
        obtain ⟨rest, hcode⟩ := List.head?_eq_some_iff.mp hhead
        rw [hcode] at control
        cases control.1
      refine h.of_cpu hhead ?_ h.free fun heq => nomatch heq
      dsimp only
      rw [List.map_cons, hset, interrupts_maskInterrupts]
      exact timerHandler_disciplined control
  | call routine hcode hin =>
      rw [hcode] at control
      obtain ⟨hset, rfl⟩ := control
      have hroutine := @Routine.disciplined _ (m.cpu.locals.map interrupts) routine hin.2
      rw [← hset] at hroutine
      exact h.of_cpu (head_ne hcode fun heq => nomatch heq) hroutine h.free
        fun heq => nomatch heq
  | create entry name hcode hin hp =>
      obtain ⟨a, rep, _, hsettled⟩ := h.lists
      obtain ⟨settled, hcurrent⟩ := hsettled (head_ne hcode fun heq => nomatch heq)
      have hnew := h.kept.create_fresh hp
      obtain ⟨_, hfresh⟩ := not_or.mp (mt List.mem_cons.mpr hnew)
      have hreg : (procCreate m.procs.sched entry name).1 ∉ m.procs.registered :=
        fun hr => hfresh (List.mem_append_right _ hr)
      have hrep := @rep.create _ _ entry name (fun hw => hreg (settled.waiting _ hw))
        fun hr => hreg (settled.ready _ hr)
      refine ⟨h.kept.create h0 hp, ⟨a, hrep, settled.entry, fun _ => ⟨settled, hcurrent⟩⟩, ?_,
        control, h.free, h.taken⟩
      dsimp only
      intro p hmem hne
      by_cases hpn : p = (procCreate m.procs.sched entry name).1
      · rw [hpn, Function.update_self]
        exact procInit_suspended _
      · rw [Function.update_of_ne hpn]
        refine h.suspended p ?_ hne
        obtain hi | hmem := List.mem_cons.mp hmem
        · exact hi ▸ List.mem_cons_self
        · exact List.mem_cons_of_mem _ ((List.mem_cons.mp hmem).resolve_left hpn)

/-- The first step is the first call of `proc_schedule`, and it switches. -/
theorem MachineBoot.step (boot : MachineBoot bits m) {e : MachineEvent}
    (hstep : MachineStep m e m') :
    MachineInvariant bits m' true ∧ m'.cpu.code.head? = some .spinlockRelease := by
  cases hstep with
  | exec m' hexec =>
      obtain ⟨s, entry, name, tr, hunscheduled, run⟩ := boot.reached
      have inv := SchedInvariant.of_run hunscheduled run
      obtain ⟨a, rep, settled⟩ := inv.lists
      refine schedule_invariant inv.toKept rep settled.entry ⟨fun p hp _ => ?_,
        fun hne => absurd boot.current hne, Or.inr ⟨boot.current, boot.saved⟩⟩ boot.code hexec
      rw [boot.saved p hp]
      exact procInit_suspended _
  | interrupt hset =>
      rw [boot.masked] at hset
      cases hset
  | call routine hcode | create entry name hcode =>
      rw [boot.code] at hcode
      cases hcode

theorem MachineBoot.low (boot : MachineBoot bits m) : bitAt bits 0 = true := by
  obtain ⟨_, _, _, _, hunscheduled, _⟩ := boot.reached
  exact hunscheduled.low

theorem MachineInvariant.of_run (boot : MachineBoot bits m) {tr : List (Machine × MachineEvent)}
    (run : Run MachineStep m tr m') : tr = [] ∧ m' = m ∨ ∃ held, MachineInvariant bits m' held := by
  induction run with
  | nil => exact Or.inl ⟨rfl, rfl⟩
  | snoc _ hstep ih =>
      obtain ⟨_, rfl⟩ | ⟨held, inv⟩ := ih
      · exact Or.inr ⟨true, (boot.step hstep).1⟩
      · exact Or.inr ⟨_, inv.step boot.low hstep⟩

end

namespace Machine

/-- The next instruction belongs to a call of `proc_lock`: its first one, or the
one that takes the lock. -/
def AtProcLock (m : Machine) : Prop :=
  m.cpu.code.head? = some .getf ∨ m.cpu.code.head? = some .spinlockLock

/-- The instruction is a call of `proc_schedule` that switches. -/
def Switches (m : Machine) : Prop :=
  m.cpu.code.head? = some .procSchedule ∧
    ∃ s target, procSchedule m.procs.sched = some (s, some target)

/-- The steps that execute a `proc_release`. -/
def releases (x : Machine × MachineEvent) : Bool :=
  match x.2, x.1.cpu.code.head? with
  | .exec, some .spinlockRelease => true
  | _, _ => false

theorem releases_iff {x : Machine × MachineEvent} :
    releases x = true ↔ x.2 = .exec ∧ x.1.cpu.code.head? = some .spinlockRelease := by
  simp only [releases]
  split <;> simp_all

theorem heldAfter_quiet (m : Machine) {e : MachineEvent} (h : e = .exec → ¬ m.AtProcLock) :
    m.heldAfter e false = false := by
  simp only [heldAfter]
  split
  case h_1 hhead => exact absurd (Or.inr hhead) (h rfl)
  all_goals rfl

end Machine

/-- The lock discipline of every run that starts at `m₀`. -/
structure LockDiscipline (m₀ : Machine) : Prop where
  lockFree : ∀ tr m, Run MachineStep m₀ tr m → m.AtProcLock → ¬ m.schedLock.Held
  enabledFree : ∀ tr m, Run MachineStep m₀ tr m → interrupts m.cpu.eflags = true →
    ¬ m.schedLock.Held
  switchLocked : ∀ tr m, Run MachineStep m₀ tr m → tr ≠ [] → m.Switches →
    m.schedLock.Held ∧ interrupts m.cpu.eflags = false
  oneRelease : ∀ tr m m₁ seg m₂, Run MachineStep m₀ tr m → m.Switches →
    MachineStep m .exec m₁ → Run MachineStep m₁ seg m₂ →
    (∀ x ∈ seg, x.2 = .exec → ¬ x.1.AtProcLock) → m₂.AtProcLock →
    seg.countP Machine.releases = 1

section

variable {bits : Nat → U32} {m m' : Machine} {held : Bool}

theorem MachineInvariant.masked_of_held (h : MachineInvariant bits m true) :
    interrupts m.cpu.eflags = false := by
  cases hset : interrupts m.cpu.eflags with
  | false => rfl
  | true =>
      have control := h.control
      simp only [Machine.Controlled] at control
      rw [hset] at control
      cases control.free_of_enabled

theorem MachineInvariant.at_lock (h : MachineInvariant bits m held) (hlock : m.AtProcLock) :
    held = false := by
  obtain hhead | hhead := hlock
  · obtain ⟨rest, hcode⟩ := List.head?_eq_some_iff.mp hhead
    exact (h.control_of_code hcode).1
  · obtain ⟨rest, hcode⟩ := List.head?_eq_some_iff.mp hhead
    exact (h.control_of_code hcode).2.1

theorem MachineInvariant.at_schedule (h : MachineInvariant bits m held)
    (hhead : m.cpu.code.head? = some .procSchedule) : held = true ∧ m.schedLock.Held := by
  obtain ⟨rest, hcode⟩ := List.head?_eq_some_iff.mp hhead
  obtain ⟨_, rfl, _⟩ := h.control_of_code hcode
  exact ⟨rfl, (h.taken rfl).resolve_right fun heq => nomatch hcode.symm.trans heq⟩

theorem MachineInvariant.at_release (h : MachineInvariant bits m held)
    (hhead : m.cpu.code.head? = some .spinlockRelease) :
    held = true ∧ ∀ e m', MachineStep m e m' → e = .exec := by
  obtain ⟨rest, hcode⟩ := List.head?_eq_some_iff.mp hhead
  obtain ⟨hmasked, rfl, _⟩ := h.control_of_code hcode
  refine ⟨rfl, fun e m' hstep => ?_⟩
  cases hstep with
  | exec => rfl
  | interrupt hset =>
      rw [hmasked] at hset
      cases hset
  | call _ hnil | create _ _ hnil =>
      rw [hcode] at hnil
      cases hnil

/-- After a switch, up to the next call of `proc_lock`: the release is still to
come and is the next step, or it has been executed once and the lock is free. -/
theorem MachineInvariant.one_release (h0 : bitAt bits 0 = true) (h : MachineInvariant bits m true)
    (hhead : m.cpu.code.head? = some .spinlockRelease) {seg : List (Machine × MachineEvent)}
    (run : Run MachineStep m seg m') (hseg : ∀ x ∈ seg, x.2 = .exec → ¬ x.1.AtProcLock) :
    seg = [] ∧ m' = m ∨ seg.countP Machine.releases = 1 ∧ MachineInvariant bits m' false := by
  induction run with
  | nil => exact Or.inl ⟨rfl, rfl⟩
  | @snoc seg t u e _ hstep ih =>
      obtain ⟨rfl, rfl⟩ | ⟨hcount, inv⟩ := ih fun x hx => hseg x (List.mem_append_left _ hx)
      · obtain ⟨_, honly⟩ := h.at_release hhead
        obtain rfl := honly _ _ hstep
        have hnext := h.step h0 hstep
        simp only [Machine.heldAfter] at hnext
        rw [hhead] at hnext
        refine Or.inr ⟨?_, hnext⟩
        rw [List.nil_append, List.countP_singleton]
        unfold Machine.releases
        rw [hhead]
        rfl
      · have hquiet := hseg (t, e) (List.mem_append_right _ (List.mem_singleton_self _))
        have hnext := inv.step h0 hstep
        rw [t.heldAfter_quiet hquiet] at hnext
        refine Or.inr ⟨?_, hnext⟩
        rw [List.countP_append, hcount, List.countP_singleton, if_neg]
        intro hrel
        obtain ⟨rfl, hhead'⟩ := Machine.releases_iff.mp hrel
        cases (inv.at_release hhead').1

/-- From the first `proc_schedule` on, every run keeps the lock discipline. -/
theorem scheduler_lock_discipline (boot : MachineBoot bits m) : LockDiscipline m where
  lockFree := by
    intro tr m' run hlock hheld
    obtain ⟨_, rfl⟩ | ⟨held, inv⟩ := MachineInvariant.of_run boot run
    · rw [boot.schedLock] at hheld
      exact Slock.not_held_init hheld
    · have hfalse := inv.at_lock hlock
      rw [inv.free hheld] at hfalse
      cases hfalse
  enabledFree := by
    intro tr m' run hset hheld
    obtain ⟨_, rfl⟩ | ⟨held, inv⟩ := MachineInvariant.of_run boot run
    · rw [boot.schedLock] at hheld
      exact Slock.not_held_init hheld
    · obtain rfl := inv.free hheld
      rw [inv.masked_of_held] at hset
      cases hset
  switchLocked := by
    intro tr m' run hne hswitch
    obtain ⟨hnil, _⟩ | ⟨held, inv⟩ := MachineInvariant.of_run boot run
    · exact absurd hnil hne
    · obtain ⟨rfl, hheld⟩ := inv.at_schedule hswitch.1
      exact ⟨hheld, inv.masked_of_held⟩
  oneRelease := by
    intro tr m' m₁ seg m₂ run hswitch hstep hrun hseg hlock
    have hstart : MachineInvariant bits m₁ true ∧ m₁.cpu.code.head? = some .spinlockRelease := by
      obtain ⟨_, rfl⟩ | ⟨held, inv⟩ := MachineInvariant.of_run boot run
      · exact boot.step hstep
      · obtain ⟨rest, hcode⟩ := List.head?_eq_some_iff.mp hswitch.1
        cases hstep with
        | exec _ hexec => exact (inv.schedule hcode hexec).2
    obtain ⟨_, rfl⟩ | ⟨hcount, _⟩ := hstart.1.one_release boot.low hstart.2 hrun hseg
    · have hfalse := hstart.1.at_lock hlock
      cases hfalse
    · exact hcount

/-- The two processes `kernel_enter` registers. -/
theorem scheduler_lock_discipline_two_processes :
    ∃ m : Machine, m.procs.registered = [49152, 32768] ∧ LockDiscipline m := by
  obtain ⟨r, hr⟩ := Option.isSome_iff_exists.mp (show (execRun schedExec (schedBoot emptySched 0 0)
    [.create 0 0, .register 32768, .create 0 0, .register 49152]).isSome by decide +kernel)
  have hend : (execRun schedExec (schedBoot emptySched 0 0)
      [.create 0 0, .register 32768, .create 0 0, .register 49152]).map
        (fun r => (r.2.registered, r.2.sched.procCurrent)) = some ([49152, 32768], 0) := by
    decide +kernel
  rw [hr] at hend
  obtain ⟨hregistered, hcurrent⟩ := Prod.mk.inj (Option.some.inj hend)
  refine ⟨⟨r.2, slockInit, ⟨[.procSchedule], [], 0⟩, fun _ => procInit⟩, hregistered,
    @scheduler_lock_discipline lowBits _ ?_⟩
  exact ⟨⟨emptySched, 0, 0, r.1, unscheduled_empty, Run.of_exec (fun _ _ _ => schedExec_sound) hr⟩,
    hcurrent, rfl, rfl, show interrupts 0 = false by decide, fun _ _ => rfl⟩

end

end DordOs
