import DordOs.Libk.Spinlock
import DordOs.Lib.Run

/-!
Bringing up the application cores in `kernel_enter`. `ap_init_lock` is a
hand-off: the boot CPU takes it before each start and once more at the end, and
the started core is the one that releases it, from `ap_enter`. Any core may take
its next step at any moment; a core enters `ap_enter` once, after its own start.
-/
namespace DordOs
open Lib

/-- How far a core has come. -/
inductive CoreState
  | off
  | started
  | entered
  | released
  deriving DecidableEq

/-- Where the boot CPU is: at the loop head with the ids still to look at, in
`spinlock_lock` before a start, at `apic_start_core`, in the last
`spinlock_lock`, or past it. -/
inductive BootPc
  | loop (ids : List U8)
  | lock (id : U8) (ids : List U8)
  | start (id : U8) (ids : List U8)
  | lastLock
  | done
  deriving DecidableEq

structure CoresState where
  apInitLock : Slock
  pc : BootPc
  core : U8 → CoreState

/-- With no core listed the whole section of `kernel_enter` is skipped. -/
def coresInit (acpiLapicIds : List U8) : CoresState :=
  { apInitLock := slockInit
    pc := if acpiLapicIds = [] then .done else .loop acpiLapicIds
    core := fun _ => .off }

/-- `apic_start_core` wakes a core that is off. A core that has been started
before does not enter `ap_enter` again. -/
def apicStartCore (core : U8 → CoreState) (id : U8) : U8 → CoreState :=
  if core id = .off then Function.update core id .started else core

def bootStep (bspId : U8) (s : CoresState) : CoresState :=
  match s.pc with
  | .loop [] => { s with pc := .lastLock }
  | .loop (id :: ids) => { s with pc := if id ≠ bspId then .lock id ids else .loop ids }
  | .lock id ids =>
      let (acquired, lock) := s.apInitLock.tryLock
      { s with apInitLock := lock, pc := if acquired then .start id ids else .lock id ids }
  | .start id ids => { s with core := apicStartCore s.core id, pc := .loop ids }
  | .lastLock =>
      let (acquired, lock) := s.apInitLock.tryLock
      { s with apInitLock := lock, pc := if acquired then .done else .lastLock }
  | .done => s

inductive CoresEvent
  | boot
  | enter (id : U8)
  | release (id : U8)

inductive CoresStep (bspId : U8) : CoresState → CoresEvent → CoresState → Prop
  | boot (s : CoresState) : CoresStep bspId s .boot (bootStep bspId s)
  | enter (s : CoresState) (id : U8) : s.core id = .started →
      CoresStep bspId s (.enter id) { s with core := Function.update s.core id .entered }
  | release (s : CoresState) (id : U8) : s.core id = .entered →
      CoresStep bspId s (.release id)
        { s with apInitLock := s.apInitLock.release
                 core := Function.update s.core id .released }

/-- Started, and not yet past its release. -/
def CoresState.Pending (s : CoresState) (id : U8) : Prop :=
  s.core id = .started ∨ s.core id = .entered

/-- The ids the boot CPU has still to start, at each point of its loop. -/
def BootPc.remaining : BootPc → List U8
  | .loop ids => ids
  | .lock id ids | .start id ids => id :: ids
  | .lastLock | .done => []

/-- Where the boot CPU itself is the holder of the lock. -/
def BootPc.Holds : BootPc → Prop
  | .start _ _ | .done => True
  | _ => False

/-- The lock is held by the boot CPU or on behalf of one pending core, never
both. -/
structure CoresInvariant (bspId : U8) (ids : List U8) (s : CoresState) : Prop where
  held : (∃ i, s.Pending i) ∨ s.pc.Holds → s.apInitLock.Held
  alone : ∀ i j, s.Pending i → s.Pending j → i = j
  quiet : s.pc.Holds → ∀ i, ¬ s.Pending i
  listed : ∀ id ∈ ids, id ≠ bspId → id ∈ s.pc.remaining ∨ s.core id ≠ .off

theorem coresInvariant_init (bspId : U8) (ids : List U8) (hne : ids ≠ []) :
    CoresInvariant bspId ids (coresInit ids) := by
  have hpc : (coresInit ids).pc = .loop ids := if_neg hne
  have hoff : ∀ i, ¬ (coresInit ids).Pending i := by
    intro i h
    obtain h | h := h <;> cases h
  refine ⟨?_, fun i _ h => absurd h (hoff i), fun _ => hoff, ?_⟩
  · intro h
    obtain ⟨i, hi⟩ | hholds := h
    · exact absurd hi (hoff i)
    · rw [hpc] at hholds
      exact hholds.elim
  · intro id hid _
    left
    rw [hpc]
    exact hid

section

variable {bspId : U8} {ids : List U8} {s : CoresState}

/-- The boot CPU moves on without having acquired the lock. -/
theorem CoresInvariant.boot_waits (h : CoresInvariant bspId ids s) (lock : Slock) (pc : BootPc)
    (hpc : ¬ pc.Holds) (hheld : s.apInitLock.Held → lock.Held)
    (hrem : ∀ id ∈ s.pc.remaining, id ≠ bspId → id ∈ pc.remaining) :
    CoresInvariant bspId ids { s with apInitLock := lock, pc := pc } := by
  refine ⟨?_, h.alone, fun hholds => absurd hholds hpc, ?_⟩
  · intro hor
    obtain hpend | hholds := hor
    · exact hheld (h.held (Or.inl hpend))
    · exact absurd hholds hpc
  · intro id hid hne
    obtain hr | hr := h.listed id hid hne
    · exact Or.inl (hrem id hr hne)
    · exact Or.inr hr

/-- Finding the lock free shows that no core is pending. -/
theorem CoresInvariant.boot_acquires (h : CoresInvariant bspId ids s) (pc : BootPc)
    (hacq : s.apInitLock.tryLock.1 = true)
    (hrem : ∀ id ∈ s.pc.remaining, id ≠ bspId → id ∈ pc.remaining) :
    CoresInvariant bspId ids { s with apInitLock := s.apInitLock.tryLock.2, pc := pc } := by
  have hfree := (Slock.tryLock_fst _).mp hacq
  refine ⟨fun _ => Slock.held_tryLock _, h.alone, ?_, ?_⟩
  · intro _ i hi
    exact hfree (h.held (Or.inl ⟨i, hi⟩))
  · intro id hid hne
    obtain hr | hr := h.listed id hid hne
    · exact Or.inl (hrem id hr hne)
    · exact Or.inr hr

/-- Starting a core when none is pending makes it the only pending one. -/
theorem pending_apicStartCore {core : U8 → CoreState} {id i : U8}
    (hnone : ¬ (core i = .started ∨ core i = .entered))
    (hi : apicStartCore core id i = .started ∨ apicStartCore core id i = .entered) : i = id := by
  by_contra hne
  apply hnone
  simp only [apicStartCore] at hi
  split at hi
  · rwa [Function.update_of_ne hne] at hi
  · exact hi

theorem apicStartCore_ne_off {core : U8 → CoreState} (id : U8) {i : U8}
    (hi : i = id ∨ core i ≠ .off) : apicStartCore core id i ≠ .off := by
  simp only [apicStartCore]
  split
  · next hoff =>
      by_cases heq : i = id
      · rw [heq, Function.update_self]
        exact CoreState.noConfusion
      · rw [Function.update_of_ne heq]
        exact hi.resolve_left heq
  · next hon =>
      obtain rfl | hi := hi
      · exact hon
      · exact hi

theorem update_ne_off {core : U8 → CoreState} {c : CoreState} (hc : c ≠ .off) {id i : U8}
    (hi : core i ≠ .off) : Function.update core id c i ≠ .off := by
  by_cases heq : i = id
  · rwa [heq, Function.update_self]
  · rwa [Function.update_of_ne heq]

theorem CoresInvariant.boot_starts (h : CoresInvariant bspId ids s) {id : U8} {rest : List U8}
    (hpc : s.pc = .start id rest) :
    CoresInvariant bspId ids { s with core := apicStartCore s.core id, pc := .loop rest } := by
  have hholds : s.pc.Holds := by
    rw [hpc]
    trivial
  have hnone := h.quiet hholds
  refine ⟨fun _ => h.held (Or.inr hholds), ?_, fun hbad => hbad.elim, ?_⟩
  · intro i j hi hj
    rw [pending_apicStartCore (hnone i) hi, pending_apicStartCore (hnone j) hj]
  · intro i hi hne
    obtain hr | hr := h.listed i hi hne
    · rw [hpc] at hr
      obtain heq | hr := List.mem_cons.mp hr
      · exact Or.inr (apicStartCore_ne_off id (Or.inl heq))
      · exact Or.inl hr
    · exact Or.inr (apicStartCore_ne_off id (Or.inr hr))

/-- One try of `spinlock_lock`, at `pc`, with `next` behind it. -/
theorem CoresInvariant.boot_locks (h : CoresInvariant bspId ids s) {pc next : BootPc}
    (hpc : s.pc = pc) (hwait : ¬ pc.Holds) (hrem : next.remaining = pc.remaining) :
    CoresInvariant bspId ids { s with
      apInitLock := s.apInitLock.tryLock.2
      pc := if s.apInitLock.tryLock.1 then next else pc } := by
  by_cases hacq : s.apInitLock.tryLock.1 = true
  · rw [if_pos hacq]
    refine h.boot_acquires _ hacq fun i hi _ => ?_
    rwa [hrem, ← hpc]
  · rw [if_neg hacq]
    refine h.boot_waits _ _ hwait (fun _ => Slock.held_tryLock _) fun i hi _ => ?_
    rwa [← hpc]

theorem CoresInvariant.boot (h : CoresInvariant bspId ids s) :
    CoresInvariant bspId ids (bootStep bspId s) := by
  unfold bootStep
  split
  case h_1 hpc =>
    exact h.boot_waits s.apInitLock .lastLock not_false (fun hl => hl) fun id hid _ => by
      rw [hpc] at hid
      exact hid
  case h_2 id rest hpc =>
    by_cases hself : id = bspId
    · rw [if_neg (not_not.mpr hself)]
      refine h.boot_waits s.apInitLock (.loop rest) not_false (fun hl => hl) ?_
      intro i hi hne
      rw [hpc] at hi
      obtain rfl | hi := List.mem_cons.mp hi
      · exact absurd hself hne
      · exact hi
    · rw [if_pos hself]
      exact h.boot_waits s.apInitLock (.lock id rest) not_false (fun hl => hl) fun i hi _ => by
        rw [hpc] at hi
        exact hi
  case h_3 id rest hpc => exact h.boot_locks hpc not_false rfl
  case h_4 id rest hpc => exact h.boot_starts hpc
  case h_5 hpc => exact h.boot_locks hpc not_false rfl
  case h_6 => exact h

theorem CoresInvariant.step (h : CoresInvariant bspId ids s) {e : CoresEvent} {t : CoresState}
    (hstep : CoresStep bspId s e t) : CoresInvariant bspId ids t := by
  cases hstep with
  | boot => exact h.boot
  | enter id hid =>
      have hpend : ∀ i, (Function.update s.core id .entered i = .started ∨
          Function.update s.core id .entered i = .entered) → s.Pending i := by
        intro i hi
        by_cases heq : i = id
        · exact heq ▸ Or.inl hid
        · rwa [Function.update_of_ne heq] at hi
      refine ⟨?_, fun i j hi hj => h.alone i j (hpend i hi) (hpend j hj),
        fun hholds i hi => h.quiet hholds i (hpend i hi), ?_⟩
      · intro hor
        obtain ⟨i, hi⟩ | hholds := hor
        · exact h.held (Or.inl ⟨i, hpend i hi⟩)
        · exact h.held (Or.inr hholds)
      · intro i hi hne
        exact (h.listed i hi hne).imp_right fun hon => update_ne_off (by decide) hon
  | release id hid =>
      have hidp : s.Pending id := Or.inr hid
      have hnone : ∀ i, ¬ (Function.update s.core id .released i = .started ∨
          Function.update s.core id .released i = .entered) := by
        intro i hi
        by_cases heq : i = id
        · rw [heq, Function.update_self] at hi
          obtain hi | hi := hi <;> cases hi
        · rw [Function.update_of_ne heq] at hi
          exact heq (h.alone i id hi hidp)
      refine ⟨?_, fun i _ hi => absurd hi (hnone i), fun _ => hnone, ?_⟩
      · intro hor
        obtain ⟨i, hi⟩ | hholds := hor
        · exact absurd hi (hnone i)
        · exact absurd hidp (h.quiet hholds id)
      · intro i hi hne
        exact (h.listed i hi hne).imp_right fun hon => update_ne_off (by decide) hon

end

/-- The bring-up protocol at one moment. -/
structure BringUp (bspId : U8) (ids : List U8) (s : CoresState) : Prop where
  onePending : ∀ i j, s.Pending i → s.Pending j → i = j
  startsAlone : ∀ id rest, s.pc = .start id rest → ∀ i, ¬ s.Pending i
  allReleased : s.pc = .done → ∀ i, s.core i ≠ .off → s.core i = .released
  complete : s.pc = .done → ∀ id ∈ ids, id ≠ bspId → s.core id = .released

theorem CoresInvariant.bringUp {bspId : U8} {ids : List U8} {s : CoresState}
    (h : CoresInvariant bspId ids s) : BringUp bspId ids s := by
  have hdone : s.pc = .done → ∀ i, s.core i ≠ .off → s.core i = .released := by
    intro hpc i hi
    have hquiet := h.quiet (by rw [hpc]; trivial) i
    cases hc : s.core i with
    | off => exact absurd hc hi
    | started => exact absurd (Or.inl hc) hquiet
    | entered => exact absurd (Or.inr hc) hquiet
    | released => rfl
  refine ⟨h.alone, fun id rest hpc => h.quiet (by rw [hpc]; trivial), hdone, ?_⟩
  intro hpc id hid hne
  obtain hr | hr := h.listed id hid hne
  · rw [hpc] at hr
    cases hr
  · exact hdone hpc id hr

theorem bringUp_skipped {bspId : U8} {tr : List (CoresState × CoresEvent)} {s : CoresState}
    (run : Run (CoresStep bspId) (coresInit []) tr s) : s = coresInit [] := by
  apply run.invariant (I := fun s => s = coresInit []) rfl
  intro a e b ha hstep
  subst ha
  cases hstep with
  | boot => rfl
  | enter id hid => cases hid
  | release id hid => cases hid

/-- For every list of LAPIC ids and every interleaving of the boot CPU with the
cores it starts, the bring-up is serialized and complete. -/
theorem core_bring_up (bspId : U8) (ids : List U8) {tr : List (CoresState × CoresEvent)}
    {s : CoresState} (run : Run (CoresStep bspId) (coresInit ids) tr s) :
    BringUp bspId ids s := by
  by_cases hne : ids = []
  · subst hne
    rw [bringUp_skipped run]
    have hoff : ∀ i, ¬ (coresInit []).Pending i := by
      intro i h
      obtain h | h := h <;> cases h
    refine ⟨fun i _ h => absurd h (hoff i), fun _ _ h => ?_, fun _ i h => absurd rfl h,
      fun _ id hid => absurd hid List.not_mem_nil⟩
    cases h
  · exact (run.invariant (coresInvariant_init bspId ids hne) fun _ _ _ h hs => h.step hs).bringUp

/-- One other core, brought up to the end of the section. -/
theorem core_bring_up_two_cores :
    ∃ s : CoresState, s.pc = .done ∧ s.core 7 = .released ∧ BringUp 0 [0, 7] s := by
  have init : Run (CoresStep 0) (coresInit [0, 7]) [] (coresInit [0, 7]) := .nil
  have skipped := (init.snoc (.boot _)).snoc (.boot _)
  have started := (skipped.snoc (.boot _)).snoc (.boot _)
  have entered := started.snoc (.enter _ 7 (by decide))
  have released := entered.snoc (.release _ 7 (by decide))
  have finished := (released.snoc (.boot _)).snoc (.boot _)
  exact ⟨_, by decide, by decide, core_bring_up 0 [0, 7] finished⟩

end DordOs
