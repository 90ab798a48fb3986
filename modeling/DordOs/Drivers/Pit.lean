import DordOs.Proc.State

/-!
Sleeping on the tick counter. The deadline is computed and compared modulo 2^32, so the
wait ends early when the deadline has wrapped and the counter has not, and does not end
when the counter wraps before a read has found it past the deadline.
-/
namespace DordOs

/-- The loop, with the number of timer interrupts before each of its reads; the read
that leaves it, or `none` while it is still going on. -/
def pitSleepLoop (waitUntil : U32) : List Nat → Sched → Option Nat
  | [], _ => none
  | ticks :: between, s =>
      let s := pitHandleInterrupt^[ticks] s
      if s.pitSystimeMsec ≤ waitUntil then (pitSleepLoop waitUntil between s).map Nat.succ
      else some 0

def pitSleepMsec (msec : U32) (between : List Nat) (s : Sched) : Option Nat :=
  pitSleepLoop (s.pitSystimeMsec + msec) between s

/-- The ticks since the call when the loop makes read `k`. -/
def pitDelivered (between : List Nat) (k : Nat) : Nat := (between.take (k + 1)).sum

/-- Read `k` is the first one after more than `msec` ticks. -/
structure PitFirst (msec : U32) (between : List Nat) (k : Nat) : Prop where
  read : k < between.length
  past : msec.toNat < pitDelivered between k
  before : ∀ j < k, pitDelivered between j ≤ msec.toNat

/-- Long enough, and no longer. -/
structure PitSleeps (msec : U32) (between : List Nat) (s : Sched) : Prop where
  waits : ∀ k, pitSleepMsec msec between s = some k → msec.toNat ≤ pitDelivered between k
  ends : ∀ k, PitFirst msec between k → pitDelivered between k < 2 ^ 32 →
    pitSleepMsec msec between s = some k

/-- When the deadline does not wrap, the first read past it comes before the counter
wraps; when it does, no read comes before the counter has wrapped, too. -/
def PitInTime (systime msec : U32) (between : List Nat) : Prop :=
  if systime.toNat + msec.toNat < 2 ^ 32 then
    ∀ k, PitFirst msec between k → pitDelivered between k < 2 ^ 32 →
      systime.toNat + pitDelivered between k < 2 ^ 32
  else 0 < between.length → 2 ^ 32 ≤ systime.toNat + pitDelivered between 0

/-- What read `k` finds in the counter. -/
def pitReading (systime : U32) (between : List Nat) (k : Nat) : U32 :=
  systime + BitVec.ofNat 32 (pitDelivered between k)

section Loop

variable {s : Sched} {waitUntil msec : U32} {between : List Nat} {ticks k : Nat}

theorem pitHandleInterrupt_iterate (n : Nat) (s : Sched) :
    (pitHandleInterrupt^[n] s).pitSystimeMsec = s.pitSystimeMsec + BitVec.ofNat 32 n := by
  induction n with
  | zero => exact (BitVec.add_zero _).symm
  | succ n ih =>
      rw [Function.iterate_succ_apply', BitVec.ofNat_add, ← BitVec.add_assoc, ← ih]
      rfl

theorem pitReading_zero : pitReading s.pitSystimeMsec (ticks :: between) 0 =
    (pitHandleInterrupt^[ticks] s).pitSystimeMsec := by
  rw [pitHandleInterrupt_iterate]
  simp [pitReading, pitDelivered]

theorem pitReading_succ (s : Sched) (ticks : Nat) (between : List Nat) (k : Nat) :
    pitReading (pitHandleInterrupt^[ticks] s).pitSystimeMsec between k =
      pitReading s.pitSystimeMsec (ticks :: between) (k + 1) := by
  rw [pitHandleInterrupt_iterate, pitReading, pitReading, pitDelivered, pitDelivered,
    List.take_succ_cons, List.sum_cons, BitVec.ofNat_add, BitVec.add_assoc]

/-- The first read leaves the loop, or it is read `k` of the rest that does. -/
theorem pitSleepLoop_zero : pitSleepLoop waitUntil (ticks :: between) s = some 0 ↔
    waitUntil < pitReading s.pitSystimeMsec (ticks :: between) 0 := by
  rw [pitSleepLoop, pitReading_zero, ← BitVec.not_le]
  split
  · rename_i hle
    refine iff_of_false (fun h => ?_) (not_not.mpr hle)
    obtain ⟨_, -, hsucc⟩ := Option.map_eq_some_iff.mp h
    exact Nat.succ_ne_zero _ hsucc
  · rename_i hlt
    exact iff_of_true rfl hlt

theorem pitSleepLoop_succ : pitSleepLoop waitUntil (ticks :: between) s = some (k + 1) ↔
    pitReading s.pitSystimeMsec (ticks :: between) 0 ≤ waitUntil ∧
      pitSleepLoop waitUntil between (pitHandleInterrupt^[ticks] s) = some k := by
  rw [pitSleepLoop, pitReading_zero]
  split
  · rename_i hle
    rw [and_iff_right hle, Option.map_eq_some_iff]
    constructor
    · rintro ⟨k', hk', hsucc⟩
      rw [hk', Nat.succ.inj hsucc]
    · exact fun h => ⟨k, h, rfl⟩
  · rename_i hlt
    exact iff_of_false (fun h => nomatch h) fun h => hlt h.1

/-- The loop is left by the first read past the deadline. -/
theorem pitSleepLoop_iff : pitSleepLoop waitUntil between s = some k ↔
    k < between.length ∧ waitUntil < pitReading s.pitSystimeMsec between k ∧
      ∀ j < k, pitReading s.pitSystimeMsec between j ≤ waitUntil := by
  induction between generalizing s k with
  | nil => exact iff_of_false (fun h => nomatch h) fun h => Nat.not_lt_zero k h.1
  | cons ticks between ih =>
      cases k with
      | zero =>
          rw [pitSleepLoop_zero]
          constructor
          · exact fun hlt => ⟨Nat.succ_pos _, hlt, fun j hj => absurd hj (Nat.not_lt_zero j)⟩
          · exact fun h => h.2.1
      | succ k =>
          rw [pitSleepLoop_succ, ih]
          simp only [pitReading_succ]
          constructor
          · rintro ⟨hle, hlen, hlt, hbefore⟩
            refine ⟨Nat.succ_lt_succ hlen, hlt, ?_⟩
            rintro (_ | j) hj
            · exact hle
            · exact hbefore j (Nat.lt_of_succ_lt_succ hj)
          · rintro ⟨hlen, hlt, hbefore⟩
            refine ⟨hbefore 0 (Nat.succ_pos k), Nat.lt_of_succ_lt_succ hlen, hlt, ?_⟩
            exact fun j hj => hbefore (j + 1) (Nat.succ_lt_succ hj)

/-- When read `k` finds the counter past the deadline. -/
theorem pitPast_iff (systime msec : U32) (small : pitDelivered between k < 2 ^ 32) :
    systime + msec < pitReading systime between k ↔
      if systime.toNat + msec.toNat < 2 ^ 32 then
        msec.toNat < pitDelivered between k ∧ systime.toNat + pitDelivered between k < 2 ^ 32
      else
        2 ^ 32 ≤ systime.toNat + pitDelivered between k → msec.toNat < pitDelivered between k := by
  have hs := systime.isLt
  have hm := msec.isLt
  rw [BitVec.lt_def, pitReading, BitVec.toNat_add, BitVec.toNat_add, BitVec.toNat_ofNat]
  split <;> omega

theorem pitDelivered_mono (between : List Nat) {j : Nat} (h : j ≤ k) :
    pitDelivered between j ≤ pitDelivered between k := by
  obtain ⟨rest, hrest⟩ := List.take_prefix_take_left (l := between) (Nat.succ_le_succ h)
  rw [pitDelivered, pitDelivered, ← hrest, List.sum_append]
  exact Nat.le_add_right _ _

/-- A sleep that is right has its reads at the right side of the wrap. -/
theorem PitSleeps.inTime (sleeps : PitSleeps msec between s) :
    PitInTime s.pitSystimeMsec msec between := by
  unfold PitInTime
  split
  · rename_i hdeadline
    intro k hfirst hsmall
    obtain ⟨-, hpast, -⟩ := pitSleepLoop_iff.mp (sleeps.ends k hfirst hsmall)
    rw [pitPast_iff _ _ hsmall, if_pos hdeadline] at hpast
    exact hpast.2
  · rename_i hdeadline
    intro hlen
    by_contra hearly
    have hpast : s.pitSystimeMsec + msec < pitReading s.pitSystimeMsec between 0 := by
      rw [pitPast_iff _ _ (by omega), if_neg hdeadline]
      exact fun hwrapped => absurd hwrapped hearly
    have hwaits := sleeps.waits 0 (pitSleepLoop_iff.mpr
      ⟨hlen, hpast, fun j hj => absurd hj (Nat.not_lt_zero j)⟩)
    have hm := msec.isLt
    omega

/-- Behind a deadline that wraps, every read finds the counter wrapped, too. -/
theorem PitInTime.wrapped (inTime : PitInTime s.pitSystimeMsec msec between)
    (hk : k < between.length) (hdeadline : ¬ s.pitSystimeMsec.toNat + msec.toNat < 2 ^ 32) :
    2 ^ 32 ≤ s.pitSystimeMsec.toNat + pitDelivered between k := by
  unfold PitInTime at inTime
  rw [if_neg hdeadline] at inTime
  have hfirst := inTime (Nat.zero_lt_of_lt hk)
  have hmono := pitDelivered_mono between (Nat.zero_le k)
  omega

theorem PitInTime.waits (inTime : PitInTime s.pitSystimeMsec msec between)
    (hexit : pitSleepMsec msec between s = some k) : msec.toNat ≤ pitDelivered between k := by
  have hm := msec.isLt
  obtain ⟨hk, hpast, -⟩ := pitSleepLoop_iff.mp hexit
  by_cases hsmall : pitDelivered between k < 2 ^ 32
  · rw [pitPast_iff _ _ hsmall] at hpast
    split at hpast
    · exact Nat.le_of_lt hpast.1
    · exact Nat.le_of_lt (hpast (inTime.wrapped hk ‹_›))
  · omega

theorem PitInTime.ends (inTime : PitInTime s.pitSystimeMsec msec between)
    (hfirst : PitFirst msec between k) (hsmall : pitDelivered between k < 2 ^ 32) :
    pitSleepMsec msec between s = some k := by
  have hm := msec.isLt
  refine pitSleepLoop_iff.mpr ⟨hfirst.read, ?_, ?_⟩
  · rw [pitPast_iff _ _ hsmall]
    split
    · rename_i hdeadline
      unfold PitInTime at inTime
      rw [if_pos hdeadline] at inTime
      exact ⟨hfirst.past, inTime k hfirst hsmall⟩
    · exact fun _ => hfirst.past
  · intro j hj
    have hbefore := hfirst.before j hj
    rw [← BitVec.not_lt, pitPast_iff _ _ (by omega)]
    split
    · exact fun hpast => absurd hpast.1 (Nat.not_lt.mpr hbefore)
    · exact fun hpast => absurd
        (hpast (inTime.wrapped (Nat.lt_trans hj hfirst.read) ‹_›)) (Nat.not_lt.mpr hbefore)

end Loop

/-- The sleep is right iff the counter wraps at the right side of its reads. -/
theorem pit_sleeps_iff (msec : U32) (between : List Nat) (s : Sched) :
    PitSleeps msec between s ↔ PitInTime s.pitSystimeMsec msec between :=
  ⟨PitSleeps.inTime, fun inTime =>
    ⟨fun _ => inTime.waits, fun _ => inTime.ends⟩⟩

/-- The system three ticks before the counter wraps. -/
def pitLate : Sched where
  entry := fun _ => 0
  next := fun _ => 0
  timeEnd := fun _ => 0
  name := fun _ => 0
  state := fun _ => 0
  procCurrent := 0
  procIdle := 0
  readyQ := 0
  waitingQ := 0
  pitSystimeMsec := 0xFFFFFFFC
  pmmanKernelMap := pmmanKernelMap fun _ => 0

/-- Sleeping ten ticks there ends at once. -/
theorem pit_sleep_wraps : ¬ ∀ msec between s, PitSleeps msec between s := by
  intro claim
  exact absurd ((claim 10 [0] pitLate).waits 0 (by decide)) (by decide)

end DordOs
