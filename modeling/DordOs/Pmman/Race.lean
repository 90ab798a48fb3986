import DordOs.Pmman.Isolation
import DordOs.Lib.Interleave
import Mathlib.Logic.Relation

/-!
Two processes inside `pmman_alloc` at once. A step reads or writes one bit of
the shared bitmap, and a timer interrupt may switch processes before any step.
Run alone, the steps compute `pmman_alloc`. Interleaved, they hand out a block
twice as soon as one process marks a block the other has marked since the first
one read it as free; the two results are disjoint exactly in the runs where that
never happens.
-/
namespace DordOs
open Lib

/-- Where a call of `pmman_alloc` is: testing block `i` with the candidate run
starting at `start`, about to mark block `i` of the run it found, or returned. -/
inductive AllocPc
  | search (start i : Usz)
  | mark (start i : Usz)
  | done (start : Option Usz)
  deriving DecidableEq

structure AllocCall where
  size : Usz
  blocks : Usz
  pc : AllocPc
  deriving DecidableEq

def allocEnter (map : PmmanMap) (size : Usz) : AllocCall :=
  let blocks := pmmanToBlocks map size
  { size := size
    blocks := blocks
    pc := if blocks > pmmanBits then .done none else .search 0 0 }

def allocNext (map : PmmanMap) (call : AllocCall) : PmmanMap × AllocCall :=
  match call.pc with
  | .search start i =>
      if i < pmmanBits ∧ pmmanGetBlock map.bits i = 0 then
        if i + 1 - start = call.blocks then (map, { call with pc := .mark start start })
        else (map, { call with pc := .search start (i + 1) })
      else if i + 1 ≤ pmmanBits - call.blocks then
        (map, { call with pc := .search (i + 1) (i + 1) })
      else (map, { call with pc := .done none })
  | .mark start i =>
      if i < start + call.blocks then
        ({ map with bits := pmmanSetBlock map.bits i }, { call with pc := .mark start (i + 1) })
      else (map, { call with pc := .done (some start) })
  | .done _ => (map, call)

/-- The pointer a finished call returned, 0 for `null`. -/
def AllocCall.result (map : PmmanMap) (call : AllocCall) : Option Usz :=
  match call.pc with
  | .done none => some 0
  | .done (some start) => some ((start <<< map.blockSize) + map.base)
  | _ => none

theorem toNat_add_blocks {start blocks : Usz} (h : start.toNat + blocks.toNat ≤ 1024) :
    (start + blocks).toNat = start.toNat + blocks.toNat := by
  rw [BitVec.toNat_add]
  exact Nat.mod_eq_of_lt (by omega)

section

/-- The steps of one call that no other process interrupts. -/
abbrev AllocAlone : PmmanMap × AllocCall → PmmanMap × AllocCall → Prop :=
  Relation.ReflTransGen fun x y => y = allocNext x.1 x.2

variable {map : PmmanMap} {size blocks start i : Usz}

theorem alloc_alone_scan :
    AllocAlone (map, ⟨size, blocks, .search start i⟩)
      (match pmmanScan map.bits blocks start i with
        | .found => (map, ⟨size, blocks, .mark start start⟩)
        | .stopped j =>
            if j + 1 ≤ pmmanBits - blocks then (map, ⟨size, blocks, .search (j + 1) (j + 1)⟩)
            else (map, ⟨size, blocks, .done none⟩)) := by
  fun_induction pmmanScan map.bits blocks start i with
  | case1 i hi heq =>
      refine .single ?_
      simp only [allocNext, if_pos hi, if_pos heq]
  | case2 i hi hne ih =>
      refine .head ?_ ih
      simp only [allocNext, if_pos hi, if_neg hne]
  | case3 i hi =>
      refine .single ?_
      simp only [allocNext, if_neg hi]

theorem alloc_alone_search (fits : blocks ≤ pmmanBits) (hi : i ≤ pmmanBits - blocks) :
    AllocAlone (map, ⟨size, blocks, .search i i⟩)
      (match pmmanSearch map.bits blocks fits i with
        | some start => (map, ⟨size, blocks, .mark start start⟩)
        | none => (map, ⟨size, blocks, .done none⟩)) := by
  have scan := @alloc_alone_scan map size blocks i i
  fun_induction pmmanSearch map.bits blocks fits i with
  | case1 i _ hs =>
      rw [hs] at scan
      exact scan
  | case2 i _ j hs _ ih =>
      rw [hs] at scan
      by_cases hj : j + 1 ≤ pmmanBits - blocks
      · simp only [if_pos hj] at scan
        exact scan.trans (ih hj alloc_alone_scan)
      · simp only [if_neg hj] at scan
        rw [pmmanSearch, dif_neg hj]
        exact scan
  | case3 i hgt => exact absurd hi hgt

theorem alloc_alone_mark (hi : i.toNat ≤ (start + blocks).toNat) :
    AllocAlone (map, ⟨size, blocks, .mark start i⟩)
      ({ map with bits := forUp i (start + blocks) (fun i bits => pmmanSetBlock bits i) map.bits },
        ⟨size, blocks, .done (some start)⟩) := by
  obtain ⟨n, hn⟩ : ∃ n, (start + blocks).toNat - i.toNat = n := ⟨_, rfl⟩
  induction n generalizing map i with
  | zero =>
      have hnot : ¬ i < start + blocks := by
        rw [BitVec.lt_def]
        omega
      rw [forUp_of_not_lt hnot]
      refine .single ?_
      simp only [allocNext, if_neg hnot]
  | succ n ih =>
      have hlt : i < start + blocks := BitVec.lt_def.mpr (by omega)
      have hsucc := toNat_succ_of_lt hlt
      rw [forUp_of_lt hlt]
      have tail := @ih { map with bits := pmmanSetBlock map.bits i } (i + 1) (by omega) (by omega)
      refine .head ?_ tail
      simp only [allocNext, if_pos hlt]

end

/-- Uninterrupted, the steps of a call compute `pmman_alloc`. -/
theorem alloc_alone (map : PmmanMap) (size : Usz) :
    ∃ call, AllocAlone (map, allocEnter map size) ((pmmanAlloc map size).2, call) ∧
      call.result (pmmanAlloc map size).2 = some (pmmanAlloc map size).1 := by
  simp only [pmmanAlloc, allocEnter]
  by_cases h : pmmanToBlocks map size > pmmanBits
  · simp only [if_pos h, dif_pos h]
    exact ⟨_, .refl, rfl⟩
  · simp only [if_neg h, dif_neg h]
    have search := @alloc_alone_search map size _ _ (BitVec.not_lt.mp h)
      (show 0 ≤ pmmanBits - pmmanToBlocks map size from BitVec.le_def.mpr (Nat.zero_le _))
    cases hs : pmmanSearch map.bits (pmmanToBlocks map size) (BitVec.not_lt.mp h) 0 with
    | none =>
        rw [hs] at search
        exact ⟨_, search, rfl⟩
    | some start =>
        rw [hs] at search
        have inside := (pmmanSearch_some hs).2.1.inside
        have hend := toNat_add_blocks inside
        exact ⟨_, search.trans (alloc_alone_mark (by omega)), rfl⟩

def AllocMove (map : PmmanMap) (call : AllocCall) (_ : Unit) (map' : PmmanMap)
    (call' : AllocCall) : Prop :=
  (map', call') = allocNext map call

abbrev AllocRace := Threads Bool PmmanMap AllocCall

def raceInit (bits : Nat → U32) (size : Bool → Usz) : AllocRace :=
  ⟨pmmanKernelMap bits, fun p => allocEnter (pmmanKernelMap bits) (size p)⟩

/-- The blocks a call has marked so far. -/
def AllocCall.Owned (call : AllocCall) (b : Nat) : Prop :=
  match call.pc with
  | .mark start i => start.toNat ≤ b ∧ b < i.toNat
  | .done (some start) => start.toNat ≤ b ∧ b < start.toNat + call.blocks.toNat
  | _ => False

/-- The blocks a call has read as free and counts on, but has not marked yet. -/
def AllocCall.Window (call : AllocCall) (b : Nat) : Prop :=
  match call.pc with
  | .search start i => start.toNat ≤ b ∧ b < i.toNat
  | .mark start i => i.toNat ≤ b ∧ b < start.toNat + call.blocks.toNat
  | .done _ => False

/-- The step the call is about to take does not set a bit that is already set. -/
def AllocCall.MarksFree (map : PmmanMap) (call : AllocCall) : Prop :=
  match call.pc with
  | .mark start i => i < start + call.blocks → map.marked i.toNat = false
  | _ => True

instance (map : PmmanMap) (call : AllocCall) : Decidable (call.MarksFree map) :=
  match call with
  | ⟨_, blocks, .mark start i⟩ =>
      inferInstanceAs (Decidable (i < start + blocks → map.marked i.toNat = false))
  | ⟨_, _, .search _ _⟩ => .isTrue trivial
  | ⟨_, _, .done _⟩ => .isTrue trivial

/-- The counters of a call stay inside the map. -/
def AllocCall.Bounded (call : AllocCall) : Prop :=
  match call.pc with
  | .search start i =>
      call.blocks.toNat ≤ 1024 ∧ start.toNat ≤ i.toNat ∧ i.toNat ≤ 1024 ∧
        (call.blocks.toNat = 0 ∨ i.toNat < start.toNat + call.blocks.toNat)
  | .mark start i =>
      start.toNat ≤ i.toNat ∧ i.toNat ≤ start.toNat + call.blocks.toNat ∧
        start.toNat + call.blocks.toNat ≤ 1024 ∧ 0 < call.blocks.toNat
  | .done (some start) => start.toNat + call.blocks.toNat ≤ 1024 ∧ 0 < call.blocks.toNat
  | .done none => True

theorem allocEnter_bounded (map : PmmanMap) (size : Usz) : (allocEnter map size).Bounded := by
  simp only [allocEnter, AllocCall.Bounded]
  by_cases h : pmmanToBlocks map size > pmmanBits
  · simp only [if_pos h]
  · simp only [if_neg h]
    have hle : ¬ 1024 < (pmmanToBlocks map size).toNat := fun hlt => h (BitVec.lt_def.mpr hlt)
    change _ ∧ 0 ≤ 0 ∧ 0 ≤ 1024 ∧ (_ ∨ 0 < 0 + _)
    omega

/-- What one step of a call can do, with its counters read as numbers. -/
inductive AllocNext (map : PmmanMap) (call : AllocCall) : PmmanMap → AllocCall → Prop
  | extend (start i : Usz) : call.pc = .search start i →
      i.toNat < 1024 → map.marked i.toNat = false → (i + 1).toNat = i.toNat + 1 →
      call.blocks.toNat = 0 ∨ i.toNat + 1 < start.toNat + call.blocks.toNat →
      AllocNext map call map { call with pc := .search start (i + 1) }
  | found (start i : Usz) : call.pc = .search start i →
      i.toNat < 1024 → map.marked i.toNat = false →
      i.toNat + 1 = start.toNat + call.blocks.toNat → 0 < call.blocks.toNat →
      AllocNext map call map { call with pc := .mark start start }
  | restart (start i : Usz) : call.pc = .search start i → (i + 1).toNat ≤ 1024 →
      AllocNext map call map { call with pc := .search (i + 1) (i + 1) }
  | giveUp (start i : Usz) : call.pc = .search start i →
      AllocNext map call map { call with pc := .done none }
  | mark (start i : Usz) : call.pc = .mark start i →
      i.toNat < start.toNat + call.blocks.toNat → (i + 1).toNat = i.toNat + 1 →
      AllocNext map call { map with bits := pmmanSetBlock map.bits i }
        { call with pc := .mark start (i + 1) }
  | finish (start i : Usz) : call.pc = .mark start i →
      i.toNat = start.toNat + call.blocks.toNat →
      AllocNext map call map { call with pc := .done (some start) }
  | stay (start : Option Usz) : call.pc = .done start → AllocNext map call map call

theorem allocNext_spec (map : PmmanMap) {call : AllocCall} (h : call.Bounded) :
    AllocNext map call (allocNext map call).1 (allocNext map call).2 := by
  have hbits : pmmanBits.toNat = 1024 := rfl
  simp only [AllocCall.Bounded] at h
  simp only [allocNext]
  split
  case h_1 start i hpc =>
    rw [hpc] at h
    obtain ⟨hle, hsi, hi, hrun⟩ := h
    split
    case isTrue hfree =>
      have hlt : i.toNat < 1024 := BitVec.lt_def.mp hfree.1
      have hmarked := (getBlock_eq_zero_iff map.bits i).mp hfree.2
      have hsucc := toNat_succ_of_lt hfree.1
      have hsub := toNat_scan_length hsi hfree.1
      split
      case isTrue heq =>
        rw [heq] at hsub
        exact .found start i hpc hlt hmarked (by omega) (by omega)
      case isFalse hne =>
        have hneq := scan_continues hsi hfree.1 hne
        exact .extend start i hpc hlt hmarked hsucc (by omega)
    case isFalse =>
      split
      case isTrue hnext =>
        have hnext' := BitVec.le_def.mp hnext
        rw [toNat_search_bound (BitVec.le_def.mpr (by omega))] at hnext'
        exact .restart start i hpc (by omega)
      case isFalse => exact .giveUp start i hpc
  case h_2 start i hpc =>
    rw [hpc] at h
    obtain ⟨hsi, hi, hle, hpos⟩ := h
    have hend := toNat_add_blocks hle
    split
    case isTrue hlt =>
      have hlt' := BitVec.lt_def.mp hlt
      exact .mark start i hpc (by omega) (toNat_succ_of_lt hlt)
    case isFalse hge =>
      have hge' := mt BitVec.lt_def.mpr hge
      exact .finish start i hpc (by omega)
  case h_3 start hpc => exact .stay start hpc

section

variable {map map' : PmmanMap} {call call' : AllocCall}

theorem AllocNext.bounded (h : AllocNext map call map' call') (hb : call.Bounded) :
    call'.Bounded := by
  simp only [AllocCall.Bounded] at hb ⊢
  cases h with
  | extend start i hpc hi _ hsucc hrun =>
      rw [hpc] at hb
      simp only [hsucc]
      omega
  | found start i hpc _ _ hend hpos =>
      rw [hpc] at hb
      dsimp only at hb ⊢
      omega
  | restart start i hpc hle =>
      rw [hpc] at hb
      dsimp only at hb ⊢
      omega
  | giveUp => trivial
  | mark start i hpc hi hsucc =>
      rw [hpc] at hb
      simp only [hsucc]
      omega
  | finish start i hpc hend =>
      rw [hpc] at hb
      dsimp only at hb ⊢
      omega
  | stay => exact hb

theorem AllocNext.marked_mono (h : AllocNext map call map' call') {b : Nat}
    (hb : map.marked b = true) : map'.marked b = true := by
  cases h with
  | mark start i =>
      change bitAt (pmmanSetBlock map.bits i) b = true
      rw [bitAt_setBlock, show bitAt map.bits b = true from hb, Bool.true_or]
  | _ => exact hb

/-- A block whose bit the step set is one the call has marked itself. -/
theorem AllocNext.owned_of_marked (h : AllocNext map call map' call') (hbd : call.Bounded) {b : Nat}
    (hold : map.marked b = false) (hnew : map'.marked b = true) : call'.Owned b := by
  cases h with
  | mark start i hpc hi hsucc =>
      simp only [AllocCall.Bounded] at hbd
      rw [hpc] at hbd
      change bitAt (pmmanSetBlock map.bits i) b = true at hnew
      rw [bitAt_setBlock, show bitAt map.bits b = false from hold, Bool.false_or,
        decide_eq_true_iff] at hnew
      change start.toNat ≤ b ∧ b < (i + 1).toNat
      omega
  | _ =>
      rw [hold] at hnew
      cases hnew

theorem not_marking {b : Nat} (h : ∀ start i, call.pc ≠ .mark start i) :
    ¬ ∃ start i, call.pc = .mark start i ∧ i.toNat < start.toNat + call.blocks.toNat ∧
      b = i.toNat :=
  fun ⟨start, i, hpc, _⟩ => h start i hpc

/-- A call's own marks grow by the block it is about to mark, if any. -/
theorem AllocNext.owned_iff (h : AllocNext map call map' call') (hbd : call.Bounded) (b : Nat) :
    call'.Owned b ↔ call.Owned b ∨
      ∃ start i, call.pc = .mark start i ∧ i.toNat < start.toNat + call.blocks.toNat ∧
        b = i.toNat := by
  simp only [AllocCall.Bounded] at hbd
  simp only [AllocCall.Owned]
  cases h with
  | mark start i hpc hi hsucc =>
      rw [hpc] at hbd ⊢
      simp only [hsucc, AllocPc.mark.injEq]
      constructor
      · intro hb
        by_cases heq : b = i.toNat
        · exact Or.inr ⟨start, i, ⟨rfl, rfl⟩, hi, heq⟩
        · left
          omega
      · intro hb
        obtain hb | ⟨_, _, ⟨rfl, rfl⟩, _, heq⟩ := hb <;> omega
  | finish start i hpc hend =>
      rw [hpc] at hbd ⊢
      simp only [AllocPc.mark.injEq]
      constructor
      · intro hb
        left
        omega
      · intro hb
        obtain hb | ⟨_, _, ⟨rfl, rfl⟩, hlt, _⟩ := hb <;> omega
  | found start i hpc =>
      rw [or_iff_left (not_marking fun _ _ heq => nomatch hpc.symm.trans heq), hpc]
      exact iff_of_false (by dsimp only; omega) id
  | extend start i hpc | restart start i hpc | giveUp start i hpc =>
      rw [or_iff_left (not_marking fun _ _ heq => nomatch hpc.symm.trans heq), hpc]
  | stay start hpc =>
      rw [or_iff_left (not_marking fun _ _ heq => nomatch hpc.symm.trans heq)]

theorem AllocNext.owned_mono (h : AllocNext map call map' call') (hbd : call.Bounded) {b : Nat}
    (hb : call.Owned b) : call'.Owned b :=
  (h.owned_iff hbd b).mpr (Or.inl hb)

theorem AllocNext.owned_marked (h : AllocNext map call map' call') (hbd : call.Bounded)
    (hmarked : ∀ b, call.Owned b → map.marked b = true) {b : Nat} (hb : call'.Owned b) :
    map'.marked b = true := by
  obtain hb | ⟨start, i, hpc, hi, rfl⟩ := (h.owned_iff hbd b).mp hb
  · exact h.marked_mono (hmarked b hb)
  · cases h with
    | mark start' i' hpc' =>
        rw [hpc] at hpc'
        obtain ⟨rfl, rfl⟩ := AllocPc.mark.inj hpc'
        change bitAt (pmmanSetBlock map.bits i) i.toNat = true
        rw [bitAt_setBlock, decide_eq_true rfl, Bool.or_true]
    | finish start' i' hpc' hend =>
        rw [hpc] at hpc'
        obtain ⟨rfl, rfl⟩ := AllocPc.mark.inj hpc'
        omega
    | extend start' i' hpc' | found start' i' hpc' | restart start' i' hpc'
    | giveUp start' i' hpc' | stay start' hpc' =>
        rw [hpc] at hpc'
        cases hpc'

/-- A block the call counts on was counted on before, or has just been read as
free. -/
theorem AllocNext.window (h : AllocNext map call map' call') {b : Nat} (hw : call'.Window b) :
    call.Window b ∨ map' = map ∧ map.marked b = false := by
  simp only [AllocCall.Window] at hw ⊢
  cases h with
  | extend start i hpc hi hfree hsucc =>
      rw [hpc]
      simp only [hsucc] at hw
      by_cases heq : b = i.toNat
      · exact Or.inr ⟨rfl, heq ▸ hfree⟩
      · left
        dsimp only
        omega
  | found start i hpc hi hfree hend =>
      rw [hpc]
      dsimp only at hw
      by_cases heq : b = i.toNat
      · exact Or.inr ⟨rfl, heq ▸ hfree⟩
      · left
        dsimp only
        omega
  | restart start i hpc =>
      dsimp only at hw
      omega
  | mark start i hpc hi hsucc =>
      rw [hpc]
      simp only [hsucc] at hw
      left
      dsimp only
      omega
  | giveUp | finish => exact hw.elim
  | stay start hpc => exact Or.inl hw

theorem AllocNext.geometry (h : AllocNext map call map' call') (hk : map.Kernel) : map'.Kernel := by
  cases h with
  | mark => exact ⟨hk.blockSize, hk.base⟩
  | _ => exact hk

theorem AllocNext.request (h : AllocNext map call map' call') :
    call'.size = call.size ∧ call'.blocks = call.blocks := by
  cases h <;> exact ⟨rfl, rfl⟩

end

theorem AllocCall.window_not_owned {call : AllocCall} {b : Nat} (hw : call.Window b) :
    ¬ call.Owned b := by
  intro ho
  simp only [AllocCall.Window] at hw
  simp only [AllocCall.Owned] at ho
  split at hw <;> simp only [*] at ho <;> omega

/-- What is true of two calls under every interleaving. A bit that has been set
under a block a call still counts on was set by the other call. -/
structure RaceInvariant (size : Bool → Usz) (c : AllocRace) : Prop where
  geometry : c.shared.Kernel
  request : ∀ p, (c.loc p).size = size p
  blocks : ∀ p, (c.loc p).blocks.toNat = ((size p).toNat + 16383) % 2 ^ 32 / 16384
  bounded : ∀ p, (c.loc p).Bounded
  marked : ∀ p b, (c.loc p).Owned b → c.shared.marked b = true
  known : ∀ p b, (c.loc p).Window b → c.shared.marked b = true → (c.loc (!p)).Owned b

theorem allocEnter_owned (map : PmmanMap) (size : Usz) (b : Nat) :
    ¬ (allocEnter map size).Owned b ∧ ¬ (allocEnter map size).Window b := by
  simp only [allocEnter, AllocCall.Owned, AllocCall.Window]
  by_cases h : pmmanToBlocks map size > pmmanBits
  · simp only [if_pos h, not_false_eq_true, and_self]
  · simp only [if_neg h, not_false_eq_true, true_and]
    exact fun hb => Nat.not_lt_zero b hb.2

theorem raceInvariant_init (bits : Nat → U32) (size : Bool → Usz) :
    RaceInvariant size (raceInit bits size) where
  geometry := kernel_kernelMap bits
  request := fun _ => rfl
  blocks := fun p => (kernel_kernelMap bits).toNat_toBlocks (size p)
  bounded := fun _ => allocEnter_bounded _ _
  marked := fun _ b hb => absurd hb (allocEnter_owned _ _ b).1
  known := fun _ b hb => absurd hb (allocEnter_owned _ _ b).2

/-- The two calls have no marked block in common. -/
def OwnedDisjoint (c : AllocRace) : Prop :=
  ∀ b, ¬ ((c.loc false).Owned b ∧ (c.loc true).Owned b)

theorem ownedDisjoint_iff (c : AllocRace) (p : Bool) :
    OwnedDisjoint c ↔ ∀ b, (c.loc p).Owned b → ¬ (c.loc (!p)).Owned b := by
  cases p with
  | false => exact forall_congr' fun b => not_and
  | true => exact forall_congr' fun b => not_and.trans imp_not_comm

section

variable {size : Bool → Usz} {c d : AllocRace} {x : Bool × Unit}

theorem RaceInvariant.next_spec (h : RaceInvariant size c) (hstep : Interleave AllocMove c x d) :
    AllocNext c.shared (c.loc x.1) d.shared (d.loc x.1) := by
  have hspec := allocNext_spec c.shared (h.bounded x.1)
  rw [← show (d.shared, d.loc x.1) = allocNext c.shared (c.loc x.1) from hstep.own] at hspec
  exact hspec

theorem RaceInvariant.step (h : RaceInvariant size c) (hstep : Interleave AllocMove c x d) :
    RaceInvariant size d := by
  obtain ⟨p, e⟩ := x
  have hother := hstep.other_of_two
  have hspec := h.next_spec hstep
  dsimp only at hother hspec
  refine ⟨hspec.geometry h.geometry, ?_, ?_, ?_, ?_, ?_⟩
  all_goals refine (forall_two_threads p).mpr ⟨?_, ?_⟩
  · exact hspec.request.1.trans (h.request p)
  · rw [hother]
    exact h.request _
  · rw [hspec.request.2]
    exact h.blocks p
  · rw [hother]
    exact h.blocks _
  · exact hspec.bounded (h.bounded p)
  · rw [hother]
    exact h.bounded _
  · intro b hb
    exact hspec.owned_marked (h.bounded p) (h.marked p) hb
  · intro b hb
    rw [hother] at hb
    exact hspec.marked_mono (h.marked _ b hb)
  · intro b hw hb
    rw [hother]
    cases hold : c.shared.marked b with
    | false =>
        have howned := hspec.owned_of_marked (h.bounded p) hold hb
        exact (AllocCall.window_not_owned hw howned).elim
    | true =>
        obtain hw | ⟨_, hfree⟩ := hspec.window hw
        · exact h.known p b hw hold
        · rw [hold] at hfree
          cases hfree
  · intro b hw hb
    rw [hother] at hw
    rw [Bool.not_not]
    cases hold : c.shared.marked b with
    | false => exact hspec.owned_of_marked (h.bounded p) hold hb
    | true =>
        have howned := h.known _ b hw hold
        rw [Bool.not_not] at howned
        exact hspec.owned_mono (h.bounded p) howned

/-- A step keeps the marks of the two calls apart exactly when it does not set a
bit that is already set. -/
theorem RaceInvariant.step_disjoint_iff (h : RaceInvariant size c) (hdis : OwnedDisjoint c)
    (hstep : Interleave AllocMove c x d) :
    OwnedDisjoint d ↔ (c.loc x.1).MarksFree c.shared := by
  obtain ⟨p, e⟩ := x
  have hother := hstep.other_of_two
  have hspec := h.next_spec hstep
  have hbounded := h.bounded p
  dsimp only at hother hspec
  rw [ownedDisjoint_iff _ p] at hdis ⊢
  unfold AllocCall.MarksFree
  dsimp only
  rw [hother]
  constructor
  · intro hd
    split
    case h_1 start i hpc =>
      intro hlt
      simp only [AllocCall.Bounded] at hbounded
      rw [hpc] at hbounded
      have hlt' := BitVec.lt_def.mp hlt
      rw [toNat_add_blocks hbounded.2.2.1] at hlt'
      have hown : (d.loc p).Owned i.toNat :=
        (hspec.owned_iff (h.bounded p) i.toNat).mpr (Or.inr ⟨start, i, hpc, hlt', rfl⟩)
      have hwin : (c.loc p).Window i.toNat := by
        simp only [AllocCall.Window]
        rw [hpc]
        exact ⟨Nat.le_refl _, hlt'⟩
      exact Bool.eq_false_iff.mpr fun hmarked =>
        hd i.toNat hown (h.known p i.toNat hwin hmarked)
    case h_2 => trivial
  · intro hfree b hb hq
    obtain hb | ⟨start, i, hpc, hi, rfl⟩ := (hspec.owned_iff (h.bounded p) b).mp hb
    · exact hdis b hb hq
    · rw [hpc] at hfree
      simp only [AllocCall.Bounded] at hbounded
      rw [hpc] at hbounded
      have hlt : i < start + (c.loc p).blocks := by
        rw [BitVec.lt_def, toNat_add_blocks hbounded.2.2.1]
        exact hi
      have hmarked := h.marked (!p) i.toNat hq
      rw [hfree hlt] at hmarked
      cases hmarked

/-- Marks are never given up, so an overlap is there to stay. -/
theorem RaceInvariant.disjoint_of_step (h : RaceInvariant size c)
    (hstep : Interleave AllocMove c x d) (hd : OwnedDisjoint d) : OwnedDisjoint c := by
  obtain ⟨p, e⟩ := x
  have hother := hstep.other_of_two
  have hspec := h.next_spec hstep
  dsimp only at hother hspec
  rw [ownedDisjoint_iff _ p] at hd ⊢
  intro b hb hq
  apply hd b
  · exact hspec.owned_mono (h.bounded p) hb
  · rwa [hother]

end

theorem RaceInvariant.of_run {bits : Nat → U32} {size : Bool → Usz} {c : AllocRace}
    {tr : List (AllocRace × Bool × Unit)}
    (run : Run (Interleave AllocMove) (raceInit bits size) tr c) : RaceInvariant size c :=
  run.invariant (raceInvariant_init bits size) fun _ _ _ h hstep => h.step hstep

theorem ownedDisjoint_before {bits : Nat → U32} {size : Bool → Usz} {c : AllocRace}
    {tr : List (AllocRace × Bool × Unit)}
    (run : Run (Interleave AllocMove) (raceInit bits size) tr c) (hc : OwnedDisjoint c) :
    ∀ x ∈ tr, OwnedDisjoint x.1 := by
  induction run with
  | nil => exact fun _ hx => absurd hx List.not_mem_nil
  | @snoc tr t u e hrun hstep ih =>
      have ht := (RaceInvariant.of_run hrun).disjoint_of_step hstep hc
      intro x hx
      obtain hx | hx := List.mem_append.mp hx
      · exact ih ht x hx
      · rw [List.mem_singleton.mp hx]
        exact ht

/-- What a finished call returned is what it has marked. -/
theorem RaceInvariant.owned_eq_blocks {size : Bool → Usz} {c : AllocRace}
    (h : RaceInvariant size c) {p : Bool} {ptr : Usz}
    (returned : (c.loc p).result c.shared = some ptr) (nonNull : ptr ≠ 0) (b : Nat) :
    (c.loc p).Owned b ↔ b ∈ (Allocation.mk ptr (size p)).blocks := by
  have hbounded := h.bounded p
  have hblocks := h.blocks p
  have hsize := (size p).isLt
  simp only [AllocCall.Bounded] at hbounded
  simp only [AllocCall.result] at returned
  simp only [AllocCall.Owned]
  split at returned
  case h_1 =>
    exact absurd (Option.some.inj returned).symm nonNull
  case h_2 start hpc =>
    rw [hpc] at hbounded ⊢
    obtain ⟨hin, hpos⟩ := hbounded
    have hptr : ptr.toNat = start.toNat * 16384 := by
      rw [← Option.some.inj returned, h.geometry.base, h.geometry.blockSize,
        show start <<< pmmanBlockSizeShift + 0 = start <<< pmmanBlockSizeShift from
          BitVec.add_zero _, BitVec.shiftLeft_eq', BitVec.toNat_shiftLeft, Nat.shiftLeft_eq]
      exact Nat.mod_eq_of_lt (by change start.toNat * 2 ^ 14 < 2 ^ 32; omega)
    change _ ↔ ptr.toNat / 16384 ≤ b ∧ b < ptr.toNat / 16384 + ((size p).toNat + 16383) / 16384
    rw [hptr, Nat.mul_div_cancel _ (by decide)]
    dsimp only
    omega
  case h_3 => cases returned

/-- Two concurrent calls that both return a pointer return disjoint ranges
exactly when no step of the run marked a block that was already marked. -/
theorem race_disjoint_iff_marks_free (bits : Nat → U32) (size : Bool → Usz)
    {tr : List (AllocRace × Bool × Unit)} {c : AllocRace}
    (run : Run (Interleave AllocMove) (raceInit bits size) tr c) {ptr : Bool → Usz}
    (returned : ∀ p, (c.loc p).result c.shared = some (ptr p)) (nonNull : ∀ p, ptr p ≠ 0) :
    Disjoint (Allocation.mk (ptr false) (size false)).blocks
        (Allocation.mk (ptr true) (size true)).blocks ↔
      ∀ x ∈ tr, (x.1.loc x.2.1).MarksFree x.1.shared := by
  have hinv := RaceInvariant.of_run run
  have hfalse := hinv.owned_eq_blocks (returned false) (nonNull false)
  have htrue := hinv.owned_eq_blocks (returned true) (nonNull true)
  have hdis : Disjoint (Allocation.mk (ptr false) (size false)).blocks
      (Allocation.mk (ptr true) (size true)).blocks ↔ OwnedDisjoint c := by
    rw [Set.disjoint_left]
    exact forall_congr' fun b => by rw [← hfalse, ← htrue, not_and]
  have hguard := run.forall_iff_guard (P := OwnedDisjoint)
    (C := fun c x => (c.loc x.1).MarksFree c.shared) (raceInvariant_init bits size)
    (fun b hb => (allocEnter_owned _ _ b).1 hb.1) (fun _ _ _ h hstep => h.step hstep)
    (fun _ _ _ h hd hstep => h.step_disjoint_iff hd hstep)
  rw [hdis, ← hguard]
  constructor
  · intro hc
    exact ⟨ownedDisjoint_before run hc, hc⟩
  · intro h
    exact h.2

/-- One step of the given call, as a function. -/
def raceExec (c : AllocRace) (x : Bool × Unit) : Option AllocRace :=
  let r := allocNext c.shared (c.loc x.1)
  some ⟨r.1, Function.update c.loc x.1 r.2⟩

theorem raceExec_sound (c : AllocRace) (x : Bool × Unit) (d : AllocRace)
    (h : raceExec c x = some d) : Interleave AllocMove c x d := by
  cases h
  exact .move c.shared _ c.loc x.1 x.2 _ rfl

/-- One call after the other: the second one finds the first one's block marked
and takes the next. -/
theorem race_disjoint_iff_marks_free_serial :
    Disjoint (Allocation.mk 16384 1).blocks (Allocation.mk 32768 1).blocks := by
  have run := Run.of_exec raceExec_sound (show execRun raceExec (raceInit lowBits fun _ => 1)
    [(false, ()), (false, ()), (false, ()), (false, ()),
      (true, ()), (true, ()), (true, ()), (true, ()), (true, ())] = some _ from rfl)
  exact (race_disjoint_iff_marks_free lowBits (fun _ => 1) run
    (show ∀ p, _ = some ((fun p => bif p then (32768 : Usz) else 16384) p) by decide)
    (by decide)).mpr (by decide)

/-- Both calls read block 1 as free before either marks it. -/
theorem race_hands_out_block_twice :
    ¬ ∀ (bits : Nat → U32) (size : Bool → Usz) (tr : List (AllocRace × Bool × Unit))
      (c : AllocRace) (ptr : Bool → Usz),
      Run (Interleave AllocMove) (raceInit bits size) tr c →
      (∀ p, (c.loc p).result c.shared = some (ptr p)) → (∀ p, ptr p ≠ 0) →
      Disjoint (Allocation.mk (ptr false) (size false)).blocks
        (Allocation.mk (ptr true) (size true)).blocks := by
  intro claim
  have run := Run.of_exec raceExec_sound (show execRun raceExec (raceInit lowBits fun _ => 1)
    [(false, ()), (false, ()), (true, ()), (true, ()),
      (false, ()), (false, ()), (true, ()), (true, ())] = some _ from rfl)
  have hdis := claim lowBits (fun _ => 1) _ _ (fun _ => 16384) run (by decide) (by decide)
  have hmem : 1 ∈ (Allocation.mk 16384 1).blocks := ⟨by decide, by decide⟩
  exact Set.disjoint_left.mp hdis hmem hmem

end DordOs
