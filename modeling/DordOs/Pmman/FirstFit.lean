import DordOs.Pmman.Race

/-!
`pmman_alloc` is a first fit on every bitmap: it finds the lowest run of free
blocks whenever there is one, and never leaves the map while it looks.
-/
namespace DordOs
open Lib

/-- The block the next step of a call tests or marks. -/
def AllocCall.Touches (call : AllocCall) (b : Nat) : Prop :=
  match call.pc with
  | .search _ i => i < pmmanBits ∧ b = i.toNat
  | .mark start i => i < start + call.blocks ∧ b = i.toNat
  | .done _ => False

section

variable {map map' : PmmanMap} {call : AllocCall} {size : Usz}

/-- A step depends on no block but the one it touches. -/
theorem allocNext_congr (h : ∀ b, call.Touches b → map.marked b = map'.marked b) :
    (allocNext map call).2 = (allocNext map' call).2 := by
  simp only [AllocCall.Touches] at h
  simp only [allocNext]
  split
  case h_1 start i hpc =>
    rw [hpc] at h
    have hfree : (i < pmmanBits ∧ pmmanGetBlock map.bits i = 0) ↔
        (i < pmmanBits ∧ pmmanGetBlock map'.bits i = 0) := by
      refine and_congr_right fun hi => ?_
      rw [getBlock_eq_zero_iff, getBlock_eq_zero_iff]
      exact Eq.congr_left (h _ ⟨hi, rfl⟩)
    simp only [hfree]
    split
    · split <;> rfl
    · split <;> rfl
  case h_2 start i hpc => split <;> rfl
  case h_3 => rfl

theorem allocNext_untouched {b : Nat} (h : ¬ call.Touches b) :
    (allocNext map call).1.marked b = map.marked b := by
  simp only [AllocCall.Touches] at h
  simp only [allocNext]
  split
  case h_1 start i hpc =>
    split
    · split <;> rfl
    · split <;> rfl
  case h_2 start i hpc =>
    rw [hpc] at h
    split
    case isTrue hi =>
      have hb : b ≠ i.toNat := fun heq => h ⟨hi, heq⟩
      simp only [PmmanMap.marked, bitAt_setBlock, decide_eq_false hb, Bool.or_false]
    case isFalse => rfl
  case h_3 => rfl

theorem AllocCall.Bounded.touches (h : call.Bounded) {b : Nat} (hb : call.Touches b) :
    b < 1024 := by
  simp only [AllocCall.Bounded] at h
  simp only [AllocCall.Touches] at hb
  split at hb
  case h_1 start i hpc =>
    obtain ⟨hi, rfl⟩ := hb
    exact BitVec.lt_def.mp hi
  case h_2 start i hpc =>
    rw [hpc] at h
    obtain ⟨hi, rfl⟩ := hb
    obtain ⟨_, _, hle, _⟩ := h
    have hend := toNat_add_blocks hle
    have hlt := BitVec.lt_def.mp hi
    omega
  case h_3 => exact absurd hb id

theorem alloc_alone_bounded {x y : PmmanMap × AllocCall} (run : AllocAlone x y)
    (h : x.2.Bounded) : y.2.Bounded := by
  induction run with
  | refl => exact h
  | tail _ hstep ih =>
      rw [hstep]
      exact (allocNext_spec _ ih).bounded ih

/-- A run can be found for the request. -/
def Fits (bits : Nat → U32) (size : Usz) : Prop :=
  1 ≤ size.toNat ∧ size.toNat ≤ 2 ^ 32 - 16384 ∧ ∃ s, FreeRun bits (blocksFor size) s

/-- What a first fit returns: the lowest free run, with exactly its blocks marked. -/
structure FirstFit (map : PmmanMap) (size : Usz) (r : Usz × PmmanMap) (start : Nat) : Prop where
  run : FreeRun map.bits (blocksFor size) start
  lowest : ∀ s < start, ¬ FreeRun map.bits (blocksFor size) s
  addr : r.1.toNat = start * 16384
  notNull : r.1 ≠ 0
  kernel : r.2.Kernel
  marks : ∀ b, start ≤ b → b < start + blocksFor size →
    map.marked b = false ∧ r.2.marked b = true
  keeps : ∀ b, b < start ∨ start + blocksFor size ≤ b → r.2.marked b = map.marked b

theorem AllocSuccess.firstFit {start : Nat} {r : Usz × PmmanMap}
    (h : AllocSuccess map size start r) (h0 : map.marked 0 = true) :
    FirstFit map size r start where
  run := h.run
  lowest := h.lowest
  addr := h.addr
  notNull := by
    intro hzero
    have hstart : start * 16384 = 0 := by
      rw [← h.addr, hzero]
      rfl
    have hfree := h.run.free 0 (by omega) (Nat.lt_of_lt_of_le h.pos (Nat.le_add_left _ _))
    change bitAt map.bits 0 = true at h0
    rw [hfree] at h0
    cases h0
  kernel := h.kernel
  marks := by
    intro b hlo hhi
    refine ⟨h.run.free b hlo hhi, ?_⟩
    rw [h.marked, decide_eq_true ⟨hlo, hhi⟩, Bool.or_true]
  keeps := by
    intro b hout
    rw [h.marked, decide_eq_false (by omega), Bool.or_false]

theorem AllocSuccess.fits {start : Nat} {r : Usz × PmmanMap} (h : AllocSuccess map size start r) :
    Fits map.bits size := by
  have hpos := h.pos
  have hin := h.run.inside
  simp only [blocksFor] at hpos hin
  exact ⟨by omega, by omega, start, h.run⟩

theorem AllocFailure.not_fits {r : Usz × PmmanMap} (h : AllocFailure map size r) :
    ¬ Fits map.bits size := by
  rintro ⟨hlo, hhi, s, hrun⟩
  obtain hz | hwrap | hnone := h.reason
  · omega
  · omega
  · exact hnone s hrun

end

/-- On every bitmap with block 0 marked `pmman_alloc` is a complete first fit,
which ends and touches no bit from 1024 on, where a step reads and changes no bit but the one
it touches. -/
theorem pmmanAlloc_firstFit (bits : Nat → U32) (h0 : bitAt bits 0 = true) (size : Usz) :
    (Fits bits size → ∃ start, FirstFit (pmmanKernelMap bits) size
      (pmmanAlloc (pmmanKernelMap bits) size) start) ∧
    (¬ Fits bits size →
      pmmanAlloc (pmmanKernelMap bits) size = (0, pmmanKernelMap bits)) ∧
    (∀ x, AllocAlone (pmmanKernelMap bits, allocEnter (pmmanKernelMap bits) size) x →
      (∀ b, x.2.Touches b → b < 1024) ∧
      (∀ map', (∀ b, x.2.Touches b → x.1.marked b = map'.marked b) →
        (allocNext x.1 x.2).2 = (allocNext map' x.2).2) ∧
      ∀ b, ¬ x.2.Touches b → (allocNext x.1 x.2).1.marked b = x.1.marked b) ∧
    ∃ call, AllocAlone (pmmanKernelMap bits, allocEnter (pmmanKernelMap bits) size)
        ((pmmanAlloc (pmmanKernelMap bits) size).2, call) ∧
      call.result (pmmanAlloc (pmmanKernelMap bits) size).2 =
        some (pmmanAlloc (pmmanKernelMap bits) size).1 := by
  refine ⟨fun hfits => ?_, fun hno => ?_, fun x run => ?_, alloc_alone _ size⟩
  · obtain ⟨start, hok⟩ | hfail := pmmanAlloc_spec (kernel_kernelMap bits) size
    · exact ⟨start, hok.firstFit h0⟩
    · exact absurd hfits hfail.not_fits
  · obtain ⟨start, hok⟩ | hfail := pmmanAlloc_spec (kernel_kernelMap bits) size
    · exact absurd hok.fits hno
    · exact hfail.result
  · have bounded := alloc_alone_bounded run (allocEnter_bounded _ _)
    exact ⟨fun _ hb => bounded.touches hb, fun _ h => allocNext_congr h,
      fun _ h => allocNext_untouched h⟩

/-- 20000 bytes on a map with only block 0 taken: blocks 1 and 2. -/
theorem pmmanAlloc_firstFit_two :
    FirstFit (pmmanKernelMap lowBits) 20000 (pmmanAlloc (pmmanKernelMap lowBits) 20000) 1 := by
  have hrun : FreeRun lowBits (blocksFor 20000) 1 := by
    refine ⟨by decide, fun b hlo hhi => ?_⟩
    change b < 3 at hhi
    obtain rfl | rfl : b = 1 ∨ b = 2 := by omega
    · decide
    · decide
  obtain ⟨start, h⟩ := (pmmanAlloc_firstFit lowBits (by decide) 20000).1
    ⟨by decide, by decide, 1, hrun⟩
  have hle : ¬ 1 < start := fun hlt => h.lowest 1 hlt hrun
  have hne : start ≠ 0 := by
    rintro rfl
    exact absurd (h.run.free 0 (by decide) (by decide)) (by decide)
  rwa [show start = 1 by omega] at h

end DordOs
