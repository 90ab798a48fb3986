import DordOs.Pmman.Alloc
import DordOs.Lib.Ownership
import DordOs.Lib.Run

/-!
Runs of the block allocator. A run interleaves `pmman_alloc` calls of any size
with `pmman_free` calls for allocations that are still live. The live
allocations are exclusive owners of the blocks they were given, in the sense of
`Lib.Owns`, with the initially marked blocks as the base.
-/
namespace DordOs
open Lib

/-- An allocation: the returned pointer and the size that was asked for. -/
structure Allocation where
  addr : Usz
  size : Usz
  deriving DecidableEq

/-- The blocks under an allocation. -/
def Allocation.blocks (a : Allocation) : Set Nat :=
  {b | a.addr.toNat / 16384 ≤ b ∧ b < a.addr.toNat / 16384 + blocksFor a.size}

structure AllocState where
  map : PmmanMap
  live : List Allocation

inductive AllocOp
  | alloc (size : Usz)
  | free (a : Allocation)

inductive AllocStep : AllocState → AllocOp → AllocState → Prop
  | alloc (map : PmmanMap) (live : List Allocation) (size : Usz) :
      (pmmanAlloc map size).1 ≠ 0 →
      AllocStep ⟨map, live⟩ (.alloc size)
        ⟨(pmmanAlloc map size).2, ⟨(pmmanAlloc map size).1, size⟩ :: live⟩
  | allocNull (map : PmmanMap) (live : List Allocation) (size : Usz) :
      (pmmanAlloc map size).1 = 0 →
      AllocStep ⟨map, live⟩ (.alloc size) ⟨(pmmanAlloc map size).2, live⟩
  | free (map : PmmanMap) (before after : List Allocation) (a : Allocation) :
      AllocStep ⟨map, before ++ a :: after⟩ (.free a)
        ⟨pmmanFree map a.addr a.size, before ++ after⟩

/-- What `pmman_alloc` guarantees of one allocation on its own. -/
structure Allocation.Placed (a : Allocation) (start : Nat) : Prop where
  addr : a.addr.toNat = start * 16384
  inside : start + blocksFor a.size ≤ 1024
  size : a.size.toNat ≤ 2 ^ 32 - 16384

theorem Allocation.Placed.blocks_eq {a : Allocation} {start : Nat} (h : a.Placed start) :
    a.blocks = {b | start ≤ b ∧ b < start + blocksFor a.size} := by
  simp only [Allocation.blocks]
  rw [h.addr, Nat.mul_div_cancel _ (by decide)]

structure AllocInvariant (bits : Nat → U32) (s : AllocState) : Prop where
  kernel : s.map.Kernel
  placed : ∀ a ∈ s.live, ∃ start, a.Placed start
  owns : Owns {b | bitAt bits b = true} (s.live.map Allocation.blocks)
    {b | s.map.marked b = true}

theorem AllocSuccess.placed {map : PmmanMap} {size : Usz} {start : Nat} {r : Usz × PmmanMap}
    (h : AllocSuccess map size start r) (hsize : size.toNat ≤ 2 ^ 32 - 16384) :
    (Allocation.mk r.1 size).Placed start :=
  ⟨h.addr, h.run.inside, hsize⟩

theorem AllocSuccess.size_le {map : PmmanMap} {size : Usz} {start : Nat} {r : Usz × PmmanMap}
    (h : AllocSuccess map size start r) : size.toNat ≤ 2 ^ 32 - 16384 := by
  have hin := h.run.inside
  simp only [blocksFor] at hin
  omega

/-- A call that returned `null` left the map as it was, provided no run can
start at block 0. -/
theorem alloc_null_unchanged {map : PmmanMap} (h : map.Kernel) (h0 : map.marked 0 = true)
    {size : Usz} (hnull : (pmmanAlloc map size).1 = 0) : (pmmanAlloc map size).2 = map := by
  rcases pmmanAlloc_spec h size with ⟨start, hok⟩ | hfail
  · have haddr := hok.addr
    rw [hnull] at haddr
    have hzero : start = 0 := by
      change 0 = start * 16384 at haddr
      omega
    subst hzero
    have hfree := hok.run.free 0 (Nat.le_refl _) (by have := hok.pos; omega)
    rw [PmmanMap.marked, hfree] at h0
    cases h0
  · rw [hfail.result]

theorem alloc_nonnull_success {map : PmmanMap} (h : map.Kernel) {size : Usz}
    (hp : (pmmanAlloc map size).1 ≠ 0) :
    ∃ start, AllocSuccess map size start (pmmanAlloc map size) := by
  rcases pmmanAlloc_spec h size with hok | hfail
  · exact hok
  · exact absurd (by rw [hfail.result]) hp

/-- The blocks a successful call takes were unused, and it marks no others. -/
theorem AllocSuccess.owns {map : PmmanMap} {size : Usz} {start : Nat} {r : Usz × PmmanMap}
    {base : Set Nat} {live : List (Set Nat)} (h : AllocSuccess map size start r)
    (howns : Owns base live {b | map.marked b = true}) :
    Owns base ((Allocation.mk r.1 size).blocks :: live) {b | r.2.marked b = true} := by
  have hblocks := (h.placed h.size_le).blocks_eq
  have hunused : Disjoint (Allocation.mk r.1 size).blocks {b | map.marked b = true} := by
    rw [hblocks, Set.disjoint_left]
    rintro b ⟨hlo, hhi⟩ hmarked
    have hfree := h.run.free b hlo hhi
    change map.marked b = true at hmarked
    rw [PmmanMap.marked, hfree] at hmarked
    cases hmarked
  have hused : {b | r.2.marked b = true} =
      {b | map.marked b = true} ∪ (Allocation.mk r.1 size).blocks := by
    ext b
    rw [hblocks]
    simp [h.marked b]
  rw [hused]
  exact howns.acquire hunused

theorem owns_free {map : PmmanMap} (hk : map.Kernel) {a : Allocation} {start : Nat}
    (h : a.Placed start) {base : Set Nat} {before after : List (Set Nat)}
    (howns : Owns base (before ++ a.blocks :: after) {b | map.marked b = true}) :
    Owns base (before ++ after) {b | (pmmanFree map a.addr a.size).marked b = true} := by
  have hused : {b | (pmmanFree map a.addr a.size).marked b = true} =
      {b | map.marked b = true} \ a.blocks := by
    ext b
    rw [h.blocks_eq]
    simp only [Set.mem_ofPred_eq, Set.mem_sdiff, marked_free hk h.addr h.size h.inside b,
      Bool.and_eq_true, Bool.not_eq_true', decide_eq_false_iff_not]
  rw [hused]
  exact howns.release

theorem AllocInvariant.step {bits : Nat → U32} (h0 : bitAt bits 0 = true) {s t : AllocState}
    {op : AllocOp} (h : AllocInvariant bits s) (hstep : AllocStep s op t) :
    AllocInvariant bits t := by
  cases hstep with
  | alloc map live size hp =>
      obtain ⟨start, hok⟩ := alloc_nonnull_success h.kernel hp
      refine ⟨h.kernel.alloc size, ?_, hok.owns h.owns⟩
      intro a ha
      rcases List.mem_cons.mp ha with rfl | ha
      · exact ⟨start, hok.placed hok.size_le⟩
      · exact h.placed a ha
  | allocNull map live size hp =>
      have hmark : map.marked 0 = true := h.owns.base_subset h0
      rw [alloc_null_unchanged h.kernel hmark hp]
      exact h
  | free map before after a =>
      obtain ⟨start, hplaced⟩ := h.placed a (by simp)
      refine ⟨h.kernel.free a.addr a.size, ?_, ?_⟩
      · intro q hq
        apply h.placed q
        rcases List.mem_append.mp hq with hq | hq
        · exact List.mem_append_left _ hq
        · exact List.mem_append_right _ (List.mem_cons_of_mem _ hq)
      · have howns := h.owns
        simp only [List.map_append, List.map_cons] at howns ⊢
        exact owns_free h.kernel hplaced howns

theorem allocInvariant_init (bits : Nat → U32) :
    AllocInvariant bits ⟨pmmanKernelMap bits, []⟩ :=
  ⟨kernel_kernelMap bits, fun _ h => absurd h List.not_mem_nil, Owns.nil⟩

theorem AllocInvariant.of_run {bits : Nat → U32} (h0 : bitAt bits 0 = true)
    {ops : List (AllocState × AllocOp)} {s : AllocState}
    (run : Run AllocStep ⟨pmmanKernelMap bits, []⟩ ops s) : AllocInvariant bits s :=
  run.invariant (allocInvariant_init bits) fun _ _ _ h hstep => h.step h0 hstep

/-- The allocator's contract towards its callers at one point of a run that
started from the bitmap `bits`. -/
structure Isolated (bits : Nat → U32) (s : AllocState) : Prop where
  disjoint : s.live.Pairwise fun a c => Disjoint a.blocks c.blocks
  aligned : ∀ a ∈ s.live, a.addr.toNat % 16384 = 0
  inside : ∀ a ∈ s.live, ∀ b ∈ a.blocks, b < 1024
  covers : ∀ a ∈ s.live, ∀ i < a.size.toNat, (a.addr.toNat + i) / 16384 ∈ a.blocks
  fresh : ∀ a ∈ s.live, ∀ b ∈ a.blocks, bitAt bits b = false
  marked_iff : ∀ b, s.map.marked b = true ↔ bitAt bits b = true ∨ ∃ a ∈ s.live, b ∈ a.blocks
  restored : s.live = [] → s.map.bits = bits

theorem bits_eq_of_bitAt {u v : Nat → U32} (h : ∀ b, bitAt u b = bitAt v b) : u = v := by
  funext k
  exact words_eq_of_bitAt (by decide) (k + 1) (fun b _ => h b) k (Nat.lt_succ_self k)

theorem AllocInvariant.isolated {bits : Nat → U32} {s : AllocState} (h : AllocInvariant bits s) :
    Isolated bits s where
  disjoint := List.pairwise_map.mp h.owns.disjoint
  aligned := by
    intro a ha
    obtain ⟨start, hp⟩ := h.placed a ha
    rw [hp.addr]
    exact Nat.mul_mod_left start 16384
  inside := by
    intro a ha b hb
    obtain ⟨start, hp⟩ := h.placed a ha
    rw [hp.blocks_eq] at hb
    exact Nat.lt_of_lt_of_le hb.2 hp.inside
  covers := by
    intro a ha i hi
    obtain ⟨start, hp⟩ := h.placed a ha
    rw [hp.blocks_eq, hp.addr]
    change start ≤ (start * 16384 + i) / 16384 ∧ _ < start + (a.size.toNat + 16383) / 16384
    omega
  fresh := by
    intro a ha b hb
    have hdis := h.owns.fresh a.blocks (List.mem_map_of_mem ha)
    exact Bool.eq_false_iff.mpr fun hmarked => Set.disjoint_left.mp hdis hb hmarked
  marked_iff := by
    intro b
    have hiff := h.owns.used_iff b
    simp only [List.mem_map, exists_exists_and_eq_and] at hiff
    exact hiff
  restored := by
    intro hnil
    have howns := h.owns
    rw [hnil] at howns
    have hset := howns.used_eq_base
    apply bits_eq_of_bitAt
    intro b
    have hb : s.map.marked b = true ↔ bitAt bits b = true := Set.ext_iff.mp hset b
    exact Bool.eq_iff_iff.mpr hb

/-- Along every run of allocations of any size and frees of live allocations,
from any bitmap with block 0 marked, the live allocations stay isolated. -/
theorem alloc_runs_isolated (bits : Nat → U32) (h0 : bitAt bits 0 = true)
    {ops : List (AllocState × AllocOp)} {s : AllocState}
    (run : Run AllocStep ⟨pmmanKernelMap bits, []⟩ ops s) : Isolated bits s :=
  (AllocInvariant.of_run h0 run).isolated

/-- A bitmap with only block 0 marked. -/
def lowBits : Nat → U32 := fun k => if k = 0 then 1 else 0

/-- Two blocks from 16384 on, one block after them, and the two given back. -/
theorem alloc_runs_isolated_three_calls :
    ∃ s : AllocState, s.live = [⟨49152, 1⟩] ∧ Isolated lowBits s := by
  have first : (pmmanAlloc (pmmanKernelMap lowBits) 20000).1 = 16384 := by decide +kernel
  have second : (pmmanAlloc (pmmanAlloc (pmmanKernelMap lowBits) 20000).2 1).1 = 49152 := by
    decide +kernel
  have run₁ := Run.nil.snoc (AllocStep.alloc (pmmanKernelMap lowBits) [] 20000
    (by rw [first]; decide))
  have run₂ := run₁.snoc (AllocStep.alloc _ _ 1 (by rw [second]; decide))
  have run₃ := run₂.snoc (AllocStep.free _ [_] [] _)
  exact ⟨_, by rw [second, List.append_nil], alloc_runs_isolated lowBits (by decide) run₃⟩

end DordOs
