import DordOs.Lib.Bytes
import DordOs.Libk.Align

/-!
`build_memory_map` of `stage2/memory_map.asm`, in the 16-bit segment it runs in.
The firmware gives one entry a call. Each goes to its place in the table, but the
counter starts at -1 and is incremented before the calls, so that it ends up one
short of their number.
-/
namespace DordOs
open Lib

/-- What `int 0x15` leaves after one call: the carry flag, `eax`, `ebx` and the
bytes it stores at `es:di`, of which `ecx` allows 24. -/
structure E820Answer where
  carry : Bool
  eax : U32
  ebx : U32
  entry : Bytes
  fits : entry.length ≤ 24

abbrev SegMem := U16 → U8

def smap : U32 := 0x534D4150

/-- `rep stosb` with `cx` the number of bytes. -/
def repStosb (mem : SegMem) (di : U16) (al : U8) : Nat → SegMem
  | 0 => mem
  | cx + 1 => repStosb (fun a => if a = di then al else mem a) (di + 1) al cx

/-- The stores of `int 0x15`. -/
def int15 (mem : SegMem) (di : U16) (entry : Bytes) : SegMem := fun a =>
  if (a - di).toNat < entry.length then entry.getD (a - di).toNat 0 else mem a

/-- How `build_memory_map` ends, if the firmware answers at all. -/
inductive MemoryMapExit
  | waiting
  | panic
  | done (memmapEntries : U16) (mem : SegMem)

def memoryMapLoop (mem : SegMem) (si di : U16) : List E820Answer → MemoryMapExit
  | [] => .waiting
  | answer :: answers =>
      let si := si + 1
      let di := di + 24
      let mem := int15 mem di answer.entry
      if answer.carry then .panic
      else if answer.eax ≠ smap then .panic
      else if answer.ebx ≠ 0 then memoryMapLoop mem si di answers
      else .done si mem

def buildMemoryMap (mem : SegMem) (memmap : U16) (answers : List E820Answer) : MemoryMapExit :=
  memoryMapLoop (repStosb mem memmap 0 256) (-1) (memmap - 24) answers

/-- The firmware succeeds on every call and ends the list with the last one. -/
inductive Answers : List E820Answer → Prop
  | last (answer : E820Answer) :
      answer.carry = false → answer.eax = smap → answer.ebx = 0 → Answers [answer]
  | more (answer : E820Answer) (answers : List E820Answer) :
      answer.carry = false → answer.eax = smap → answer.ebx ≠ 0 → Answers answers →
      Answers (answer :: answers)

/-- The byte `j` of entry `k` of a table. -/
def entryAddr (table : U16) (k j : Nat) : U16 := table + BitVec.ofNat 16 (24 * k + j)

/-- `mem'` is `mem` with the answers stored one behind the other in a table. -/
structure Stored (mem : SegMem) (table : U16) (answers : List E820Answer) (mem' : SegMem) :
    Prop where
  entry : ∀ k (h : k < answers.length), ∀ j < answers[k].entry.length,
    mem' (entryAddr table k j) = answers[k].entry.getD j 0
  outside : ∀ a, 24 * answers.length ≤ (a - table).toNat → mem' a = mem a

section

variable {mem : SegMem} {di : U16} {n : Nat}

theorem repStosb_outside {al : U8} {a : U16} (h : n ≤ (a - di).toNat) :
    repStosb mem di al n a = mem a := by
  induction n generalizing mem di with
  | zero => rfl
  | succ n ih =>
      have hne : a ≠ di := by
        rintro rfl
        rw [BitVec.sub_self] at h
        exact absurd h (Nat.not_succ_le_zero n)
      have hnext : n ≤ (a - (di + 1)).toNat := by
        bv_omega
      rw [repStosb, ih hnext, if_neg hne]

theorem int15_inside (entry : Bytes) {j : Nat} (h : j < entry.length) (hfit : entry.length ≤ 24) :
    int15 mem di entry (di + BitVec.ofNat 16 j) = entry.getD j 0 := by
  have hj : (di + BitVec.ofNat 16 j - di).toNat = j := by
    bv_omega
  simp only [int15, hj]
  rw [if_pos h]

theorem int15_outside {entry : Bytes} {a : U16} (hfit : entry.length ≤ 24)
    (h : 24 ≤ (a - di).toNat) : int15 mem di entry a = mem a :=
  if_neg (by omega)

/-- The first answer, then the rest of the table from the next entry on. -/
theorem Stored.cons {answer : E820Answer} {answers : List E820Answer} {mem' : SegMem}
    (h : Stored (int15 mem di answer.entry) (di + 24) answers mem')
    (hfit : 24 * (answer :: answers).length ≤ 2 ^ 16) :
    Stored mem di (answer :: answers) mem' := by
  rw [List.length_cons] at hfit
  have hlen := answer.fits
  constructor
  · intro k hk j hj
    cases k with
    | zero =>
        have hj : j < answer.entry.length := hj
        rw [List.getElem_cons_zero, h.outside _ (by simp only [entryAddr]; bv_omega)]
        simp only [entryAddr, Nat.mul_zero, Nat.zero_add]
        exact int15_inside answer.entry hj hlen
    | succ k =>
        have haddr : entryAddr di (k + 1) j = entryAddr (di + 24) k j := by
          simp only [entryAddr]
          bv_omega
        rw [haddr]
        exact h.entry k (Nat.lt_of_succ_lt_succ hk) j hj
  · intro a ha
    rw [List.length_cons] at ha
    rw [h.outside a (by bv_omega), int15_outside hlen (by omega)]

/-- The loop stores every answer and counts it. -/
theorem memoryMapLoop_stored {answers : List E820Answer} (h : Answers answers)
    (hfit : 24 * answers.length ≤ 2 ^ 16) (mem : SegMem) (si di : U16) :
    ∃ mem', memoryMapLoop mem si di answers =
        .done (si + BitVec.ofNat 16 answers.length) mem' ∧
      Stored mem (di + 24) answers mem' := by
  induction h generalizing mem si di with
  | last answer hcarry heax hebx =>
      refine ⟨int15 mem (di + 24) answer.entry, ?_, Stored.cons ⟨?_, fun _ _ => rfl⟩ hfit⟩
      · rw [memoryMapLoop, if_neg (by rw [hcarry]; exact Bool.false_ne_true),
          if_neg (not_not.mpr heax), if_neg (not_not.mpr hebx)]
        rfl
      · exact fun k hk => absurd hk (Nat.not_lt_zero k)
  | more answer answers hcarry heax hebx hrest ih =>
      rw [List.length_cons] at hfit
      obtain ⟨mem', hdone, hstored⟩ :=
        ih (by omega) (int15 mem (di + 24) answer.entry) (si + 1) (di + 24)
      refine ⟨mem', ?_, Stored.cons hstored (by rw [List.length_cons]; omega)⟩
      rw [memoryMapLoop, if_neg (by rw [hcarry]; exact Bool.false_ne_true),
        if_neg (not_not.mpr heax), if_pos hebx, List.length_cons]
      refine hdone.trans ?_
      rw [BitVec.add_assoc, Nat.add_comm answers.length 1, BitVec.ofNat_add]
      rfl

end

/-- The 32 entries of `memmap`. -/
def memmapSize : Nat := 32 * 24

theorem buildMemoryMap_stored {answers : List E820Answer} (h : Answers answers)
    (hlen : answers.length ≤ 32) (mem : SegMem) (memmap : U16) :
    ∃ mem', buildMemoryMap mem memmap answers =
        .done (BitVec.ofNat 16 answers.length - 1) mem' ∧
      Stored (repStosb mem memmap 0 256) memmap answers mem' := by
  obtain ⟨mem', hdone, hstored⟩ :=
    memoryMapLoop_stored h (by omega) (repStosb mem memmap 0 256) (-1) (memmap - 24)
  rw [BitVec.sub_add_cancel] at hstored
  refine ⟨mem', hdone.trans ?_, hstored⟩
  rw [BitVec.add_comm, ← BitVec.sub_eq_add_neg]

/-- Every answer is in its place, and nothing is written outside the table. -/
structure FillsTable (mem : SegMem) (memmap : U16) (answers : List E820Answer) (mem' : SegMem) :
    Prop where
  entry : ∀ k (h : k < answers.length), ∀ j < answers[k].entry.length,
    mem' (entryAddr memmap k j) = answers[k].entry.getD j 0
  outside : ∀ a, memmapSize ≤ (a - memmap).toNat → mem' a = mem a

/-- The table holds the answers, and the count is their number. -/
def RecordsMap (mem : SegMem) (memmap : U16) (answers : List E820Answer) : Prop :=
  ∃ memmapEntries mem', buildMemoryMap mem memmap answers = .done memmapEntries mem' ∧
    FillsTable mem memmap answers mem' ∧ memmapEntries.toNat = answers.length

/-- The table is right for every memory map, and the count is one too small. -/
theorem memmapEntries_short {answers : List E820Answer} (h : Answers answers)
    (hlen : answers.length ≤ 32) (mem : SegMem) (memmap : U16) :
    (∃ memmapEntries mem', buildMemoryMap mem memmap answers = .done memmapEntries mem' ∧
      FillsTable mem memmap answers mem' ∧ memmapEntries.toNat + 1 = answers.length) ∧
    ¬ RecordsMap mem memmap answers := by
  obtain ⟨mem', hdone, hstored⟩ := buildMemoryMap_stored h hlen mem memmap
  have hpos : 0 < answers.length := by cases h <;> exact Nat.zero_lt_succ _
  have hcount : (BitVec.ofNat 16 answers.length - 1).toNat + 1 = answers.length := by bv_omega
  have houtside : ∀ a, memmapSize ≤ (a - memmap).toNat → mem' a = mem a := by
    intro a ha
    simp only [memmapSize] at ha
    rw [hstored.outside a (by omega), repStosb_outside (by omega)]
  refine ⟨⟨_, mem', hdone, ⟨hstored.entry, houtside⟩, hcount⟩, ?_⟩
  rintro ⟨memmapEntries, mem'', hdone', _, hall⟩
  rw [hdone] at hdone'
  rw [← (MemoryMapExit.done.inj hdone').1] at hall
  omega

/-- The two answers of a machine with low memory and one range above it. -/
def twoAnswers : List E820Answer :=
  [⟨false, smap, 1, List.replicate 24 1, by decide⟩,
    ⟨false, smap, 0, List.replicate 20 2, by decide⟩]

theorem answers_two : Answers twoAnswers :=
  .more _ _ rfl rfl (by decide) (.last _ rfl rfl rfl)

theorem memmapEntries_short_two :
    ∃ mem', buildMemoryMap (fun _ => 7) 0x8000 twoAnswers = .done 1 mem' ∧
      mem' 0x8018 = 2 ∧ mem' 0x8300 = 7 := by
  obtain ⟨memmapEntries, mem', hdone, hfill, hcount⟩ :=
    (memmapEntries_short answers_two (by decide) (fun _ => 7) 0x8000).1
  have hone : memmapEntries = 1 := by
    refine BitVec.eq_of_toNat_eq (Nat.succ.inj ?_)
    exact hcount
  rw [hone] at hdone
  exact ⟨mem', hdone, hfill.entry 1 (by decide) 0 (by decide), hfill.outside 0x8300 (by decide)⟩

/-- The only entry of a memory map is not counted. -/
theorem single_entry_not_counted :
    ¬ ∀ (mem : SegMem) (memmap : U16) (answers : List E820Answer),
      Answers answers → answers.length ≤ 32 → RecordsMap mem memmap answers := by
  intro claim
  obtain ⟨memmapEntries, mem', hdone, _, hcount⟩ :=
    claim (fun _ => 0) 0x8000 [⟨false, smap, 0, List.replicate 24 1, by decide⟩]
      (.last _ rfl rfl rfl) (by decide)
  have hzero : memmapEntries = 0 := by
    cases hdone
    rfl
  rw [hzero] at hcount
  cases hcount

end DordOs
