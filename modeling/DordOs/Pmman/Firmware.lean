import DordOs.Pmman.Initialize

/-!
What the free blocks of a fresh kernel map owe to the firmware. Clearing an
entry's blocks rounds outwards at both ends, so a free block is usable memory
throughout only when the rounding slack of every cleared entry is usable too.
-/
namespace DordOs
open Lib

/-- The entry's bytes. -/
def Memmap.Contains (e : Memmap) (a : Nat) : Prop :=
  e.base.toNat ≤ a ∧ a < e.base.toNat + e.len.toNat

/-- Some usable entry contains byte `a` and no entry of another type does. -/
structure DeclaredUsable (memmap : Nat → Memmap) (n a : Nat) : Prop where
  usable : ∃ i < n, (memmap i).type = memmapUsable ∧ (memmap i).Contains a
  noOther : ∀ i < n, (memmap i).Contains a → (memmap i).type = memmapUsable

/-- Every byte of every block left free is memory declared usable. -/
def FreeBlocksUsable (memmap : Nat → Memmap) (n : Nat) (map : PmmanMap) : Prop :=
  ∀ b < 1024, map.marked b = false → ∀ a, a / 16384 = b → DeclaredUsable memmap n a

/-- The slack of every cleared entry is usable: a byte of a block the entry
clears, if the entry itself does not contain it, lies in another usable entry,
and no byte of such a block lies in an entry of another type. -/
def SlackUsable (memmap : Nat → Memmap) (n : Nat) : Prop :=
  ∀ i < n, ∀ a, (memmap i).Clears (a / 16384) →
    (¬ (memmap i).Contains a → ∃ j < n, (memmap j).type = memmapUsable ∧ (memmap j).Contains a) ∧
      ∀ j < n, (memmap j).Contains a → (memmap j).type = memmapUsable

theorem Memmap.Clears.lt {e : Memmap} {b : Nat} (h : e.Clears b) : b < 1024 := by
  obtain ⟨_, hbase, _, hhi⟩ := h
  simp only [firstCleared, clearedCount] at hhi
  split at hhi <;> omega

theorem slackUsable_iff_cleared (memmap : Nat → Memmap) (n : Nat) :
    SlackUsable memmap n ↔
      ∀ i < n, ∀ a, (memmap i).Clears (a / 16384) → DeclaredUsable memmap n a := by
  constructor
  · intro h i hi a hc
    obtain ⟨hslack, hother⟩ := h i hi a hc
    refine ⟨?_, hother⟩
    by_cases hin : (memmap i).Contains a
    · exact ⟨i, hi, hc.1, hin⟩
    · exact hslack hin
  · intro h i hi a hc
    obtain ⟨husable, hother⟩ := h i hi a hc
    exact ⟨fun _ => husable, hother⟩

/-- After `pmman_initialize` the free blocks are usable memory exactly when the
rounding slack of the cleared entries is. -/
theorem initialize_usable_iff_slack (bits : Nat → U32) (memmap : Nat → Memmap) (memmapCount : U32)
    (hpos : 0 < memmapCount.toNat)
    (hend : ∀ i < memmapCount.toNat, (memmap i).base.toNat + (memmap i).len.toNat ≤ 2 ^ 64) :
    FreeBlocksUsable memmap memmapCount.toNat (pmmanInitialize bits memmap memmapCount).1 ↔
      SlackUsable memmap memmapCount.toNat := by
  rw [slackUsable_iff_cleared]
  constructor
  · intro h i hi a hc
    have hfree := (free_initialize_iff bits memmap hpos hend (a / 16384) hc.lt).mpr ⟨i, hi, hc⟩
    exact h (a / 16384) hc.lt hfree a rfl
  · intro h b hb hfree a ha
    obtain ⟨i, hi, hc⟩ := (free_initialize_iff bits memmap hpos hend b hb).mp hfree
    exact h i hi a (ha ▸ hc)

/-- One block-aligned usable entry meets the condition. -/
theorem initialize_usable_iff_slack_aligned :
    FreeBlocksUsable (fun _ => ⟨0x100000, 0x8000, 1, 0⟩) 1
      (pmmanInitialize (fun _ => 0) (fun _ => ⟨0x100000, 0x8000, 1, 0⟩) 1).1 := by
  refine (initialize_usable_iff_slack (fun _ => 0) (fun _ => ⟨0x100000, 0x8000, 1, 0⟩) 1
    (by decide) (fun _ _ => by decide)).mpr ?_
  intro i hi a hc
  obtain ⟨_, _, hlo, hhi⟩ : Memmap.Clears ⟨0x100000, 0x8000, 1, 0⟩ (a / 16384) := hc
  have hfirst : Memmap.firstCleared ⟨0x100000, 0x8000, 1, 0⟩ = 64 := by decide
  have hcount : Memmap.clearedCount ⟨0x100000, 0x8000, 1, 0⟩ = 2 := by decide
  rw [hfirst] at hlo hhi
  rw [hcount] at hhi
  have hin : Memmap.Contains ⟨0x100000, 0x8000, 1, 0⟩ a :=
    ⟨by change 0x100000 ≤ a; omega, by change a < 0x100000 + 0x8000; omega⟩
  exact ⟨fun hout => absurd hin hout, fun _ _ _ => rfl⟩

/-- The low memory entry of an ordinary PC ends 1 KiB below a block boundary:
the block that holds its end is left free although its last kilobyte belongs to
no entry. -/
theorem initialize_frees_undeclared :
    ¬ ∀ (bits : Nat → U32) (memmap : Nat → Memmap) (memmapCount : U32),
      0 < memmapCount.toNat →
      (∀ i < memmapCount.toNat, (memmap i).base.toNat + (memmap i).len.toNat ≤ 2 ^ 64) →
      FreeBlocksUsable memmap memmapCount.toNat (pmmanInitialize bits memmap memmapCount).1 := by
  intro claim
  have hend : ∀ i < (1 : U32).toNat, ((fun _ => ⟨0, 0x9FC00, 1, 0⟩ : Nat → Memmap) i).base.toNat +
      ((fun _ => ⟨0, 0x9FC00, 1, 0⟩ : Nat → Memmap) i).len.toNat ≤ 2 ^ 64 := by
    intro i _
    change (0 : U64).toNat + (0x9FC00 : U64).toNat ≤ 2 ^ 64
    decide
  have hfree := (free_initialize_iff (fun _ => 0) (fun _ => ⟨0, 0x9FC00, 1, 0⟩)
    (by decide) hend 39 (by decide)).mpr ⟨0, by decide, by decide⟩
  obtain ⟨_, _, _, hin⟩ := (claim _ _ 1 (by decide) hend 39 (by decide) hfree 0x9FFFF rfl).usable
  exact absurd hin.2 (by decide)

end DordOs
