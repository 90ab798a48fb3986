import DordOs.Drivers.Dfs
import DordOs.Lib.Trail
import Mathlib.Data.Fintype.EquivFin

/-!
`dfs_fread` on any contents of the disk: how far the chain of headers is followed,
what becomes of reads that fail, and whether the size reported is the size read.
-/
namespace DordOs
open Lib Relation

abbrev Sector := { bytes : Bytes // bytes.length = 512 }

abbrev Disk := U64 → Sector

/-- The reads that fail, and with which error. -/
abbrev Failures := U64 → U64 → Option { err : Err // err ≠ .ok }

/-- A failing read stores nothing, another one 512 bytes for each sector. -/
def Disk.drive (disk : Disk) (fails : Failures) : Drive := fun lba sectors =>
  match fails lba sectors with
  | some err => (err, [])
  | none => (.ok, (List.range sectors.toNat).flatMap fun k => disk (lba + BitVec.ofNat 64 k))

def noFailures : Failures := fun _ _ => none

/-- The header has the name that is looked for. -/
def Sector.Matches (path : CStr) (buf : Sector) : Prop :=
  strneq path.get (dfsName buf) 32 = true

instance (path : CStr) (buf : Sector) : Decidable (Sector.Matches path buf) :=
  inferInstanceAs (Decidable (_ = _))

/-- The header of sector `lba` can be read, is not the one looked for, and links to
sector `next`. -/
def Disk.Links (disk : Disk) (fails : Failures) (path : CStr) (lba next : U64) : Prop :=
  fails lba 1 = none ∧ ¬ (disk lba).Matches path ∧ dfsNextLba (disk lba) = next ∧ next ≠ 0

/-- The headers on the way from sector 1. -/
def Disk.OnChain (disk : Disk) (fails : Failures) (path : CStr) : U64 → Prop :=
  ReflTransGen (disk.Links fails path) 1

section Loop

variable {disk : Disk} {fails : Failures} {path : CStr} {lba next : U64} {fuel : Nat}

theorem Disk.drive_of_fails {sectors : U64} {err : { err : Err // err ≠ .ok }}
    (h : fails lba sectors = some err) : disk.drive fails lba sectors = (err.val, []) := by
  simp only [Disk.drive]
  rw [h]

theorem Disk.drive_header (h : fails lba 1 = none) :
    disk.drive fails lba 1 = (.ok, (disk lba).val) := by
  have hzero : lba + BitVec.ofNat 64 0 = lba := BitVec.add_zero lba
  simp only [Disk.drive]
  rw [h]
  change (Err.ok, (disk (lba + BitVec.ofNat 64 0)).val ++ []) = _
  rw [hzero, List.append_nil]

theorem dfsHeaderFrom_of_read (h : fails lba 1 = none) (buf : Sector) :
    dfsHeaderFrom (disk.drive fails) path (fuel + 1) lba buf =
      if (disk lba).Matches path then some (some (lba, (disk lba).val))
      else if dfsNextLba (disk lba) ≠ 0 then
        dfsHeaderFrom (disk.drive fails) path fuel (dfsNextLba (disk lba)) (disk lba)
      else some none := by
  have hbuf : overwrite (disk lba).val buf = (disk lba).val :=
    overwrite_of_length_le (Nat.le_of_eq (buf.property.trans (disk lba).property.symm))
  rw [dfsHeaderFrom, Disk.drive_header h]
  dsimp only
  rw [hbuf]
  rfl

/-- A read that fails leaves the old header in the buffer. -/
theorem dfsHeaderFrom_of_fails {err : { err : Err // err ≠ .ok }} (h : fails lba 1 = some err)
    (buf : Sector) :
    dfsHeaderFrom (disk.drive fails) path (fuel + 1) lba buf =
      if buf.Matches path then some (some (lba, buf.val))
      else if dfsNextLba buf ≠ 0 then
        dfsHeaderFrom (disk.drive fails) path fuel (dfsNextLba buf) buf
      else some none := by
  have hbuf : overwrite [] buf.val = buf.val := rfl
  rw [dfsHeaderFrom, Disk.drive_of_fails h]
  dsimp only
  rw [hbuf]
  rfl

theorem Disk.Links.step (h : disk.Links fails path lba next) (buf : Sector) :
    dfsHeaderFrom (disk.drive fails) path (fuel + 1) lba buf =
      dfsHeaderFrom (disk.drive fails) path fuel next (disk lba) := by
  obtain ⟨hread, hname, rfl, hne⟩ := h
  rw [dfsHeaderFrom_of_read hread, if_neg hname, if_pos hne]

theorem links_rightUnique : Relator.RightUnique (disk.Links fails path) := by
  intro lba next next' h h'
  exact h.2.2.1.symm.trans h'.2.2.1

/-- The search gets to every header on the chain. -/
theorem Disk.OnChain.reached (h : disk.OnChain fails path lba) (buf : Sector) :
    ∃ (n : Nat) (buf' : Sector), ∀ fuel,
      dfsHeader (fuel + n) (disk.drive fails) path buf =
        dfsHeaderFrom (disk.drive fails) path fuel lba buf' := by
  induction h with
  | refl => exact ⟨0, buf, fun _ => rfl⟩
  | @tail lba next _ hlink ih =>
      obtain ⟨n, buf', hrun⟩ := ih
      refine ⟨n + 1, disk lba, fun fuel => ?_⟩
      rw [Nat.add_comm n, ← Nat.add_assoc, hrun, hlink.step]

/-- The search ends at this header. -/
def Disk.Stops (disk : Disk) (path : CStr) (lba : U64) : Prop :=
  (disk lba).Matches path ∨ dfsNextLba (disk lba) = 0

def Disk.found (disk : Disk) (path : CStr) (lba : U64) : Option (U64 × Bytes) :=
  if (disk lba).Matches path then some (lba, disk lba) else none

theorem Disk.stops_iff (h : fails lba 1 = none) :
    disk.Stops path lba ↔ ∀ next, ¬ disk.Links fails path lba next := by
  constructor
  · rintro hstop next ⟨-, hname, rfl, hne⟩
    exact hstop.elim hname hne
  · intro hlast
    by_contra hgo
    obtain ⟨hname, hne⟩ := not_or.mp hgo
    exact hlast _ ⟨h, hname, rfl, hne⟩

theorem dfsHeaderFrom_of_stops (h : fails lba 1 = none) (hstop : disk.Stops path lba)
    (buf : Sector) :
    dfsHeaderFrom (disk.drive fails) path (fuel + 1) lba buf = some (disk.found path lba) := by
  rw [dfsHeaderFrom_of_read h, Disk.found]
  by_cases hname : (disk lba).Matches path
  · rw [if_pos hname, if_pos hname]
  · have hnull : dfsNextLba (disk lba) = 0 := hstop.resolve_left hname
    rw [if_neg hname, if_neg hname, hnull, if_neg (not_not.mpr rfl)]

theorem dfsHeader_of_stops (hchain : disk.OnChain fails path lba) (h : fails lba 1 = none)
    (hstop : disk.Stops path lba) (buf : Sector) :
    ∃ fuel, dfsHeader fuel (disk.drive fails) path buf = some (disk.found path lba) := by
  obtain ⟨n, buf', hrun⟩ := hchain.reached buf
  exact ⟨1 + n, (hrun 1).trans (dfsHeaderFrom_of_stops h hstop buf')⟩

/-- Where every header can be read, the search ends where the chain does. -/
theorem stops_of_dfsHeader (reads : ∀ lba, disk.OnChain fails path lba → fails lba 1 = none)
    {buf : Sector} {found : Option (U64 × Bytes)}
    (h : dfsHeader fuel (disk.drive fails) path buf = some found) :
    ∃ lba, disk.OnChain fails path lba ∧ disk.Stops path lba ∧ found = disk.found path lba := by
  suffices hall : ∀ fuel lba (buf : Sector), disk.OnChain fails path lba →
      dfsHeaderFrom (disk.drive fails) path fuel lba buf = some found →
      ∃ lba, disk.OnChain fails path lba ∧ disk.Stops path lba ∧ found = disk.found path lba from
    hall fuel 1 buf ReflTransGen.refl h
  intro fuel
  induction fuel with
  | zero => exact fun _ _ _ h => nomatch h
  | succ fuel ih =>
      intro lba buf hchain h
      have hread := reads lba hchain
      by_cases hstop : disk.Stops path lba
      · rw [dfsHeaderFrom_of_stops hread hstop] at h
        exact ⟨lba, hchain, hstop, (Option.some.inj h).symm⟩
      · obtain ⟨hname, hne⟩ := not_or.mp hstop
        have hlink : disk.Links fails path lba (dfsNextLba (disk lba)) :=
          ⟨hread, hname, rfl, hne⟩
        rw [hlink.step] at h
        exact ih _ _ (hchain.tail hlink) h

theorem dfsFread_eq_some {drive : Drive} {outData : Bool} {buf : Bytes} {r : Fread} :
    dfsFread fuel drive path outData buf = some r ↔
      ∃ found, dfsHeader fuel drive path buf = some found ∧
        dfsReadFound drive outData found = r := by
  rw [dfsFread, dfsFreadFrom_eq, Option.map_eq_some_iff, dfsHeader]

theorem dfsFread_returns_iff_stops {outData : Bool} {buf : Sector} :
    (∃ fuel r, dfsFread fuel (disk.drive noFailures) path outData buf = some r) ↔
      ∃ lba, disk.OnChain noFailures path lba ∧ disk.Stops path lba := by
  constructor
  · rintro ⟨fuel, r, h⟩
    obtain ⟨found, hfound, -⟩ := dfsFread_eq_some.mp h
    obtain ⟨lba, hchain, hstop, -⟩ := stops_of_dfsHeader (fun _ _ => rfl) hfound
    exact ⟨lba, hchain, hstop⟩
  · rintro ⟨lba, hchain, hstop⟩
    obtain ⟨fuel, hfound⟩ := dfsHeader_of_stops hchain rfl hstop buf
    exact ⟨fuel, _, dfsFread_eq_some.mpr ⟨_, hfound, rfl⟩⟩

end Loop

/-- On a disk without read errors `dfs_fread` returns iff its search does not come back
to a header. -/
theorem dfs_fread_returns_iff (disk : Disk) (path : CStr) (outData : Bool) (buf : Sector) :
    (∃ fuel r, dfsFread fuel (disk.drive noFailures) path outData buf = some r) ↔
      ∀ lba, disk.OnChain noFailures path lba →
        ¬ TransGen (disk.Links noFailures path) lba lba := by
  have hfinite : Finite U64 := Finite.of_injective BitVec.toFin fun _ _ => BitVec.eq_of_toFin_eq
  rw [dfsFread_returns_iff_stops]
  refine Iff.trans ?_ (ends_iff_acyclic links_rightUnique 1)
  exact exists_congr fun lba => and_congr_right' (Disk.stops_iff rfl)

def pathB : CStr := ⟨[0x62], by decide⟩

/-- A header with the name `a`, no sectors and this link. -/
def headerA (next : Nat) : Sector :=
  ⟨zeros 8 ++ (leBytes 8 next ++ 0x61 :: zeros 495), by
    simp only [List.length_append, List.length_cons, length_zeros, length_leBytes]⟩

theorem headerA_mismatch (next : Nat) : ¬ (headerA next).Matches pathB := by
  have hfirst : dfsName (headerA next) 0 = 0x61 := rfl
  rw [Sector.Matches, strneq]
  change ¬ strneqFrom pathB.get (dfsName (headerA next)) 0 (31 + 1) = true
  rw [strneqFrom, hfirst, if_pos (by decide)]
  exact Bool.false_ne_true

/-- Every header links to sector 1. -/
theorem dfs_fread_loops_on_cycle :
    ¬ ∀ (disk : Disk) (path : CStr) (outData : Bool) (buf : Sector),
      ∃ fuel r, dfsFread fuel (disk.drive noFailures) path outData buf = some r := by
  intro claim
  obtain ⟨lba, -, hstop⟩ := dfsFread_returns_iff_stops.mp
    (claim (fun _ => headerA 1) pathB false (headerA 1))
  have hnext : dfsNextLba (headerA 1) = 1 := by decide
  rw [Disk.Stops, hnext] at hstop
  exact hstop.elim (headerA_mismatch 1) (by decide)

/-- What becomes of failing reads: one on the chain ends the call, nothing stored; what
the buffer holds in front of a header read does not matter; `OK` for data that was asked
for means that it was read. -/
structure PropagatesFailures (disk : Disk) (fails : Failures) (path : CStr) : Prop where
  header : ∀ lba err, disk.OnChain fails path lba → fails lba 1 = some err →
    ∀ outData (buf : Sector), ∃ fuel,
      dfsFread fuel (disk.drive fails) path outData buf = some ⟨err, none, []⟩
  buffer : ∀ lba, disk.OnChain fails path lba → ∀ fuel outData (buf buf' : Sector),
    dfsFreadFrom (disk.drive fails) path outData fuel lba buf =
      dfsFreadFrom (disk.drive fails) path outData fuel lba buf'
  data : ∀ fuel (buf : Sector) r,
    dfsFread fuel (disk.drive fails) path true buf = some r → r.err = .ok →
    ∃ lba, disk.OnChain fails path lba ∧ fails lba 1 = none ∧ (disk lba).Matches path ∧
      disk.drive fails (lba + 1) (dfsSectors (disk lba)) = (.ok, r.outData)

section Failures

variable {disk : Disk} {fails : Failures} {path : CStr} {lba : U64} {fuel : Nat}
  {err : { err : Err // err ≠ .ok }}

/-- A header with the name that is looked for. -/
def namedHeader (path : CStr) : Sector :=
  ⟨zeros 16 ++ ((List.range 32).map path.get ++ zeros 464), by
    simp only [List.length_append, List.length_map, List.length_range, length_zeros]⟩

theorem namedHeader_matches (path : CStr) : (namedHeader path).Matches path := by
  refine strneq_of_eq fun k hk => ?_
  have hk' : k < 32 := hk
  rw [dfsName, namedHeader, List.getD_eq_getElem?_getD,
    List.getElem?_append_right (by rw [length_zeros]; omega), length_zeros,
    Nat.add_sub_cancel_left,
    List.getElem?_append_left (by rw [List.length_map, List.length_range]; exact hk'),
    List.getElem?_map, List.getElem?_range hk']
  rfl

/-- In front of the first header the buffer can hold anything. -/
theorem dfsFread_first_fails (h : fails 1 1 = some err) :
    dfsHeaderFrom (disk.drive fails) path (fuel + 1) 1 (namedHeader path) =
      some (some (1, (namedHeader path).val)) := by
  rw [dfsHeaderFrom_of_fails h, if_pos (namedHeader_matches path)]

/-- Behind another header the loop follows that one's link again and again. -/
theorem dfsHeaderFrom_next_fails {prev : U64} (hlink : disk.Links fails path prev lba)
    (h : fails lba 1 = some err) (fuel : Nat) :
    dfsHeaderFrom (disk.drive fails) path fuel lba (disk prev) = none := by
  obtain ⟨-, hname, hnext, hne⟩ := hlink
  induction fuel with
  | zero => rfl
  | succ fuel ih =>
      rw [dfsHeaderFrom_of_fails h, if_neg hname, hnext, if_pos hne]
      exact ih

theorem dfsHeaderFrom_mono {drive : Drive} {buf : Bytes} {found : Option (U64 × Bytes)}
    (h : dfsHeaderFrom drive path fuel lba buf = some found) (k : Nat) :
    dfsHeaderFrom drive path (fuel + k) lba buf = some found := by
  induction fuel generalizing lba buf with
  | zero => exact nomatch h
  | succ fuel ih =>
      rw [Nat.add_right_comm, dfsHeaderFrom]
      rw [dfsHeaderFrom] at h
      dsimp only at h ⊢
      split at h
      next hname => rw [if_pos hname, h]
      next hname =>
        rw [if_neg hname]
        split at h
        next hne => rw [if_pos hne, ih h]
        next hnull => rw [if_neg hnull, h]

theorem not_propagates_of_fails (hchain : disk.OnChain fails path lba)
    (h : fails lba 1 = some err) : ¬ PropagatesFailures disk fails path := by
  intro hprop
  obtain ⟨fuel, hrun⟩ := hprop.header lba err hchain h false (namedHeader path)
  obtain ⟨found, hfound, hresult⟩ := dfsFread_eq_some.mp hrun
  obtain rfl | ⟨prev, hprev, hlink⟩ := ReflTransGen.cases_tail hchain
  · cases fuel with
    | zero => exact nomatch hfound
    | succ fuel =>
        rw [dfsHeader, dfsFread_first_fails h] at hfound
        rw [← Option.some.inj hfound] at hresult
        exact nomatch congrArg Fread.outSize hresult
  · obtain ⟨n, buf', hreached⟩ := Disk.OnChain.reached hprev (namedHeader path)
    have hnone : dfsHeader (fuel + 1 + n) (disk.drive fails) path (namedHeader path) = none := by
      rw [hreached, hlink.step, dfsHeaderFrom_next_fails hlink h]
    have hsome := dfsHeaderFrom_mono hfound (1 + n)
    rw [← Nat.add_assoc, ← dfsHeader, hnone] at hsome
    exact nomatch hsome

theorem propagates_of_reads (reads : ∀ lba, disk.OnChain fails path lba → fails lba 1 = none) :
    PropagatesFailures disk fails path where
  header := by
    intro lba err hchain hfails
    rw [reads lba hchain] at hfails
    exact nomatch hfails
  buffer := by
    intro lba hchain fuel outData buf buf'
    cases fuel with
    | zero => rfl
    | succ fuel =>
        have hread := reads lba hchain
        rw [dfsFreadFrom_eq, dfsFreadFrom_eq, dfsHeaderFrom_of_read hread,
          dfsHeaderFrom_of_read hread]
  data := by
    intro fuel buf r hrun hok
    obtain ⟨found, hfound, rfl⟩ := dfsFread_eq_some.mp hrun
    obtain ⟨lba, hchain, -, rfl⟩ := stops_of_dfsHeader reads hfound
    rw [Disk.found] at hok ⊢
    split at hok
    next hname =>
      rw [if_pos hname]
      exact ⟨lba, hchain, reads lba hchain, hname, Prod.ext hok rfl⟩
    next => exact nomatch hok

end Failures

/-- Errors are passed on iff every header on the chain can be read. -/
theorem dfs_fread_propagates_iff (disk : Disk) (fails : Failures) (path : CStr) :
    PropagatesFailures disk fails path ↔
      ∀ lba, disk.OnChain fails path lba → fails lba 1 = none := by
  constructor
  · intro hprop lba hchain
    cases hfails : fails lba 1 with
    | none => rfl
    | some err => exact absurd hprop (not_propagates_of_fails hchain hfails)
  · exact propagates_of_reads

/-- The header in sector 1 links to sector 2, which cannot be read. -/
theorem dfs_fread_loops_on_failure :
    ¬ ∀ (disk : Disk) (fails : Failures) (path : CStr), PropagatesFailures disk fails path := by
  intro claim
  have hlink : Disk.Links (fun _ => headerA 2)
      (fun lba _ => if lba = 2 then some ⟨.unknHrdw, by decide⟩ else none) pathB 1 2 :=
    ⟨rfl, headerA_mismatch 2, by decide, by decide⟩
  exact not_propagates_of_fails (ReflTransGen.single hlink) rfl (claim _ _ _)

/-- The size that is reported is the number of bytes a call with a buffer stores. -/
def SizesAgree (disk : Disk) (path : CStr) : Prop :=
  ∀ fuel fuel' (buf buf' : Sector) (query read : Fread) (n : Usz),
    dfsFread fuel (disk.drive noFailures) path false buf = some query → query.outSize = some n →
    dfsFread fuel' (disk.drive noFailures) path true buf' = some read →
    read.outData.length = n.toNat

theorem Disk.length_drive (disk : Disk) (lba sectors : U64) :
    (disk.drive noFailures lba sectors).2.length = 512 * sectors.toNat := by
  have hlen (k : Nat) : (disk (lba + BitVec.ofNat 64 k)).val.length = 512 :=
    (disk (lba + BitVec.ofNat 64 k)).property
  exact (length_flatMap_of_const hlen _).trans (by rw [List.length_range])

theorem filesz_eq_iff (sectors : U64) :
    512 * sectors.toNat = ((sectors * 512).setWidth 32 : Usz).toNat ↔
      512 * sectors.toNat < 2 ^ 32 := by
  have hsectors := sectors.isLt
  rw [BitVec.toNat_setWidth, BitVec.toNat_mul]
  change 512 * sectors.toNat = sectors.toNat * 512 % 2 ^ 64 % 2 ^ 32 ↔ _
  omega

theorem Disk.OnChain.stops_unique {disk : Disk} {path : CStr} {lba lba' : U64}
    (hchain : disk.OnChain noFailures path lba) (hstop : disk.Stops path lba)
    (hchain' : disk.OnChain noFailures path lba') (hstop' : disk.Stops path lba') : lba' = lba :=
  end_unique links_rightUnique hchain ((Disk.stops_iff rfl).mp hstop) hchain'
    ((Disk.stops_iff rfl).mp hstop')

theorem SizesAgree.fits {disk : Disk} {path : CStr} {lba : U64} (agree : SizesAgree disk path)
    (hchain : disk.OnChain noFailures path lba) (hname : (disk lba).Matches path) :
    512 * (dfsSectors (disk lba)).toNat < 2 ^ 32 := by
  obtain ⟨fuel, hfound⟩ := dfsHeader_of_stops hchain rfl (Or.inl hname) (headerA 0)
  rw [Disk.found, if_pos hname] at hfound
  have hlen := agree fuel fuel (headerA 0) (headerA 0) _ _ _
    (dfsFread_eq_some.mpr ⟨_, hfound, rfl⟩) rfl (dfsFread_eq_some.mpr ⟨_, hfound, rfl⟩)
  exact (filesz_eq_iff _).mp ((disk.length_drive _ _).symm.trans hlen)

/-- The size reported is the size read iff it fits the 32 bits it is reported in. -/
theorem dfs_fread_sizes_agree_iff (disk : Disk) (path : CStr) :
    SizesAgree disk path ↔ ∀ lba, disk.OnChain noFailures path lba → (disk lba).Matches path →
      512 * (dfsSectors (disk lba)).toNat < 2 ^ 32 := by
  refine ⟨fun agree lba hchain hname => agree.fits hchain hname, ?_⟩
  intro fits fuel fuel' buf buf' query read n hquery hn hread
  obtain ⟨found, hfound, rfl⟩ := dfsFread_eq_some.mp hquery
  obtain ⟨found', hfound', rfl⟩ := dfsFread_eq_some.mp hread
  obtain ⟨lba, hchain, hstop, rfl⟩ := stops_of_dfsHeader (fun _ _ => rfl) hfound
  obtain ⟨lba', hchain', hstop', rfl⟩ := stops_of_dfsHeader (fun _ _ => rfl) hfound'
  obtain rfl := hchain.stops_unique hstop hchain' hstop'
  rw [Disk.found] at hn ⊢
  split at hn
  next hname =>
    obtain rfl := Option.some.inj hn
    rw [if_pos hname]
    exact (disk.length_drive _ _).trans ((filesz_eq_iff _).mpr (fits _ hchain hname))
  next => exact nomatch hn

/-- A header of 2 ^ 23 sectors with the name that is looked for. -/
def hugeHeader : Sector :=
  ⟨leBytes 8 (2 ^ 23) ++ (zeros 8 ++ 0x62 :: zeros 495), by
    simp only [List.length_append, List.length_cons, length_zeros, length_leBytes]⟩

/-- The size of the file is reported as 0. -/
theorem dfs_fread_size_truncated :
    ¬ ∀ (disk : Disk) (path : CStr), SizesAgree disk path := by
  intro claim
  have hname : hugeHeader.Matches pathB := by decide
  have hsectors : dfsSectors hugeHeader = 0x800000 := by decide
  have hfits := (claim (fun _ => hugeHeader) pathB).fits ReflTransGen.refl hname
  rw [hsectors] at hfits
  exact absurd hfits (by decide)

end DordOs
