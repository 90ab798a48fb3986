import DordOs.Lib.RealMode
import DordOs.Stage2.Elf
import DordOs.Stage2.Scan
import DordOs.Stage2.Search

/-!
`stage2_c` as a whole: the scan for a controller, the search of its drives for
`kernel.bin`, the second read and the loader.
-/
namespace DordOs
open Lib

/-- How stage 2 ends. -/
inductive Stage2Exit
  | noController
  | noKernel
  | badSignature
  | kernel (st : Stage2) (entry : Addr)

/-- `ide_read_drive` to `TMP_ELF_ADDR`, and `load_elf_kernel`. -/
def Stage2.loadKernel (drive : Stage2Drive) (call : KernelCall) (st : Stage2) : Stage2Exit :=
  let st := { st with mem := writeBytes st.mem tmpElfAddr (drive call.lba call.sectorCount) }
  match Stage2.loadElfKernel tmpElfAddr st with
  | none => .badSignature
  | some (st, entry) => .kernel st entry

/-- The loop over the drives from drive `i` on, `buf i` being what the buffer holds at first;
`none` when a chain does not end within the fuel. -/
def stage2Drives (fuel : Nat) (buf : Nat → Bytes) (st : Stage2) :
    Nat → List Stage2Drive → Option Stage2Exit
  | _, [] => some .noKernel
  | i, drive :: drives =>
      match stage2Search fuel drive (buf i) with
      | none => none
      | some (some call) => some (st.loadKernel drive call)
      | some none => stage2Drives fuel buf st (i + 1) drives

/-- `stage2_c`. Drive `i` of the table is read as `read` says for it; `none` also stands for a
probe that never ends. -/
def stage2C (space : PciSpace) (world : AtaWorld) (read : IdeWrite → Stage2Drive) (fuel : Nat)
    (buf : Nat → Bytes) (st : Stage2) : Option Stage2Exit :=
  match enumerateAndInitialize space world with
  | none => some .noController
  | some none => none
  | some (some tables) => stage2Drives fuel buf st 0 (tables.writes.map read)

/-- The drive holds an image that was written with these files. -/
structure Stage2Drive.Stores (drive : Stage2Drive) (files : List DfsFile) : Prop where
  image : ∃ fs argv image, writeImg fs argv = .ok image ∧ image.length < 2 ^ 64 ∧
    filesOf fs argv.rest = files ∧ drive.Returns image

/-- The kernel file among those of a drive. -/
def kernelOf (files : List DfsFile) : Option DfsFile :=
  files.find? fun f => kernelBin.Same 32 f.name

section Search

variable {drive : Stage2Drive} {image buf : Bytes} {lba : U64} {files : List DfsFile} {f : DfsFile}

theorem Records.search_none (h : Records image lba files) (returns : drive.Returns image)
    (hlba : lba ≠ 0) (hbuf : buf.length = 512) {fuel : Nat} (hfuel : files.length + 2 ≤ fuel)
    (hnone : kernelOf files = none) : stage2SearchFrom drive fuel lba buf = some none := by
  induction h generalizing fuel buf with
  | blank before after himage hbefore =>
      obtain ⟨fuel, rfl⟩ : ∃ n, fuel = n + 2 := ⟨fuel - 2, by simp at hfuel; omega⟩
      have hne : ¬ kernelBin.Same 32 CStr.empty := by decide
      rw [stage2SearchFrom_header returns (blank_header himage hbefore) hlba hbuf, if_neg hne]
      exact if_neg (not_not.mpr rfl)
  | @last lba f record =>
      obtain ⟨fuel, rfl⟩ : ∃ n, fuel = n + 2 := ⟨fuel - 2, by simp at hfuel; omega⟩
      have hsame : ¬ kernelBin.Same 32 f.name := by
        simpa using List.find?_eq_none.mp hnone f List.mem_cons_self
      rw [stage2SearchFrom_header returns record.header hlba hbuf, if_neg hsame]
      exact if_neg (not_not.mpr rfl)
  | @link lba next f files record hne _ ih =>
      obtain ⟨fuel, rfl⟩ : ∃ n, fuel = n + 1 := ⟨fuel - 1, by omega⟩
      have hall := List.find?_eq_none.mp hnone
      have hsame : ¬ kernelBin.Same 32 f.name := by simpa using hall f List.mem_cons_self
      rw [stage2SearchFrom_header returns record.header hlba hbuf, if_neg hsame]
      exact ih hne record.header.length (by rw [List.length_cons] at hfuel; omega)
        (List.find?_eq_none.mpr fun g hg => hall g (List.mem_cons_of_mem _ hg))

theorem Records.search_some (h : Records image lba files) (returns : drive.Returns image)
    (hlba : lba ≠ 0) (hbuf : buf.length = 512) {fuel : Nat} (hfuel : files.length + 2 ≤ fuel)
    (hkernel : kernelOf files = some f) :
    ∃ found next, RecordAt image found next f ∧ stage2SearchFrom drive fuel lba buf =
      some (some ⟨found, found + 1, (BitVec.ofNat 64 f.sectors).setWidth 16⟩) := by
  induction h generalizing fuel buf with
  | blank before after himage hbefore => cases hkernel
  | @last lba g record =>
      obtain ⟨fuel, rfl⟩ : ∃ n, fuel = n + 1 := ⟨fuel - 1, by omega⟩
      have hsame : kernelBin.Same 32 f.name := by
        simpa using List.find?_some hkernel
      obtain rfl : f = g := List.mem_singleton.mp (List.mem_of_find?_eq_some hkernel)
      exact ⟨lba, 0, record, (stage2SearchFrom_header returns record.header hlba hbuf fuel).trans
        (if_pos hsame)⟩
  | @link lba next g files record hne _ ih =>
      obtain ⟨fuel, rfl⟩ : ∃ n, fuel = n + 1 := ⟨fuel - 1, by omega⟩
      rw [stage2SearchFrom_header returns record.header hlba hbuf]
      by_cases hsame : kernelBin.Same 32 g.name
      · rw [kernelOf, List.find?_cons_of_pos (by simpa using hsame)] at hkernel
        obtain rfl := Option.some.inj hkernel
        exact ⟨lba, next, record, if_pos hsame⟩
      · rw [kernelOf, List.find?_cons_of_neg (by simpa using hsame)] at hkernel
        rw [if_neg hsame]
        exact ih hne record.header.length (by rw [List.length_cons] at hfuel; omega) hkernel

end Search

namespace Stage2

variable {file : Bytes} {base : Addr} {st : Stage2}

/-- A file in memory that is no ELF file is refused. -/
theorem loadElfKernel_refuses (h : Holds st.mem base file) (hlen : 4 ≤ file.length)
    (hmagic : slice file 0 4 ≠ elfMagic) : loadElfKernel base st = none := by
  refine if_neg fun hsame => hmagic ?_
  have hne : ∀ k, k < (4 : U32).toNat → elfMagic.getD k 0 ≠ 0 := by decide
  have hbytes := (strneq_iff hne).mp hsame
  apply List.ext_getElem
  · rw [slice, List.length_take, List.length_drop]
    change min 4 (file.length - 0) = 4
    omega
  · intro k hk hk'
    have hk4 : k < 4 := hk'
    have hcell := hbytes k hk4
    rw [h.cell k (by omega)] at hcell
    simp only [slice, List.drop_zero, List.getElem_take]
    rwa [List.getD_eq_getElem?_getD, List.getElem?_eq_getElem (by omega), Option.getD_some,
      List.getD_eq_getElem?_getD, List.getElem?_eq_getElem hk', Option.getD_some] at hcell

/-- The memory with the sectors of a file at `TMP_ELF_ADDR`. -/
def stage (st : Stage2) (f : DfsFile) : Stage2 :=
  { st with mem := writeBytes st.mem tmpElfAddr f.padded }

variable {f : DfsFile}

theorem holds_stage (hcount : f.sectors < 2 ^ 16) :
    Holds (st.stage f).mem tmpElfAddr f.padded :=
  Holds.of_writeBytes st.mem (by
    rw [f.length_padded]
    change 0x200000 + 512 * f.sectors ≤ 2 ^ 32
    omega)

theorem stage_outside (hcount : f.sectors < 2 ^ 16) {a : Addr}
    (ha : ¬ InRange tmpElfAddr (512 * f.sectors) a) : (st.stage f).mem a = st.mem a :=
  writeBytes_outside_range (by
    rw [f.length_padded]
    change 0x200000 + 512 * f.sectors ≤ 2 ^ 32
    omega) (by rwa [f.length_padded])

end Stage2

section Drives

variable {disks : List (Stage2Drive × List DfsFile)} {fuel : Nat} {buf : Nat → Bytes}
  {st : Stage2} {f : DfsFile}

/-- Where the chain of a drive begins. -/
theorem Stage2Drive.Stores.records {drive : Stage2Drive} {files : List DfsFile}
    (h : drive.Stores files) : ∃ image, Records image 1 files ∧ drive.Returns image := by
  obtain ⟨fs, argv, image, written, hsize, rfl, returns⟩ := h.image
  exact ⟨image, writeImg_records_of_length written hsize, returns⟩

/-- The second read is that of the file's sectors, as long as a `u16` can count them. -/
theorem loadKernel_eq {drive : Stage2Drive} {image : Bytes} {found next : U64}
    (record : RecordAt image found next f) (returns : drive.Returns image)
    (hcount : f.sectors < 2 ^ 16) :
    st.loadKernel drive ⟨found, found + 1, (BitVec.ofNat 64 f.sectors).setWidth 16⟩ =
      match Stage2.loadElfKernel tmpElfAddr (st.stage f) with
      | none => .badSignature
      | some (st, entry) => .kernel st entry := by
  have file := record.file (by omega)
  have hsectors : ((BitVec.ofNat 64 f.sectors).setWidth 16 : U16).toNat = f.sectors := by
    rw [BitVec.toNat_setWidth, BitVec.toNat_ofNat]
    omega
  have hread : drive (found + 1) ((BitVec.ofNat 64 f.sectors).setWidth 16) = f.padded := by
    rw [returns _ _ (by rw [file.succ, hsectors]; exact file.inside), file.succ, hsectors]
    exact file.data
  rw [Stage2.loadKernel]
  dsimp only
  rw [hread]
  rfl

theorem stage2Drives_none (stores : ∀ d ∈ disks, d.1.Stores d.2)
    (hfuel : ∀ d ∈ disks, d.2.length + 2 ≤ fuel) (hbuf : ∀ i, (buf i).length = 512)
    (hnone : ∀ d ∈ disks, kernelOf d.2 = none) (i : Nat) :
    stage2Drives fuel buf st i (disks.map Prod.fst) = some .noKernel := by
  induction disks generalizing i with
  | nil => rfl
  | cons d disks ih =>
      obtain ⟨image, records, returns⟩ := (stores d List.mem_cons_self).records
      rw [List.map_cons, stage2Drives, stage2Search, records.search_none returns (by decide)
        (hbuf i) (hfuel d List.mem_cons_self) (hnone d List.mem_cons_self)]
      exact ih (fun e he => stores e (List.mem_cons_of_mem _ he))
        (fun e he => hfuel e (List.mem_cons_of_mem _ he))
        (fun e he => hnone e (List.mem_cons_of_mem _ he)) (i + 1)

/-- The first drive with a kernel decides. -/
theorem stage2Drives_some (stores : ∀ d ∈ disks, d.1.Stores d.2)
    (hfuel : ∀ d ∈ disks, d.2.length + 2 ≤ fuel) (hbuf : ∀ i, (buf i).length = 512)
    (hkernel : (disks.findSome? fun d => kernelOf d.2) = some f) (hcount : f.sectors < 2 ^ 16)
    (i : Nat) :
    stage2Drives fuel buf st i (disks.map Prod.fst) =
      some (match Stage2.loadElfKernel tmpElfAddr (st.stage f) with
        | none => .badSignature
        | some (st, entry) => .kernel st entry) := by
  induction disks generalizing i with
  | nil => cases hkernel
  | cons d disks ih =>
      obtain ⟨image, records, returns⟩ := (stores d List.mem_cons_self).records
      have henough := hfuel d List.mem_cons_self
      rw [List.map_cons, stage2Drives, stage2Search]
      rw [List.findSome?_cons] at hkernel
      cases hfirst : kernelOf d.2 with
      | none =>
          rw [hfirst] at hkernel
          rw [records.search_none returns (by decide) (hbuf i) henough hfirst]
          exact ih (fun e he => stores e (List.mem_cons_of_mem _ he))
            (fun e he => hfuel e (List.mem_cons_of_mem _ he)) hkernel (i + 1)
      | some g =>
          rw [hfirst] at hkernel
          obtain rfl := Option.some.inj hkernel
          obtain ⟨found, next, record, hsearch⟩ :=
            records.search_some returns (by decide) (hbuf i) henough hfirst
          rw [hsearch]
          exact congrArg some (loadKernel_eq record returns hcount)

end Drives

/-- On drives that `write_img` wrote, stage 2 loads the first `kernel.bin` there is: every
section of it is in place, `klow` and `khigh` are the exact bounds of the sections, and
memory is otherwise changed only where the file was staged. It panics if there is no kernel,
or one that is no ELF file. -/
theorem stage2_boots_kernel {space : PciSpace} {world : AtaWorld} {read : IdeWrite → Stage2Drive}
    {tables : IdeTables} {disks : List (Stage2Drive × List DfsFile)} {fuel : Nat}
    {buf : Nat → Bytes} (st : Stage2)
    (controller : enumerateAndInitialize space world = some (some tables))
    (drives : tables.writes.map read = disks.map Prod.fst)
    (stores : ∀ d ∈ disks, d.1.Stores d.2) (hfuel : ∀ d ∈ disks, d.2.length + 2 ≤ fuel)
    (hbuf : ∀ i, (buf i).length = 512) :
    ((∀ d ∈ disks, kernelOf d.2 = none) →
        stage2C space world read fuel buf st = some .noKernel) ∧
      ∀ f, (disks.findSome? fun d => kernelOf d.2) = some f → f.sectors < 2 ^ 16 →
        (slice f.padded 0 4 ≠ elfMagic →
          stage2C space world read fuel buf st = some .badSignature) ∧
        (Elf.Formed f.data → Elf.Placed f.data tmpElfAddr → ∃ st',
          stage2C space world read fuel buf st = some (.kernel st' (Elf.entry f.data)) ∧
          (∀ s ∈ Elf.image f.data, ∀ k, k < s.size.toNat →
            st'.mem (s.addr + BitVec.ofNat 32 k) = s.content f.data k) ∧
          (∀ a, (∀ s ∈ Elf.image f.data, ¬ s.Covers a) →
            ¬ InRange tmpElfAddr (512 * f.sectors) a → st'.mem a = st.mem a) ∧
          (∃ s ∈ Elf.image f.data, st'.klow = s.addr) ∧
          (∃ s ∈ Elf.image f.data, st'.khigh.toNat = s.addr.toNat + s.size.toNat) ∧
          ∀ s ∈ Elf.image f.data, st'.klow.toNat ≤ s.addr.toNat ∧
            s.addr.toNat + s.size.toNat ≤ st'.khigh.toNat) := by
  have hrun : stage2C space world read fuel buf st =
      stage2Drives fuel buf st 0 (disks.map Prod.fst) := by
    rw [stage2C, controller, ← drives]
  refine ⟨fun hnone => hrun.trans (stage2Drives_none stores hfuel hbuf hnone 0), ?_⟩
  intro f hkernel hcount
  have hsome := hrun.trans (stage2Drives_some stores hfuel hbuf hkernel hcount 0)
  have hstaged := @Stage2.holds_stage st f hcount
  constructor
  · intro hmagic
    have hlen : 4 ≤ f.padded.length := by
      have hpos : 0 < f.sectors := Nat.succ_pos _
      rw [f.length_padded]
      omega
    rw [hsome, Stage2.loadElfKernel_refuses hstaged hlen hmagic]
  · intro hfile hplaced
    obtain ⟨st', hload, loaded⟩ := Stage2.loadElfKernel_loaded hfile hplaced hstaged.left
    obtain ⟨first, hfirst⟩ := List.exists_mem_of_ne_nil _ hplaced.loads
    refine ⟨st', ?_, loaded.bytes, fun a hcovers hin => ?_, loaded.klow_eq hfirst,
      loaded.khigh_eq hfirst hplaced.noWrap, fun s hs => ⟨loaded.low s hs, loaded.high s hs⟩⟩
    · rw [hsome, hload]
    · exact (loaded.frame a hcovers).trans (Stage2.stage_outside hcount hin)

/-- The drive of the first controller is found. -/
theorem enumerate_legacySpace :
    ∃ tables, enumerateAndInitialize legacySpace (masterAt 0x1F0) = some (some tables) ∧
      tables.writes.length = 1 := by
  have hide : (legacySpace.entry (fun _ _ _ => 0) ⟨0, 1, 1⟩).isIde := by decide
  have hone : ((legacySpace.entry (fun _ _ _ => 0) ⟨0, 1, 1⟩).ideSetUp (masterAt 0x1F0)).map
      (fun tables => tables.writes.length) = some 1 := by decide
  obtain ⟨tables, htables, hlength⟩ := Option.map_eq_some_iff.mp hone
  refine ⟨tables, ?_, hlength⟩
  rw [enumerateAndInitialize_eq legacySpace _ (fun _ _ _ => 0) (fun _ => 0), devices_legacySpace,
    @List.find?_cons_of_pos _ (fun dev : PciDev => decide dev.isIde) _ _ (decide_eq_true hide),
    Option.map_some, htables]

theorem stage2_boots_smallKernel :
    ∃ image st', writeImg (onlyData Stage2.smallKernel) kernelArgv = .ok image ∧
      stage2C legacySpace (masterAt 0x1F0) (fun _ => imageDrive2 image) 3 (fun _ => zeros 512)
        Stage2.staged = some (.kernel st' (Elf.entry Stage2.smallKernel)) ∧
      ∃ s ∈ Elf.image Stage2.smallKernel, st'.klow = s.addr := by
  have hlength : Stage2.smallKernel.length = 135 := by decide +kernel
  have written := @writeImg_onlyData Stage2.smallKernel (by rw [hlength]; decide)
  obtain ⟨image, himage⟩ : ∃ image, writeImg (onlyData Stage2.smallKernel) kernelArgv = .ok image :=
    ⟨_, written⟩
  have hsize := length_onlyData (by rw [hlength]; decide) himage
  obtain ⟨tables, controller, hone⟩ := enumerate_legacySpace
  have drives : tables.writes.map (fun _ => imageDrive2 image) =
      [((imageDrive2 image : Stage2Drive), [(⟨kernelBin, Stage2.smallKernel⟩ : DfsFile)])].map
        Prod.fst := by
    rw [List.map_const', hone]
    rfl
  have stores : (imageDrive2 image).Stores [⟨kernelBin, Stage2.smallKernel⟩] :=
    ⟨_, _, image, himage, hsize, filesOf_onlyData _, imageDrive2_returns image⟩
  have hboots := @stage2_boots_kernel _ _ _ _ _ 3 (fun _ => zeros 512) Stage2.staged controller
    drives (fun d hd => by rw [List.mem_singleton.mp hd]; exact stores)
    (fun d hd => by rw [List.mem_singleton.mp hd]; exact Nat.le_refl 3) (fun _ => length_zeros 512)
  have hkernel : kernelOf [⟨kernelBin, Stage2.smallKernel⟩] =
      some ⟨kernelBin, Stage2.smallKernel⟩ :=
    List.find?_cons_of_pos (decide_eq_true (show kernelBin.Same 32 kernelBin from rfl))
  have hcount : DfsFile.sectors ⟨kernelBin, Stage2.smallKernel⟩ < 2 ^ 16 := by
    rw [DfsFile.sectors, hlength]
    decide
  obtain ⟨st', hrun, -, -, hlow, -⟩ := (hboots.2 _ (by rw [List.findSome?_cons, hkernel])
    hcount).2 Stage2.formed_smallKernel Stage2.placed_smallKernel
  exact ⟨image, st', himage, hrun, hlow⟩

end DordOs
