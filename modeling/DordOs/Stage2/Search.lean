import DordOs.WriteImg.RoundTrip
import Mathlib.Algebra.Order.BigOperators.Group.List
import Mathlib.Algebra.Order.Group.Nat

/-!
The second boot stage's search for `kernel.bin` on one drive, beside the one in
`dfs_fread`. Both follow the same chain, but `ide_read_drive` of stage 2 takes a
`u16` for the number of sectors. The layout of the header is the same in both.
-/
namespace DordOs
open Lib

/-- `"kernel.bin"` -/
def kernelBin : CStr :=
  ⟨[0x6b, 0x65, 0x72, 0x6e, 0x65, 0x6c, 0x2e, 0x62, 0x69, 0x6e], by decide⟩

/-- The bytes `ide_read_drive(drive, dst, lba, sector_count)` of stage 2 stores. -/
abbrev Stage2Drive := U64 → U16 → Bytes

/-- Reads inside the image store its sectors. -/
def Stage2Drive.Returns (drive : Stage2Drive) (image : Bytes) : Prop :=
  ∀ (lba : U64) (sectorCount : U16), 512 * (lba.toNat + sectorCount.toNat) ≤ image.length →
    drive lba sectorCount = slice image (512 * lba.toNat) (512 * sectorCount.toNat)

/-- Where the header was found, and the arguments of the second call. -/
structure KernelCall where
  header : U64
  lba : U64
  sectorCount : U16
  deriving DecidableEq

/-- The `while (lba)` of `stage2_c` on one drive, up to its second call. -/
def stage2SearchFrom (drive : Stage2Drive) : Nat → U64 → Bytes → Option (Option KernelCall)
  | 0, _, _ => none
  | fuel + 1, lba, buf =>
      if lba ≠ 0 then
        let buf := overwrite (drive lba 1) buf
        if strneq (dfsName buf) kernelBin.get 32 then
          some (some ⟨lba, lba + 1, (dfsSectors buf).setWidth 16⟩)
        else stage2SearchFrom drive fuel (dfsNextLba buf) buf
      else some none

def stage2Search (fuel : Nat) (drive : Stage2Drive) (buf : Bytes) : Option (Option KernelCall) :=
  stage2SearchFrom drive fuel 1 buf

theorem strneqFrom_comm (str1 str2 : Nat → U8) (i n : Nat) :
    strneqFrom str1 str2 i n = strneqFrom str2 str1 i n := by
  induction n generalizing i with
  | zero => rfl
  | succ n ih =>
      rw [strneqFrom, strneqFrom]
      by_cases heq : str1 i = str2 i
      · rw [if_neg (not_not.mpr heq), if_neg (not_not.mpr heq.symm), heq, ih]
      · rw [if_pos heq, if_pos (Ne.symm heq)]

section Search

variable {drive : Drive} {drive2 : Stage2Drive} {image buf : Bytes} {lba next sectors : U64}
  {name path : CStr}

theorem dfsHeaderFrom_header (returns : drive.Returns image)
    (h : HeaderAt image lba name sectors next) (hbuf : buf.length = 512) (fuel : Nat) :
    dfsHeaderFrom drive path (fuel + 1) lba buf =
      if path.Same 32 name then some (some (lba, slice image (512 * lba.toNat) 512))
      else if next ≠ 0 then
        dfsHeaderFrom drive path fuel next (slice image (512 * lba.toNat) 512)
      else some none := by
  rw [dfsHeaderFrom, returns.header h]
  dsimp only
  rw [h.overwrite hbuf, h.next, strneq_header h]
  simp only [decide_eq_true_eq]

theorem stage2SearchFrom_header (returns : drive2.Returns image)
    (h : HeaderAt image lba name sectors next) (hlba : lba ≠ 0) (hbuf : buf.length = 512)
    (fuel : Nat) :
    stage2SearchFrom drive2 (fuel + 1) lba buf =
      if kernelBin.Same 32 name then some (some ⟨lba, lba + 1, sectors.setWidth 16⟩)
      else stage2SearchFrom drive2 fuel next (slice image (512 * lba.toNat) 512) := by
  have hread : drive2 lba 1 = slice image (512 * lba.toNat) 512 := returns lba 1 h.inside
  have hname := @strneq_header _ _ _ _ _ kernelBin h
  rw [strneq, strneqFrom_comm, ← strneq] at hname
  rw [stage2SearchFrom, if_pos hlba, hread]
  dsimp only
  rw [h.overwrite hbuf, h.next, h.sectors, hname]
  simp only [decide_eq_true_eq]

/-- On the chain of some files the two loops find the header of the same one. -/
theorem Records.search {files : List DfsFile} (h : Records image lba files)
    (returns : drive.Returns image) (returns2 : drive2.Returns image) (hlba : lba ≠ 0)
    {buf2 : Bytes} (hbuf : buf.length = 512) (hbuf2 : buf2.length = 512) {fuel : Nat}
    {found : U64} {sector : Bytes}
    (hfound : dfsHeaderFrom drive kernelBin fuel lba buf = some (some (found, sector))) :
    ∃ f, (files.find? fun f => kernelBin.Same 32 f.name) = some f ∧
      dfsSectors sector = BitVec.ofNat 64 f.sectors ∧
      stage2SearchFrom drive2 fuel lba buf2 =
        some (some ⟨found, found + 1, (BitVec.ofNat 64 f.sectors).setWidth 16⟩) := by
  induction h generalizing fuel buf buf2 with
  | blank before after himage hbefore =>
      cases fuel with
      | zero => cases hfound
      | succ fuel =>
          have hne : ¬ kernelBin.Same 32 CStr.empty := by decide
          rw [dfsHeaderFrom_header returns (blank_header himage hbefore) hbuf, if_neg hne,
            if_neg (not_not.mpr rfl)] at hfound
          cases hfound
  | @last lba f record =>
      cases fuel with
      | zero => cases hfound
      | succ fuel =>
          rw [dfsHeaderFrom_header returns record.header hbuf] at hfound
          by_cases hsame : kernelBin.Same 32 f.name
          · rw [if_pos hsame] at hfound
            cases hfound
            exact ⟨f, List.find?_cons_of_pos (decide_eq_true hsame), record.header.sectors,
              (stage2SearchFrom_header returns2 record.header hlba hbuf2 fuel).trans
                (if_pos hsame)⟩
          · rw [if_neg hsame, if_neg (not_not.mpr rfl)] at hfound
            cases hfound
  | @link lba next f files record hne _ ih =>
      cases fuel with
      | zero => cases hfound
      | succ fuel =>
          rw [dfsHeaderFrom_header returns record.header hbuf] at hfound
          rw [stage2SearchFrom_header returns2 record.header hlba hbuf2]
          by_cases hsame : kernelBin.Same 32 f.name
          · rw [if_pos hsame] at hfound
            cases hfound
            exact ⟨f, List.find?_cons_of_pos (decide_eq_true hsame), record.header.sectors,
              if_pos hsame⟩
          · rw [if_neg hsame, if_pos hne] at hfound
            rw [if_neg hsame, List.find?_cons_of_neg (by simpa using hsame)]
            exact ih hne record.header.length record.header.length hfound

end Search

theorem writeFiles_length {fs : Files} {args : List CStr} {st st' : WriteImg}
    (h : writeFiles fs args st = .ok st') :
    st.of.length + ((filesOf fs args).map fun f => 512 + f.data.length).sum ≤ st'.of.length := by
  induction args generalizing st with
  | nil =>
      cases h
      exact Nat.le_refl _
  | cons arg rest ih =>
      by_cases hdash : arg.get 0 = 0x2d
      · rw [writeFiles, if_pos hdash] at h
        rw [filesOf_option rest hdash]
        exact ih h
      · obtain ⟨data, hdata, h⟩ := writeFiles_file hdash h
        have hrest := ih h
        have hof : (if rest = [] then (⟨st.of, 0⟩ : WriteImg) else st).of = st.of := by
          split <;> rfl
        simp only [writeFile, List.length_append, length_headerBuf, hof] at hrest
        rw [filesOf_file rest hdash hdata, List.map_cons, List.sum_cons]
        dsimp only
        omega

theorem spanOf_le_sum (files : List DfsFile) :
    spanOf files ≤ (files.map fun f => 512 + f.data.length).sum := by
  refine List.sum_le_sum fun f _ => ?_
  simp only [DfsFile.sectors]
  omega

/-- In an image that is a file, the chain is that of the files of the command line. -/
theorem writeImg_records_of_length {fs : Files} {argv : Argv} {image : Bytes}
    (written : writeImg fs argv = .ok image) (hsize : image.length < 2 ^ 64) :
    Records image 1 (filesOf fs argv.rest) := by
  obtain ⟨bsData, st, hbs, hst, himage⟩ := writeImg_eq_ok written
  have hlength := writeFiles_length hst
  have hspan := spanOf_le_sum (filesOf fs argv.rest)
  rw [himage, List.length_append, length_zeros] at hsize
  dsimp only at hlength
  refine writeImg_records written (by omega) fun f hf => ?_
  have hle : 512 + f.data.length ≤
      ((filesOf fs argv.rest).map fun f => 512 + f.data.length).sum :=
    List.le_sum_of_mem (List.mem_map_of_mem hf)
  omega

/-- Both readers find the same header, and stage 2 asks for the sectors of the `n` bytes
behind it. -/
def SameKernel (fuel : Nat) (drive : Drive) (drive2 : Stage2Drive) (buf buf2 : Bytes)
    (n : Usz) : Prop :=
  ∃ header sector call, dfsHeader fuel drive kernelBin buf = some (some (header, sector)) ∧
    stage2Search fuel drive2 buf2 = some (some call) ∧ call.header = header ∧
    call.lba = header + 1 ∧ call.sectorCount.toNat = n.toNat / 512

/-- Where `dfs_fread` returns a size it is that of the kernel file, and what is left to
compare are the two sector counts. -/
theorem sameKernel_iff_count {fs : Files} {argv : Argv} {image buf buf2 : Bytes} {f : DfsFile}
    {drive : Drive} {drive2 : Stage2Drive} {fuel : Nat} {outData : Bool} {r : Fread} {n : Usz}
    (written : writeImg fs argv = .ok image) (hsize : image.length < 2 ^ 64)
    (kernel : ((filesOf fs argv.rest).find? fun g => kernelBin.Same 32 g.name) = some f)
    (returns : drive.Returns image) (returns2 : drive2.Returns image)
    (hbuf : buf.length = 512) (hbuf2 : buf2.length = 512)
    (hread : dfsFread fuel drive kernelBin outData buf = some r) (hn : r.outSize = some n) :
    n = (BitVec.ofNat 64 f.sectors * 512).setWidth 32 ∧
      (SameKernel fuel drive drive2 buf buf2 n ↔
        ((BitVec.ofNat 64 f.sectors).setWidth 16 : U16).toNat = n.toNat / 512) := by
  obtain ⟨lba, sector, hfound, rfl⟩ := dfsFread_outSize hread hn
  obtain ⟨g, hg, hsectors, hsearch⟩ :=
    (writeImg_records_of_length written hsize).search returns returns2 (by decide) hbuf hbuf2 hfound
  obtain rfl : f = g := Option.some.inj (kernel.symm.trans hg)
  refine ⟨by rw [hsectors], ?_⟩
  constructor
  · rintro ⟨header, _, call, -, hcall, -, -, hcount⟩
    obtain rfl : _ = call := Option.some.inj (Option.some.inj (hsearch.symm.trans hcall))
    exact hcount
  · intro hcount
    exact ⟨lba, sector, _, hfound, hsearch, rfl, rfl, hcount⟩

theorem sectorCount_eq_iff {f : DfsFile} (hlen : f.data.length < 2 ^ 32) :
    ((BitVec.ofNat 64 f.sectors).setWidth 16 : U16).toNat =
        ((BitVec.ofNat 64 f.sectors * 512).setWidth 32 : Usz).toNat / 512 ↔
      f.data.length < 33553920 ∨ 2 ^ 32 - 512 ≤ f.data.length := by
  have hcount : ((BitVec.ofNat 64 f.sectors).setWidth 16 : U16).toNat =
      f.sectors % 2 ^ 64 % 2 ^ 16 := by
    rw [BitVec.toNat_setWidth, BitVec.toNat_ofNat]
  have hbytes : ((BitVec.ofNat 64 f.sectors * 512).setWidth 32 : Usz).toNat =
      f.sectors % 2 ^ 64 * 512 % 2 ^ 64 % 2 ^ 32 := by
    rw [BitVec.toNat_setWidth, BitVec.toNat_mul, BitVec.toNat_ofNat]
    rfl
  have hsectors : f.sectors = f.data.length / 512 + 1 := rfl
  rw [hcount, hbytes]
  omega

/-- Whenever `dfs_fread` would return `n` bytes of the kernel, stage 2 loads the same ones
exactly if their sectors fit its `u16`, or both counts come out as none. -/
theorem stage2_loads_kernel_iff {fs : Files} {argv : Argv} {image : Bytes} {f : DfsFile}
    (drive : Drive) (drive2 : Stage2Drive) (fuel : Nat) (buf buf2 : Bytes) (outData : Bool)
    (r : Fread) (n : Usz) (written : writeImg fs argv = .ok image) (hsize : image.length < 2 ^ 64)
    (kernel : ((filesOf fs argv.rest).find? fun g => kernelBin.Same 32 g.name) = some f)
    (hlen : f.data.length < 2 ^ 32) (returns : drive.Returns image)
    (returns2 : drive2.Returns image) (hbuf : buf.length = 512) (hbuf2 : buf2.length = 512)
    (hread : dfsFread fuel drive kernelBin outData buf = some r) (_ : r.err = .ok)
    (hn : r.outSize = some n) :
    SameKernel fuel drive drive2 buf buf2 n ↔
      f.data.length < 33553920 ∨ 2 ^ 32 - 512 ≤ f.data.length := by
  obtain ⟨rfl, hiff⟩ := sameKernel_iff_count written hsize kernel returns returns2 hbuf hbuf2
    hread hn
  exact hiff.trans (sectorCount_eq_iff hlen)

/-- Every path names a file with this data. -/
def onlyData (data : Bytes) : Files := ⟨fun _ => some data, fun _ => true⟩

/-- `write_img kernel.bin` -/
def kernelArgv : Argv := ⟨[programName, kernelBin], by decide⟩

/-- A drive that is the image, as stage 2 reads it. -/
def imageDrive2 (image : Bytes) : Stage2Drive := fun lba sectorCount =>
  slice image (512 * lba.toNat) (512 * sectorCount.toNat)

theorem imageDrive_returns (image : Bytes) : (imageDrive image).Returns image := fun _ _ _ => rfl

theorem imageDrive2_returns (image : Bytes) : (imageDrive2 image).Returns image :=
  fun _ _ _ => rfl

theorem filesOf_onlyData (data : Bytes) :
    filesOf (onlyData data) kernelArgv.rest = [⟨kernelBin, data⟩] := by
  have hname : basename kernelBin = kernelBin := by decide
  have hdash : kernelBin.get 0 ≠ 0x2d := by decide
  change filesOf (onlyData data) [kernelBin] = _
  rw [filesOf_file [] hdash rfl, hname]
  rfl

theorem kernel_onlyData (data : Bytes) :
    ((filesOf (onlyData data) kernelArgv.rest).find? fun g => kernelBin.Same 32 g.name) =
      some ⟨kernelBin, data⟩ := by
  have hsame : kernelBin.Same 32 kernelBin := rfl
  rw [filesOf_onlyData]
  exact List.find?_cons_of_pos (decide_eq_true hsame)

theorem writeImg_onlyData {data : Bytes} (hlen : data.length < 2 ^ 64) :
    writeImg (onlyData data) kernelArgv =
      .ok (zeros 512 ++ DfsFile.record ⟨kernelBin, data⟩ 0 ++ zeros (2048 * 512)) := by
  have hname : basename kernelBin = kernelBin := by decide
  have hlast := @writeFile_last ⟨zeros 512, 1⟩ ⟨kernelBin, data⟩ hlen
  have hfiles : writeFiles (onlyData data) kernelArgv.rest ⟨zeros 512, 1⟩ =
      .ok ⟨zeros 512 ++ DfsFile.record ⟨kernelBin, data⟩ 0, 0⟩ := by
    rw [← hlast, ← hname]
    rfl
  have hopts : parseArgs kernelArgv.rest ⟨none, none⟩ = .ok ⟨none, none⟩ := rfl
  rw [writeImg, hopts]
  change (writeFiles (onlyData data) kernelArgv.rest ⟨zeros 512, 1⟩ >>= fun st =>
    Except.ok (st.of ++ zeros (2048 * 512))) = _
  rw [hfiles]
  rfl

/-- What `dfs_fread` finds on an image, as a drive. -/
theorem dfsFread_written {fs : Files} {argv : Argv} {image : Bytes} {path : CStr} {fuel : Nat}
    (written : writeImg fs argv = .ok image)
    (fits : ∀ f ∈ filesOf fs argv.rest, 512 * f.sectors < 2 ^ 32) (hpath : path.bytes ≠ [])
    (hfuel : (filesOf fs argv.rest).length < fuel) (outData : Bool) :
    dfsFread fuel (imageDrive image) path outData (zeros 512) =
      some (lookup (filesOf fs argv.rest) path outData) := by
  have listing := writeImg_listing written fits
  rw [dfsFread, listing.fread (imageDrive_returns image) hpath (length_zeros 512) hfuel]

theorem dfsFread_onlyData {data image : Bytes}
    (written : writeImg (onlyData data) kernelArgv = .ok image)
    (fits : 512 * (data.length / 512 + 1) < 2 ^ 32) :
    dfsFread 2 (imageDrive image) kernelBin false (zeros 512) =
      some ⟨.ok, some (BitVec.ofNat 32 (512 * (data.length / 512 + 1))), []⟩ := by
  have hfits : ∀ f ∈ filesOf (onlyData data) kernelArgv.rest, 512 * f.sectors < 2 ^ 32 := by
    intro f hf
    rw [filesOf_onlyData, List.mem_singleton] at hf
    rw [hf]
    exact fits
  have hfuel : (filesOf (onlyData data) kernelArgv.rest).length < 2 := by
    rw [filesOf_onlyData]
    exact Nat.lt_succ_self 1
  rw [dfsFread_written written hfits (by decide) hfuel, filesOf_onlyData, lookup_cons,
    if_pos (show kernelBin.Same 32 kernelBin from rfl)]
  rfl

theorem length_onlyData {data image : Bytes} (hlen : data.length < 2 ^ 32)
    (written : writeImg (onlyData data) kernelArgv = .ok image) : image.length < 2 ^ 64 := by
  rw [writeImg_onlyData (Nat.lt_trans hlen (by decide))] at written
  obtain rfl := Except.ok.inj written
  rw [List.length_append, List.length_append, DfsFile.length_record, length_zeros, length_zeros]
  simp only [DfsFile.sectors]
  omega

/-- `write_img a kernel.bin` -/
def twoArgv : Argv := ⟨[programName, pathA, kernelBin], by decide⟩

theorem filesOf_twoArgv :
    filesOf ownPaths twoArgv.rest = [⟨pathA, List.replicate 512 1⟩, ⟨kernelBin, kernelBin.bytes⟩] :=
  rfl

theorem writeImg_twoArgv :
    ∃ image, writeImg ownPaths twoArgv = .ok image ∧ image.length < 2 ^ 64 := by
  have hfiles : (writeFiles ownPaths twoArgv.rest ⟨zeros 512, 1⟩).toOption.map
      (fun st => st.of.length) = some 3072 := by decide +kernel
  have hopts : parseArgs twoArgv.rest ⟨none, none⟩ = .ok ⟨none, none⟩ := rfl
  cases hst : writeFiles ownPaths twoArgv.rest ⟨zeros 512, 1⟩ with
  | error err =>
      rw [hst] at hfiles
      cases hfiles
  | ok st =>
      rw [hst] at hfiles
      have hlength : st.of.length = 3072 := Option.some.inj hfiles
      refine ⟨st.of ++ zeros (2048 * 512), ?_, ?_⟩
      · rw [writeImg, hopts]
        change (writeFiles ownPaths twoArgv.rest ⟨zeros 512, 1⟩ >>= fun st =>
          Except.ok (st.of ++ zeros (2048 * 512))) = _
        rw [hst]
        rfl
      · rw [List.length_append, hlength, length_zeros]
        decide

/-- The kernel is the second file of the image. -/
theorem stage2_loads_kernel_second :
    ∃ image, writeImg ownPaths twoArgv = .ok image ∧
      SameKernel 3 (imageDrive image) (imageDrive2 image) (zeros 512) (zeros 512) 512 := by
  obtain ⟨image, written, hsize⟩ := writeImg_twoArgv
  have kernel : ((filesOf ownPaths twoArgv.rest).find? fun g => kernelBin.Same 32 g.name) =
      some ⟨kernelBin, kernelBin.bytes⟩ := by
    rw [filesOf_twoArgv]
    rfl
  have hread := dfsFread_written written (by rw [filesOf_twoArgv]; decide +kernel)
    (show kernelBin.bytes ≠ [] by decide) (by rw [filesOf_twoArgv]; exact Nat.lt_succ_self 2) false
  exact ⟨image, written, (stage2_loads_kernel_iff (imageDrive image) (imageDrive2 image) 3
    (zeros 512) (zeros 512) false _ 512 written hsize kernel (by decide) (imageDrive_returns image)
    (imageDrive2_returns image) (length_zeros 512) (length_zeros 512) hread rfl
    (by rw [filesOf_twoArgv]; rfl)).mpr (.inl (by decide))⟩

/-- A kernel of 65535 full sectors takes 65536 of them, and stage 2 asks for none. -/
theorem stage2_loses_kernel :
    ∃ image, writeImg (onlyData (zeros 33553920)) kernelArgv = .ok image ∧
      dfsFread 2 (imageDrive image) kernelBin false (zeros 512) =
        some ⟨.ok, some 33554432, []⟩ ∧
      ¬ SameKernel 2 (imageDrive image) (imageDrive2 image) (zeros 512) (zeros 512) 33554432 := by
  obtain ⟨size, hsize⟩ : ∃ size, size = 33553920 := ⟨_, rfl⟩
  have hlength : (zeros size).length = size := length_zeros size
  have written := @writeImg_onlyData (zeros size) (by omega)
  have hread := dfsFread_onlyData written (by omega)
  have hcount : 512 * ((zeros size).length / 512 + 1) = 33554432 := by omega
  rw [hcount] at hread
  rw [← hsize]
  refine ⟨_, written, hread, fun hsame => ?_⟩
  obtain ⟨-, hiff⟩ := sameKernel_iff_count written (length_onlyData (by omega) written)
    (kernel_onlyData (zeros size)) (imageDrive_returns _) (imageDrive2_returns _)
    (length_zeros 512) (length_zeros 512) hread rfl
  have hsectors : DfsFile.sectors ⟨kernelBin, zeros size⟩ = 65536 := by
    rw [DfsFile.sectors, hlength, hsize]
  rw [hsectors] at hiff
  exact absurd (hiff.mp hsame) (by decide)

end DordOs
