import DordOs.Libk.Err
import DordOs.Libk.Memory

/-!
`dfs_fread`: a chain of file headers, one sector each, that starts in sector 1
and is linked through `next_lba`; the sectors of a file follow its header. On an
image whose chain lists some files the reader does what looking the path up in
that list does.
-/
namespace DordOs
open Lib

/-- `drive_read`: its result, and the bytes it stores. -/
abbrev Drive := U64 → U64 → Err × Bytes

def dfsSectors (buf : Bytes) : U64 := BitVec.ofNat 64 (leValue (slice buf 0 8))

def dfsNextLba (buf : Bytes) : U64 := BitVec.ofNat 64 (leValue (slice buf 8 8))

def dfsName (buf : Bytes) (i : Nat) : U8 := buf.getD (16 + i) 0

/-- What a call returns, stores in `out_size` if it does, and stores from
`out_data` on. -/
structure Fread where
  err : Err
  outSize : Option Usz
  outData : Bytes
  deriving DecidableEq

/-- The loop of `dfs_fread`; `outData` tells whether the pointer is not null. -/
def dfsFreadFrom (drive : Drive) (path : CStr) (outData : Bool) :
    Nat → U64 → Bytes → Option Fread
  | 0, _, _ => none
  | fuel + 1, lba, buf =>
      let buf := overwrite (drive lba 1).2 buf
      if strneq path.get (dfsName buf) 32 then
        let filesz : Usz := (dfsSectors buf * 512).setWidth 32
        if outData then
          let r := drive (lba + 1) (dfsSectors buf)
          some ⟨r.1, some filesz, r.2⟩
        else some ⟨.ok, some filesz, []⟩
      else
        let lba := dfsNextLba buf
        if lba ≠ 0 then dfsFreadFrom drive path outData fuel lba buf
        else some ⟨.notFound, none, []⟩

/-- `buf` is what the stack buffer holds on entry. -/
def dfsFread (fuel : Nat) (drive : Drive) (path : CStr) (outData : Bool) (buf : Bytes) :
    Option Fread :=
  dfsFreadFrom drive path outData fuel 1 buf

/-- The part of `dfs_fread` that looks for the header: where it is and what the buffer
holds then. -/
def dfsHeaderFrom (drive : Drive) (path : CStr) :
    Nat → U64 → Bytes → Option (Option (U64 × Bytes))
  | 0, _, _ => none
  | fuel + 1, lba, buf =>
      let buf := overwrite (drive lba 1).2 buf
      if strneq path.get (dfsName buf) 32 then some (some (lba, buf))
      else
        let lba := dfsNextLba buf
        if lba ≠ 0 then dfsHeaderFrom drive path fuel lba buf else some none

def dfsHeader (fuel : Nat) (drive : Drive) (path : CStr) (buf : Bytes) :
    Option (Option (U64 × Bytes)) :=
  dfsHeaderFrom drive path fuel 1 buf

/-- The part of `dfs_fread` behind a header that was found, or was not. -/
def dfsReadFound (drive : Drive) (outData : Bool) : Option (U64 × Bytes) → Fread
  | none => ⟨.notFound, none, []⟩
  | some (lba, buf) =>
      let filesz : Usz := (dfsSectors buf * 512).setWidth 32
      if outData then
        let r := drive (lba + 1) (dfsSectors buf)
        ⟨r.1, some filesz, r.2⟩
      else ⟨.ok, some filesz, []⟩

theorem dfsFreadFrom_eq (drive : Drive) (path : CStr) (outData : Bool) (fuel : Nat) (lba : U64)
    (buf : Bytes) :
    dfsFreadFrom drive path outData fuel lba buf =
      (dfsHeaderFrom drive path fuel lba buf).map (dfsReadFound drive outData) := by
  induction fuel generalizing lba buf with
  | zero => rfl
  | succ fuel ih =>
      simp only [dfsFreadFrom, dfsHeaderFrom]
      split
      · cases outData <;> rfl
      · split
        · exact ih _ _
        · rfl

/-- A size is returned where a header was found, and is that of its sectors. -/
theorem dfsFread_outSize {fuel : Nat} {drive : Drive} {path : CStr} {outData : Bool} {buf : Bytes}
    {r : Fread} {n : Usz} (h : dfsFread fuel drive path outData buf = some r)
    (hn : r.outSize = some n) :
    ∃ lba sector, dfsHeader fuel drive path buf = some (some (lba, sector)) ∧
      n = (dfsSectors sector * 512).setWidth 32 := by
  rw [dfsFread, dfsFreadFrom_eq] at h
  obtain ⟨found, hfound, rfl⟩ := Option.map_eq_some_iff.mp h
  cases found with
  | none => cases hn
  | some found =>
      obtain ⟨lba, sector⟩ := found
      refine ⟨lba, sector, hfound, ?_⟩
      cases outData <;> exact (Option.some.inj hn).symm

/-- Reads inside the image succeed and store its sectors. -/
def Drive.Returns (drive : Drive) (image : Bytes) : Prop :=
  ∀ lba sectors : U64, 512 * (lba.toNat + sectors.toNat) ≤ image.length →
    drive lba sectors = (.ok, slice image (512 * lba.toNat) (512 * sectors.toNat))

/-- A drive that is the image. -/
def imageDrive (image : Bytes) : Drive := fun lba sectors =>
  (.ok, slice image (512 * lba.toNat) (512 * sectors.toNat))

structure DfsFile where
  name : CStr
  data : Bytes
  deriving DecidableEq

namespace DfsFile

def sectors (f : DfsFile) : Nat := f.data.length / 512 + 1

/-- The data as it lies in its sectors. -/
def padded (f : DfsFile) : Bytes := f.data ++ zeros (512 * f.sectors - f.data.length)

theorem length_le (f : DfsFile) : f.data.length ≤ 512 * f.sectors := by
  simp only [sectors]
  omega

@[simp] theorem length_padded (f : DfsFile) : f.padded.length = 512 * f.sectors := by
  have hle := f.length_le
  rw [padded, List.length_append, length_zeros]
  omega

end DfsFile

/-- Sector `lba` of the image is a header with these fields. -/
structure HeaderAt (image : Bytes) (lba : U64) (name : CStr) (sectors next : U64) : Prop where
  inside : 512 * (lba.toNat + 1) ≤ image.length
  sectors : dfsSectors (slice image (512 * lba.toNat) 512) = sectors
  next : dfsNextLba (slice image (512 * lba.toNat) 512) = next
  name : ∀ k, k < 32 → dfsName (slice image (512 * lba.toNat) 512) k = name.get k

/-- The header of the file, linked to `next`, and its data after it. -/
structure FileAt (image : Bytes) (lba next : U64) (f : DfsFile) : Prop where
  header : HeaderAt image lba f.name (BitVec.ofNat 64 f.sectors) next
  fits : 512 * f.sectors < 2 ^ 32
  succ : (lba + 1).toNat = lba.toNat + 1
  inside : 512 * (lba.toNat + 1 + f.sectors) ≤ image.length
  data : slice image (512 * (lba.toNat + 1)) (512 * f.sectors) = f.padded

def CStr.empty : CStr := ⟨[], fun _ hb => nomatch hb⟩

/-- The chain from `lba` on lists these files. It ends in a null link, or in a
blank header. -/
inductive Listing (image : Bytes) : U64 → List DfsFile → Prop
  | blank {lba : U64} : HeaderAt image lba CStr.empty 0 0 → Listing image lba []
  | last {lba : U64} {f : DfsFile} : FileAt image lba 0 f → Listing image lba [f]
  | link {lba next : U64} {f : DfsFile} {files : List DfsFile} :
      FileAt image lba next f → next ≠ 0 → Listing image next files →
      Listing image lba (f :: files)

/-- Reading from a list of files. -/
def lookup (files : List DfsFile) (path : CStr) (outData : Bool) : Fread :=
  match files.find? fun f => path.Same 32 f.name with
  | some f =>
      ⟨.ok, some (BitVec.ofNat 32 (512 * f.sectors)), if outData then f.padded else []⟩
  | none => ⟨.notFound, none, []⟩

section Reader

variable {drive : Drive} {image buf : Bytes} {lba next sectors : U64} {name path : CStr}
  {outData : Bool} {f : DfsFile}

theorem Drive.Returns.header (returns : drive.Returns image)
    (h : HeaderAt image lba name sectors next) :
    drive lba 1 = (.ok, slice image (512 * lba.toNat) 512) :=
  returns lba 1 h.inside

theorem HeaderAt.length (h : HeaderAt image lba name sectors next) :
    (slice image (512 * lba.toNat) 512).length = 512 := by
  have hinside := h.inside
  rw [slice, List.length_take, List.length_drop]
  omega

theorem HeaderAt.overwrite (h : HeaderAt image lba name sectors next) (hbuf : buf.length = 512) :
    overwrite (slice image (512 * lba.toNat) 512) buf = slice image (512 * lba.toNat) 512 :=
  overwrite_of_length_le (Nat.le_of_eq (hbuf.trans h.length.symm))

theorem strneq_header (h : HeaderAt image lba name sectors next) :
    strneq path.get (dfsName (slice image (512 * lba.toNat) 512)) 32 =
      decide (path.Same 32 name) :=
  strneq_eq_same h.name

theorem dfsFreadFrom_header (returns : drive.Returns image)
    (h : HeaderAt image lba name sectors next) (hbuf : buf.length = 512) (fuel : Nat) :
    dfsFreadFrom drive path outData (fuel + 1) lba buf =
      if path.Same 32 name then
        some (if outData then
            ⟨(drive (lba + 1) sectors).1, some ((sectors * 512).setWidth 32),
              (drive (lba + 1) sectors).2⟩
          else ⟨.ok, some ((sectors * 512).setWidth 32), []⟩)
      else if next ≠ 0 then
        dfsFreadFrom drive path outData fuel next (slice image (512 * lba.toNat) 512)
      else some ⟨.notFound, none, []⟩ := by
  rw [dfsFreadFrom, returns.header h]
  dsimp only
  rw [h.overwrite hbuf, h.sectors, h.next, strneq_header h]
  simp only [decide_eq_true_eq]
  congr 1
  cases outData <;> rfl

theorem FileAt.read (h : FileAt image lba next f) (returns : drive.Returns image) :
    drive (lba + 1) (BitVec.ofNat 64 f.sectors) = (.ok, f.padded) := by
  have hfits := h.fits
  have hsectors : (BitVec.ofNat 64 f.sectors).toNat = f.sectors :=
    Nat.mod_eq_of_lt (by omega)
  have hinside := h.inside
  rw [returns _ _ (by rw [hsectors, h.succ]; exact hinside), hsectors, h.succ, h.data]

theorem FileAt.filesz (h : FileAt image lba next f) :
    (BitVec.ofNat 64 f.sectors * 512).setWidth 32 = BitVec.ofNat 32 (512 * f.sectors) := by
  apply BitVec.eq_of_toNat_eq
  rw [BitVec.toNat_setWidth, BitVec.toNat_mul, BitVec.toNat_ofNat, BitVec.toNat_ofNat]
  change f.sectors % 2 ^ 64 * 512 % 2 ^ 64 % 2 ^ 32 = _
  have hfits := h.fits
  omega

/-- A turn of the loop on a file: it is found, or the link decides. -/
theorem FileAt.turn (h : FileAt image lba next f) (returns : drive.Returns image)
    (hbuf : buf.length = 512) (fuel : Nat) :
    dfsFreadFrom drive path outData (fuel + 1) lba buf =
      if path.Same 32 f.name then
        some ⟨.ok, some (BitVec.ofNat 32 (512 * f.sectors)), if outData then f.padded else []⟩
      else if next ≠ 0 then
        dfsFreadFrom drive path outData fuel next (slice image (512 * lba.toNat) 512)
      else some ⟨.notFound, none, []⟩ := by
  rw [dfsFreadFrom_header returns h.header hbuf, h.read returns, h.filesz]
  congr 1
  cases outData <;> rfl

theorem lookup_cons (files : List DfsFile) :
    lookup (f :: files) path outData =
      if path.Same 32 f.name then
        ⟨.ok, some (BitVec.ofNat 32 (512 * f.sectors)), if outData then f.padded else []⟩
      else lookup files path outData := by
  simp only [lookup]
  rw [List.find?_cons]
  by_cases hsame : path.Same 32 f.name
  · rw [if_pos hsame, decide_eq_true hsame]
  · rw [if_neg hsame, decide_eq_false hsame]

theorem lookup_of_unique {files : List DfsFile} (hmem : f ∈ files) (hsame : path.Same 32 f.name)
    (unique : ∀ g ∈ files, path.Same 32 g.name → g = f) :
    lookup files path outData =
      ⟨.ok, some (BitVec.ofNat 32 (512 * f.sectors)), if outData then f.padded else []⟩ := by
  have hfind : (files.find? fun g => path.Same 32 g.name) = some f := by
    cases hfound : files.find? fun g => path.Same 32 g.name with
    | none => exact absurd hsame (by simpa using List.find?_eq_none.mp hfound f hmem)
    | some g =>
        have hg : decide (path.Same 32 g.name) = true :=
          List.find?_some (p := fun g : DfsFile => decide (path.Same 32 g.name)) hfound
        rw [unique g (List.mem_of_find?_eq_some hfound) (of_decide_eq_true hg)]
  rw [lookup, hfind]

theorem lookup_of_notFound {files : List DfsFile}
    (h : ∀ f ∈ files, ¬ path.Same 32 f.name) :
    lookup files path outData = ⟨.notFound, none, []⟩ := by
  have hfind : (files.find? fun g => path.Same 32 g.name) = none :=
    List.find?_eq_none.mpr fun g hg => by simpa using h g hg
  rw [lookup, hfind]

/-- On a chain the reader looks the path up in the list of its files. -/
theorem Listing.fread (returns : drive.Returns image) {files : List DfsFile}
    (h : Listing image lba files) (hpath : path.bytes ≠ []) (hbuf : buf.length = 512)
    {fuel : Nat} (hfuel : files.length < fuel) :
    dfsFreadFrom drive path outData fuel lba buf = some (lookup files path outData) := by
  induction h generalizing fuel buf with
  | blank header =>
      obtain ⟨fuel, rfl⟩ := Nat.exists_eq_succ_of_ne_zero (Nat.ne_of_gt hfuel)
      have hne : ¬ path.Same 32 CStr.empty := by
        intro hsame
        have hnil : path.bytes.take 32 = [] := hsame
        simp [hpath] at hnil
      rw [dfsFreadFrom_header returns header hbuf, if_neg hne, if_neg (not_not.mpr rfl)]
      rfl
  | last file =>
      obtain ⟨fuel, rfl⟩ := Nat.exists_eq_succ_of_ne_zero (Nat.ne_of_gt (Nat.zero_lt_of_lt hfuel))
      rw [file.turn returns hbuf, lookup_cons, if_neg (not_not.mpr rfl)]
      split <;> rfl
  | link file hne _ ih =>
      obtain ⟨fuel, rfl⟩ := Nat.exists_eq_succ_of_ne_zero (Nat.ne_of_gt (Nat.zero_lt_of_lt hfuel))
      rw [file.turn returns hbuf, lookup_cons, if_pos hne,
        ih file.header.length (Nat.lt_of_succ_lt_succ hfuel)]
      split <;> rfl

end Reader

end DordOs
