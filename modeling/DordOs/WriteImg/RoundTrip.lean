import DordOs.Drivers.Dfs
import DordOs.WriteImg.Image
import Mathlib.Data.List.Pairwise

/-!
The image `write_img` leaves behind is a chain that lists the files of the
command line, wherever the options stand, so `dfs_fread` reads them back.
-/
namespace DordOs
open Lib

theorem dfsSectors_headerBuf (sectors nextLba : U64) (name : CStr) :
    dfsSectors (headerBuf sectors nextLba name) = sectors := by
  have hfield : slice (headerBuf sectors nextLba name) 0 8 = leBytes 8 sectors.toNat := by
    simp only [headerBuf]
    rw [List.append_assoc, List.append_assoc]
    exact @slice_append [] _ _ 0 8 rfl (length_leBytes 8 _)
  rw [dfsSectors, hfield, leValue_leBytes sectors.isLt, BitVec.ofNat_toNat, BitVec.setWidth_eq]

theorem dfsNextLba_headerBuf (sectors nextLba : U64) (name : CStr) :
    dfsNextLba (headerBuf sectors nextLba name) = nextLba := by
  have hfield : slice (headerBuf sectors nextLba name) 8 8 = leBytes 8 nextLba.toNat := by
    simp only [headerBuf]
    rw [List.append_assoc]
    exact slice_append (length_leBytes 8 _) (length_leBytes 8 _)
  rw [dfsNextLba, hfield, leValue_leBytes nextLba.isLt, BitVec.ofNat_toNat, BitVec.setWidth_eq]

/-- `strncpy` keeps what a bounded comparison looks at. -/
theorem getElem?_strncpy (src : CStr) {n k : Nat} (hk : k < n) :
    (strncpy src n)[k]? = some (src.get k) := by
  simp only [strncpy, CStr.get, zeros]
  rw [List.getD_eq_getElem?_getD]
  by_cases hlt : k < src.bytes.length
  · rw [List.getElem?_append_left (by rw [List.length_take]; omega), List.getElem?_take_of_lt hk,
      List.getElem?_eq_getElem hlt]
    rfl
  · rw [List.getElem?_append_right (by rw [List.length_take]; omega),
      List.getElem?_replicate_of_lt (by rw [List.length_take]; omega),
      List.getElem?_eq_none (Nat.not_lt.mp hlt)]
    rfl

theorem dfsName_headerBuf (sectors nextLba : U64) (name : CStr) {k : Nat} (hk : k < 32) :
    dfsName (headerBuf sectors nextLba name) k = name.get k := by
  have hlinks : (leBytes 8 sectors.toNat ++ leBytes 8 nextLba.toNat).length = 16 := by
    rw [List.length_append, length_leBytes, length_leBytes]
  simp only [dfsName, headerBuf]
  rw [List.getD_eq_getElem?_getD, List.append_assoc, List.getElem?_append_right (by omega),
    List.getElem?_append_left (by rw [length_strncpy]; omega), hlinks, Nat.add_sub_cancel_left,
    getElem?_strncpy name hk]
  rfl

theorem headerAt_of_headerBuf {image before after : Bytes} {lba sectors next : U64} {name : CStr}
    (h : image = before ++ headerBuf sectors next name ++ after)
    (hbefore : before.length = 512 * lba.toNat) : HeaderAt image lba name sectors next := by
  have hsector : slice image (512 * lba.toNat) 512 = headerBuf sectors next name := by
    rw [h]
    exact slice_append hbefore (length_headerBuf _ _ _)
  refine ⟨?_, ?_, ?_, fun k hk => ?_⟩
  · rw [h, List.length_append, List.length_append, hbefore, length_headerBuf]
    omega
  · rw [hsector, dfsSectors_headerBuf]
  · rw [hsector, dfsNextLba_headerBuf]
  · rw [hsector, dfsName_headerBuf _ _ _ hk]

/-- What is written for a file, linked to `next`. -/
def DfsFile.record (f : DfsFile) (next : U64) : Bytes :=
  headerBuf (BitVec.ofNat 64 f.sectors) next f.name ++ f.padded

theorem DfsFile.length_record (f : DfsFile) (next : U64) :
    (f.record next).length = 512 * (1 + f.sectors) := by
  rw [record, List.length_append, length_headerBuf, length_padded, Nat.mul_add]

theorem fileAt_of_record {image before after : Bytes} {lba next : U64} {f : DfsFile}
    (h : image = before ++ f.record next ++ after) (hbefore : before.length = 512 * lba.toNat)
    (fits : 512 * f.sectors < 2 ^ 32) (hlba : lba.toNat + 1 < 2 ^ 64) :
    FileAt image lba next f := by
  simp only [DfsFile.record] at h
  refine ⟨?_, fits, ?_, ?_, ?_⟩
  · rw [← List.append_assoc, List.append_assoc] at h
    exact headerAt_of_headerBuf h hbefore
  · rw [BitVec.toNat_add]
    exact Nat.mod_eq_of_lt hlba
  · have hlength := congrArg List.length h
    simp only [List.length_append, length_headerBuf, DfsFile.length_padded, hbefore] at hlength
    omega
  · rw [h, ← List.append_assoc]
    exact slice_append (by rw [List.length_append, hbefore, length_headerBuf]; omega)
      f.length_padded

theorem ne_zero_of_toNat {x : U64} (h : 0 < x.toNat) : x ≠ 0 := by
  rintro rfl
  exact absurd h (by decide)

section Writer

variable {st : WriteImg} {f : DfsFile}

theorem toNat_sectorCount (hlen : f.data.length < 2 ^ 64) :
    (BitVec.ofNat 64 f.data.length / 512 + 1 : U64) = BitVec.ofNat 64 f.sectors := by
  apply BitVec.eq_of_toNat_eq
  rw [BitVec.toNat_add, BitVec.toNat_udiv, BitVec.toNat_ofNat, BitVec.toNat_ofNat]
  change (f.data.length % 2 ^ 64 / 512 + 1) % 2 ^ 64 = f.sectors % 2 ^ 64
  rw [Nat.mod_eq_of_lt hlen]
  rfl

theorem toNat_alignBytes (f : DfsFile) :
    (BitVec.ofNat 64 f.sectors * 512 - BitVec.ofNat 64 f.data.length : U64).toNat =
      512 * f.sectors - f.data.length := by
  have hle := f.length_le
  have hclose : 512 * f.sectors ≤ f.data.length + 512 := by
    simp only [DfsFile.sectors]
    omega
  rw [BitVec.toNat_sub, BitVec.toNat_mul, BitVec.toNat_ofNat, BitVec.toNat_ofNat]
  change (2 ^ 64 - f.data.length % 2 ^ 64 + f.sectors % 2 ^ 64 * 512 % 2 ^ 64) % 2 ^ 64 = _
  omega

/-- `current_lba` has been cleared: the file is linked to nothing. -/
theorem writeFile_last (hlen : f.data.length < 2 ^ 64) :
    writeFile ⟨st.of, 0⟩ (BitVec.ofNat 64 f.data.length) f.data f.name =
      ⟨st.of ++ f.record 0, 0⟩ := by
  simp only [writeFile]
  simp only [toNat_sectorCount hlen, toNat_alignBytes, DfsFile.record, DfsFile.padded,
    List.append_assoc, ne_eq, not_true_eq_false, if_false]

theorem writeFile_link (hlen : f.data.length < 2 ^ 64) (hlba : st.currentLba ≠ 0)
    (hsucc : st.currentLba + 1 ≠ 0) :
    writeFile st (BitVec.ofNat 64 f.data.length) f.data f.name =
      ⟨st.of ++ f.record (st.currentLba + 1 + BitVec.ofNat 64 f.sectors),
        st.currentLba + 1 + BitVec.ofNat 64 f.sectors⟩ := by
  simp only [writeFile]
  simp only [toNat_sectorCount hlen, toNat_alignBytes, DfsFile.record, DfsFile.padded,
    List.append_assoc, hlba, hsucc, ne_eq, not_false_eq_true, if_true]

theorem toNat_link {lba : U64} (hroom : lba.toNat + (1 + f.sectors) < 2 ^ 64) :
    (lba + 1).toNat = lba.toNat + 1 ∧
      (lba + 1 + BitVec.ofNat 64 f.sectors).toNat = lba.toNat + 1 + f.sectors := by
  have hsucc : (lba + 1).toNat = lba.toNat + 1 := by
    rw [BitVec.toNat_add]
    exact Nat.mod_eq_of_lt (by change lba.toNat + 1 < 2 ^ 64; omega)
  have hsectors : (BitVec.ofNat 64 f.sectors).toNat = f.sectors :=
    Nat.mod_eq_of_lt (by omega)
  refine ⟨hsucc, ?_⟩
  rw [BitVec.toNat_add, hsucc, hsectors]
  exact Nat.mod_eq_of_lt (by omega)

end Writer

/-- The files named by some arguments. -/
def filesOf (fs : Files) : List CStr → List DfsFile
  | [] => []
  | arg :: rest =>
      if arg.get 0 = 0x2d then filesOf fs rest
      else
        match fs.contents arg with
        | none => filesOf fs rest
        | some data => ⟨basename arg, data⟩ :: filesOf fs rest

theorem filesOf_option {fs : Files} {arg : CStr} (rest : List CStr) (h : arg.get 0 = 0x2d) :
    filesOf fs (arg :: rest) = filesOf fs rest := by
  rw [filesOf, if_pos h]

theorem filesOf_file {fs : Files} {arg : CStr} {data : Bytes} (rest : List CStr)
    (h : arg.get 0 ≠ 0x2d) (hdata : fs.contents arg = some data) :
    filesOf fs (arg :: rest) = ⟨basename arg, data⟩ :: filesOf fs rest := by
  rw [filesOf, if_neg h, hdata]

theorem length_filesOf (fs : Files) (args : List CStr) :
    (filesOf fs args).length ≤ args.length := by
  induction args with
  | nil => exact Nat.le_refl _
  | cons arg rest ih =>
      simp only [filesOf]
      split
      · exact Nat.le_succ_of_le ih
      · split
        · exact Nat.le_succ_of_le ih
        · exact Nat.succ_le_succ ih

theorem mem_filesOf {fs : Files} {args : List CStr} {f : DfsFile} :
    f ∈ filesOf fs args ↔
      ∃ arg ∈ args, arg.get 0 ≠ 0x2d ∧ fs.contents arg = some f.data ∧ basename arg = f.name := by
  induction args with
  | nil => simp [filesOf]
  | cons arg rest ih =>
      by_cases hdash : arg.get 0 = 0x2d
      · rw [filesOf_option rest hdash, ih]
        simp [hdash]
      · cases hdata : fs.contents arg with
        | none =>
            rw [filesOf, if_neg hdash, hdata]
            dsimp only
            rw [ih]
            simp [hdata]
        | some data =>
            rw [filesOf_file rest hdash hdata, List.mem_cons, ih]
            simp only [List.mem_cons, exists_eq_or_imp, hdata, Option.some.injEq]
            refine or_congr_left ⟨?_, ?_⟩
            · rintro rfl
              exact ⟨hdash, rfl, rfl⟩
            · rintro ⟨-, hdata, hname⟩
              rw [hname, hdata]

theorem writeFiles_file {fs : Files} {arg : CStr} {rest : List CStr} {st st' : WriteImg}
    (hdash : arg.get 0 ≠ 0x2d) (h : writeFiles fs (arg :: rest) st = .ok st') :
    ∃ data, fs.contents arg = some data ∧
      writeFiles fs rest (writeFile (if rest = [] then ⟨st.of, 0⟩ else st)
        (BitVec.ofNat 64 data.length) data (basename arg)) = .ok st' := by
  rw [writeFiles, if_neg hdash] at h
  cases hdata : fs.contents arg with
  | none =>
      rw [hdata] at h
      cases h
  | some data =>
      rw [hdata] at h
      exact ⟨data, rfl, h⟩

/-- The record of the file, linked to `next`, lies from sector `lba` on. -/
structure RecordAt (image : Bytes) (lba next : U64) (f : DfsFile) : Prop where
  succ : lba.toNat + 1 < 2 ^ 64
  lies : ∃ before after, image = before ++ f.record next ++ after ∧
    before.length = 512 * lba.toNat

/-- The chain from `lba` on consists of the records of these files, and of a blank
sector where it is not ended by a null link. -/
inductive Records (image : Bytes) : U64 → List DfsFile → Prop
  | blank {lba : U64} (before after : Bytes) : image = before ++ zeros 512 ++ after →
      before.length = 512 * lba.toNat → Records image lba []
  | last {lba : U64} {f : DfsFile} : RecordAt image lba 0 f → Records image lba [f]
  | link {lba next : U64} {f : DfsFile} {files : List DfsFile} :
      RecordAt image lba next f → next ≠ 0 → Records image next files →
      Records image lba (f :: files)

theorem RecordAt.header {image : Bytes} {lba next : U64} {f : DfsFile}
    (h : RecordAt image lba next f) :
    HeaderAt image lba f.name (BitVec.ofNat 64 f.sectors) next := by
  obtain ⟨before, after, himage, hbefore⟩ := h.lies
  rw [DfsFile.record, ← List.append_assoc, List.append_assoc] at himage
  exact headerAt_of_headerBuf himage hbefore

theorem RecordAt.file {image : Bytes} {lba next : U64} {f : DfsFile}
    (h : RecordAt image lba next f) (fits : 512 * f.sectors < 2 ^ 32) :
    FileAt image lba next f := by
  obtain ⟨before, after, himage, hbefore⟩ := h.lies
  exact fileAt_of_record himage hbefore fits h.succ

theorem blank_header {image before after : Bytes} {lba : U64}
    (h : image = before ++ zeros 512 ++ after) (hbefore : before.length = 512 * lba.toNat) :
    HeaderAt image lba CStr.empty 0 0 :=
  headerAt_of_headerBuf h hbefore

theorem Records.listing {image : Bytes} {lba : U64} {files : List DfsFile}
    (h : Records image lba files) (fits : ∀ f ∈ files, 512 * f.sectors < 2 ^ 32) :
    Listing image lba files := by
  induction h with
  | blank before after himage hbefore => exact .blank (blank_header himage hbefore)
  | last record => exact .last (record.file (fits _ List.mem_cons_self))
  | link record hne _ ih =>
      exact .link (record.file (fits _ List.mem_cons_self)) hne
        (ih fun f hf => fits f (List.mem_cons_of_mem _ hf))

/-- The sectors some files take. -/
def spanOf (files : List DfsFile) : Nat := (files.map fun f => 1 + f.sectors).sum

/-- The arguments are written as a chain that starts at `current_lba`, whatever
follows the blank sector after it. -/
theorem writeFiles_records {fs : Files} {args : List CStr} {st st' : WriteImg}
    (h : writeFiles fs args st = .ok st') (hof : st.of.length = 512 * st.currentLba.toNat)
    (hpos : 0 < st.currentLba.toNat)
    (hroom : st.currentLba.toNat + spanOf (filesOf fs args) < 2 ^ 64)
    (hlen : ∀ f ∈ filesOf fs args, f.data.length < 2 ^ 64) :
    ∃ body, st'.of = st.of ++ body ∧
      ∀ after, Records (st.of ++ body ++ (zeros 512 ++ after)) st.currentLba (filesOf fs args) := by
  induction args generalizing st with
  | nil =>
      cases h
      refine ⟨[], (List.append_nil _).symm, fun after => .blank _ after ?_ hof⟩
      rw [List.append_nil, List.append_assoc]
  | cons arg rest ih =>
      by_cases hdash : arg.get 0 = 0x2d
      · rw [writeFiles, if_pos hdash] at h
        rw [filesOf_option rest hdash] at hroom hlen ⊢
        exact ih h hof hpos hroom hlen
      · obtain ⟨data, hdata, h⟩ := writeFiles_file hdash h
        rw [filesOf_file rest hdash hdata] at hroom hlen ⊢
        have hfile := hlen ⟨basename arg, data⟩ List.mem_cons_self
        rw [spanOf, List.map_cons, List.sum_cons, ← spanOf] at hroom
        obtain ⟨hsucc, hlink⟩ := @toNat_link ⟨basename arg, data⟩ st.currentLba (by omega)
        by_cases hlast : rest = []
        · subst hlast
          rw [if_pos rfl] at h
          have hst := (@writeFile_last st _ hfile).symm.trans (Except.ok.inj h)
          exact ⟨DfsFile.record ⟨basename arg, data⟩ 0, congrArg WriteImg.of hst.symm,
            fun after => .last ⟨by omega, st.of, zeros 512 ++ after, rfl, hof⟩⟩
        · rw [if_neg hlast] at h
          have hst := writeFile_link hfile (ne_zero_of_toNat hpos)
            (ne_zero_of_toNat (hsucc ▸ Nat.succ_pos _))
          obtain ⟨next, hnext⟩ : ∃ next, st.currentLba + 1 +
              BitVec.ofNat 64 (DfsFile.sectors ⟨basename arg, data⟩) = next := ⟨_, rfl⟩
          rw [hnext] at hst hlink
          dsimp only at hst
          rw [hst] at h
          have hof' : (st.of ++ DfsFile.record ⟨basename arg, data⟩ next).length =
              512 * next.toNat := by
            rw [List.length_append, DfsFile.length_record, hof, hlink]
            omega
          have hpos' : 0 < next.toNat := by omega
          obtain ⟨body, hbody, records⟩ := ih h hof' hpos' (by dsimp only; omega)
            fun f hf => hlen f (List.mem_cons_of_mem _ hf)
          refine ⟨_ ++ body, hbody.trans (List.append_assoc _ _ _), fun after => ?_⟩
          rw [← List.append_assoc st.of]
          exact .link ⟨by omega, st.of, body ++ (zeros 512 ++ after),
            List.append_assoc (st.of ++ DfsFile.record _ next) body (zeros 512 ++ after), hof⟩
            (ne_zero_of_toNat hpos') (records after)

theorem writeFiles_contents {fs : Files} {args : List CStr} {st st' : WriteImg}
    (h : writeFiles fs args st = .ok st') {arg : CStr} (harg : arg ∈ args)
    (hdash : arg.get 0 ≠ 0x2d) : ∃ data, fs.contents arg = some data := by
  induction args generalizing st with
  | nil => cases harg
  | cons arg' rest ih =>
      by_cases hdash' : arg'.get 0 = 0x2d
      · rw [writeFiles, if_pos hdash'] at h
        obtain rfl | harg := List.mem_cons.mp harg
        · exact absurd hdash' hdash
        · exact ih h harg
      · obtain ⟨data, hdata, h⟩ := writeFiles_file hdash' h
        obtain rfl | harg := List.mem_cons.mp harg
        · exact ⟨data, hdata⟩
        · exact ih h harg

/-- The whole image, from sector 1 on, is the chain of the files of the command line. -/
theorem writeImg_records {fs : Files} {argv : Argv} {image : Bytes}
    (written : writeImg fs argv = .ok image)
    (hroom : 1 + spanOf (filesOf fs argv.rest) < 2 ^ 64)
    (hlen : ∀ f ∈ filesOf fs argv.rest, f.data.length < 2 ^ 64) :
    Records image 1 (filesOf fs argv.rest) := by
  obtain ⟨bsData, st, hbs, hst, rfl⟩ := writeImg_eq_ok written
  have hpos : 0 < (1 : U64).toNat := by decide
  obtain ⟨body, hbody, records⟩ := writeFiles_records hst hbs hpos hroom hlen
  have htail : 2048 * 512 = 512 + 2047 * 512 := by decide
  rw [hbody, htail, zeros_add]
  exact records _

theorem spanOf_le {files : List DfsFile} (fits : ∀ f ∈ files, 512 * f.sectors < 2 ^ 32) :
    spanOf files ≤ files.length * 2 ^ 24 := by
  induction files with
  | nil => exact Nat.le_refl _
  | cons f files ih =>
      have hf := fits f List.mem_cons_self
      have hrest := ih fun g hg => fits g (List.mem_cons_of_mem f hg)
      rw [spanOf, List.map_cons, List.sum_cons, ← spanOf, List.length_cons, Nat.succ_mul]
      omega

theorem writeImg_listing {fs : Files} {argv : Argv} {image : Bytes}
    (written : writeImg fs argv = .ok image)
    (fits : ∀ f ∈ filesOf fs argv.rest, 512 * f.sectors < 2 ^ 32) :
    Listing image 1 (filesOf fs argv.rest) := by
  have hargs : argv.rest.length < 2 ^ 31 := by
    have hargc := argv.argc_lt
    rw [Argv.rest, List.length_tail]
    omega
  have hspan := spanOf_le fits
  have hfiles := length_filesOf fs argv.rest
  refine (writeImg_records written ?_ fun f hf => ?_).listing fits
  · calc 1 + spanOf (filesOf fs argv.rest)
      _ ≤ 1 + (filesOf fs argv.rest).length * 2 ^ 24 := Nat.add_le_add_left hspan 1
      _ ≤ 1 + 2 ^ 31 * 2 ^ 24 := by omega
      _ < 2 ^ 64 := by decide
  · have hfit := fits f hf
    have hle := f.length_le
    omega

theorem mem_fileArgs {argv : Argv} {arg : CStr} :
    arg ∈ argv.fileArgs ↔ arg ∈ argv.rest ∧ arg.get 0 ≠ 0x2d := by
  rw [Argv.fileArgs, List.mem_filter, decide_eq_true_iff]

/-- Names that differ pairwise tell the files apart. -/
theorem eq_of_same_basename {args : List CStr}
    (distinct : args.Pairwise fun a b => ¬ (basename a).Same 32 (basename b)) {a b : CStr}
    (ha : a ∈ args) (hb : b ∈ args) (hsame : (basename a).Same 32 (basename b)) : a = b := by
  have hsymm : Std.Symm fun a b : CStr => (basename a).Same 32 (basename b) → a = b :=
    ⟨fun _ _ h hsame => (h (Eq.symm hsame)).symm⟩
  have hinj : args.Pairwise fun a b => (basename a).Same 32 (basename b) → a = b :=
    distinct.imp fun h hsame => absurd hsame h
  exact hinj.forall_of_forall (fun _ _ _ => rfl) ha hb hsame

/-- `dfs_fread` on the image of `write_img`: every file is read back, padded to
its sectors, and nothing else is found. -/
theorem image_reads_back {fs : Files} {argv : Argv} {image : Bytes} (drive : Drive) (buf : Bytes)
    (fuel : Nat) (written : writeImg fs argv = .ok image)
    (fits : ∀ arg ∈ argv.fileArgs, ∀ data, fs.contents arg = some data →
      512 * (data.length / 512 + 1) < 2 ^ 32)
    (distinct : argv.fileArgs.Pairwise fun a b => ¬ (basename a).Same 32 (basename b))
    (returns : drive.Returns image) (hbuf : buf.length = 512) (hfuel : argv.args.length < fuel) :
    (∀ arg ∈ argv.fileArgs, ∃ (data : Bytes) (n : Usz), fs.contents arg = some data ∧
      n.toNat = 512 * (data.length / 512 + 1) ∧
      dfsFread fuel drive (basename arg) true buf =
        some ⟨.ok, some n, data ++ zeros (n.toNat - data.length)⟩) ∧
    ∀ (path : CStr) (outData : Bool), path.bytes ≠ [] →
      (∀ arg ∈ argv.fileArgs, ¬ path.Same 32 (basename arg)) →
      dfsFread fuel drive path outData buf = some ⟨.notFound, none, []⟩ := by
  have hfits : ∀ f ∈ filesOf fs argv.rest, 512 * f.sectors < 2 ^ 32 := by
    intro f hf
    obtain ⟨arg, harg, hdash, hdata, -⟩ := mem_filesOf.mp hf
    exact fits arg (mem_fileArgs.mpr ⟨harg, hdash⟩) f.data hdata
  have listing := writeImg_listing written hfits
  have hlength : (filesOf fs argv.rest).length < fuel := by
    have hrest : argv.rest.length ≤ argv.args.length :=
      List.length_tail ▸ Nat.sub_le _ _
    exact Nat.lt_of_le_of_lt (Nat.le_trans (length_filesOf fs argv.rest) hrest) hfuel
  constructor
  · intro arg harg
    obtain ⟨hrest, hdash⟩ := mem_fileArgs.mp harg
    obtain ⟨_, st, -, hst, -⟩ := writeImg_eq_ok written
    obtain ⟨data, hdata⟩ := writeFiles_contents hst hrest hdash
    have hmem : (⟨basename arg, data⟩ : DfsFile) ∈ filesOf fs argv.rest :=
      mem_filesOf.mpr ⟨arg, hrest, hdash, hdata, rfl⟩
    have unique : ∀ g ∈ filesOf fs argv.rest, (basename arg).Same 32 g.name →
        g = ⟨basename arg, data⟩ := by
      intro g hg hsame
      obtain ⟨arg', hrest', hdash', hdata', hname⟩ := mem_filesOf.mp hg
      obtain rfl : arg = arg' := eq_of_same_basename distinct harg
        (mem_fileArgs.mpr ⟨hrest', hdash'⟩) (hname ▸ hsame)
      obtain ⟨name, data'⟩ := g
      obtain rfl : data = data' := Option.some.inj (hdata.symm.trans hdata')
      exact congrArg (DfsFile.mk · data) hname.symm
    have hn : (BitVec.ofNat 32 (512 * (data.length / 512 + 1))).toNat =
        512 * (data.length / 512 + 1) := Nat.mod_eq_of_lt (hfits _ hmem)
    refine ⟨data, BitVec.ofNat 32 (512 * (data.length / 512 + 1)), hdata, hn, ?_⟩
    rw [dfsFread, listing.fread returns (basename_ne_nil arg) hbuf hlength,
      lookup_of_unique hmem rfl unique, hn]
    rfl
  · intro path outData hpath hdiffer
    rw [dfsFread, listing.fread returns hpath hbuf hlength, lookup_of_notFound]
    intro f hf hsame
    obtain ⟨arg, harg, hdash, -, hname⟩ := mem_filesOf.mp hf
    exact hdiffer arg (mem_fileArgs.mpr ⟨harg, hdash⟩) (hname ▸ hsame)

/-- `a` -/
def pathA : CStr := ⟨[0x61], by decide⟩

/-- Every file holds its own path, but `a` fills a sector. -/
def ownPaths : Files :=
  ⟨fun path => some (if path = pathA then List.replicate 512 1 else path.bytes), fun _ => true⟩

/-- `argv[0]` -/
def programName : CStr := ⟨[0x77], by decide⟩

/-- `write_img -oi a d/c -bk` -/
def sampleArgv : Argv :=
  ⟨[programName, ⟨[0x2d, 0x6f, 0x69], by decide⟩, pathA, ⟨[0x64, 0x2f, 0x63], by decide⟩,
    ⟨[0x2d, 0x62, 0x6b], by decide⟩], by decide⟩

theorem image_reads_back_sample :
    ∃ image, writeImg ownPaths sampleArgv = .ok image ∧
      dfsFread 6 (imageDrive image) pathA true (zeros 512) =
        some ⟨.ok, some 1024, List.replicate 512 1 ++ zeros 512⟩ := by
  have hok : (writeImg ownPaths sampleArgv).isOk = true := by decide +kernel
  cases written : writeImg ownPaths sampleArgv with
  | error err =>
      rw [written] at hok
      cases hok
  | ok image =>
      have hfits : ∀ arg ∈ sampleArgv.fileArgs, ∀ data, ownPaths.contents arg = some data →
          512 * (data.length / 512 + 1) < 2 ^ 32 := by
        have hall : ∀ arg ∈ sampleArgv.fileArgs,
            512 * (((ownPaths.contents arg).getD []).length / 512 + 1) < 2 ^ 32 := by decide +kernel
        intro arg harg data hdata
        have hfit := hall arg harg
        rw [hdata] at hfit
        exact hfit
      obtain ⟨data, n, hdata, hn, hread⟩ := (image_reads_back (imageDrive image) (zeros 512) 6
        written hfits (by decide +kernel) (fun _ _ _ => rfl) (length_zeros 512) (by decide)).1
        pathA (by decide +kernel)
      obtain rfl : List.replicate 512 1 = data := Option.some.inj hdata
      rw [List.length_replicate] at hn hread
      have hsize : (1024 : Usz).toNat = 512 * (512 / 512 + 1) := by decide
      obtain rfl : n = 1024 := BitVec.eq_of_toNat_eq (hn.trans hsize.symm)
      exact ⟨image, rfl, hread⟩

end DordOs
