import DordOs.Libk.Memory

/-!
`write_img`: the boot sector, a header and the padded data of every file named
on the command line, and 2048 blank sectors. `current_lba` runs along with the
output and is cleared for a file that is the last argument.
-/
namespace DordOs
open Lib

/-- What the program finds in the file system: what it reads from a path, and
whether it can create one. -/
structure Files where
  contents : CStr → Option Bytes
  creatable : CStr → Bool

inductive WriteImgError
  | unknownArgument (c : U8)
  | failedToOpen (path : CStr)
  | bootsectorExceeded
  deriving DecidableEq

/-- The command line, its length an `int`. -/
structure Argv where
  args : List CStr
  argc_lt : args.length < 2 ^ 31

/-- The arguments after the program's name. -/
def Argv.rest (argv : Argv) : List CStr := argv.args.tail

/-- The open output file, as written so far, and `current_lba`. -/
structure WriteImg where
  of : Bytes
  currentLba : U64
  deriving DecidableEq

/-- The bytes `strncpy` stores. -/
def strncpy (src : CStr) (n : Nat) : Bytes := src.bytes.take n ++ zeros (n - src.bytes.length)

/-- `basename` of POSIX: the last component, without the slashes after it. -/
def basename (path : CStr) : CStr :=
  if path.bytes = [] then ⟨[0x2e], by decide⟩
  else
    let stripped := path.bytes.reverse.dropWhile (· = 0x2f)
    if stripped = [] then ⟨[0x2f], by decide⟩
    else
      ⟨(stripped.takeWhile (· ≠ 0x2f)).reverse, fun b hb =>
        path.nonzero b (List.mem_reverse.mp ((List.dropWhile_sublist _).subset
          ((List.takeWhile_sublist _).subset (List.mem_reverse.mp hb))))⟩

/-- The sector of a `DFSFileHeader`. -/
def headerBuf (sectors nextLba : U64) (name : CStr) : Bytes :=
  leBytes 8 sectors.toNat ++ leBytes 8 nextLba.toNat ++ strncpy name 32 ++ zeros 464

def writeFile (st : WriteImg) (len : U64) (data : Bytes) (fileName : CStr) : WriteImg :=
  let sectorCount := len / 512 + 1
  let sectorBytes := sectorCount * 512
  let currentLba := if st.currentLba ≠ 0 then st.currentLba + 1 else st.currentLba
  let nextLba := if currentLba ≠ 0 then currentLba + sectorCount else 0
  let currentLba := if currentLba ≠ 0 then currentLba + sectorCount else currentLba
  let writtenBytes := len
  let alignBytes := sectorBytes - writtenBytes
  { of := st.of ++ headerBuf sectorCount nextLba fileName ++ data ++ zeros alignBytes.toNat
    currentLba }

structure WriteImgOptions where
  bsPath : Option CStr
  ofPath : Option CStr

/-- The first pass over the arguments. -/
def parseArgs : List CStr → WriteImgOptions → Except WriteImgError WriteImgOptions
  | [], opts => .ok opts
  | arg :: rest, opts =>
      if arg.get 0 ≠ 0x2d then parseArgs rest opts
      else if arg.get 1 = 0x62 then parseArgs rest { opts with bsPath := some (arg.offset 2) }
      else if arg.get 1 = 0x6f then parseArgs rest { opts with ofPath := some (arg.offset 2) }
      else .error (.unknownArgument (arg.get 1))

def bootSector (fs : Files) : Option CStr → Except WriteImgError Bytes
  | none => .ok (zeros 512)
  | some bsPath =>
      match fs.contents bsPath with
      | none => .error (.failedToOpen bsPath)
      | some data =>
          if 510 < data.length then .error .bootsectorExceeded
          else .ok (data ++ zeros (510 - data.length) ++ [0x55, 0xaa])

/-- The second pass over the arguments. -/
def writeFiles (fs : Files) : List CStr → WriteImg → Except WriteImgError WriteImg
  | [], st => .ok st
  | arg :: rest, st =>
      if arg.get 0 = 0x2d then writeFiles fs rest st
      else
        match fs.contents arg with
        | none => .error (.failedToOpen arg)
        | some data =>
            let st := if rest = [] then { st with currentLba := 0 } else st
            writeFiles fs rest (writeFile st (BitVec.ofNat 64 data.length) data (basename arg))

/-- "out.img" -/
def outImg : CStr := ⟨[0x6f, 0x75, 0x74, 0x2e, 0x69, 0x6d, 0x67], by decide⟩

/-- `main`: the file it leaves behind when it returns 0. -/
def writeImg (fs : Files) (argv : Argv) : Except WriteImgError Bytes := do
  let opts ← parseArgs argv.rest ⟨none, none⟩
  let ofPath := opts.ofPath.getD outImg
  if fs.creatable ofPath then
    let bsData ← bootSector fs opts.bsPath
    let st ← writeFiles fs argv.rest ⟨bsData, 1⟩
    return st.of ++ zeros (2048 * 512)
  else throw (.failedToOpen ofPath)

/-- The arguments that name files. -/
def Argv.fileArgs (argv : Argv) : List CStr := argv.rest.filter fun arg => arg.get 0 ≠ 0x2d

theorem length_bootSector {fs : Files} {bsPath : Option CStr} {data : Bytes}
    (h : bootSector fs bsPath = .ok data) : data.length = 512 := by
  simp only [bootSector] at h
  split at h
  · cases h
    exact length_zeros 512
  · split at h
    · cases h
    · split at h
      · cases h
      · cases h
        simp only [List.length_append, length_zeros, List.length_cons, List.length_nil]
        omega

theorem bind_eq_ok {ε α β : Type} {x : Except ε α} {f : α → Except ε β} {b : β}
    (h : x >>= f = .ok b) : ∃ a, x = .ok a ∧ f a = .ok b := by
  cases x with
  | error err => cases h
  | ok a => exact ⟨a, rfl, h⟩

theorem writeImg_eq_ok {fs : Files} {argv : Argv} {image : Bytes}
    (h : writeImg fs argv = .ok image) :
    ∃ bsData st, bsData.length = 512 ∧ writeFiles fs argv.rest ⟨bsData, 1⟩ = .ok st ∧
      image = st.of ++ zeros (2048 * 512) := by
  obtain ⟨opts, -, h⟩ := bind_eq_ok h
  dsimp only at h
  split at h
  · obtain ⟨bsData, hbs, h⟩ := bind_eq_ok h
    obtain ⟨st, hst, h⟩ := bind_eq_ok h
    exact ⟨bsData, st, length_bootSector hbs, hst, (Except.ok.inj h).symm⟩
  · cases h

theorem basename_ne_nil (path : CStr) : (basename path).bytes ≠ [] := by
  unfold basename
  split
  · exact List.cons_ne_nil _ _
  · dsimp only
    split
    · exact List.cons_ne_nil _ _
    · rename_i hne
      have hhead := List.head_dropWhile_not (fun b : U8 => decide (b = 0x2f)) hne
      change (List.takeWhile _ (path.bytes.reverse.dropWhile (· = 0x2f))).reverse ≠ []
      cases hstripped : path.bytes.reverse.dropWhile (· = 0x2f) with
      | nil => exact absurd hstripped hne
      | cons b l =>
          simp only [hstripped, List.head_cons, decide_eq_false_iff_not] at hhead
          have hkept : (b :: l).takeWhile (· ≠ 0x2f) = b :: l.takeWhile (· ≠ 0x2f) :=
            List.takeWhile_cons_of_pos (decide_eq_true hhead)
          rw [hkept, List.reverse_cons]
          exact List.append_ne_nil_of_right_ne_nil _ (List.cons_ne_nil _ _)

@[simp] theorem length_strncpy (src : CStr) (n : Nat) : (strncpy src n).length = n := by
  rw [strncpy, List.length_append, List.length_take, length_zeros]
  omega

@[simp] theorem length_headerBuf (sectors nextLba : U64) (name : CStr) :
    (headerBuf sectors nextLba name).length = 512 := by
  simp only [headerBuf, List.length_append, length_leBytes, length_strncpy, length_zeros]

end DordOs
