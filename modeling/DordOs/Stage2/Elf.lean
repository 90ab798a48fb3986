import DordOs.Lib.Elements
import DordOs.Libk.Memory

/-!
`load_elf_kernel` of the second boot stage. The memory here is the one outside
stage 2 itself; of stage 2's own variables `klow` and `khigh` are the ones the loader
writes. Field offsets are those of `elf32_fh_t` and `elf32_sh_t`.
-/
namespace DordOs
open Lib

structure Stage2 where
  mem : Mem
  klow : U32
  khigh : U32

def read16 (m : Mem) (a : Addr) : U16 := BitVec.ofNat 16 (leValue (readBytes m a 2))

def read32 (m : Mem) (a : Addr) : U32 := BitVec.ofNat 32 (leValue (readBytes m a 4))

/-- `sizeof(elf32_sh_t)`. -/
def elfShSize : Nat := 40

def elfMagic : Bytes := [0x7F, 0x45, 0x4C, 0x46]

/-- `TMP_ELF_ADDR`. -/
def tmpElfAddr : Addr := 0x200000

namespace Stage2

/-- `fh->sh_count`. -/
def shCount (m : Mem) (fh : Addr) : U16 := read16 m (fh + 48)

/-- The running bounds of what has been loaded. -/
def widen (st : Stage2) (addr size : U32) : Stage2 :=
  { st with
    klow := if addr < st.klow then addr else st.klow
    khigh := if st.khigh < addr + size then addr + size else st.khigh }

/-- The body of the loop for the section header at `sh`. -/
def loadSection (data sh : Addr) (st : Stage2) : Stage2 :=
  let addr := read32 st.mem (sh + 12)
  let size := read32 st.mem (sh + 20)
  let src := data + read32 st.mem (sh + 16)
  let type := read32 st.mem (sh + 4)
  if type = 1 ∧ addr ≠ 0 then
    { st.widen addr size with mem := copyUp st.mem addr src size.toNat }
  else if type = 8 then
    { st.widen addr size with mem := fillUp st.mem addr 0 size.toNat }
  else
    st

/-- `for (u32 i = 0; i < fh->sh_count; ++i)`, the count being read in every pass. -/
def loadFrom (data sh : Addr) : Nat → Nat → Stage2 → Stage2
  | 0, _, st => st
  | fuel + 1, i, st =>
      if i < (shCount st.mem data).toNat then
        loadFrom data sh fuel (i + 1) (loadSection data (sh + BitVec.ofNat 32 (elfShSize * i)) st)
      else st

/-- `none` is the panic on a wrong signature. A 16-bit count bounds the passes. -/
def loadElfKernel (data : Addr) (st : Stage2) : Option (Stage2 × Addr) :=
  if strneq (fun k => st.mem (data + BitVec.ofNat 32 k)) (fun k => elfMagic.getD k 0) 4 then
    let sh := data + read32 st.mem (data + 32)
    let st := loadFrom data sh (2 ^ 16) 0 { st with klow := 0xFFFFFFFF, khigh := 0 }
    some (st, read32 st.mem (data + 24))
  else
    none

end Stage2

/-- A 32-bit field of a file. -/
def word (file : Bytes) (i : Nat) : U32 := BitVec.ofNat 32 (leValue (slice file i 4))

/-- What the loader looks at in an entry of the section table. -/
structure Section where
  type : U32
  addr : U32
  offset : U32
  size : U32
  deriving DecidableEq

namespace Section

/-- The section takes part in the memory image. -/
def Loads (s : Section) : Prop := (s.type = 1 ∧ s.addr ≠ 0) ∨ s.type = 8

instance (s : Section) : Decidable s.Loads := inferInstanceAs (Decidable (_ ∨ _))

/-- The addresses it occupies. -/
def Covers (s : Section) (a : Addr) : Prop := InRange s.addr s.size.toNat a

/-- Byte `k` of the section in memory: of the file, or zero. -/
def content (s : Section) (file : Bytes) (k : Nat) : U8 :=
  if s.type = 1 then file.getD (s.offset.toNat + k) 0 else 0

theorem toNat_end {s : Section} (h : s.addr.toNat + s.size.toNat < 2 ^ 32) :
    (s.addr + s.size).toNat = s.addr.toNat + s.size.toNat := by
  rw [BitVec.toNat_add]
  exact Nat.mod_eq_of_lt h

end Section

namespace Elf

def shOffset (file : Bytes) : Nat := (word file 32).toNat

def shCount (file : Bytes) : Nat := (BitVec.ofNat 16 (leValue (slice file 48 2))).toNat

def entry (file : Bytes) : U32 := word file 24

def sectionAt (file : Bytes) (i : Nat) : Section :=
  let sh := shOffset file + elfShSize * i
  ⟨word file (sh + 4), word file (sh + 12), word file (sh + 16), word file (sh + 20)⟩

def sections (file : Bytes) : List Section := (List.range (shCount file)).map (sectionAt file)

/-- The sections that are loaded. -/
def image (file : Bytes) : List Section := (sections file).filter fun s => decide s.Loads

/-- Header, section table and section data lie inside the file. -/
structure Formed (file : Bytes) : Prop where
  header : 52 ≤ file.length
  magic : slice file 0 4 = elfMagic
  table : shOffset file + elfShSize * shCount file ≤ file.length
  data : ∀ s ∈ image file, s.type = 1 → s.offset.toNat + s.size.toNat ≤ file.length

/-- The target ranges do not wrap, do not meet, and leave the staged file alone. -/
structure Placed (file : Bytes) (base : Addr) : Prop where
  loads : image file ≠ []
  noWrap : ∀ s ∈ image file, s.addr.toNat + s.size.toNat < 2 ^ 32
  apart : (image file).Pairwise fun s t => ∀ a, s.Covers a → ¬ t.Covers a
  offFile : ∀ s ∈ image file, ∀ a, s.Covers a → ¬ InRange base file.length a

end Elf

namespace Stage2

/-- The sections of `done` have been loaded. -/
structure Loaded (file : Bytes) (before : Mem) (done : List Section) (st : Stage2) : Prop where
  bytes : ∀ s ∈ done, ∀ k, k < s.size.toNat →
    st.mem (s.addr + BitVec.ofNat 32 k) = s.content file k
  frame : ∀ a, (∀ s ∈ done, ¬ s.Covers a) → st.mem a = before a
  low : ∀ s ∈ done, st.klow.toNat ≤ s.addr.toNat
  high : ∀ s ∈ done, s.addr.toNat + s.size.toNat ≤ st.khigh.toNat
  lowAt : st.klow = 0xFFFFFFFF ∨ ∃ s ∈ done, st.klow = s.addr
  highAt : st.khigh = 0 ∨ ∃ s ∈ done, st.khigh = s.addr + s.size

variable {file : Bytes} {before : Mem} {done : List Section} {st : Stage2} {base : Addr}

theorem read32_of_holds {m : Mem} (h : Holds m base file) {i : Nat} (hin : i + 4 ≤ file.length) :
    read32 m (base + BitVec.ofNat 32 i) = word file i := by
  rw [read32, h.readBytes_eq hin, word]

theorem toNat_klow_widen (st : Stage2) (addr size : U32) :
    (st.widen addr size).klow.toNat = min st.klow.toNat addr.toNat := by
  simp only [widen]
  split
  next hlt => exact (Nat.min_eq_right (Nat.le_of_lt (BitVec.lt_def.mp hlt))).symm
  next hge => exact (Nat.min_eq_left (Nat.not_lt.mp (mt BitVec.lt_def.mpr hge))).symm

theorem toNat_khigh_widen (st : Stage2) (addr size : U32) :
    (st.widen addr size).khigh.toNat = max st.khigh.toNat (addr + size).toNat := by
  simp only [widen]
  split
  next hlt => exact (Nat.max_eq_right (Nat.le_of_lt (BitVec.lt_def.mp hlt))).symm
  next hge => exact (Nat.max_eq_left (Nat.not_lt.mp (mt BitVec.lt_def.mpr hge))).symm

theorem klow_widen (st : Stage2) (addr size : U32) :
    (st.widen addr size).klow = st.klow ∨ (st.widen addr size).klow = addr := by
  simp only [widen]
  split
  next => exact .inr rfl
  next => exact .inl rfl

theorem khigh_widen (st : Stage2) (addr size : U32) :
    (st.widen addr size).khigh = st.khigh ∨ (st.widen addr size).khigh = addr + size := by
  simp only [widen]
  split
  next => exact .inr rfl
  next => exact .inl rfl

/-- Loading one section: its bytes are in place, the others and the bounds follow. -/
theorem Loaded.snoc {s : Section} {m : Mem} (h : Loaded file before done st)
    (hwrap : s.addr.toNat + s.size.toNat < 2 ^ 32)
    (hapart : ∀ t ∈ done, ∀ a, t.Covers a → ¬ s.Covers a)
    (hnoWrap : ∀ t ∈ done, t.addr.toNat + t.size.toNat < 2 ^ 32)
    (hbytes : ∀ k, k < s.size.toNat → m (s.addr + BitVec.ofNat 32 k) = s.content file k)
    (hframe : ∀ a, ¬ s.Covers a → m a = st.mem a) :
    Loaded file before (done ++ [s]) { st.widen s.addr s.size with mem := m } := by
  have hnew : s ∈ done ++ [s] := List.mem_append_right _ (List.mem_singleton_self s)
  refine ⟨?_, ?_, ?_, ?_, ?_, ?_⟩
  · intro t ht k hk
    obtain ht | ht := List.mem_append.mp ht
    · have hin := inRange_add (Nat.le_of_lt (hnoWrap t ht)) hk
      exact (hframe _ (hapart t ht _ hin)).trans (h.bytes t ht k hk)
    · obtain rfl := List.mem_singleton.mp ht
      exact hbytes k hk
  · intro a ha
    exact (hframe a (ha s hnew)).trans (h.frame a fun t ht => ha t (List.mem_append_left _ ht))
  · intro t ht
    dsimp only
    rw [toNat_klow_widen]
    obtain ht | ht := List.mem_append.mp ht
    · exact Nat.le_trans (Nat.min_le_left _ _) (h.low t ht)
    · obtain rfl := List.mem_singleton.mp ht
      exact Nat.min_le_right _ _
  · intro t ht
    dsimp only
    rw [toNat_khigh_widen, Section.toNat_end hwrap]
    obtain ht | ht := List.mem_append.mp ht
    · exact Nat.le_trans (h.high t ht) (Nat.le_max_left _ _)
    · obtain rfl := List.mem_singleton.mp ht
      exact Nat.le_max_right _ _
  · dsimp only
    obtain hkeep | haddr := klow_widen st s.addr s.size
    · rw [hkeep]
      exact h.lowAt.imp_right fun ⟨t, ht, heq⟩ => ⟨t, List.mem_append_left _ ht, heq⟩
    · exact .inr ⟨s, hnew, haddr⟩
  · dsimp only
    obtain hkeep | haddr := khigh_widen st s.addr s.size
    · rw [hkeep]
      exact h.highAt.imp_right fun ⟨t, ht, heq⟩ => ⟨t, List.mem_append_left _ ht, heq⟩
    · exact .inr ⟨s, hnew, haddr⟩

theorem field_of_holds {m : Mem} (h : Holds m base file) {i j k : Nat}
    (hin : i + j + k + 4 ≤ file.length) :
    read32 m (base + BitVec.ofNat 32 i + BitVec.ofNat 32 j + BitVec.ofNat 32 k) =
      word file (i + j + k) := by
  rw [addr_add_add, addr_add_add, ← Nat.add_assoc, read32_of_holds h hin]

/-- The header of a section in memory. -/
structure HeaderOf (m : Mem) (sh : Addr) (s : Section) : Prop where
  type : read32 m (sh + 4) = s.type
  addr : read32 m (sh + 12) = s.addr
  offset : read32 m (sh + 16) = s.offset
  size : read32 m (sh + 20) = s.size

theorem headerOf_sectionAt {m : Mem} (hfile : Elf.Formed file) (h : Holds m base file) {i : Nat}
    (hi : i < Elf.shCount file) :
    HeaderOf m (base + BitVec.ofNat 32 (Elf.shOffset file) + BitVec.ofNat 32 (elfShSize * i))
      (Elf.sectionAt file i) := by
  have htable := hfile.table
  simp only [elfShSize] at htable ⊢
  exact ⟨field_of_holds h (k := 4) (by omega), field_of_holds h (k := 12) (by omega),
    field_of_holds h (k := 16) (by omega), field_of_holds h (k := 20) (by omega)⟩

theorem loadSection_eq {sh : Addr} {s : Section} (hs : HeaderOf st.mem sh s)
    (h : Holds st.mem base file)
    (hdata : s.type = 1 → s.addr ≠ 0 → s.offset.toNat + s.size.toNat ≤ file.length)
    (hfit : s.addr.toNat + s.size.toNat ≤ 2 ^ 32)
    (hoff : ∀ a, s.Covers a → ¬ InRange base file.length a) (hloads : s.Loads) :
    ∃ m, loadSection base sh st = { st.widen s.addr s.size with mem := m } ∧
      (∀ k, k < s.size.toNat → m (s.addr + BitVec.ofNat 32 k) = s.content file k) ∧
      ∀ a, ¬ s.Covers a → m a = st.mem a := by
  simp only [loadSection]
  rw [hs.addr, hs.size, hs.offset, hs.type]
  by_cases hprog : s.type = 1 ∧ s.addr ≠ 0
  · have hsrc (k : Nat) : base + s.offset + BitVec.ofNat 32 k =
        base + BitVec.ofNat 32 (s.offset.toNat + k) := by
      rw [← addr_add_add, BitVec.ofNat_toNat, BitVec.setWidth_eq]
    have hin := hdata hprog.1 hprog.2
    have hfits := h.fits
    have hbegin : (base + s.offset).toNat ≤ base.toNat + s.offset.toNat := by
      rw [BitVec.toNat_add]
      exact Nat.mod_le _ _
    have hcopies : Copies st.mem s.addr (base + s.offset) s.size.toNat
        (copyUp st.mem s.addr (base + s.offset) s.size.toNat) := by
      refine copyUp_copies hfit (by omega) fun j hj hcovers => hoff _ hcovers ?_
      rw [hsrc]
      exact inRange_add h.fits (by omega)
    refine ⟨_, if_pos hprog, fun k hk => ?_, hcopies.outside⟩
    rw [hcopies.inside k hk, hsrc, h.cell _ (by omega), Section.content, if_pos hprog.1]
  · have hzero : s.type = 8 := hloads.resolve_left hprog
    refine ⟨fillUp st.mem s.addr 0 s.size.toNat, ?_, ?_, ?_⟩
    · rw [if_neg hprog, if_pos hzero]
    · intro k hk
      rw [fillUp_inside hfit hk, Section.content, if_neg (by rw [hzero]; decide)]
    · intro a ha
      exact fillUp_outside hfit ha

theorem loadSection_of_not_loads {sh : Addr} {s : Section} (hs : HeaderOf st.mem sh s)
    (h : ¬ s.Loads) : loadSection base sh st = st := by
  simp only [loadSection]
  rw [hs.addr, hs.type, if_neg fun hprog => h (.inl hprog), if_neg fun hzero => h (.inr hzero)]

/-- The sections among the first `i` that are loaded. -/
def imageUpTo (file : Bytes) (i : Nat) : List Section :=
  ((Elf.sections file).take i).filter fun s => decide s.Loads

theorem length_sections : (Elf.sections file).length = Elf.shCount file := by
  rw [Elf.sections, List.length_map, List.length_range]

theorem getElem_sections {i : Nat} (hi : i < (Elf.sections file).length) :
    (Elf.sections file)[i] = Elf.sectionAt file i := by
  simp only [Elf.sections, List.getElem_map, List.getElem_range]

theorem imageUpTo_succ {i : Nat} (hi : i < Elf.shCount file) :
    imageUpTo file (i + 1) = imageUpTo file i ++
      if (Elf.sectionAt file i).Loads then [Elf.sectionAt file i] else [] := by
  rw [← length_sections] at hi
  rw [imageUpTo, List.take_add_one, List.getElem?_eq_getElem hi, getElem_sections hi,
    List.filter_append, ← imageUpTo]
  congr 1
  split
  next hloads => exact List.filter_cons_of_pos (decide_eq_true hloads)
  next hloads => exact List.filter_cons_of_neg fun htrue => hloads (of_decide_eq_true htrue)

/-- The sections loaded before section `i`, itself and the later ones. -/
theorem image_split {i : Nat} (hi : i < Elf.shCount file) (hloads : (Elf.sectionAt file i).Loads) :
    ∃ later, Elf.image file = imageUpTo file i ++ Elf.sectionAt file i :: later := by
  rw [← length_sections] at hi
  refine ⟨((Elf.sections file).drop (i + 1)).filter fun s => decide s.Loads, ?_⟩
  have hkeep := @List.filter_cons_of_pos _ (fun s : Section => decide s.Loads) _
    ((Elf.sections file).drop (i + 1)) (decide_eq_true hloads)
  rw [← hkeep, imageUpTo, ← List.filter_append, ← getElem_sections hi,
    ← List.drop_eq_getElem_cons hi, List.take_append_drop, Elf.image]

theorem imageUpTo_all {i : Nat} (hi : Elf.shCount file ≤ i) :
    imageUpTo file i = Elf.image file := by
  rw [← length_sections] at hi
  rw [imageUpTo, List.take_of_length_le hi, Elf.image]

theorem loadSection_loaded {i : Nat} (hfile : Elf.Formed file) (hplaced : Elf.Placed file base)
    (h : Holds st.mem base file) (hdone : Loaded file before (imageUpTo file i) st)
    (hi : i < Elf.shCount file) {sh : Addr} (hsec : HeaderOf st.mem sh (Elf.sectionAt file i)) :
    Loaded file before (imageUpTo file (i + 1)) (loadSection base sh st) ∧
      Holds (loadSection base sh st).mem base file := by
  have hnext := imageUpTo_succ hi
  have hsplit := @image_split file i hi
  generalize Elf.sectionAt file i = s at *
  by_cases hloads : s.Loads
  · obtain ⟨later, himage⟩ := hsplit hloads
    have hmem : s ∈ Elf.image file := by
      rw [himage]
      exact List.mem_append_right _ List.mem_cons_self
    have hearlier : ∀ t ∈ imageUpTo file i, t ∈ Elf.image file := by
      intro t ht
      rw [himage]
      exact List.mem_append_left _ ht
    have hapart := hplaced.apart
    rw [himage, List.pairwise_append] at hapart
    have hfit := hplaced.noWrap s hmem
    obtain ⟨m, hload, hbytes, hframe⟩ := loadSection_eq hsec h
      (fun htype _ => hfile.data s hmem htype) (Nat.le_of_lt hfit) (hplaced.offFile s hmem) hloads
    rw [hnext, if_pos hloads, hload]
    constructor
    · exact hdone.snoc hfit (fun t ht => hapart.2.2 t ht s List.mem_cons_self)
        (fun t ht => hplaced.noWrap t (hearlier t ht)) hbytes hframe
    · exact h.of_eq fun a ha => hframe a fun hcovers => hplaced.offFile s hmem a hcovers ha
  · rw [hnext, if_neg hloads, List.append_nil, loadSection_of_not_loads hsec hloads]
    exact ⟨hdone, h⟩

theorem loadFrom_loads {fuel i : Nat} (hfile : Elf.Formed file) (hplaced : Elf.Placed file base)
    (h : Holds st.mem base file) (hdone : Loaded file before (imageUpTo file i) st)
    (hi : i ≤ Elf.shCount file) (hfuel : Elf.shCount file - i < fuel) :
    Loaded file before (Elf.image file) (loadFrom base
        (base + BitVec.ofNat 32 (Elf.shOffset file)) fuel i st) ∧
      Holds (loadFrom base (base + BitVec.ofNat 32 (Elf.shOffset file)) fuel i st).mem
        base file := by
  induction fuel generalizing i st with
  | zero => exact absurd hfuel (Nat.not_lt_zero _)
  | succ fuel ih =>
      have hheader := hfile.header
      have hcount : (shCount st.mem base).toNat = Elf.shCount file := by
        have hread := @Holds.readBytes_eq st.mem 2 file base h 48 (by omega)
        exact congrArg (fun l => (BitVec.ofNat 16 (leValue l)).toNat) hread
      rw [loadFrom, hcount]
      by_cases hlt : i < Elf.shCount file
      · rw [if_pos hlt]
        obtain ⟨hdone', h'⟩ :=
          loadSection_loaded hfile hplaced h hdone hlt (headerOf_sectionAt hfile h hlt)
        exact ih h' hdone' hlt (by omega)
      · rw [if_neg hlt]
        rw [imageUpTo_all (Nat.not_lt.mp hlt)] at hdone
        exact ⟨hdone, h⟩

theorem strneq_elfMagic (hfile : Elf.Formed file) (h : Holds st.mem base file) :
    strneq (fun k => st.mem (base + BitVec.ofNat 32 k)) (fun k => elfMagic.getD k 0) 4 = true := by
  have hheader := hfile.header
  apply strneq_of_eq
  intro k hk
  have hfour : (4 : U32).toNat = 4 := rfl
  rw [hfour] at hk
  have hcell := congrArg (fun l : Bytes => l[k]?) hfile.magic
  simp only [slice, List.drop_zero, List.getElem?_take, if_pos hk] at hcell
  rw [h.cell k (by omega), List.getD_eq_getElem?_getD, hcell, List.getD_eq_getElem?_getD]

theorem Loaded.klow_eq (h : Loaded file before done st) {first : Section} (hfirst : first ∈ done) :
    ∃ s ∈ done, st.klow = s.addr := by
  obtain hmax | hat := h.lowAt
  · -- all starts are the greatest address
    refine ⟨first, hfirst, ?_⟩
    have hlow := h.low first hfirst
    have hlt := first.addr.isLt
    rw [hmax] at hlow ⊢
    have htop : (0xFFFFFFFF : U32).toNat = 2 ^ 32 - 1 := rfl
    apply BitVec.eq_of_toNat_eq
    omega
  · exact hat

theorem Loaded.khigh_eq (h : Loaded file before done st) {first : Section} (hfirst : first ∈ done)
    (hnoWrap : ∀ s ∈ done, s.addr.toNat + s.size.toNat < 2 ^ 32) :
    ∃ s ∈ done, st.khigh.toNat = s.addr.toNat + s.size.toNat := by
  obtain hzero | ⟨s, hs, hat⟩ := h.highAt
  · refine ⟨first, hfirst, ?_⟩
    have hhigh := h.high first hfirst
    have hbottom : (0 : U32).toNat = 0 := rfl
    rw [hzero] at hhigh ⊢
    omega
  · refine ⟨s, hs, ?_⟩
    rw [hat, Section.toNat_end (hnoWrap s hs)]

/-- An ELF file in memory is loaded, and its entry point returned. -/
theorem loadElfKernel_loaded {file : Bytes} {base : Addr} {st : Stage2}
    (hfile : Elf.Formed file) (hplaced : Elf.Placed file base) (hstaged : Holds st.mem base file) :
    ∃ st', loadElfKernel base st = some (st', Elf.entry file) ∧
      Loaded file st.mem (Elf.image file) st' := by
  have hheader := hfile.header
  have hoffset : read32 st.mem (base + 32) = BitVec.ofNat 32 (Elf.shOffset file) := by
    have hread : read32 st.mem (base + 32) = word file 32 :=
      read32_of_holds hstaged (i := 32) (by omega)
    rw [hread, Elf.shOffset, BitVec.ofNat_toNat, BitVec.setWidth_eq]
  have hinit : Loaded file st.mem [] { st with klow := 0xFFFFFFFF, khigh := 0 } :=
    ⟨List.forall_mem_nil _, fun _ _ => rfl, List.forall_mem_nil _, List.forall_mem_nil _,
      .inl rfl, .inl rfl⟩
  have hcount : Elf.shCount file < 2 ^ 16 := BitVec.isLt _
  obtain ⟨hloaded, hholds⟩ := @loadFrom_loads file st.mem { st with klow := 0xFFFFFFFF, khigh := 0 }
    base (2 ^ 16) 0 hfile hplaced hstaged hinit (Nat.zero_le _) (by omega)
  refine ⟨_, ?_, hloaded⟩
  rw [loadElfKernel, if_pos (strneq_elfMagic hfile hstaged), hoffset]
  exact congrArg (fun e => some (_, e)) (read32_of_holds hholds (i := 24) (by omega))

theorem load_elf_builds_image {file : Bytes} {base : Addr} {st : Stage2}
    (hfile : Elf.Formed file) (hplaced : Elf.Placed file base) (hstaged : Holds st.mem base file) :
    ∃ st', loadElfKernel base st = some (st', Elf.entry file) ∧
      (∀ s ∈ Elf.sections file, s.type = 1 → s.addr ≠ 0 → ∀ k, k < s.size.toNat →
        st'.mem (s.addr + BitVec.ofNat 32 k) = file.getD (s.offset.toNat + k) 0) ∧
      (∀ s ∈ Elf.sections file, s.type = 8 → ∀ k, k < s.size.toNat →
        st'.mem (s.addr + BitVec.ofNat 32 k) = 0) ∧
      (∀ a, (∀ s ∈ Elf.image file, ¬ s.Covers a) → st'.mem a = st.mem a) ∧
      ((∃ s ∈ Elf.image file, st'.klow = s.addr) ∧
        ∀ s ∈ Elf.image file, st'.klow.toNat ≤ s.addr.toNat) ∧
      ((∃ s ∈ Elf.image file, st'.khigh.toNat = s.addr.toNat + s.size.toNat) ∧
        ∀ s ∈ Elf.image file, s.addr.toNat + s.size.toNat ≤ st'.khigh.toNat) := by
  obtain ⟨st', hload, loaded⟩ := loadElfKernel_loaded hfile hplaced hstaged
  have hmem {s : Section} (hs : s ∈ Elf.sections file) (hl : s.Loads) : s ∈ Elf.image file :=
    List.mem_filter.mpr ⟨hs, decide_eq_true hl⟩
  obtain ⟨first, hfirst⟩ := List.exists_mem_of_ne_nil _ hplaced.loads
  refine ⟨st', hload, ?_, ?_, loaded.frame, ⟨loaded.klow_eq hfirst, loaded.low⟩,
    loaded.khigh_eq hfirst hplaced.noWrap, loaded.high⟩
  · intro s hs htype haddr k hk
    rw [loaded.bytes s (hmem hs (.inl ⟨htype, haddr⟩)) k hk, Section.content, if_pos htype]
  · intro s hs htype k hk
    rw [loaded.bytes s (hmem hs (.inr htype)) k hk, Section.content,
      if_neg (by rw [htype]; decide)]

/-- A kernel with three bytes of code and two zeroed bytes. -/
def smallKernel : Bytes :=
  elfMagic ++ zeros 20 ++ leBytes 4 0x100000 ++ leBytes 4 0 ++ leBytes 4 52 ++ leBytes 4 0 ++
    leBytes 2 52 ++ leBytes 2 32 ++ leBytes 2 0 ++ leBytes 2 40 ++ leBytes 2 2 ++ leBytes 2 0 ++
    (leBytes 4 0 ++ leBytes 4 1 ++ leBytes 4 6 ++ leBytes 4 0x100000 ++ leBytes 4 132 ++
      leBytes 4 3 ++ zeros 16) ++
    (leBytes 4 0 ++ leBytes 4 8 ++ leBytes 4 3 ++ leBytes 4 0x100010 ++ leBytes 4 135 ++
      leBytes 4 2 ++ zeros 16) ++
    [0xFA, 0xF4, 0xEB]

/-- The kernel staged in memory that holds 0xCC elsewhere. -/
def staged : Stage2 where
  mem a := smallKernel.getD (a.toNat - tmpElfAddr.toNat) 0xCC
  klow := 0
  khigh := 0

theorem image_smallKernel :
    Elf.image smallKernel = [⟨1, 0x100000, 132, 3⟩, ⟨8, 0x100010, 135, 2⟩] := by decide

theorem formed_smallKernel : Elf.Formed smallKernel :=
  ⟨by decide +kernel, by decide +kernel, by decide +kernel, by decide +kernel⟩

theorem placed_smallKernel : Elf.Placed smallKernel tmpElfAddr := by
  refine ⟨by decide +kernel, by decide +kernel, ?_, ?_⟩
  · rw [image_smallKernel, List.pairwise_pair]
    intro a hs ht
    have hhi : a.toNat < 0x100000 + 3 := hs.2
    have hlo : 0x100010 ≤ a.toNat := ht.1
    omega
  · rw [image_smallKernel]
    intro s hs a hcovers hin
    have hlo : 0x200000 ≤ a.toNat := hin.1
    have hhi : a.toNat < s.addr.toNat + s.size.toNat := hcovers.2
    have hbelow : ∀ s ∈ [(⟨1, 0x100000, 132, 3⟩ : Section), ⟨8, 0x100010, 135, 2⟩],
        s.addr.toNat + s.size.toNat ≤ 0x200000 := by decide
    exact absurd (hbelow s hs) (by omega)

theorem load_elf_smallKernel :
    ∃ st', loadElfKernel tmpElfAddr staged = some (st', Elf.entry smallKernel) ∧
      (∀ s ∈ Elf.sections smallKernel, s.type = 1 → s.addr ≠ 0 → ∀ k, k < s.size.toNat →
        st'.mem (s.addr + BitVec.ofNat 32 k) = smallKernel.getD (s.offset.toNat + k) 0) ∧
      (∀ s ∈ Elf.sections smallKernel, s.type = 8 → ∀ k, k < s.size.toNat →
        st'.mem (s.addr + BitVec.ofNat 32 k) = 0) ∧
      (∀ a, (∀ s ∈ Elf.image smallKernel, ¬ s.Covers a) → st'.mem a = staged.mem a) ∧
      ((∃ s ∈ Elf.image smallKernel, st'.klow = s.addr) ∧
        ∀ s ∈ Elf.image smallKernel, st'.klow.toNat ≤ s.addr.toNat) ∧
      ((∃ s ∈ Elf.image smallKernel, st'.khigh.toNat = s.addr.toNat + s.size.toNat) ∧
        ∀ s ∈ Elf.image smallKernel, s.addr.toNat + s.size.toNat ≤ st'.khigh.toNat) :=
  load_elf_builds_image formed_smallKernel placed_smallKernel
    ⟨by decide +kernel, by decide +kernel⟩

end Stage2

end DordOs
