import DordOs.Lib.Loop
import DordOs.Lib.Region
import DordOs.Lib.Traced
import DordOs.Lib.Walk
import DordOs.Libk.Memory
import DordOs.Stage2.Elf

/-!
The ACPI tables of the firmware: finding the root pointer, checking tables, and the walk
over the records of the APIC table. `acpi_initialize` is a machine that takes one table
or one record at a step, so that a walk that does not end is a run like any other. It
notes the entries of the RSDT and the bytes of records it reads and the entries of the
arrays it writes.
-/
namespace DordOs
open Lib

/-- The bytes from `a` on as a string. -/
def strAt (m : Mem) (a : Addr) (k : Nat) : U8 := m (a + BitVec.ofNat 32 k)

def strOf (bytes : Bytes) (k : Nat) : U8 := bytes.getD k 0

def rsdPtr : Bytes := [0x52, 0x53, 0x44, 0x20, 0x50, 0x54, 0x52, 0x20]

/-- `for (i = lo; i < hi; ++i) checksum += ((u8*)a)[i];` -/
def checksumLoop (m : Mem) (a : Addr) (lo hi : U32) (checksum : U8) : U8 :=
  forUp lo hi (fun i checksum => checksum + m (a + i)) checksum

def acpiRsdpSize : U32 := 20
def acpiRsdp2Size : U32 := 36

def acpiRsdpValidate (m : Mem) (rsdp : Addr) : Bool :=
  if ¬ strneq (strAt m rsdp) (strOf rsdPtr) 8 then false
  else
    let checksum := checksumLoop m rsdp 0 acpiRsdpSize 0
    if checksum ≠ 0 then false
    else
      let rev := m (rsdp + 15)
      if rev = 2 then checksumLoop m rsdp acpiRsdpSize acpiRsdp2Size checksum = 0
      else rev = 0

/-- The loops of `acpi_find_rsdp`: `n` places, 16 bytes apart. -/
def rsdpScan (m : Mem) : Nat → Addr → Option Addr
  | 0, _ => none
  | n + 1, it =>
      if m it ≠ 0x52 then rsdpScan m n (it + 16)
      else if acpiRsdpValidate m it then some it
      else rsdpScan m n (it + 16)

/-- Null when there is none. -/
def acpiFindRsdp (m : Mem) : Addr :=
  let ebda := (read16 m 0x040E).setWidth 32
  match rsdpScan m 64 ebda with
  | some rsdp => rsdp
  | none => (rsdpScan m 8192 0xE0000).getD 0

/-- `sdt->len`. -/
def sdtLen (m : Mem) (sdt : Addr) : U32 := read32 m (sdt + 4)

def acpiValidateSdt (m : Mem) (sdt : Addr) : Bool := checksumLoop m sdt 0 (sdtLen m sdt) 0 = 0

/-- `signature[5]`, the copy with a terminator. -/
def sdtSignature (m : Mem) (sdt : Addr) (k : Nat) : U8 := if k < 4 then strAt m sdt k else 0

def sdtHeaderSize : U32 := 36
def acpiMadtSize : U32 := 44

/-- `rsdp->rsdt_addr`. -/
def rsdtAddr (m : Mem) (rsdp : Addr) : Addr := read32 m (rsdp + 16)

def sdtAddrCount (m : Mem) (rsdt : Addr) : U32 := (sdtLen m rsdt - sdtHeaderSize) / 4

/-- `rsdt->sdt_addr_table[i]`. -/
def sdtAddr (m : Mem) (rsdt : Addr) (i : U32) : Addr := read32 m (rsdt + 36 + 4 * i)

/-- An entry of the RSDT or byte `off` of the record at `it` is read, or an entry of one
of the arrays is written. -/
inductive AcpiUse
  | entry (i : U32)
  | field (it stop : Addr) (off : Nat)
  | lapicId (i : Nat)
  | mapping (i : Nat)
  deriving DecidableEq

def sdtEntry (m : Mem) (rsdt : Addr) (i : U32) : Traced AcpiUse Addr := do
  note (.entry i)
  return sdtAddr m rsdt i

def isApic (m : Mem) (sdt : Addr) : Bool :=
  strneq (sdtSignature m sdt) (strOf [0x41, 0x50, 0x49, 0x43]) 4

def isFacp (m : Mem) (sdt : Addr) : Bool :=
  strneq (sdtSignature m sdt) (strOf [0x46, 0x41, 0x43, 0x50]) 4

/-- The globals, each array with the bytes behind it, and the locals of the record loop. -/
structure Acpi where
  fadt : Addr
  acpiLapic : Usz
  acpiIoapic : Usz
  acpiCpuCount : U8
  acpiLapicIds : Region
  acpiIntrMappings : Region
  lapic : Usz
  ioapic : Usz

/-- Where `acpi_initialize` is: at the head of the loop over the tables, or of the loop
over the records of table `i` with `it` and `end`. -/
inductive AcpiPlace
  | table (i : U32)
  | record (i : U32) (it stop : Addr)
  deriving DecidableEq

/-- `it[off]`, in a table that ends at `stop`. -/
def madtByte (m : Mem) (it stop : Addr) (off : Nat) : Traced AcpiUse U8 := do
  note (.field it stop off)
  return m (it + BitVec.ofNat 32 off)

/-- `*((u32*)&it[4])`. -/
def madtWord (m : Mem) (it stop : Addr) : Traced AcpiUse U32 := do
  let b4 ← madtByte m it stop 4
  let b5 ← madtByte m it stop 5
  let b6 ← madtByte m it stop 6
  let b7 ← madtByte m it stop 7
  return BitVec.ofNat 32 (leValue [b4, b5, b6, b7])

/-- `acpi_lapic_ids[i] = id`. -/
def putLapicId (i : Nat) (id : U8) (acpi : Acpi) : Traced AcpiUse Acpi := do
  note (.lapicId i)
  return { acpi with acpiLapicIds := acpi.acpiLapicIds.put i [id] }

/-- `acpi_intr_mappings[i] = intr`. -/
def putMapping (i : Nat) (intr : U8) (acpi : Acpi) : Traced AcpiUse Acpi := do
  note (.mapping i)
  return { acpi with acpiIntrMappings := acpi.acpiIntrMappings.put i [intr] }

/-- The `switch` on the type of the record at `it`. What `dbg_printf` is given is read
once more. -/
def madtRecord (m : Mem) (it stop : Addr) (acpi : Acpi) : Traced AcpiUse Acpi := do
  let type ← madtByte m it stop 0
  if type = 0 then
    let flags ← madtWord m it stop
    if flags &&& 1 ≠ 0 ∨ flags &&& 2 ≠ 0 then
      let id ← madtByte m it stop 3
      let acpi ← putLapicId acpi.acpiCpuCount.toNat id acpi
      let _ ← madtByte m it stop 3
      return { acpi with acpiCpuCount := acpi.acpiCpuCount + 1 }
    else return acpi
  else if type = 1 then
    let ioapic ← madtWord m it stop
    return { acpi with ioapic := ioapic }
  else if type = 2 then
    let id ← madtByte m it stop 3
    let gsi ← madtByte m it stop 4
    let acpi ← putMapping gsi.toNat id acpi
    let _ ← madtByte m it stop 4
    let _ ← madtByte m it stop 3
    return acpi
  else if type = 5 then
    let lapic ← madtWord m it stop
    return { acpi with lapic := lapic }
  else return acpi

/-- One round of the loop the machine is in; `none` at the end. -/
def acpiRound (m : Mem) (rsdt : Addr) :
    AcpiPlace × Acpi → Option (Traced AcpiUse (AcpiPlace × Acpi))
  | (.table i, acpi) =>
      if i < sdtAddrCount m rsdt then some do
        let header ← sdtEntry m rsdt i
        if ¬ acpiValidateSdt m header then return (.table (i + 1), acpi)
        else if isApic m header then
          let acpi := { acpi with lapic := read32 m (header + 36), ioapic := 0 }
          let it := header + acpiMadtSize
          let stop := it + sdtLen m header - acpiMadtSize
          return (.record i it stop, acpi)
        else if isFacp m header then return (.table (i + 1), { acpi with fadt := header })
        else return (.table (i + 1), acpi)
      else none
  | (.record i it stop, acpi) =>
      if it < stop then some do
        let acpi ← madtRecord m it stop acpi
        let len ← madtByte m it stop 1
        return (.record i (it + len.setWidth 32) stop, acpi)
      else
        some (return (.table (i + 1),
          { acpi with acpiLapic := acpi.lapic, acpiIoapic := acpi.ioapic }))

/-- Where the round leads and what it makes of the data. -/
def acpiStep (m : Mem) (rsdt : Addr) (st : AcpiPlace × Acpi) : Option (AcpiPlace × Acpi) :=
  (acpiRound m rsdt st).map Traced.value

/-- `k` rounds, if there are as many. -/
def acpiRun (m : Mem) (rsdt : Addr) (k : Nat) (st : AcpiPlace × Acpi) : Option (AcpiPlace × Acpi) :=
  walk (acpiStep m rsdt) k st

/-- `acpi_intr_mappings[i] = i` for its 24 entries. -/
def acpiReset (acpi : Acpi) : Traced AcpiUse Acpi :=
  forUp (0 : U32) 24
    (fun i (reset : Traced AcpiUse Acpi) => do putMapping i.toNat (i.setWidth 8) (← reset))
    (pure acpi)

/-- `acpi_initialize` after `k` rounds; it does nothing more when there is no ACPI. -/
def acpiInitialize (m : Mem) (acpi : Acpi) (k : Nat) : Option (AcpiPlace × Acpi) :=
  let rsdp := acpiFindRsdp m
  if rsdp = 0 then none else acpiRun m (rsdtAddr m rsdp) k (.table 0, (acpiReset acpi).value)

/-- The globals at boot. -/
def acpiBoot : Acpi where
  fadt := 0
  acpiLapic := 0
  acpiIoapic := 0
  acpiCpuCount := 0
  acpiLapicIds := fun _ => 0
  acpiIntrMappings := fun _ => 0
  lapic := 0
  ioapic := 0

/-- Memory with `l` at `base`, and zeros. -/
def memOf (base : Nat) (l : Bytes) : Mem := fun a =>
  if base ≤ a.toNat then l.getD (a.toNat - base) 0 else 0

/-- A root pointer at 0x500, where the search looks, to tables at 0x600. -/
def acpiMem (tables : Bytes) : Mem := fun a =>
  if a = 0x040F then 5
  else if a.toNat < 0x600 then
    memOf 0x500 (rsdPtr ++ [0xDB, 0, 0, 0, 0, 0, 0, 0, 0, 6, 0, 0]) a
  else memOf 0x600 tables a

end DordOs
