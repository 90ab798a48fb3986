import DordOs.Libk.Align
import DordOs.Libk.Err

/-!
An ATA channel and `ide_read_drive` on it, one port access a step. The channel
remembers the last two values written to the sector count and LBA registers,
carries out one command at a time and streams the sectors of the command last
issued through its data port. What the status register answers, and what the
data port answers when there is nothing to stream, is up to the environment.
-/
namespace DordOs

inductive AtaBus
  | master
  | slave
  deriving DecidableEq

def AtaBus.toU8 : AtaBus → U8
  | .master => 0x00
  | .slave => 0x01

def ataSrBsy : U8 := 0x80
def ataSrDf : U8 := 0x20
def ataSrDrq : U8 := 0x08
def ataSrErr : U8 := 0x01
def ataCmdReadPioExt : U8 := 0x24

/-- The words of every sector of the drives on a channel. -/
abbrev Disks := AtaBus → Nat → Nat → U16

/-- A register that remembers the previous write. -/
structure RegPair where
  previous : U8
  current : U8
  deriving DecidableEq

def RegPair.write (r : RegPair) (val : U8) : RegPair := ⟨r.current, val⟩

/-- The command being carried out, and how many words it has delivered. -/
structure AtaTransfer where
  bus : AtaBus
  lba : Nat
  count : Nat
  pos : Nat
  deriving DecidableEq

inductive AtaReg
  | seccount
  | lba0
  | lba1
  | lba2
  | devsel
  | command
  deriving DecidableEq

structure AtaChannel where
  seccount : RegPair
  lba0 : RegPair
  lba1 : RegPair
  lba2 : RegPair
  devsel : U8
  transfer : Option AtaTransfer
  deriving DecidableEq

namespace AtaChannel

def bus (s : AtaChannel) : AtaBus := if s.devsel.getLsbD 4 then .slave else .master

/-- The 48-bit address: the current writes hold bytes 0 to 2, the previous ones
bytes 3 to 5. -/
def lba (s : AtaChannel) : Nat :=
  s.lba0.current.toNat + s.lba1.current.toNat * 2 ^ 8 + s.lba2.current.toNat * 2 ^ 16 +
    s.lba0.previous.toNat * 2 ^ 24 + s.lba1.previous.toNat * 2 ^ 32 +
    s.lba2.previous.toNat * 2 ^ 40

def count (s : AtaChannel) : Nat :=
  let n := s.seccount.current.toNat + s.seccount.previous.toNat * 2 ^ 8
  if n = 0 then 65536 else n

def outb (s : AtaChannel) (reg : AtaReg) (val : U8) : AtaChannel :=
  match reg with
  | .seccount => { s with seccount := s.seccount.write val }
  | .lba0 => { s with lba0 := s.lba0.write val }
  | .lba1 => { s with lba1 := s.lba1.write val }
  | .lba2 => { s with lba2 := s.lba2.write val }
  | .devsel => { s with devsel := val }
  | .command =>
      if val = ataCmdReadPioExt then { s with transfer := some ⟨s.bus, s.lba, s.count, 0⟩ } else s

end AtaChannel

/-- Word `k` of a read of drive `bus` from sector `lba` on. -/
def Disks.word (disks : Disks) (bus : AtaBus) (lba k : Nat) : U16 :=
  disks bus (lba + k / 256) (k % 256)

/-- The data port: the next word of the transfer, or a floating value. -/
def AtaChannel.inw (s : AtaChannel) (disks : Disks) (floating : U16) : U16 × AtaChannel :=
  match s.transfer with
  | none => (floating, s)
  | some t =>
      if t.pos < 256 * t.count then
        (disks.word t.bus t.lba t.pos, { s with transfer := some { t with pos := t.pos + 1 } })
      else (floating, s)

/-- The arguments of `ide_read_drive`. -/
structure IdeRequest where
  bus : AtaBus
  lba : U64
  sectorCount : U64
  deriving DecidableEq

/-- The next port access of `ide_read_drive`. -/
inductive IdePc
  | waitBsy
  | devsel
  | delayDevsel (i : U32)
  | outb (k : Fin 8)
  | command
  | delayCommand (i : U32)
  | waitCommand
  | status
  | error
  | waitSector (i : U32)
  | awaitDrq (i : U32)
  | inw (i j : U32)
  | waitDone
  | done (err : Err)
  deriving DecidableEq

structure IdeRead where
  req : IdeRequest
  pc : IdePc
  dst : List U16
  deriving DecidableEq

/-- The eight writes to the sector count and LBA registers, high values first. -/
def ideOutb (req : IdeRequest) : Fin 8 → AtaReg × U8
  | 0 => (.seccount, (req.sectorCount >>> 8).setWidth 8)
  | 1 => (.lba0, (req.lba >>> 24).setWidth 8)
  | 2 => (.lba1, (req.lba >>> 32).setWidth 8)
  | 3 => (.lba2, (req.lba >>> 40).setWidth 8)
  | 4 => (.seccount, req.sectorCount.setWidth 8)
  | 5 => (.lba0, req.lba.setWidth 8)
  | 6 => (.lba1, (req.lba >>> 8).setWidth 8)
  | 7 => (.lba2, (req.lba >>> 16).setWidth 8)

/-- The head of the sector loop. -/
def ideSectors (req : IdeRequest) (i : U32) : IdePc :=
  if i.setWidth 64 < req.sectorCount then .waitSector i else .waitDone

def ideEnter (req : IdeRequest) : IdeRead := ⟨req, .waitBsy, []⟩

/-- What the environment answers to a read: the status register and the floating
data bus. -/
structure AtaAnswer where
  status : U8
  floating : U16
  deriving DecidableEq

def ideNext (disks : Disks) (s : AtaChannel) (r : IdeRead) (a : AtaAnswer) : AtaChannel × IdeRead :=
  match r.pc with
  | .waitBsy => (s, { r with pc := if a.status &&& ataSrBsy ≠ 0 then .waitBsy else .devsel })
  | .devsel => (s.outb .devsel (0x40 ||| (r.req.bus.toU8 <<< 4)), { r with pc := .delayDevsel 0 })
  | .delayDevsel i => (s, { r with pc := if i + 1 < 4 then .delayDevsel (i + 1) else .outb 0 })
  | .outb k =>
      (s.outb (ideOutb r.req k).1 (ideOutb r.req k).2,
        { r with pc := if h : k.val + 1 < 8 then .outb ⟨k.val + 1, h⟩ else .command })
  | .command => (s.outb .command ataCmdReadPioExt, { r with pc := .delayCommand 0 })
  | .delayCommand i =>
      (s, { r with pc := if i + 1 < 4 then .delayCommand (i + 1) else .waitCommand })
  | .waitCommand =>
      (s, { r with pc := if a.status &&& ataSrBsy ≠ 0 then .waitCommand else .status })
  | .status =>
      (s, { r with pc :=
        if a.status &&& ataSrErr ≠ 0 then .error
        else if a.status &&& ataSrDf ≠ 0 then .done .unknHrdw
        else ideSectors r.req 0 })
  | .error => (s, { r with pc := .done .unknHrdw })
  | .waitSector i =>
      (s, { r with pc := if a.status &&& ataSrBsy ≠ 0 then .waitSector i else .awaitDrq i })
  | .awaitDrq i =>
      (s, { r with pc := if a.status &&& ataSrDrq = 0 then .awaitDrq i else .inw i 0 })
  | .inw i j =>
      let (word, s) := s.inw disks a.floating
      (s, { r with
        dst := r.dst ++ [word]
        pc := if j + 1 < 256 then .inw i (j + 1) else ideSectors r.req (i + 1) })
  | .waitDone =>
      (s, { r with pc := if a.status &&& ataSrBsy ≠ 0 then .waitDone else .done .ok })
  | .done _ => (s, r)

/-- The first `n` words of the sectors asked for. -/
def IdeRequest.words (req : IdeRequest) (disks : Disks) (n : Nat) : List U16 :=
  (List.range n).map (disks.word req.bus req.lba.toNat)

/-- The registers hold the request. -/
structure AtaChannel.Decodes (s : AtaChannel) (req : IdeRequest) : Prop where
  bus : s.bus = req.bus
  lba : s.lba = req.lba.toNat
  count : s.count = req.sectorCount.toNat

instance (s : AtaChannel) (req : IdeRequest) : Decidable (s.Decodes req) :=
  decidable_of_iff (s.bus = req.bus ∧ s.lba = req.lba.toNat ∧ s.count = req.sectorCount.toNat)
    ⟨fun h => ⟨h.1, h.2.1, h.2.2⟩, fun h => ⟨h.bus, h.lba, h.count⟩⟩

/-- Between the command and the last word of its data. -/
def IdePc.Transferring : IdePc → Prop
  | .delayCommand _ | .waitCommand | .status | .waitSector _ | .awaitDrq _ | .inw _ _ => True
  | _ => False

instance (pc : IdePc) : Decidable pc.Transferring :=
  match pc with
  | .delayCommand _ | .waitCommand | .status | .waitSector _ | .awaitDrq _ | .inw _ _ =>
      .isTrue trivial
  | .waitBsy | .devsel | .delayDevsel _ | .outb _ | .command | .error | .waitDone | .done _ =>
      .isFalse not_false

end DordOs
