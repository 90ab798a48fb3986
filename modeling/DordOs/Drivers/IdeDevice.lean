import DordOs.Drivers.IdeRace
import Mathlib.Logic.Relation

/-!
`ide_read_drive` against one device. The device is busy for a while after the command
and after each sector it has handed over; then its status register keeps one value until
the next of these events. The registers hold the address in 48 bits.
-/
namespace DordOs
open Relation

/-- What the status register answers after an event: BSY for a while, then a value
without it. -/
structure AtaPoll where
  busy : List U8
  ready : U8
  busy_set : ∀ status ∈ busy, status &&& ataSrBsy ≠ 0
  ready_clear : ready &&& ataSrBsy = 0

namespace AtaPoll

def status (p : AtaPoll) : U8 := p.busy.headD p.ready

/-- One port access later. -/
def elapse (p : AtaPoll) : AtaPoll :=
  { p with
    busy := p.busy.tail
    busy_set := fun status h => p.busy_set status (List.mem_of_mem_tail h) }

def settled (p : AtaPoll) : AtaPoll :=
  { p with
    busy := []
    busy_set := List.forall_mem_nil _ }

end AtaPoll

/-- How a device answers before the command, after the command and `k` sectors, and on
a data port with nothing to stream. -/
structure AtaDevice where
  before : AtaPoll
  after : Nat → AtaPoll
  floating : U16

/-- A call of `ide_read_drive` and the device it talks to. -/
structure AtaSession where
  channel : AtaChannel
  poll : AtaPoll
  read : IdeRead

/-- How many words the command has delivered. -/
def AtaChannel.delivered (s : AtaChannel) : Nat :=
  match s.transfer with
  | none => 0
  | some t => t.pos

namespace AtaDevice

def enter (d : AtaDevice) (s : AtaChannel) (req : IdeRequest) : AtaSession :=
  ⟨s, d.before, ideEnter req⟩

/-- The status after the access at `pc`: the command and the last word of a sector make
the device busy anew. -/
def poll (d : AtaDevice) (pc : IdePc) (s s' : AtaChannel) (p : AtaPoll) : AtaPoll :=
  match pc with
  | .command => d.after 0
  | .inw _ _ =>
      if s.delivered < s'.delivered ∧ s'.delivered % 256 = 0 then d.after (s'.delivered / 256)
      else p.elapse
  | _ => p.elapse

/-- The next port access, until the call returns. -/
def next (d : AtaDevice) (disks : Disks) (t : AtaSession) : Option AtaSession :=
  match t.read.pc with
  | .done _ => none
  | pc =>
      let (s, r) := ideNext disks t.channel t.read ⟨t.poll.status, d.floating⟩
      some ⟨s, d.poll pc t.channel s t.poll, r⟩

def run (d : AtaDevice) (disks : Disks) : Nat → AtaSession → Option AtaSession
  | 0, t => some t
  | n + 1, t => (d.next disks t).bind (d.run disks n)

def Step (d : AtaDevice) (disks : Disks) (t u : AtaSession) : Prop := d.next disks t = some u

/-- The device announces an error in front of sector `k`. -/
def Fails (d : AtaDevice) (k : Nat) : Prop :=
  (d.after k).ready &&& ataSrErr ≠ 0 ∨ (d.after k).ready &&& ataSrDf ≠ 0

/-- The device offers sector `k`. -/
def Offers (d : AtaDevice) (k : Nat) : Prop := (d.after k).ready &&& ataSrDrq ≠ 0

instance (d : AtaDevice) (k : Nat) : Decidable (d.Fails k) := inferInstanceAs (Decidable (_ ∨ _))

instance (d : AtaDevice) (k : Nat) : Decidable (d.Offers k) := inferInstanceAs (Decidable (_ ≠ _))

end AtaDevice

/-- What the registers make of a request: 48 bits of the address. -/
def IdeRequest.decoded (req : IdeRequest) : IdeRequest :=
  { req with lba := (req.lba.setWidth 48).setWidth 64 }

/-- The channel after the drive select and the eight writes of a request. -/
def AtaChannel.requested (s : AtaChannel) (req : IdeRequest) : AtaChannel :=
  (List.finRange 8).foldl (fun s k => s.outb (ideOutb req k).1 (ideOutb req k).2)
    (s.outb .devsel (0x40 ||| (req.bus.toU8 <<< 4)))

variable {d : AtaDevice} {disks : Disks} {s : AtaChannel} {p : AtaPoll} {req : IdeRequest}
  {t u : AtaSession}

theorem IdeRequest.decoded_of_lt (h : req.lba.toNat < 2 ^ 48) : req.decoded = req := by
  have hlba : (req.lba.setWidth 48).setWidth 64 = req.lba := by
    apply BitVec.eq_of_toNat_eq
    rw [BitVec.toNat_setWidth, BitVec.toNat_setWidth]
    omega
  rw [IdeRequest.decoded, hlba]

/-- The registers put the bytes back together; a count of 65536 leaves both of its bytes
zero, which stand for it. -/
theorem AtaChannel.requested_decodes (s : AtaChannel) (hpos : 1 ≤ req.sectorCount.toNat)
    (hle : req.sectorCount.toNat ≤ 65536) : (s.requested req).Decodes req.decoded := by
  constructor
  · change (if (0x40 ||| (req.bus.toU8 <<< 4) : U8).getLsbD 4 then AtaBus.slave else .master) =
      req.bus
    cases req.bus <;> rfl
  · change (req.lba.setWidth 8).toNat + ((req.lba >>> 8).setWidth 8).toNat * 2 ^ 8 +
      ((req.lba >>> 16).setWidth 8).toNat * 2 ^ 16 + ((req.lba >>> 24).setWidth 8).toNat * 2 ^ 24 +
      ((req.lba >>> 32).setWidth 8).toNat * 2 ^ 32 + ((req.lba >>> 40).setWidth 8).toNat * 2 ^ 40 =
      ((req.lba.setWidth 48).setWidth 64).toNat
    simp only [BitVec.toNat_setWidth, BitVec.toNat_ushiftRight, Nat.shiftRight_eq_div_pow]
    omega
  · change (if (req.sectorCount.setWidth 8).toNat +
        ((req.sectorCount >>> 8).setWidth 8).toNat * 2 ^ 8 = 0 then 65536
      else (req.sectorCount.setWidth 8).toNat +
        ((req.sectorCount >>> 8).setWidth 8).toNat * 2 ^ 8) = req.sectorCount.toNat
    simp only [BitVec.toNat_setWidth, BitVec.toNat_ushiftRight, Nat.shiftRight_eq_div_pow]
    split <;> omega

theorem AtaChannel.Streaming.delivered {n : Nat} (h : s.Streaming req n) : s.delivered = n := by
  rw [AtaChannel.delivered, h.transfer]

namespace AtaDevice

theorem step_rightUnique : Relator.RightUnique (d.Step disks) :=
  fun _ _ _ h h' => Option.some.inj (h.symm.trans h')

theorem not_step_of_done {err : Err} (h : t.read.pc = .done err) : ¬ d.Step disks t u := by
  intro hstep
  rw [Step, next, h] at hstep
  cases hstep

theorem reaches_of_run {n : Nat} (h : d.run disks n t = some u) :
    ReflTransGen (d.Step disks) t u := by
  induction n generalizing t with
  | zero =>
      cases h
      exact .refl
  | succ n ih =>
      obtain ⟨v, hv, hrest⟩ := Option.bind_eq_some_iff.mp h
      exact .head hv (ih hrest)

/-- `ide_wait_bsy` waits until the status has settled. -/
theorem reaches_wait {wait pc : IdePc} {dst : List U16}
    (hstep : ∀ p : AtaPoll, d.Step disks ⟨s, p, ⟨req, wait, dst⟩⟩
      ⟨s, p.elapse, ⟨req, if p.status &&& ataSrBsy ≠ 0 then wait else pc, dst⟩⟩) (p : AtaPoll) :
    ReflTransGen (d.Step disks) ⟨s, p, ⟨req, wait, dst⟩⟩ ⟨s, p.settled, ⟨req, pc, dst⟩⟩ := by
  obtain ⟨busy, ready, hbusy, hready⟩ := p
  induction busy with
  | nil =>
      have h := hstep ⟨[], ready, hbusy, hready⟩
      have hclear : ¬ (AtaPoll.mk [] ready hbusy hready).status &&& ataSrBsy ≠ 0 :=
        not_not_intro hready
      rw [if_neg hclear] at h
      exact .single h
  | cons status busy ih =>
      obtain ⟨hstatus, hrest⟩ := List.forall_mem_cons.mp hbusy
      have h := hstep ⟨status :: busy, ready, hbusy, hready⟩
      have hset : (AtaPoll.mk (status :: busy) ready hbusy hready).status &&& ataSrBsy ≠ 0 :=
        hstatus
      rw [if_pos hset] at h
      exact .head h (ih hrest)

/-- The command is issued and the device has looked at it. -/
theorem reaches_status (d : AtaDevice) (disks : Disks) (s : AtaChannel) (req : IdeRequest) :
    ReflTransGen (d.Step disks) (d.enter s req)
      ⟨(s.requested req).outb .command ataCmdReadPioExt, (d.after 0).settled,
        ⟨req, .status, []⟩⟩ := by
  have hselect : ReflTransGen (d.Step disks) (d.enter s req)
      ⟨s, d.before.settled, ⟨req, .devsel, []⟩⟩ := reaches_wait (by exact fun _ => rfl) d.before
  have hcommand : ReflTransGen (d.Step disks) ⟨s, d.before.settled, ⟨req, .devsel, []⟩⟩
      ⟨(s.requested req).outb .command ataCmdReadPioExt, (d.after 0).elapse.elapse.elapse.elapse,
        ⟨req, .waitCommand, []⟩⟩ := reaches_of_run (n := 18) rfl
  exact (hselect.trans hcommand).trans (reaches_wait (by exact fun _ => rfl) _)

end AtaDevice

end DordOs
