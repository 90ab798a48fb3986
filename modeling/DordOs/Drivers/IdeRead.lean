import DordOs.Drivers.IdeDevice
import DordOs.Lib.Trail

/-!
The sector loop of `ide_read_drive` and how its calls end. The error bits of the status
are looked at once, after the command; in front of every later sector the loop waits for
DRQ alone.
-/
namespace DordOs
open Lib Relation

/-- The call is at `pc`; the device has delivered `n` words, and the driver stored them. -/
structure AtaSession.At (disks : Disks) (req : IdeRequest) (pc : IdePc) (n : Nat)
    (t : AtaSession) : Prop where
  read : t.read = ⟨req, pc, req.decoded.words disks n⟩
  streaming : t.channel.Streaming req.decoded n

/-- The head of the loop for sector `k`, with the device's answer to come. -/
structure AtaDevice.AtSector (d : AtaDevice) (disks : Disks) (req : IdeRequest) (k : Nat)
    (t : AtaSession) : Prop where
  loop : t.At disks req (ideSectors req (BitVec.ofNat 32 k)) (256 * k)
  ready : t.poll.ready = (d.after k).ready

variable {d : AtaDevice} {disks : Disks} {s : AtaChannel} {req : IdeRequest} {t u : AtaSession}
  {k n : Nat}

theorem ideSectors_ofNat (hk : k < 2 ^ 32) : ideSectors req (BitVec.ofNat 32 k) =
    if k < req.sectorCount.toNat then .waitSector (BitVec.ofNat 32 k) else .waitDone := by
  have hiff : (BitVec.ofNat 32 k).setWidth 64 < req.sectorCount ↔ k < req.sectorCount.toNat := by
    rw [BitVec.lt_def, BitVec.toNat_setWidth, BitVec.toNat_ofNat, Nat.mod_eq_of_lt hk,
      Nat.mod_eq_of_lt (by omega)]
  rw [ideSectors]
  exact if_congr hiff rfl rfl

namespace AtaDevice

theorem poll_word {s' : AtaChannel} {p : AtaPoll} (i j : U32) (hs : s.delivered = n)
    (hs' : s'.delivered = n + 1) : d.poll (.inw i j) s s' p =
      if (n + 1) % 256 = 0 then d.after ((n + 1) / 256) else p.elapse := by
  simp only [poll]
  rw [hs, hs']
  exact if_congr (and_iff_right (Nat.lt_succ_self n)) rfl rfl

theorem step_word {i j : U32} (h : t.At disks req (.inw i j) n)
    (hn : n < 256 * req.sectorCount.toNat) :
    ∃ u, d.Step disks t u ∧
      u.At disks req (if j + 1 < 256 then .inw i (j + 1) else ideSectors req (i + 1)) (n + 1) ∧
      u.poll = if (n + 1) % 256 = 0 then d.after ((n + 1) / 256) else t.poll.elapse := by
  obtain ⟨s, p, r⟩ := t
  obtain ⟨hread, hs⟩ := h
  dsimp only at hread hs
  obtain ⟨hword, hs'⟩ := @AtaChannel.Streaming.inw disks s ⟨req.decoded, .inw i j, []⟩ _ hs hn
    d.floating
  dsimp only at hword hs'
  rw [hread]
  refine ⟨_, rfl, ⟨?_, hs'⟩, poll_word i j hs.delivered hs'.delivered⟩
  rw [words_succ, ← hword]
  rfl

theorem reaches_word {i : U32} {j : Nat} (hj : j < 256) (hk : k < req.sectorCount.toNat)
    (h : t.At disks req (.inw i 0) (256 * k)) (hpoll : t.poll.elapse = t.poll) :
    ∃ u, ReflTransGen (d.Step disks) t u ∧
      u.At disks req (.inw i (BitVec.ofNat 32 j)) (256 * k + j) ∧ u.poll = t.poll := by
  induction j with
  | zero => exact ⟨t, .refl, h, rfl⟩
  | succ j ih =>
      obtain ⟨u, hu, hat, hsame⟩ := ih (by omega)
      obtain ⟨v, hv, hnext, helapse⟩ := step_word (d := d) hat (by omega)
      have hlt : BitVec.ofNat 32 j + 1 < 256 := by
        rw [BitVec.lt_def, BitVec.toNat_add, BitVec.toNat_ofNat]
        change (j % 2 ^ 32 + 1) % 2 ^ 32 < 256
        omega
      rw [if_pos hlt] at hnext
      rw [if_neg (by omega), hsame, hpoll] at helapse
      refine ⟨v, hu.tail hv, ?_, helapse⟩
      rw [BitVec.ofNat_add]
      exact hnext

theorem reaches_sector (hk : k < req.sectorCount.toNat)
    (h : t.At disks req (.inw (BitVec.ofNat 32 k) 0) (256 * k)) (hpoll : t.poll.elapse = t.poll) :
    ∃ u, ReflTransGen (d.Step disks) t u ∧ d.AtSector disks req (k + 1) u := by
  obtain ⟨u, hu, hat, -⟩ := reaches_word (d := d) (j := 255) (by omega) hk h hpoll
  obtain ⟨v, hv, hnext, hafter⟩ := step_word (d := d) hat (by omega)
  rw [if_neg (by decide)] at hnext
  rw [if_pos (by omega)] at hafter
  have hcount : (256 * k + 255 + 1) / 256 = k + 1 := by omega
  have hwords : 256 * (k + 1) = 256 * k + 255 + 1 := by omega
  refine ⟨v, hu.tail hv, ⟨?_, ?_⟩⟩
  · rw [BitVec.ofNat_add, hwords]
    exact hnext
  · rw [hafter, hcount]

theorem step_await (d : AtaDevice) (disks : Disks) (s : AtaChannel) (p : AtaPoll)
    (req : IdeRequest) (i : U32) (dst : List U16) :
    d.Step disks ⟨s, p.settled, ⟨req, .awaitDrq i, dst⟩⟩ ⟨s, p.settled,
      ⟨req, if p.ready &&& ataSrDrq = 0 then .awaitDrq i else .inw i 0, dst⟩⟩ :=
  rfl

/-- The only look at the error bits. -/
theorem step_status (d : AtaDevice) (disks : Disks) (s : AtaChannel) (p : AtaPoll)
    (req : IdeRequest) (dst : List U16) :
    d.Step disks ⟨s, p.settled, ⟨req, .status, dst⟩⟩ ⟨s, p.settled,
      ⟨req, if p.ready &&& ataSrErr ≠ 0 then .error
        else if p.ready &&& ataSrDf ≠ 0 then .done .unknHrdw
        else ideSectors req 0, dst⟩⟩ :=
  rfl

/-- The driver sees the settled status of sector `k`. -/
theorem AtSector.await (h : d.AtSector disks req k t) (hk : k < req.sectorCount.toNat) :
    ∃ s : AtaChannel, s.Streaming req.decoded (256 * k) ∧ ReflTransGen (d.Step disks) t
      ⟨s, t.poll.settled, ⟨req, .awaitDrq (BitVec.ofNat 32 k),
        req.decoded.words disks (256 * k)⟩⟩ := by
  obtain ⟨⟨hread, hs⟩, -⟩ := h
  have hcount := hs.count
  change req.sectorCount.toNat ≤ 65536 at hcount
  rw [ideSectors_ofNat (by omega), if_pos hk] at hread
  obtain ⟨s, p, r⟩ := t
  dsimp only at hread hs
  rw [hread]
  exact ⟨s, hs, reaches_wait (by exact fun _ => rfl) p⟩

theorem AtSector.next (h : d.AtSector disks req k t) (hk : k < req.sectorCount.toNat)
    (offers : d.Offers k) :
    ∃ u, ReflTransGen (d.Step disks) t u ∧ d.AtSector disks req (k + 1) u := by
  obtain ⟨s, hs, hwait⟩ := h.await hk
  have hstep := step_await d disks s t.poll req (BitVec.ofNat 32 k)
    (req.decoded.words disks (256 * k))
  rw [h.ready, if_neg offers] at hstep
  let u : AtaSession := ⟨s, t.poll.settled,
    ⟨req, .inw (BitVec.ofNat 32 k) 0, req.decoded.words disks (256 * k)⟩⟩
  have hat : u.At disks req (.inw (BitVec.ofNat 32 k) 0) (256 * k) := ⟨rfl, hs⟩
  obtain ⟨v, hv, hsector⟩ := reaches_sector (d := d) hk hat rfl
  exact ⟨v, (hwait.tail hstep).trans hv, hsector⟩

/-- Without DRQ the loop goes round for ever. -/
theorem AtSector.hangs (h : d.AtSector disks req k t) (hk : k < req.sectorCount.toNat)
    (offers : ¬ d.Offers k) :
    ∃ u, ReflTransGen (d.Step disks) t u ∧ TransGen (d.Step disks) u u := by
  obtain ⟨s, -, hwait⟩ := h.await hk
  have hstep := step_await d disks s t.poll req (BitVec.ofNat 32 k)
    (req.decoded.words disks (256 * k))
  rw [h.ready, if_pos (not_not.mp offers)] at hstep
  exact ⟨_, hwait, .single hstep⟩

theorem AtSector.returns (h : d.AtSector disks req req.sectorCount.toNat t) :
    ∃ u, ReflTransGen (d.Step disks) t u ∧
      u.At disks req (.done .ok) (256 * req.sectorCount.toNat) := by
  obtain ⟨⟨hread, hs⟩, -⟩ := h
  have hcount := hs.count
  change req.sectorCount.toNat ≤ 65536 at hcount
  rw [ideSectors_ofNat (by omega), if_neg (Nat.lt_irrefl _)] at hread
  obtain ⟨s, p, r⟩ := t
  dsimp only at hread hs
  rw [hread]
  exact ⟨_, reaches_wait (by exact fun _ => rfl) p, ⟨rfl, hs⟩⟩

theorem reaches_error (hfails : d.Fails 0) : ∃ t, ReflTransGen (d.Step disks) (d.enter s req) t ∧
    t.read.pc = .done .unknHrdw := by
  have hstatus := reaches_status d disks s req
  have hstep := step_status d disks ((s.requested req).outb .command ataCmdReadPioExt)
    (d.after 0) req []
  by_cases herr : (d.after 0).ready &&& ataSrErr ≠ 0
  · rw [if_pos herr] at hstep
    exact ⟨_, (hstatus.tail hstep).trans (reaches_of_run (n := 1) rfl), rfl⟩
  · rw [if_neg herr, if_pos (hfails.resolve_left herr)] at hstep
    exact ⟨_, hstatus.tail hstep, rfl⟩

theorem reaches_sector_zero (hpos : 1 ≤ req.sectorCount.toNat)
    (hle : req.sectorCount.toNat ≤ 65536) (hfails : ¬ d.Fails 0) :
    ∃ t, ReflTransGen (d.Step disks) (d.enter s req) t ∧ d.AtSector disks req 0 t := by
  obtain ⟨herr, hdf⟩ := not_or.mp hfails
  have hs := (s.requested_decodes hpos hle).command
  have hstep := step_status d disks ((s.requested req).outb .command ataCmdReadPioExt)
    (d.after 0) req []
  rw [if_neg herr, if_neg hdf] at hstep
  exact ⟨_, (reaches_status d disks s req).tail hstep, ⟨⟨rfl, hs⟩, rfl⟩⟩

/-- The run lemma of the sector loop. -/
theorem reaches_at_sector (hpos : 1 ≤ req.sectorCount.toNat) (hle : req.sectorCount.toNat ≤ 65536)
    (hfails : ¬ d.Fails 0) (hn : n ≤ req.sectorCount.toNat) (offers : ∀ k < n, d.Offers k) :
    ∃ t, ReflTransGen (d.Step disks) (d.enter s req) t ∧ d.AtSector disks req n t := by
  induction n with
  | zero => exact reaches_sector_zero hpos hle hfails
  | succ n ih =>
      obtain ⟨t, ht, hat⟩ := ih (by omega) fun k hk => offers k (by omega)
      obtain ⟨u, hu, hnext⟩ := hat.next (by omega) (offers n (Nat.lt_succ_self n))
      exact ⟨u, ht.trans hu, hnext⟩

theorem reaches_ok (hpos : 1 ≤ req.sectorCount.toNat) (hle : req.sectorCount.toNat ≤ 65536)
    (hfails : ¬ d.Fails 0) (offers : ∀ k < req.sectorCount.toNat, d.Offers k) :
    ∃ t, ReflTransGen (d.Step disks) (d.enter s req) t ∧
      t.At disks req (.done .ok) (256 * req.sectorCount.toNat) := by
  obtain ⟨t, ht, hat⟩ := reaches_at_sector (s := s) hpos hle hfails le_rfl offers
  obtain ⟨u, hu, hdone⟩ := hat.returns
  exact ⟨u, ht.trans hu, hdone⟩

/-- A call that waits for a sector never offered does not return. -/
theorem not_returns (hpos : 1 ≤ req.sectorCount.toNat) (hle : req.sectorCount.toNat ≤ 65536)
    (hfails : ¬ d.Fails 0) (hk : k < req.sectorCount.toNat) (hoffers : ¬ d.Offers k)
    (before : ∀ i < k, d.Offers i) {err : Err}
    (ht : ReflTransGen (d.Step disks) (d.enter s req) t) : t.read.pc ≠ .done err := by
  intro hdone
  obtain ⟨u, hu, hat⟩ := reaches_at_sector (s := s) hpos hle hfails (Nat.le_of_lt hk) before
  obtain ⟨v, hv, hcycle⟩ := hat.hangs hk hoffers
  exact not_transGen_self_of_end step_rightUnique ht (fun _ => not_step_of_done hdone)
    (hu.trans hv) hcycle

end AtaDevice

/-- The call returns, and with `OK` only if the device has delivered every sector and
announced no error in front of one. -/
def IdeReadReports (d : AtaDevice) (disks : Disks) (s : AtaChannel) (req : IdeRequest) : Prop :=
  ∃ t err, ReflTransGen (d.Step disks) (d.enter s req) t ∧ t.read.pc = .done err ∧
    (err = .ok → t.channel.delivered = 256 * req.sectorCount.toNat ∧
      ∀ k < req.sectorCount.toNat, ¬ d.Fails k)

/-- A device that offers every sector without an error. -/
theorem ide_read_drive_reads_sectors (d : AtaDevice) (disks : Disks) (s : AtaChannel)
    (req : IdeRequest) (hlba : req.lba.toNat < 2 ^ 48) (hpos : 1 ≤ req.sectorCount.toNat)
    (hle : req.sectorCount.toNat ≤ 65536)
    (delivers : ∀ k < req.sectorCount.toNat, d.Offers k ∧ ¬ d.Fails k) :
    ∃ t, ReflTransGen (d.Step disks) (d.enter s req) t ∧ t.read.pc = .done .ok ∧
      t.channel.transfer = some ⟨req.bus, req.lba.toNat, req.sectorCount.toNat,
        256 * req.sectorCount.toNat⟩ ∧
      t.read.dst = req.words disks (256 * req.sectorCount.toNat) := by
  obtain ⟨t, ht, hread, hs⟩ := AtaDevice.reaches_ok (s := s) hpos hle (delivers 0 hpos).2
    fun k hk => (delivers k hk).1
  rw [IdeRequest.decoded_of_lt hlba] at hread hs
  refine ⟨t, ht, ?_, hs.transfer, ?_⟩
  · rw [hread]
  · rw [hread]

def ataDataReady : AtaPoll := ⟨[0xD0, 0x80], 0x58, by decide, by decide⟩

def ataNoData : AtaPoll := ⟨[0xD0], 0x50, by decide, by decide⟩

def ataFailed : AtaPoll := ⟨[0xD0], 0x51, by decide, by decide⟩

/-- A device that has `n` sectors to give, and what it says after them. -/
def ataDeviceOf (n : Nat) (last : AtaPoll) : AtaDevice :=
  ⟨ataNoData, fun k => if k < n then ataDataReady else last, 0xFFFF⟩

/-- The last address of 48 bits. -/
theorem ide_read_drive_reads_last_sector :
    ∃ t, ReflTransGen ((ataDeviceOf 1 ataNoData).Step numberedDisks)
        ((ataDeviceOf 1 ataNoData).enter ataIdle ⟨.slave, 0xFFFFFFFFFFFF, 1⟩) t ∧
      t.read.pc = .done .ok ∧ t.channel.transfer = some ⟨.slave, 0xFFFFFFFFFFFF, 1, 256⟩ ∧
      t.read.dst = IdeRequest.words ⟨.slave, 0xFFFFFFFFFFFF, 1⟩ numberedDisks 256 :=
  ide_read_drive_reads_sectors (ataDeviceOf 1 ataNoData) numberedDisks ataIdle
    ⟨.slave, 0xFFFFFFFFFFFF, 1⟩ (by decide) (by decide) (by decide) (by decide)

/-- For a device that offers every sector or announces an error in its place: the errors
in front of the first sector are reported, those in front of a later one never. -/
theorem ide_read_drive_reports_iff (d : AtaDevice) (disks : Disks) (s : AtaChannel)
    (req : IdeRequest) (hpos : 1 ≤ req.sectorCount.toNat) (hle : req.sectorCount.toNat ≤ 65536)
    (announces : ∀ k < req.sectorCount.toNat, d.Offers k ∨ d.Fails k) :
    IdeReadReports d disks s req ↔
      d.Fails 0 ∨ ∀ k < req.sectorCount.toNat, ¬ d.Fails k := by
  constructor
  · rintro ⟨t, err, ht, hdone, hreports⟩
    by_cases hzero : d.Fails 0
    · exact Or.inl hzero
    · by_cases hall : ∀ k < req.sectorCount.toNat, d.Offers k
      · -- the call returns OK whatever the error bits say
        obtain ⟨u, hu, hread, -⟩ := AtaDevice.reaches_ok (s := s) hpos hle hzero hall
        have hok : u.read.pc = .done .ok := by rw [hread]
        have hsame := end_unique AtaDevice.step_rightUnique ht
          (fun _ => AtaDevice.not_step_of_done hdone) hu
          fun _ => AtaDevice.not_step_of_done hok
        rw [hsame, hdone] at hok
        cases hok
        exact Or.inr (hreports rfl).2
      · -- the call waits for the first sector that is not offered
        push Not at hall
        obtain ⟨hk, hoffers⟩ := Nat.find_spec hall
        refine absurd hdone (AtaDevice.not_returns hpos hle hzero hk hoffers ?_ ht)
        intro i hi
        by_contra hnot
        exact Nat.find_min hall hi ⟨by omega, hnot⟩
  · rintro (hzero | hnone)
    · obtain ⟨t, ht, hdone⟩ := @AtaDevice.reaches_error d disks s req hzero
      exact ⟨t, .unknHrdw, ht, hdone, fun h => nomatch h⟩
    · obtain ⟨t, ht, hread, hs⟩ := AtaDevice.reaches_ok (s := s) hpos hle (hnone 0 hpos)
        fun k hk => (announces k hk).resolve_right (hnone k hk)
      refine ⟨t, .ok, ht, by rw [hread], fun _ => ⟨hs.delivered, hnone⟩⟩

/-- The first sector fails. -/
theorem ide_read_drive_reports_first_error :
    IdeReadReports (ataDeviceOf 0 ataFailed) numberedDisks ataIdle ⟨.master, 0, 2⟩ :=
  (ide_read_drive_reports_iff (ataDeviceOf 0 ataFailed) numberedDisks ataIdle ⟨.master, 0, 2⟩
    (by decide) (by decide) (by decide)).mpr (Or.inl (by decide))

/-- The first sector is delivered, the second one fails: no DRQ, so no return. -/
theorem ide_read_drive_hangs_on_second_error :
    ¬ ∀ (d : AtaDevice) (disks : Disks) (s : AtaChannel) (req : IdeRequest),
      1 ≤ req.sectorCount.toNat → req.sectorCount.toNat ≤ 65536 →
      (∀ k < req.sectorCount.toNat, d.Offers k ∨ d.Fails k) → IdeReadReports d disks s req := by
  intro claim
  obtain ⟨t, err, ht, hdone, -⟩ := claim (ataDeviceOf 1 ataFailed) numberedDisks ataIdle
    ⟨.master, 0, 2⟩ (by decide) (by decide) (by decide)
  exact AtaDevice.not_returns (k := 1) (by decide) (by decide) (by decide) (by decide) (by decide)
    (by decide) ht hdone

end DordOs
