import DordOs.Drivers.Ide
import DordOs.Lib.Interleave
import DordOs.Lib.Loop

/-!
Two processes inside `ide_read_drive` on one channel. Nothing keeps one of them
from writing the registers, or issuing its command, in the middle of the other's
request. Both get the sectors they asked for when every command is issued with
the issuer's own request in the registers and no transfer of the other under way.
-/
namespace DordOs
open Lib

def IdeMove (disks : Disks) (s : AtaChannel) (r : IdeRead) (a : AtaAnswer) (s' : AtaChannel)
    (r' : IdeRead) : Prop :=
  (s', r') = ideNext disks s r a

abbrev IdeRace := Threads Bool AtaChannel IdeRead

def ideRaceInit (s : AtaChannel) (req : Bool → IdeRequest) : IdeRace :=
  ⟨s, fun p => ideEnter (req p)⟩

/-- If the process is about to issue its command, the registers hold its request
and the other process has no transfer under way. -/
def CommandExclusive (c : IdeRace) (p : Bool) : Prop :=
  (c.loc p).pc = .command →
    c.shared.Decodes (c.loc p).req ∧ ¬ (c.loc (!p)).pc.Transferring

instance (c : IdeRace) (p : Bool) : Decidable (CommandExclusive c p) :=
  inferInstanceAs (Decidable (_ → _))

/-- The channel is streaming the request and has delivered `n` words of it. -/
structure AtaChannel.Streaming (s : AtaChannel) (req : IdeRequest) (n : Nat) : Prop where
  transfer : s.transfer = some ⟨req.bus, req.lba.toNat, req.sectorCount.toNat, n⟩
  count : req.sectorCount.toNat ≤ 65536

/-- What a process knows at each point of its request. -/
def IdeRead.Progress (disks : Disks) (s : AtaChannel) (r : IdeRead) : Prop :=
  match r.pc with
  | .waitBsy | .devsel | .delayDevsel _ | .outb _ | .command => r.dst = []
  | .delayCommand _ | .waitCommand | .status => r.dst = [] ∧ s.Streaming r.req 0
  | .waitSector i | .awaitDrq i =>
      i.toNat < r.req.sectorCount.toNat ∧ r.dst = r.req.words disks (256 * i.toNat) ∧
        s.Streaming r.req (256 * i.toNat)
  | .inw i j =>
      i.toNat < r.req.sectorCount.toNat ∧ j.toNat < 256 ∧
        r.dst = r.req.words disks (256 * i.toNat + j.toNat) ∧
        s.Streaming r.req (256 * i.toNat + j.toNat)
  | .waitDone | .done .ok => r.dst = r.req.words disks (256 * r.req.sectorCount.toNat)
  | .error | .done _ => True

variable {disks : Disks} {s s' : AtaChannel} {r r' : IdeRead} {a : AtaAnswer}

theorem AtaChannel.decodes_count_le (h : s.Decodes r.req) : r.req.sectorCount.toNat ≤ 65536 := by
  have hcount := h.count
  have hcurrent := s.seccount.current.isLt
  have hprevious := s.seccount.previous.isLt
  unfold AtaChannel.count at hcount
  dsimp only at hcount
  split at hcount <;> omega

theorem words_succ (req : IdeRequest) (n : Nat) :
    req.words disks (n + 1) = req.words disks n ++ [disks.word req.bus req.lba.toNat n] := by
  simp only [IdeRequest.words]
  rw [List.range_succ, List.map_append, List.map_singleton]

/-- The data port hands out the words of the request in order. -/
theorem AtaChannel.Streaming.inw {n : Nat} (h : s.Streaming r.req n)
    (hn : n < 256 * r.req.sectorCount.toNat) (floating : U16) :
    (s.inw disks floating).1 = disks.word r.req.bus r.req.lba.toNat n ∧
      (s.inw disks floating).2.Streaming r.req (n + 1) := by
  simp only [AtaChannel.inw]
  rw [h.transfer]
  dsimp only
  rw [if_pos hn]
  exact ⟨rfl, rfl, h.count⟩

theorem progress_sectors {i : U32} (hi : i.toNat ≤ r.req.sectorCount.toNat)
    (hpc : r.pc = ideSectors r.req i) (hdst : r.dst = r.req.words disks (256 * i.toNat))
    (hs : s.Streaming r.req (256 * i.toNat)) : r.Progress disks s := by
  have hwidth : (i.setWidth 64).toNat = i.toNat := by
    rw [BitVec.toNat_setWidth]
    exact Nat.mod_eq_of_lt (by have := i.isLt; omega)
  simp only [IdeRead.Progress]
  rw [hpc]
  simp only [ideSectors]
  by_cases hlt : i.setWidth 64 < r.req.sectorCount
  · rw [if_pos hlt]
    rw [BitVec.lt_def, hwidth] at hlt
    exact ⟨hlt, hdst, hs⟩
  · rw [if_neg hlt]
    rw [BitVec.lt_def, hwidth] at hlt
    dsimp only
    rw [hdst, Nat.le_antisymm hi (Nat.not_lt.mp hlt)]

/-- The command starts the transfer the registers describe. -/
theorem AtaChannel.Decodes.command {req : IdeRequest} (h : s.Decodes req) :
    (s.outb .command ataCmdReadPioExt).Streaming req 0 := by
  refine ⟨?_, AtaChannel.decodes_count_le (r := ⟨req, .command, []⟩) h⟩
  change some (AtaTransfer.mk s.bus s.lba s.count 0) = _
  rw [h.bus, h.lba, h.count]

theorem IdeRead.Progress.inw {req : IdeRequest} {i j : U32} {dst : List U16}
    (h : (IdeRead.mk req (.inw i j) dst).Progress disks s) :
    (ideNext disks s ⟨req, .inw i j, dst⟩ a).2.Progress disks
      (ideNext disks s ⟨req, .inw i j, dst⟩ a).1 := by
  obtain ⟨hi, hj, hdst, hs⟩ := h
  dsimp only at hi hj hdst hs
  obtain ⟨hword, hs'⟩ := @AtaChannel.Streaming.inw disks s ⟨req, .inw i j, dst⟩ _ hs
    (by dsimp only; omega) a.floating
  dsimp only at hword hs'
  have hdst' : dst ++ [(s.inw disks a.floating).1] =
      req.words disks (256 * i.toNat + j.toNat + 1) := by
    rw [words_succ, hdst, hword]
  have hsucc : (j + 1).toNat = j.toNat + 1 :=
    toNat_succ_of_lt (BitVec.lt_def.mpr (show j.toNat < (256 : U32).toNat from hj))
  have hisucc : (i + 1).toNat = i.toNat + 1 :=
    toNat_succ_of_lt (BitVec.lt_def.mpr
      (show i.toNat < (65536 : U32).toNat from Nat.lt_of_lt_of_le hi hs.count))
  unfold ideNext
  dsimp only
  by_cases hlt : j + 1 < 256
  · rw [if_pos hlt]
    have hlt' := BitVec.lt_def.mp hlt
    refine ⟨hi, hlt', ?_, ?_⟩
    · rw [hsucc, ← Nat.add_assoc]
      exact hdst'
    · rw [hsucc, ← Nat.add_assoc]
      exact hs'
  · rw [if_neg hlt]
    have hge : j.toNat + 1 = 256 := by
      have hge := mt BitVec.lt_def.mpr hlt
      rw [hsucc] at hge
      change ¬ j.toNat + 1 < 256 at hge
      omega
    have hpos : 256 * i.toNat + j.toNat + 1 = 256 * (i + 1).toNat := by
      rw [hisucc]
      omega
    rw [hpos] at hdst' hs'
    exact progress_sectors (by dsimp only; omega) rfl hdst' hs'

/-- A process' own step, its command issued with its request in the registers. -/
theorem IdeRead.Progress.own (h : r.Progress disks s)
    (decodes : r.pc = .command → s.Decodes r.req) :
    (ideNext disks s r a).2.Progress disks (ideNext disks s r a).1 := by
  obtain ⟨req, pc, dst⟩ := r
  cases pc with
  | waitBsy | delayDevsel | outb =>
      unfold ideNext
      dsimp only
      split <;> exact h
  | devsel => exact h
  | command => exact ⟨h, (decodes rfl).command⟩
  | delayCommand | waitCommand =>
      unfold ideNext
      dsimp only
      split <;> exact h
  | status =>
      obtain ⟨hdst, hs⟩ := h
      unfold ideNext
      dsimp only
      split
      · trivial
      · split
        · trivial
        · exact progress_sectors (Nat.zero_le _) rfl hdst hs
  | error => trivial
  | waitSector i =>
      unfold ideNext
      dsimp only
      split <;> exact h
  | awaitDrq i =>
      unfold ideNext
      dsimp only
      split
      · exact h
      · exact ⟨h.1, by decide, h.2.1, h.2.2⟩
  | inw i j => exact h.inw
  | waitDone =>
      unfold ideNext
      dsimp only
      split <;> exact h
  | done err => exact h

/-- Another process' step matters only to a transfer under way. -/
theorem IdeRead.Progress.other (h : r.Progress disks s)
    (transfer : r.pc.Transferring → s'.transfer = s.transfer) : r.Progress disks s' := by
  have streaming : ∀ n, r.pc.Transferring → s.Streaming r.req n → s'.Streaming r.req n :=
    fun n ht hs => ⟨(transfer ht).trans hs.transfer, hs.count⟩
  obtain ⟨req, pc, dst⟩ := r
  cases pc with
  | delayCommand | waitCommand | status => exact ⟨h.1, streaming _ trivial h.2⟩
  | waitSector | awaitDrq => exact ⟨h.1, h.2.1, streaming _ trivial h.2.2⟩
  | inw => exact ⟨h.1, h.2.1, h.2.2.1, streaming _ trivial h.2.2.2⟩
  | done err => cases err <;> exact h
  | _ => exact h

theorem ideNext_req : (ideNext disks s r a).2.req = r.req := by
  simp only [ideNext]
  split <;> rfl

theorem ideOutb_ne_command (req : IdeRequest) (k : Fin 8) : (ideOutb req k).1 ≠ .command := by
  simp only [ideOutb]
  split <;> exact fun heq => nomatch heq

theorem AtaChannel.transfer_outb {reg : AtaReg} (h : reg ≠ .command) (val : U8) :
    (s.outb reg val).transfer = s.transfer := by
  cases reg with
  | command => exact absurd rfl h
  | _ => rfl

/-- Only the command and the data port touch the transfer. -/
theorem ideNext_transfer (ht : ¬ r.pc.Transferring) (hc : r.pc ≠ .command) :
    (ideNext disks s r a).1.transfer = s.transfer := by
  obtain ⟨req, pc, dst⟩ := r
  cases pc with
  | command => exact absurd rfl hc
  | inw => exact absurd trivial ht
  | outb k => exact AtaChannel.transfer_outb (ideOutb_ne_command req k) _
  | _ => rfl

/-- A transfer begins with the command. -/
theorem ideNext_transferring (h : (ideNext disks s r a).2.pc.Transferring) :
    r.pc.Transferring ∨ r.pc = .command := by
  obtain ⟨req, pc, dst⟩ := r
  cases pc with
  | waitBsy | delayDevsel | outb | waitDone =>
      unfold ideNext at h
      dsimp only at h
      split at h <;> exact h.elim
  | command => exact Or.inr rfl
  | devsel | error | done => exact h.elim
  | _ => exact Or.inl trivial

structure ReadsIntact (disks : Disks) (req : Bool → IdeRequest) (c : IdeRace) : Prop where
  req : ∀ p, (c.loc p).req = req p
  progress : ∀ p, (c.loc p).Progress disks c.shared
  exclusive : ∀ p, (c.loc p).pc.Transferring → ¬ (c.loc (!p)).pc.Transferring

theorem readsIntact_init (s : AtaChannel) (req : Bool → IdeRequest) :
    ReadsIntact disks req (ideRaceInit s req) :=
  ⟨fun _ => rfl, fun _ => rfl, fun _ h => h.elim⟩

theorem ReadsIntact.step {req : Bool → IdeRequest} {c d : IdeRace} {x : Bool × AtaAnswer}
    (h : ReadsIntact disks req c) (exclusive : CommandExclusive c x.1)
    (hstep : Interleave (IdeMove disks) c x d) : ReadsIntact disks req d := by
  obtain ⟨p, e⟩ := x
  have hother := hstep.other_of_two
  have hself : d.loc p = (ideNext disks c.shared (c.loc p) e).2 := congrArg Prod.snd hstep.own
  have hshared : d.shared = (ideNext disks c.shared (c.loc p) e).1 := congrArg Prod.fst hstep.own
  dsimp only at hother exclusive
  have hnew : (d.loc p).pc.Transferring → ¬ (c.loc (!p)).pc.Transferring := by
    intro ht
    rw [hself] at ht
    obtain ht | hcommand := ideNext_transferring ht
    · exact h.exclusive p ht
    · exact (exclusive hcommand).2
  constructor
  all_goals refine (forall_two_threads p).mpr ⟨?_, ?_⟩
  · rw [hself]
    exact ideNext_req.trans (h.req p)
  · rw [hother]
    exact h.req _
  · rw [hself, hshared]
    exact (h.progress p).own fun hcommand => (exclusive hcommand).1
  · rw [hother, hshared]
    refine (h.progress _).other fun ht => ideNext_transfer ?_ ?_
    · exact fun hp => h.exclusive p hp ht
    · exact fun hcommand => (exclusive hcommand).2 ht
  · rw [hother]
    exact hnew
  · rw [hother, Bool.not_not]
    exact fun ht hnow => hnew hnow ht

/-- In every run whose commands are all exclusive, a process whose call returned
`OK` has exactly the sectors it asked for. -/
theorem exclusive_reads_intact (disks : Disks) (s : AtaChannel) (req : Bool → IdeRequest)
    {tr : List (IdeRace × Bool × AtaAnswer)} {c : IdeRace}
    (run : Run (Interleave (IdeMove disks)) (ideRaceInit s req) tr c)
    (exclusive : ∀ x ∈ tr, CommandExclusive x.1 x.2.1) (p : Bool)
    (ok : (c.loc p).pc = .done .ok) :
    (c.loc p).dst = (req p).words disks (256 * (req p).sectorCount.toNat) := by
  have inv := run.invariant_of_guard (I := ReadsIntact disks req)
    (C := fun c x => CommandExclusive c x.1) exclusive (readsIntact_init s req)
    fun _ _ _ h hc hstep => h.step hc hstep
  have hprogress := inv.progress p
  simp only [IdeRead.Progress] at hprogress
  rw [ok, inv.req p] at hprogress
  exact hprogress

def ideExec (disks : Disks) (c : IdeRace) (x : Bool × AtaAnswer) : Option IdeRace :=
  let r := ideNext disks c.shared (c.loc x.1) x.2
  some ⟨r.1, Function.update c.loc x.1 r.2⟩

theorem ideExec_sound (disks : Disks) (c : IdeRace) (x : Bool × AtaAnswer) (d : IdeRace)
    (h : ideExec disks c x = some d) : Interleave (IdeMove disks) c x d := by
  cases h
  exact .move c.shared _ c.loc x.1 x.2 _ rfl

/-- Sector `n` is filled with the word `n`. -/
def numberedDisks : Disks := fun _ lba _ => BitVec.ofNat 16 lba

def ataIdle : AtaChannel := ⟨⟨0, 0⟩, ⟨0, 0⟩, ⟨0, 0⟩, ⟨0, 0⟩, 0, none⟩

/-- One process reads sector 0, the other one sector 1. -/
def ideRequests (p : Bool) : IdeRequest := ⟨.master, if p then 1 else 0, 1⟩

def ideBurst (p : Bool) (n : Nat) (status : U8) : List (Bool × AtaAnswer) :=
  List.replicate n (p, ⟨status, 0⟩)

/-- The accesses of a request up to its command. -/
def ideSetup (p : Bool) : List (Bool × AtaAnswer) := ideBurst p 14 0x50

/-- The command and its data. -/
def ideTransfer (p : Bool) : List (Bool × AtaAnswer) := ideBurst p 265 0x58 ++ ideBurst p 1 0x50

/-- The second process starts when the first one is done. -/
theorem exclusive_reads_intact_in_turn :
    ∃ c : IdeRace, c.shared.transfer = some ⟨.master, 1, 1, 256⟩ ∧
      ∀ p, (c.loc p).dst = (ideRequests p).words numberedDisks 256 := by
  obtain ⟨r, hr⟩ := Option.isSome_iff_exists.mp
    (show (execRun (ideExec numberedDisks) (ideRaceInit ataIdle ideRequests)
      (ideSetup false ++ ideTransfer false ++ ideSetup true ++ ideTransfer true)).isSome by
        decide +kernel)
  have hend : (execRun (ideExec numberedDisks) (ideRaceInit ataIdle ideRequests)
      (ideSetup false ++ ideTransfer false ++ ideSetup true ++ ideTransfer true)).map (fun r =>
        (r.2.shared.transfer, decide (∀ p, (r.2.loc p).pc = .done .ok),
          decide (∀ x ∈ r.1, CommandExclusive x.1 x.2.1))) =
      some (some ⟨.master, 1, 1, 256⟩, true, true) := by decide +kernel
  rw [hr] at hend
  obtain ⟨htransfer, hrest⟩ := Prod.mk.inj (Option.some.inj hend)
  obtain ⟨hdone, hexclusive⟩ := Prod.mk.inj hrest
  exact ⟨r.2, htransfer, fun p => exclusive_reads_intact numberedDisks ataIdle ideRequests
    (Run.of_exec (ideExec_sound numberedDisks) hr) (of_decide_eq_true hexclusive) p
    (of_decide_eq_true hdone p)⟩

/-- The second process runs from its first access to its last one while the first
process is about to issue its command, which then reads the second one's sector. -/
theorem interrupted_read_returns_other_sector :
    ¬ ∀ (disks : Disks) (s : AtaChannel) (req : Bool → IdeRequest)
      (tr : List (IdeRace × Bool × AtaAnswer)) (c : IdeRace),
      (∀ p, 1 ≤ (req p).sectorCount.toNat) →
      Run (Interleave (IdeMove disks)) (ideRaceInit s req) tr c →
      (∀ p, (c.loc p).pc = .done .ok) →
      ∀ p, (c.loc p).dst = (req p).words disks (256 * (req p).sectorCount.toNat) := by
  intro claim
  obtain ⟨r, hr⟩ := Option.isSome_iff_exists.mp
    (show (execRun (ideExec numberedDisks) (ideRaceInit ataIdle ideRequests)
      (ideSetup false ++ ideSetup true ++ ideTransfer true ++ ideTransfer false)).isSome by
        decide +kernel)
  have hend : (execRun (ideExec numberedDisks) (ideRaceInit ataIdle ideRequests)
      (ideSetup false ++ ideSetup true ++ ideTransfer true ++ ideTransfer false)).map (fun r =>
        (decide (∀ p, (r.2.loc p).pc = .done .ok), (r.2.loc false).dst.head?)) =
      some (true, some 1) := by decide +kernel
  rw [hr] at hend
  obtain ⟨hdone, hhead⟩ := Prod.mk.inj (Option.some.inj hend)
  have hdst := claim numberedDisks ataIdle ideRequests r.1 r.2 (by decide)
    (Run.of_exec (ideExec_sound numberedDisks) hr) (of_decide_eq_true hdone) false
  rw [hdst] at hhead
  exact absurd hhead (by decide +kernel)

end DordOs
