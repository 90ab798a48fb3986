import Mathlib.Data.List.Basic
import Mathlib.Tactic.SplitIfs

/-!
A pair of 8259A interrupt controllers in a PC, the second one on input 2 of the first. The
model covers the initialization words, the mask, the acknowledge cycle with fully nested
priorities and the non-specific end of interrupt; other operation words are left out.
-/
namespace DordOs.Lib

/-- The first input whose bit is set; a lower number is a higher priority. -/
def firstSet (v : BitVec 8) : Option Nat := (List.range 8).find? fun i => v.getLsbD i

theorem firstSet_eq_some {v : BitVec 8} {i : Nat} :
    firstSet v = some i ↔ i < 8 ∧ v.getLsbD i = true ∧ ∀ j < i, v.getLsbD j = false := by
  simp only [firstSet, List.find?_range_eq_some, List.mem_range, Bool.not_eq_true']
  tauto

theorem firstSet_eq_none {v : BitVec 8} : firstSet v = none ↔ v = 0 := by
  simp only [firstSet, List.find?_eq_none, List.mem_range, Bool.not_eq_true]
  constructor
  · intro h
    refine BitVec.eq_of_getLsbD_eq fun i hi => ?_
    rw [h i hi]
    exact BitVec.getLsbD_zero.symm
  · rintro rfl i _
    exact BitVec.getLsbD_zero

@[simp] theorem firstSet_zero : firstSet 0 = none := firstSet_eq_none.mpr rfl

/-- What the next write to the second port of a controller sets. -/
inductive PicInit
  | vector (single mode : Bool)
  | cascade (mode : Bool)
  | mode
  | ready
  deriving DecidableEq

structure Pic where
  request : BitVec 8
  service : BitVec 8
  mask : BitVec 8
  base : BitVec 8
  cascade : BitVec 8
  autoEoi : Bool
  x86 : Bool
  init : PicInit
  deriving DecidableEq

namespace Pic

/-- A word at the first port: the start of an initialization or a non-specific end of
interrupt. -/
def command (p : Pic) (word : BitVec 8) : Option Pic :=
  if word.getLsbD 4 then
    some { p with
      request := 0, service := 0, mask := 0, cascade := 0, autoEoi := false, x86 := false
      init := .vector (word.getLsbD 1) (word.getLsbD 0) }
  else if word = 0x20 then
    some { p with service := match firstSet p.service with
      | some i => p.service &&& ~~~BitVec.twoPow 8 i
      | none => p.service }
  else none

/-- A word at the second port. -/
def data (p : Pic) (word : BitVec 8) : Pic :=
  match p.init with
  | .vector single mode => { p with
      base := word &&& 0xF8
      init := if single then (if mode then .mode else .ready) else .cascade mode }
  | .cascade mode => { p with cascade := word, init := if mode then .mode else .ready }
  | .mode => { p with autoEoi := word.getLsbD 1, x86 := word.getLsbD 0, init := .ready }
  | .ready => { p with mask := word }

def raise (p : Pic) (i : Nat) : Pic := { p with request := p.request ||| BitVec.twoPow 8 i }

/-- The input goes low before it was acknowledged. -/
def withdraw (p : Pic) (i : Nat) : Pic := { p with request := p.request &&& ~~~BitVec.twoPow 8 i }

/-- The input for which the controller asks for an interrupt: the first one requested that
is not masked, unless it or one before it is in service. -/
def pending (p : Pic) : Option Nat :=
  match firstSet (p.request &&& ~~~p.mask) with
  | none => none
  | some i =>
      match firstSet p.service with
      | some j => if i < j then some i else none
      | none => some i

/-- The acknowledge cycle: the input served. If there is none any more it is input 7, which
is then not in service. -/
def acknowledge (p : Pic) : Pic × Nat :=
  match p.pending with
  | none => (p, 7)
  | some i => ({ p.withdraw i with
      service := if p.autoEoi then p.service else p.service ||| BitVec.twoPow 8 i }, i)

end Pic

structure PicPair where
  master : Pic
  slave : Pic
  deriving DecidableEq

namespace PicPair

/-- While the second controller asks for an interrupt, input 2 of the first one is high. -/
def settle (p : PicPair) : PicPair :=
  if p.slave.pending.isSome then { p with master := p.master.raise 2 } else p

/-- Something happens at line `i` of 16. -/
def atLine (f : Pic → Nat → Pic) (p : PicPair) (i : Nat) : PicPair :=
  settle (if i < 8 then { p with master := f p.master i }
    else { p with slave := f p.slave (i - 8) })

def raise : PicPair → Nat → PicPair := atLine Pic.raise

def withdraw : PicPair → Nat → PicPair := atLine Pic.withdraw

/-- The acknowledge cycle of the processor, and the vector it reads. For an input that has a
controller behind it, this controller answers if it knows its place. -/
def acknowledge (p : PicPair) : Option (PicPair × BitVec 8) :=
  let m := p.master.acknowledge
  if p.master.pending.isSome && p.master.cascade.getLsbD m.2 then
    let s := p.slave.acknowledge
    if p.slave.cascade = BitVec.ofNat 8 m.2 then
      some (settle ⟨m.1, s.1⟩, p.slave.base + BitVec.ofNat 8 s.2)
    else none
  else some (settle { p with master := m.1 }, p.master.base + BitVec.ofNat 8 m.2)

/-- A write to the ports of the controllers. -/
def out (p : PicPair) (port : BitVec 16) (word : BitVec 8) : Option PicPair :=
  if port = 0x20 then (p.master.command word).map fun m => settle { p with master := m }
  else if port = 0x21 then some (settle { p with master := p.master.data word })
  else if port = 0xA0 then (p.slave.command word).map fun s => settle { p with slave := s }
  else if port = 0xA1 then some (settle { p with slave := p.slave.data word })
  else none

end PicPair

theorem getLsbD_or_twoPow (v : BitVec 8) {i j : Nat} (hj : j < 8) :
    (v ||| BitVec.twoPow 8 i).getLsbD j = (v.getLsbD j || decide (i = j)) := by
  rw [BitVec.getLsbD_or, BitVec.getLsbD_twoPow]
  by_cases h : i = j
  · simp [h, hj]
  · simp [h]

theorem getLsbD_clear_twoPow (v : BitVec 8) {i j : Nat} (hj : j < 8) :
    (v &&& ~~~BitVec.twoPow 8 i).getLsbD j = (v.getLsbD j && !decide (i = j)) := by
  rw [BitVec.getLsbD_and, BitVec.getLsbD_not, BitVec.getLsbD_twoPow]
  by_cases h : i = j
  · simp [h, hj]
  · simp [h, hj]

theorem firstSet_twoPow {i : Nat} (hi : i < 8) : firstSet (BitVec.twoPow 8 i) = some i := by
  refine firstSet_eq_some.mpr ⟨hi, ?_, fun j hj => ?_⟩
  · simp [hi]
  · simp [BitVec.getLsbD_twoPow, Nat.ne_of_gt hj]

namespace Pic

variable {p : Pic} {i : Nat}

/-- Nothing is masked, and what was acknowledged stays in service up to the end of interrupt. -/
structure Nested (p : Pic) (base cascade : BitVec 8) : Prop where
  init : p.init = .ready
  mask : p.mask = 0
  base : p.base = base
  cascade : p.cascade = cascade
  autoEoi : p.autoEoi = false
  x86 : p.x86 = true

theorem Nested.congr {q : Pic} {base cascade : BitVec 8} (h : p.Nested base cascade)
    (hq : ∃ request service, q = { p with request := request, service := service }) :
    q.Nested base cascade := by
  obtain ⟨request, service, rfl⟩ := hq
  exact ⟨h.init, h.mask, h.base, h.cascade, h.autoEoi, h.x86⟩

theorem pending_idle {base cascade : BitVec 8} (h : p.Nested base cascade) (idle : p.service = 0) :
    p.pending = firstSet p.request := by
  have hopen : p.request &&& ~~~p.mask = p.request := by
    rw [h.mask]
    exact BitVec.and_allOnes
  simp only [pending, hopen, idle, firstSet_zero]
  split
  next heq => exact heq.symm
  next heq => exact heq.symm

/-- Only input `i` is in service, and its request has been taken. -/
def serving (p : Pic) (i : Nat) : Pic := { p.withdraw i with service := BitVec.twoPow 8 i }

theorem Nested.serving {base cascade : BitVec 8} (h : p.Nested base cascade) (i : Nat) :
    (p.serving i).Nested base cascade := h.congr ⟨_, _, rfl⟩

theorem acknowledge_some {base cascade : BitVec 8} (h : p.Nested base cascade)
    (idle : p.service = 0) (hi : firstSet p.request = some i) :
    p.acknowledge = (p.serving i, i) := by
  simp only [acknowledge, pending_idle h idle, hi, h.autoEoi, idle, Bool.false_eq_true, if_false]
  have hone : (0 : BitVec 8) ||| BitVec.twoPow 8 i = BitVec.twoPow 8 i := BitVec.zero_or
  rw [hone]
  rfl

theorem acknowledge_none {base cascade : BitVec 8} (h : p.Nested base cascade)
    (idle : p.service = 0) (hi : firstSet p.request = none) : p.acknowledge = (p, 7) := by
  simp only [acknowledge, pending_idle h idle, hi]

/-- The end of interrupt takes the one input in service out of it. -/
theorem command_eoi (hservice : p.service = BitVec.twoPow 8 i) (hi : i < 8) :
    p.command 0x20 = some { p with service := 0 } := by
  have hbit : (0x20 : BitVec 8).getLsbD 4 = false := by decide
  simp only [command, hbit, hservice, firstSet_twoPow hi, BitVec.and_not_self]
  rfl

/-- With nothing in service it does nothing. -/
theorem command_eoi_idle (hservice : p.service = 0) : p.command 0x20 = some p := by
  have hbit : (0x20 : BitVec 8).getLsbD 4 = false := by decide
  simp only [command, hbit, hservice, firstSet_zero]
  obtain ⟨request, service, mask, base, cascade, autoEoi, x86, init⟩ := p
  obtain rfl : service = 0 := hservice
  rfl

/-- A controller behind a first initialization word that announces all four. -/
def restarted (p : Pic) : Pic :=
  { p with
    request := 0, service := 0, mask := 0, cascade := 0, autoEoi := false, x86 := false
    init := .vector false true }

theorem command_restart (p : Pic) : p.command 0x11 = some p.restarted := by
  have hstart : (0x11 : BitVec 8).getLsbD 4 = true := by decide
  have hsingle : (0x11 : BitVec 8).getLsbD 1 = false := by decide
  have hmode : (0x11 : BitVec 8).getLsbD 0 = true := by decide
  rw [command, if_pos hstart, hsingle, hmode, restarted]

/-- The other three words. -/
theorem restarted_data (p : Pic) (base cascade : BitVec 8) :
    ((p.restarted.data base).data cascade).data 1 =
      { request := 0, service := 0, mask := 0, base := base &&& 0xF8, cascade := cascade
        autoEoi := false, x86 := true, init := .ready } := by
  have hvector : p.restarted.data base =
      { p.restarted with base := base &&& 0xF8, init := .cascade true } := rfl
  have hauto : (1 : BitVec 8).getLsbD 1 = false := by decide
  have hmode : (1 : BitVec 8).getLsbD 0 = true := by decide
  rw [hvector]
  simp only [data, restarted, if_true, hauto, hmode]

theorem data_request (p : Pic) (request word : BitVec 8) :
    ({ p with request := request } : Pic).data word =
      { p.data word with request := request } := by
  simp only [data]
  split <;> rfl

theorem data_keeps_request (p : Pic) (word : BitVec 8) : (p.data word).request = p.request := by
  simp only [data]
  split <;> rfl

theorem Nested.data_zero {base cascade : BitVec 8} (h : p.Nested base cascade) :
    p.data 0 = p := by
  obtain ⟨request, service, mask, base', cascade', autoEoi, x86, init⟩ := p
  obtain rfl : init = .ready := h.init
  obtain rfl : mask = 0 := h.mask
  rfl

end Pic

namespace PicPair

/-- A line a device can be on: any but the one of the second controller. -/
def Line (i : Nat) : Prop := i < 16 ∧ i ≠ 2

/-- The order of the lines: those of the second controller come in the place of line 2. -/
def rank (i : Nat) : Nat := if i < 2 then i else if i < 8 then i + 8 else i - 6

def requestBit (p : PicPair) (i : Nat) : Bool :=
  if i < 8 then p.master.request.getLsbD i else p.slave.request.getLsbD (i - 8)

/-- A device has raised the line, which was not acknowledged since. -/
def Requested (p : PicPair) (i : Nat) : Prop := Line i ∧ p.requestBit i = true

/-- Two cascaded controllers that are set up, with vectors from `base` on. -/
structure Nested (p : PicPair) (base : BitVec 8) : Prop where
  master : p.master.Nested base 4
  slave : p.slave.Nested (base + 8) 2
  settled : p.slave.pending.isSome = true → p.master.request.getLsbD 2 = true

/-- Nothing is in service. -/
structure Idle (p : PicPair) : Prop where
  master : p.master.service = 0
  slave : p.slave.service = 0

/-- Line `i` is in service, or nothing is and `i` is the line a controller gives when the
request has gone. -/
inductive InService (p : PicPair) (i : Nat) : Prop
  | first (line : i < 8) (slave : p.slave.service = 0)
      (master : p.master.service = BitVec.twoPow 8 i ∨ i = 7 ∧ p.master.service = 0)
  | second (line : 8 ≤ i ∧ i < 16) (master : p.master.service = BitVec.twoPow 8 2)
      (slave : p.slave.service = BitVec.twoPow 8 (i - 8) ∨ i = 15 ∧ p.slave.service = 0)

section

variable {p q : PicPair} {base : BitVec 8} {i j : Nat}

@[simp] theorem settle_slave (p : PicPair) : p.settle.slave = p.slave := by
  rw [settle]
  split <;> rfl

theorem settle_master (p : PicPair) :
    p.settle.master = { p.master with request := p.settle.master.request } := by
  rw [settle]
  split <;> rfl

@[simp] theorem settle_service (p : PicPair) : p.settle.master.service = p.master.service := by
  rw [settle_master]

theorem settle_request (p : PicPair) (hj : j < 8) (h2 : j ≠ 2) :
    p.settle.master.request.getLsbD j = p.master.request.getLsbD j := by
  rw [settle]
  split
  · refine (getLsbD_or_twoPow p.master.request hj).trans ?_
    rw [decide_eq_false (Ne.symm h2), Bool.or_false]
  · rfl

theorem nested_settle (master : p.master.Nested base 4) (slave : p.slave.Nested (base + 8) 2) :
    p.settle.Nested base where
  master := master.congr ⟨_, _, p.settle_master⟩
  slave := p.settle_slave ▸ slave
  settled := by
    rw [settle_slave, settle]
    intro hpending
    rw [if_pos hpending]
    exact (getLsbD_or_twoPow p.master.request (by decide)).trans (by simp)

@[simp] theorem requested_settle : p.settle.Requested i ↔ p.Requested i := by
  simp only [Requested, requestBit, settle_slave]
  refine and_congr_right fun hline => ?_
  split
  next hi => rw [settle_request p hi hline.2]
  next => rfl

theorem Idle.congr (h : p.Idle) (hmaster : q.master.service = p.master.service)
    (hslave : q.slave.service = p.slave.service) : q.Idle :=
  ⟨hmaster.trans h.master, hslave.trans h.slave⟩

theorem InService.congr (h : p.InService i) (hmaster : q.master.service = p.master.service)
    (hslave : q.slave.service = p.slave.service) : q.InService i := by
  cases h with
  | first line slave master => exact .first line (hslave.trans slave) (hmaster ▸ master)
  | second line master slave => exact .second line (hmaster.trans master) (hslave ▸ slave)

end

section AtLine

variable {p : PicPair} {base : BitVec 8} {f : Pic → Nat → Pic} {i : Nat}

/-- What only changes requests. -/
def Asks (f : Pic → Nat → Pic) : Prop := ∀ q k, f q k = { q with request := (f q k).request }

theorem Nested.atLine (h : p.Nested base) (hf : Asks f) (i : Nat) :
    (p.atLine f i).Nested base := by
  rw [PicPair.atLine]
  split
  · exact nested_settle (h.master.congr ⟨_, _, hf _ _⟩) h.slave
  · exact nested_settle h.master (h.slave.congr ⟨_, _, hf _ _⟩)

theorem service_atLine (hf : Asks f) (p : PicPair) (i : Nat) :
    (p.atLine f i).master.service = p.master.service ∧
      (p.atLine f i).slave.service = p.slave.service := by
  rw [atLine, settle_service, settle_slave]
  split
  · exact ⟨by rw [hf], rfl⟩
  · exact ⟨rfl, by rw [hf]⟩

theorem Idle.atLine (h : p.Idle) (hf : Asks f) (i : Nat) : (p.atLine f i).Idle :=
  h.congr (service_atLine hf p i).1 (service_atLine hf p i).2

theorem InService.atLine {k : Nat} (h : p.InService k) (hf : Asks f) (i : Nat) :
    (p.atLine f i).InService k :=
  h.congr (service_atLine hf p i).1 (service_atLine hf p i).2

/-- The bits of the other lines stay. -/
structure AsksFor (f : Pic → Nat → Pic) (g : Bool → Bool) : Prop where
  asks : Asks f
  own : ∀ q k, k < 8 → (f q k).request.getLsbD k = g (q.request.getLsbD k)
  other : ∀ q k j, j < 8 → k ≠ j → (f q k).request.getLsbD j = q.request.getLsbD j

theorem asksFor_raise : AsksFor Pic.raise fun _ => true where
  asks := fun _ _ => rfl
  own := fun q k hk => (getLsbD_or_twoPow q.request hk).trans (by simp)
  other := fun q k j hj hne => (getLsbD_or_twoPow q.request hj).trans (by simp [hne])

theorem asksFor_withdraw : AsksFor Pic.withdraw fun _ => false where
  asks := fun _ _ => rfl
  own := fun q k hk => (getLsbD_clear_twoPow q.request hk).trans (by simp)
  other := fun q k j hj hne => (getLsbD_clear_twoPow q.request hj).trans (by simp [hne])

theorem requested_atLine {g : Bool → Bool} (hf : AsksFor f g) (hi : Line i) (j : Nat) :
    (p.atLine f i).Requested j ↔
      if j = i then g (p.requestBit i) = true else p.Requested j := by
  rw [atLine, requested_settle]
  by_cases heq : j = i
  · subst heq
    rw [if_pos rfl]
    refine (and_iff_right hi).trans (iff_of_eq (congrArg (· = true) ?_))
    simp only [requestBit]
    split
    next h8 => exact hf.own p.master j h8
    next h8 => exact hf.own p.slave (j - 8) (by have := hi.1; omega)
  · rw [if_neg heq]
    refine and_congr_right fun hj => iff_of_eq (congrArg (· = true) ?_)
    have hlt := hj.1
    simp only [requestBit]
    by_cases hi8 : i < 8
    · rw [if_pos hi8]
      split
      next h8 => exact hf.other p.master i j h8 (Ne.symm heq)
      next => rfl
    · rw [if_neg hi8]
      split
      next => rfl
      next h8 => exact hf.other p.slave (i - 8) (j - 8) (by omega) (by omega)

theorem requested_raise (hi : Line i) (j : Nat) :
    (p.raise i).Requested j ↔ p.Requested j ∨ j = i := by
  refine (requested_atLine asksFor_raise hi j).trans ?_
  split
  next heq => simp [heq]
  next hne => simp [hne]

theorem requested_withdraw (hi : Line i) (j : Nat) :
    (p.withdraw i).Requested j ↔ p.Requested j ∧ j ≠ i := by
  refine (requested_atLine asksFor_withdraw hi j).trans ?_
  split
  next heq => simp [heq]
  next hne => simp [hne]

end AtLine

section Acknowledge

variable {p q : PicPair} {base : BitVec 8} {i j : Nat}

/-- The line whose vector an acknowledge cycle gives: the first one requested, unless the
request that the controller or the second one was after has gone. -/
inductive Serves (p : PicPair) (i : Nat) : Prop
  | request (asked : p.Requested i) (first : ∀ j, p.Requested j → rank i ≤ rank j)
  | gone (line : i = 7) (none : ∀ j, ¬ p.Requested j)
  | goneSecond (line : i = 15) (none : ∀ j, p.Requested j → 1 < j ∧ j < 8)

structure Acknowledged (base : BitVec 8) (p : PicPair) (i : Nat) (q : PicPair) : Prop where
  serves : p.Serves i
  line : i < 16 ∧ i ≠ 2
  nested : q.Nested base
  service : q.InService i
  requests : ∀ j, q.Requested j ↔ p.Requested j ∧ j ≠ i

theorem requested_congr (hmaster : ∀ j < 8, j ≠ 2 →
      q.master.request.getLsbD j = p.master.request.getLsbD j)
    (hslave : q.slave.request = p.slave.request) : q.Requested i ↔ p.Requested i := by
  refine and_congr_right fun hline => iff_of_eq (congrArg (· = true) ?_)
  simp only [requestBit, hslave]
  split
  next hi => exact hmaster i hi hline.2
  next => rfl

/-- A request for a line of the second controller is one for line 2 of the first. -/
theorem Nested.settled_idle (h : p.Nested base) (idle : p.Idle) (hrequest : p.slave.request ≠ 0) :
    p.master.request.getLsbD 2 = true := by
  refine h.settled ?_
  rw [Pic.pending_idle h.slave idle.slave, Option.isSome_iff_ne_none]
  exact mt firstSet_eq_none.mp hrequest

theorem Requested.master (h : p.Requested j) (hj : j < 8) : p.master.request.getLsbD j = true := by
  have hbit := h.2
  rw [requestBit, if_pos hj] at hbit
  exact hbit

theorem Requested.slave (h : p.Requested j) (hj : ¬ j < 8) :
    p.slave.request.getLsbD (j - 8) = true := by
  have hbit := h.2
  rw [requestBit, if_neg hj] at hbit
  exact hbit

theorem Requested.slave_ne_zero (h : p.Requested j) (hj : ¬ j < 8) : p.slave.request ≠ 0 := by
  intro hzero
  have hbit := h.slave hj
  rw [hzero] at hbit
  exact absurd hbit (by simp)

theorem nested_pair {m s : Pic} (master : m.Nested base 4) (slave : s.Nested (base + 8) 2) :
    (settle ⟨m, s⟩).Nested base := nested_settle master slave

theorem first_pair {m s : Pic} (hi : i < 8) (master : m.service = BitVec.twoPow 8 i)
    (slave : s.service = 0) : (settle ⟨m, s⟩).InService i :=
  .first hi (by rw [settle_slave, slave]) (.inl (by rw [settle_service, master]))

theorem second_pair {m s : Pic} (hi : 8 ≤ i ∧ i < 16) (master : m.service = BitVec.twoPow 8 2)
    (slave : s.service = BitVec.twoPow 8 (i - 8) ∨ i = 15 ∧ s.service = 0) :
    (settle ⟨m, s⟩).InService i :=
  .second hi (by rw [settle_service, master]) (by rw [settle_slave]; exact slave)

theorem acknowledge_nothing (h : p.Nested base) (idle : p.Idle)
    (hfirst : firstSet p.master.request = none) :
    ∃ q, p.acknowledge = some (q, base + 7) ∧ p.Acknowledged base 7 q := by
  have hmaster := firstSet_eq_none.mp hfirst
  have hslave : p.slave.request = 0 := by
    by_contra hne
    have hbit := h.settled_idle idle hne
    rw [hmaster] at hbit
    exact absurd hbit (by decide)
  have hnone (j : Nat) : ¬ p.Requested j := by
    intro hj
    by_cases h8 : j < 8
    · have hbit := hj.master h8
      rw [hmaster] at hbit
      exact absurd hbit (by simp)
    · exact hj.slave_ne_zero h8 hslave
  refine ⟨p.settle, ?_, .gone rfl hnone, by decide, nested_settle h.master h.slave, ?_, fun j => ?_⟩
  · simp only [acknowledge, Pic.pending_idle h.master idle.master, hfirst,
      Pic.acknowledge_none h.master idle.master hfirst, Option.isSome_none, Bool.false_and,
      Bool.false_eq_true, if_false, h.master.base]
    rfl
  · exact .first (by decide) (p.settle_slave ▸ idle.slave)
      (.inr ⟨rfl, p.settle_service.trans idle.master⟩)
  · rw [requested_settle]
    exact iff_of_false (hnone j) fun hj => hnone j hj.1

theorem acknowledge_first (h : p.Nested base) (idle : p.Idle)
    (hfirst : firstSet p.master.request = some i) (h2 : i ≠ 2) :
    ∃ q, p.acknowledge = some (q, base + BitVec.ofNat 8 i) ∧ p.Acknowledged base i q := by
  obtain ⟨hi, hbit, hbefore⟩ := firstSet_eq_some.mp hfirst
  have hline : Line i := ⟨by omega, h2⟩
  have hcascade : (4 : BitVec 8).getLsbD i = false := by
    have hpow : (4 : BitVec 8) = BitVec.twoPow 8 2 := rfl
    rw [hpow, BitVec.getLsbD_twoPow, decide_eq_false (Ne.symm h2), Bool.and_false]
  have hrank (j : Nat) (hj : p.Requested j) : rank i ≤ rank j := by
    by_cases h8 : j < 8
    · have hij : i ≤ j := Nat.le_of_not_lt fun hlt => by
        have hreq := hj.master h8
        rw [hbefore j hlt] at hreq
        cases hreq
      have hj2 := hj.1.2
      simp only [rank]
      split_ifs <;> omega
    · have htwo := h.settled_idle idle (hj.slave_ne_zero h8)
      have hi2 : i ≤ 2 := Nat.le_of_not_lt fun hlt => by
        rw [hbefore 2 hlt] at htwo
        cases htwo
      simp only [rank]
      split_ifs <;> omega
  refine ⟨settle ⟨p.master.serving i, p.slave⟩, ?_, ?_⟩
  · simp only [acknowledge, Pic.pending_idle h.master idle.master, hfirst,
      Pic.acknowledge_some h.master idle.master hfirst, Option.isSome_some, Bool.true_and,
      h.master.cascade, hcascade, Bool.false_eq_true, if_false, h.master.base]
  · refine ⟨.request ⟨hline, ?_⟩ hrank, hline, ?_, ?_, fun j => ?_⟩
    · rw [requestBit, if_pos hi, hbit]
    · exact nested_pair (h.master.serving i) h.slave
    · exact first_pair hi rfl idle.slave
    · refine Iff.trans ?_ (requested_withdraw hline j)
      rw [withdraw, atLine, if_pos hi, requested_settle, requested_settle]
      exact requested_congr (fun _ _ _ => rfl) rfl

theorem acknowledge_second (h : p.Nested base) (idle : p.Idle)
    (hfirst : firstSet p.master.request = some 2) :
    ∃ q i, p.acknowledge = some (q, base + BitVec.ofNat 8 i) ∧ p.Acknowledged base i q := by
  obtain ⟨_, _, hbefore⟩ := firstSet_eq_some.mp hfirst
  have hafter (j : Nat) (hj : p.Requested j) : 1 < j := by
    by_contra hle
    have hreq := hj.master (by omega)
    rw [hbefore j (by omega)] at hreq
    cases hreq
  have hack : ∀ s, p.slave.acknowledge = s → p.acknowledge =
      some (settle ⟨p.master.serving 2, s.1⟩, base + 8 + BitVec.ofNat 8 s.2) := by
    rintro s rfl
    simp only [acknowledge, Pic.pending_idle h.master idle.master, hfirst,
      Pic.acknowledge_some h.master idle.master hfirst, Option.isSome_some, Bool.true_and,
      h.master.cascade, h.slave.cascade, h.slave.base]
    rfl
  cases hslave : firstSet p.slave.request with
  | none =>
      have hzero := firstSet_eq_none.mp hslave
      have hlow (j : Nat) (hj : p.Requested j) : j < 8 :=
        Nat.lt_of_not_le fun h8 => hj.slave_ne_zero (by omega) hzero
      refine ⟨_, 15, (hack _ (Pic.acknowledge_none h.slave idle.slave hslave)).trans ?_,
        .goneSecond rfl fun j hj => ⟨hafter j hj, hlow j hj⟩, by decide,
        nested_pair (h.master.serving 2) h.slave,
        second_pair (by decide) rfl (.inr ⟨rfl, idle.slave⟩), fun j => ?_⟩
      · rw [BitVec.add_assoc]
        rfl
      · have hsame : (settle ⟨p.master.serving 2, p.slave⟩).Requested j ↔ p.Requested j := by
          rw [requested_settle]
          exact requested_congr
            (fun k hk hne => asksFor_withdraw.other p.master 2 k hk hne.symm) rfl
        exact hsame.trans (iff_self_and.mpr fun hj => by have := hlow j hj; omega)
  | some k =>
      obtain ⟨hk, hbit, hfirst'⟩ := firstSet_eq_some.mp hslave
      have hline : Line (k + 8) := ⟨by omega, by omega⟩
      have hrank (j : Nat) (hj : p.Requested j) : rank (k + 8) ≤ rank j := by
        have h1 := hafter j hj
        have h2 := hj.1.2
        by_cases h8 : j < 8
        · simp only [rank]
          split_ifs <;> omega
        · have hkj : k ≤ j - 8 := Nat.le_of_not_lt fun hlt => by
            have hreq := hj.slave h8
            rw [hfirst' _ hlt] at hreq
            cases hreq
          simp only [rank]
          split_ifs <;> omega
      refine ⟨_, k + 8, (hack _ (Pic.acknowledge_some h.slave idle.slave hslave)).trans ?_,
        .request ⟨hline, ?_⟩ hrank, hline, nested_pair (h.master.serving 2) (h.slave.serving k),
        second_pair (by omega) rfl (.inl ?_), fun j => ?_⟩
      · rw [BitVec.add_assoc, Nat.add_comm k 8, BitVec.ofNat_add]
        rfl
      · rw [requestBit, if_neg (by omega), Nat.add_sub_cancel, hbit]
      · rw [Nat.add_sub_cancel]
        rfl
      · refine Iff.trans ?_ (requested_withdraw hline j)
        rw [withdraw, atLine, if_neg (by omega), requested_settle, requested_settle]
        refine requested_congr (fun k hk hne => ?_) ?_
        · exact asksFor_withdraw.other p.master 2 k hk hne.symm
        · rw [Nat.add_sub_cancel]
          rfl

/-- The request served is the first one. -/
theorem acknowledge_idle (h : p.Nested base) (idle : p.Idle) :
    ∃ q i, p.acknowledge = some (q, base + BitVec.ofNat 8 i) ∧ p.Acknowledged base i q := by
  cases hfirst : firstSet p.master.request with
  | none =>
      obtain ⟨q, hq⟩ := acknowledge_nothing h idle hfirst
      exact ⟨q, 7, hq⟩
  | some i =>
      by_cases h2 : i = 2
      · exact acknowledge_second h idle (h2 ▸ hfirst)
      · obtain ⟨q, hq⟩ := acknowledge_first h idle hfirst h2
        exact ⟨q, i, hq⟩

end Acknowledge

section Eoi

variable {p : PicPair} {base : BitVec 8} {i : Nat}

/-- An end of interrupt at one controller, which has one input in service or none. -/
theorem eoi_spec {q : Pic} {k : Nat} (hk : k < 8)
    (h : q.service = BitVec.twoPow 8 k ∨ q.service = 0) :
    q.command 0x20 = some { q with service := 0 } := by
  obtain h | h := h
  · exact Pic.command_eoi h hk
  · rw [Pic.command_eoi_idle h, ← h]

theorem out_master (hnested : p.Nested base) {k : Nat} (hk : k < 8)
    (h : p.master.service = BitVec.twoPow 8 k ∨ p.master.service = 0) :
    ∃ q, p.out 0x20 0x20 = some q ∧ q.Nested base ∧ q.master.service = 0 ∧
      q.slave.service = p.slave.service ∧ ∀ j, q.Requested j ↔ p.Requested j := by
  refine ⟨settle ⟨{ p.master with service := 0 }, p.slave⟩, ?_, ?_, settle_service _, ?_,
    fun j => requested_settle⟩
  · rw [out, if_pos rfl, eoi_spec hk h]
    rfl
  · exact nested_pair (hnested.master.congr ⟨_, _, rfl⟩) hnested.slave
  · rw [settle_slave]

theorem out_slave (hnested : p.Nested base) {k : Nat} (hk : k < 8)
    (h : p.slave.service = BitVec.twoPow 8 k ∨ p.slave.service = 0) :
    ∃ q, p.out 0xA0 0x20 = some q ∧ q.Nested base ∧ q.slave.service = 0 ∧
      q.master.service = p.master.service ∧ ∀ j, q.Requested j ↔ p.Requested j := by
  refine ⟨settle ⟨p.master, { p.slave with service := 0 }⟩, ?_, ?_, ?_, settle_service _,
    fun j => requested_settle⟩
  · rw [out, if_neg (by decide), if_neg (by decide), if_pos rfl, eoi_spec hk h]
    rfl
  · exact nested_pair hnested.master (hnested.slave.congr ⟨_, _, rfl⟩)
  · rw [settle_slave]

end Eoi

section Setup

/-- `p` is `⟨m, s⟩` but for the request at line 2. -/
structure Booting (p : PicPair) (m s : Pic) : Prop where
  master : ∃ request, p.master = { m with request := request } ∧
    ∀ j < 8, j ≠ 2 → request.getLsbD j = m.request.getLsbD j
  slave : p.slave = s

variable {p : PicPair} {m s : Pic}

theorem booting_settle (m s : Pic) : (settle ⟨m, s⟩).Booting m s :=
  ⟨⟨_, settle_master _, fun _ hj h2 => settle_request _ hj h2⟩, settle_slave _⟩

theorem Booting.settle (h : p.Booting m s) : p.settle.Booting m s := by
  obtain ⟨⟨request, hmaster, hsame⟩, hslave⟩ := h
  refine ⟨⟨p.settle.master.request, ?_, fun j hj h2 => ?_⟩, p.settle_slave.trans hslave⟩
  · rw [settle_master, hmaster]
  · rw [settle_request p hj h2, hmaster]
    exact hsame j hj h2

theorem restart_master (p : PicPair) :
    ∃ q, p.out 0x20 0x11 = some q ∧ q.Booting p.master.restarted p.slave := by
  refine ⟨_, ?_, booting_settle _ _⟩
  rw [out, if_pos rfl, Pic.command_restart, Option.map_some]

theorem Booting.restart_slave (h : p.Booting m s) :
    ∃ q, p.out 0xA0 0x11 = some q ∧ q.Booting m s.restarted := by
  have hbooting : Booting { p with slave := p.slave.restarted } m s.restarted :=
    ⟨h.master, congrArg Pic.restarted h.slave⟩
  refine ⟨_, ?_, hbooting.settle⟩
  rw [out, if_neg (by decide), if_neg (by decide), if_pos rfl, Pic.command_restart,
    Option.map_some]

theorem Booting.out_master (h : p.Booting m s) (word : BitVec 8) :
    ∃ q, p.out 0x21 word = some q ∧ q.Booting (m.data word) s := by
  obtain ⟨⟨request, hmaster, hsame⟩, hslave⟩ := h
  refine ⟨_, rfl, Booting.settle ⟨⟨request, ?_, fun j hj h2 => ?_⟩, hslave⟩⟩
  · change p.master.data word = _
    rw [hmaster, Pic.data_request]
  · rw [Pic.data_keeps_request]
    exact hsame j hj h2

theorem Booting.out_slave (h : p.Booting m s) (word : BitVec 8) :
    ∃ q, p.out 0xA1 word = some q ∧ q.Booting m (s.data word) :=
  ⟨_, rfl, Booting.settle ⟨h.master, congrArg (Pic.data · word) h.slave⟩⟩

end Setup

end PicPair

end DordOs.Lib
