import DordOs.Drivers.AcpiDecode
import DordOs.Drivers.Pic

/-!
From an interrupt pin to its case in `interrupt_handler` when there is an APIC: what
`acpi_initialize` reads about the pins and the controllers, the base addresses that
`kernel_enter` takes from it, what `apic_initialize` stores there, and which of the vectors
that come out of this have a gate.
-/
namespace DordOs
open Lib

/-- The registers of the I/O APIC behind its two windows. -/
structure IoApic where
  select : U8
  regs : U8 → U32

/-- Where the hardware has the registers of the local APIC and the two windows. -/
structure ApicMap where
  lapic : Addr
  ioapic : Addr
  lapic_low : 0x1000 ≤ lapic.toNat
  lapic_high : lapic.toNat + 0x1000 ≤ 2 ^ 32
  ioapic_low : 0x1000 ≤ ioapic.toNat
  ioapic_high : ioapic.toNat + 20 ≤ 2 ^ 32
  apart : lapic.toNat + 0x1000 ≤ ioapic.toNat ∨ ioapic.toNat + 20 ≤ lapic.toNat

/-- The registers of the local APIC, those of the I/O APIC, `MSR_APIC_BASE` and memory. -/
structure Apics where
  lapic : U16 → U32
  ioapic : IoApic
  msrApicBase : U64
  mem : Mem

/-- A store goes to the register at its address, if there is one, or to memory. -/
def Apics.store (map : ApicMap) (a : Apics) (dst : Addr) (val : U32) : Apics :=
  if InRange map.lapic 0x1000 dst then
    { a with lapic := Function.update a.lapic ((dst - map.lapic).setWidth 16) val }
  else if dst = map.ioapic then { a with ioapic := { a.ioapic with select := val.setWidth 8 } }
  else if dst = map.ioapic + 16 then
    { a with ioapic :=
        { a.ioapic with regs := Function.update a.ioapic.regs a.ioapic.select val } }
  else { a with mem := writeBytes a.mem dst (leBytes 4 val.toNat) }

def Apics.load (map : ApicMap) (a : Apics) (src : Addr) : U32 :=
  if InRange map.lapic 0x1000 src then a.lapic ((src - map.lapic).setWidth 16)
  else if src = map.ioapic then a.ioapic.select.setWidth 32
  else if src = map.ioapic + 16 then a.ioapic.regs a.ioapic.select
  else read32 a.mem src

def lapicRegSpur : U16 := 0xF0
def lapicRegDfr : U16 := 0xE0
def lapicRegLdr : U16 := 0xD0
def lapicRegTpr : U16 := 0x80

def ioapicRegRedirLo (n : Usz) : Usz := (0x10 : Usz) + (n <<< 1)
def ioapicRegRedirHi (n : Usz) : Usz := (0x10 : Usz) + (n <<< 1) + 1

def lapicWrite (map : ApicMap) (lapicBase : Usz) (reg : U16) (val : U32) (a : Apics) : Apics :=
  a.store map (lapicBase + reg.setWidth 32) val

def lapicRead (map : ApicMap) (lapicBase : Usz) (reg : U16) (a : Apics) : U32 :=
  a.load map (lapicBase + reg.setWidth 32)

/-- `ioapic_base[0] = reg; ioapic_base[4] = val`. -/
def ioapicWrite (map : ApicMap) (ioapicBase : Usz) (reg : U8) (val : U32) (a : Apics) : Apics :=
  (a.store map ioapicBase (reg.setWidth 32)).store map (ioapicBase + 16) val

/-- The body of the loop of `apic_initialize`. -/
def apicRedirect (map : ApicMap) (ioapicBase : Usz) (irqMappings : Nat → U8) (i : Usz)
    (a : Apics) : Apics :=
  let redirLo : U32 := apicIrqOffs.setWidth 32 + (irqMappings i.toNat).setWidth 32
  let a := ioapicWrite map ioapicBase ((ioapicRegRedirLo i).setWidth 8) redirLo a
  ioapicWrite map ioapicBase ((ioapicRegRedirHi i).setWidth 8) 0 a

def apicInitialize (map : ApicMap) (lbase iobase : Usz) (irqMappings : Nat → U8) (a : Apics) :
    Apics :=
  let spur := lapicRead map lbase lapicRegSpur a
  let a := lapicWrite map lbase lapicRegSpur (spur ||| 0x1FF) a
  let a := lapicWrite map lbase lapicRegDfr 0xF0000000 a
  let a := lapicWrite map lbase lapicRegLdr 0xFF000000 a
  let a := lapicWrite map lbase lapicRegTpr 0 a
  forUp (0 : Usz) 24 (apicRedirect map iobase irqMappings) a

def picMaskAll (p : PicPair) : Option PicPair := do
  let p ← p.out pic1Data 0xFF
  p.out pic2Data 0xFF

/-- What `cpuid` says about this processor. -/
structure CpuInf where
  msr : Bool
  apic : Bool

def apicIoBaseDefault : Usz := 0xFEC00000

/-- `lapic_base`, `ioapic_base` and what `rdmsr` and `wrmsr` do in `kernel_enter`. -/
def findApic (cpuinf : CpuInf) (acpi : Acpi) (a : Apics) : Usz × Usz × Apics :=
  if acpi.acpiLapic ≠ 0 then (acpi.acpiLapic, acpi.acpiIoapic, a)
  else if cpuinf.msr && cpuinf.apic then
    let eax : U32 := a.msrApicBase.setWidth 32
    let edx : U32 := (a.msrApicBase >>> 32).setWidth 32 ||| 1 <<< 11
    (eax &&& 0xFFFFF000, apicIoBaseDefault, { a with msrApicBase := edx ++ eax })
  else (0, apicIoBaseDefault, a)

/-- `kernel_enter`, from behind `pic_initialize` to before `sti`. -/
def kernelEnterIrqs (map : ApicMap) (cpuinf : CpuInf) (acpi : Acpi) (p : PicPair) (a : Apics) :
    Option (PicPair × Apics) :=
  let (lapicBase, ioapicBase, a) := findApic cpuinf acpi a
  if lapicBase ≠ 0 then do
    let p ← picMaskAll p
    return (p, apicInitialize map lapicBase ioapicBase acpi.acpiIntrMappings a)
  else do
    let p ← picUnmaskAll p
    return (p, a)

/-- A redirection entry as the I/O APIC reads it. -/
structure IoRoute where
  vector : U8
  delivery : BitVec 3
  logical : Bool
  activeLow : Bool
  level : Bool
  masked : Bool
  destination : U8
  deriving DecidableEq

def IoRoute.ofWords (lo hi : U32) : IoRoute where
  vector := lo.setWidth 8
  delivery := lo.extractLsb' 8 3
  logical := lo.getLsbD 11
  activeLow := lo.getLsbD 13
  level := lo.getLsbD 15
  masked := lo.getLsbD 16
  destination := (hi >>> 24).setWidth 8

def IoApic.route (io : IoApic) (pin : Nat) : IoRoute :=
  .ofWords (io.regs (BitVec.ofNat 8 (0x10 + 2 * pin))) (io.regs (BitVec.ofNat 8 (0x11 + 2 * pin)))

/-- The entry that `apic_initialize` writes for an ISA interrupt. -/
def IoRoute.ofMapping (mapping : U8) : IoRoute :=
  .ofWords (apicIrqOffs.setWidth 32 + mapping.setWidth 32) 0

/-- An edge at the pin is a fixed interrupt with this vector for the processor with id 0. -/
def IoRoute.Sends (r : IoRoute) (v : U8) : Prop := r = ⟨v, 0, false, false, false, false, 0⟩

/-- What the handler does for an ISA interrupt that the APIC delivers. -/
def apicActions (irq : U8) : List IrqAction :=
  if irq = irqPit then [.pitHandleInterrupt, .apicEoi irq, .schedule]
  else irqCase irq ++ [.apicEoi irq]

/-- The local APIC is on and the vector's class is above the task priority. -/
def Apics.Accepts (a : Apics) (v : U8) : Prop :=
  (a.lapic lapicRegSpur).getLsbD 8 = true ∧ (a.lapic lapicRegTpr).toNat % 256 / 16 < v.toNat / 16

/-- The pin's interrupt goes through a present gate to the case for this ISA interrupt, which
sends the end of interrupt. -/
def PinHandled (t : TrapText) (a : Apics) (pin : Nat) (irq : U8) : Prop :=
  ∃ v, (a.ioapic.route pin).Sends v ∧ a.Accepts v ∧
    (idtMakeDefault t idtBlank v).gate = some (0x8, t.isr v) ∧
    interruptHandler v = some (apicActions irq)

/-- A device raises its line or withdraws it. -/
def LineMoves (p q : PicPair) : Prop := ∃ i, q = p.raise i ∨ q = p.withdraw i

section Masked

/-- Both controllers let nothing through. -/
structure PicMasked (p : PicPair) : Prop where
  master : p.master.mask = 0xFF
  slave : p.slave.mask = 0xFF

variable {p q : PicPair}

theorem pending_masked {c : Pic} (h : c.mask = 0xFF) : c.pending = none := by
  have hzero : c.request &&& ~~~c.mask = 0 := by
    rw [h]
    exact BitVec.and_zero
  simp only [Pic.pending, hzero, firstSet_zero]

theorem PicMasked.settle (h : PicMasked p) : p.settle = p := by
  rw [PicPair.settle, pending_masked h.slave]
  rfl

theorem PicMasked.moves (h : PicMasked p) (moves : LineMoves p q) : PicMasked q := by
  have hline (f : Pic → Nat → Pic) (hf : ∀ c i, (f c i).mask = c.mask) (i : Nat) :
      PicMasked (p.atLine f i) := by
    rw [PicPair.atLine]
    split
    next =>
      have hmasked : PicMasked { p with master := f p.master i } :=
        ⟨(hf _ _).trans h.master, h.slave⟩
      rwa [hmasked.settle]
    next =>
      have hmasked : PicMasked { p with slave := f p.slave (i - 8) } :=
        ⟨h.master, (hf _ _).trans h.slave⟩
      rwa [hmasked.settle]
  obtain ⟨i, rfl | rfl⟩ := moves
  · exact hline Pic.raise (fun _ _ => rfl) i
  · exact hline Pic.withdraw (fun _ _ => rfl) i

theorem picMaskAll_masked (h : p.Nested picIrqOffs) : ∃ q, picMaskAll p = some q ∧ PicMasked q := by
  have hdata {c : Pic} (hc : c.init = .ready) : c.data 0xFF = { c with mask := 0xFF } := by
    simp only [Pic.data, hc]
  have hmaster : p.out pic1Data 0xFF =
      some (PicPair.settle { p with master := { p.master with mask := 0xFF } }) := by
    change some (PicPair.settle { p with master := p.master.data 0xFF }) = _
    rw [hdata h.master.init]
  obtain ⟨r, hr⟩ : ∃ r, PicPair.settle { p with master := { p.master with mask := 0xFF } } = r :=
    ⟨_, rfl⟩
  have hslave : r.slave = p.slave := by rw [← hr, PicPair.settle_slave]
  have hmask : r.master.mask = 0xFF := by
    rw [← hr, PicPair.settle]
    split <;> rfl
  have hmasked : PicMasked { r with slave := { r.slave with mask := 0xFF } } := ⟨hmask, rfl⟩
  refine ⟨_, ?_, hmasked⟩
  rw [picMaskAll]
  refine (bind_of_some (hmaster.trans (congrArg some hr))).trans ?_
  change some (PicPair.settle { r with slave := r.slave.data 0xFF }) = _
  rw [hdata (by rw [hslave]; exact h.slave.init), hmasked.settle]

/-- Behind `pic_mask_all` no interrupt comes from these controllers. -/
theorem masked_silent (p : PicPair) : ∃ q r, picInitialize p = some q ∧ picMaskAll q = some r ∧
    ∀ s, Relation.ReflTransGen LineMoves r s → s.master.pending = none := by
  obtain ⟨q, hinit, hnested, -, -⟩ := picInitialize_nested p
  obtain ⟨r, hmask, hmasked⟩ := picMaskAll_masked hnested
  refine ⟨q, r, hinit, hmask, fun s hmoves => pending_masked (PicMasked.master ?_)⟩
  induction hmoves with
  | refl => exact hmasked
  | tail _ hstep ih => exact ih.moves hstep

end Masked

section Stores

variable {map : ApicMap} {a : Apics} {reg : U16} {val : U32}

/-- Where a register of the local APIC lies. -/
theorem lapic_reg (map : ApicMap) (hreg : reg.toNat < 0x1000) :
    InRange map.lapic 0x1000 (map.lapic + reg.setWidth 32) ∧
      (map.lapic + reg.setWidth 32 - map.lapic).setWidth 16 = reg := by
  have hhigh := map.lapic_high
  have hat : (map.lapic + reg.setWidth 32).toNat = map.lapic.toNat + reg.toNat := by bv_omega
  refine ⟨⟨by omega, by omega⟩, ?_⟩
  rw [BitVec.add_comm, BitVec.add_sub_cancel, BitVec.setWidth_setWidth_of_le reg (by decide),
    BitVec.setWidth_eq]

theorem store_lapic (hreg : reg.toNat < 0x1000) : lapicWrite map map.lapic reg val a =
    { a with lapic := Function.update a.lapic reg val } := by
  obtain ⟨hin, hofs⟩ := lapic_reg map hreg
  rw [lapicWrite, Apics.store, if_pos hin, hofs]

theorem load_lapic (hreg : reg.toNat < 0x1000) : lapicRead map map.lapic reg a = a.lapic reg := by
  obtain ⟨hin, hofs⟩ := lapic_reg map hreg
  rw [lapicRead, Apics.load, if_pos hin, hofs]

/-- The registers of the I/O APIC after a store through the windows. -/
def IoApic.put (io : IoApic) (reg : U8) (val : U32) : IoApic :=
  ⟨reg, Function.update io.regs reg val⟩

theorem store_ioapic (reg : U8) :
    ioapicWrite map map.ioapic reg val a = { a with ioapic := a.ioapic.put reg val } := by
  have hhigh := map.ioapic_high
  have hapart := map.apart
  have hat : (map.ioapic + 16).toNat = map.ioapic.toNat + 16 := by bv_omega
  have hne : map.ioapic + 16 ≠ map.ioapic := fun h => by
    rw [h] at hat
    omega
  have hselect : ¬ InRange map.lapic 0x1000 map.ioapic := fun h => by
    obtain ⟨hlo, hhi⟩ := h
    omega
  have hwindow : ¬ InRange map.lapic 0x1000 (map.ioapic + 16) := fun h => by
    obtain ⟨hlo, hhi⟩ := h
    omega
  have hreg : (reg.setWidth 32).setWidth 8 = reg := by
    rw [BitVec.setWidth_setWidth_of_le reg (by decide), BitVec.setWidth_eq]
  simp only [ioapicWrite, Apics.store, if_neg hselect, if_neg hwindow, if_neg hne, if_true, hreg,
    IoApic.put]

/-- Low addresses are memory. -/
theorem store_low {dst : Addr} (h : dst.toNat < 0x1000) :
    (a.store map dst val).ioapic = a.ioapic := by
  have hlapic := map.lapic_low
  have hioapic := map.ioapic_low
  have hhigh := map.ioapic_high
  have hat : (map.ioapic + 16).toNat = map.ioapic.toNat + 16 := by bv_omega
  have hnot : ¬ InRange map.lapic 0x1000 dst := fun hin => by
    have := hin.1
    omega
  rw [Apics.store, if_neg hnot, if_neg fun heq => ?_, if_neg fun heq => ?_]
  · rw [heq] at h
    omega
  · rw [heq] at h
    omega

end Stores

section Redirect

variable {map : ApicMap} {irqMappings : Nat → U8} {io : IoApic} {a b : Apics} {i : Usz}
  {g : Nat}

theorem redirLo_eq :
    (ioapicRegRedirLo i).setWidth 8 = BitVec.ofNat 8 (0x10 + 2 * i.toNat) := by
  have hbase : (0x10 : Usz).toNat = 16 := rfl
  apply BitVec.eq_of_toNat_eq
  simp only [ioapicRegRedirLo, BitVec.toNat_setWidth, BitVec.toNat_add, BitVec.toNat_shiftLeft,
    BitVec.toNat_ofNat, Nat.shiftLeft_eq, hbase]
  omega

theorem redirHi_eq :
    (ioapicRegRedirHi i).setWidth 8 = BitVec.ofNat 8 (0x11 + 2 * i.toNat) := by
  have hbase : (0x10 : Usz).toNat = 16 := rfl
  have hone : (1 : Usz).toNat = 1 := rfl
  apply BitVec.eq_of_toNat_eq
  simp only [ioapicRegRedirHi, BitVec.toNat_setWidth, BitVec.toNat_add, BitVec.toNat_shiftLeft,
    BitVec.toNat_ofNat, Nat.shiftLeft_eq, hbase, hone]
  omega

/-- The two words of entry `i`. -/
def IoApic.redirect (irqMappings : Nat → U8) (i : Usz) (io : IoApic) : IoApic :=
  (io.put (BitVec.ofNat 8 (0x10 + 2 * i.toNat))
    (apicIrqOffs.setWidth 32 + (irqMappings i.toNat).setWidth 32)).put
      (BitVec.ofNat 8 (0x11 + 2 * i.toNat)) 0

theorem apicRedirect_own : apicRedirect map map.ioapic irqMappings i a =
    { a with ioapic := a.ioapic.redirect irqMappings i } := by
  simp only [apicRedirect, store_ioapic, redirLo_eq, redirHi_eq, IoApic.redirect]

theorem apicRedirect_null : (apicRedirect map 0 irqMappings i a).ioapic = a.ioapic := by
  simp only [apicRedirect, ioapicWrite]
  rw [store_low (by decide), store_low (by decide), store_low (by decide), store_low (by decide)]

theorem redirect_own :
    (io.redirect irqMappings i).route i.toNat = .ofMapping (irqMappings i.toNat) := by
  have hne : BitVec.ofNat 8 (0x10 + 2 * i.toNat) ≠ BitVec.ofNat 8 (0x11 + 2 * i.toNat) := by
    bv_omega
  simp only [IoApic.redirect, IoApic.put, IoApic.route, IoRoute.ofMapping,
    Function.update_self, Function.update_of_ne hne]

theorem redirect_other (hi : i.toNat < 24) (hg : g < 24) (hne : g ≠ i.toNat) :
    (io.redirect irqMappings i).route g = io.route g := by
  have hkeep (reg : U8) (hlo : reg ≠ BitVec.ofNat 8 (0x10 + 2 * i.toNat))
      (hhi : reg ≠ BitVec.ofNat 8 (0x11 + 2 * i.toNat)) :
      (io.redirect irqMappings i).regs reg = io.regs reg := by
    simp only [IoApic.redirect, IoApic.put, Function.update_of_ne hlo, Function.update_of_ne hhi]
  rw [IoApic.route, hkeep _ (by bv_omega) (by bv_omega), hkeep _ (by bv_omega) (by bv_omega)]
  rfl

/-- The first `n` pins have their entries. -/
def Redirected (irqMappings : Nat → U8) (n : Nat) (io : IoApic) : Prop :=
  ∀ k < n, io.route k = .ofMapping (irqMappings k)

theorem Redirected.step (hi : i.toNat < 24) (h : Redirected irqMappings i.toNat io) :
    Redirected irqMappings (i.toNat + 1) (io.redirect irqMappings i) := by
  intro k hk
  by_cases hki : k = i.toNat
  · rw [hki]
    exact redirect_own
  · rw [redirect_other hi (by omega) hki]
    exact h k (by omega)

/-- The local APIC when it is set up. -/
def lapicSetUp (lapic : U16 → U32) : U16 → U32 :=
  Function.update (Function.update (Function.update
    (Function.update lapic lapicRegSpur (lapic lapicRegSpur ||| 0x1FF))
    lapicRegDfr 0xF0000000) lapicRegLdr 0xFF000000) lapicRegTpr 0

theorem apicInitialize_lapic (iobase : Usz) :
    apicInitialize map map.lapic iobase irqMappings a =
      forUp (0 : Usz) 24 (apicRedirect map iobase irqMappings)
        { a with lapic := lapicSetUp a.lapic } := by
  simp only [apicInitialize]
  rw [load_lapic (by decide), store_lapic (by decide), store_lapic (by decide),
    store_lapic (by decide), store_lapic (by decide)]
  rfl

theorem apicInitialize_own :
    Redirected irqMappings 24 (apicInitialize map map.lapic map.ioapic irqMappings a).ioapic ∧
      (apicInitialize map map.lapic map.ioapic irqMappings a).lapic = lapicSetUp a.lapic := by
  have hbounds : (0 : Usz).toNat ≤ (24 : Usz).toNat := by decide
  obtain ⟨start, hstart⟩ : ∃ b : Apics, b = { a with lapic := lapicSetUp a.lapic } := ⟨_, rfl⟩
  have hentry : Redirected irqMappings (0 : Usz).toNat start.ioapic ∧
      start.lapic = lapicSetUp a.lapic :=
    ⟨fun k hk => absurd hk (Nat.not_lt_zero k), hstart ▸ rfl⟩
  rw [apicInitialize_lapic, ← hstart]
  refine forUp_invariant
    (fun n b => Redirected irqMappings n b.ioapic ∧ b.lapic = lapicSetUp a.lapic)
    (apicRedirect map map.ioapic irqMappings) hbounds (fun i b _ hi h => ?_) start hentry
  rw [apicRedirect_own]
  exact ⟨h.1.step hi, h.2⟩

/-- Without the address of an I/O APIC the entries go to memory. -/
theorem apicInitialize_null :
    (apicInitialize map map.lapic 0 irqMappings a).ioapic = a.ioapic := by
  have hbounds : (0 : Usz).toNat ≤ (24 : Usz).toNat := by decide
  obtain ⟨start, hstart⟩ : ∃ b : Apics, b = { a with lapic := lapicSetUp a.lapic } := ⟨_, rfl⟩
  have hentry : start.ioapic = a.ioapic := by rw [hstart]
  rw [apicInitialize_lapic, ← hstart]
  exact forUp_invariant (fun _ b => b.ioapic = a.ioapic) (apicRedirect map 0 irqMappings) hbounds
    (fun _ _ _ _ h => apicRedirect_null.trans h) start hentry

theorem lapicSetUp_accepts (h : a.lapic = lapicSetUp b.lapic) {v : U8} (hv : 16 ≤ v.toNat) :
    a.Accepts v := by
  have hspur : a.lapic lapicRegSpur = b.lapic lapicRegSpur ||| 0x1FF := by
    rw [h]
    rfl
  have htpr : a.lapic lapicRegTpr = 0 := by
    rw [h]
    rfl
  constructor
  · rw [hspur, BitVec.getLsbD_or]
    exact Bool.or_eq_true_iff.mpr (.inr rfl)
  · rw [htpr]
    exact Nat.div_pos hv (by decide)

/-- The entry for a mapping sends its vector, unless the sum does not fit the vector field. -/
theorem sends_iff (irq v : U8) :
    (IoRoute.ofMapping irq).Sends v ↔ irq.toNat < 192 ∧ v = apicIrqOffs + irq := by
  have hlt := irq.isLt
  have hoffs : apicIrqOffs.toNat = 64 := rfl
  have hlo : (apicIrqOffs.setWidth 32 + irq.setWidth 32 : U32).toNat = 64 + irq.toNat := by
    simp only [BitVec.toNat_add, BitVec.toNat_setWidth, hoffs]
    omega
  obtain ⟨lo, hword⟩ : ∃ lo : U32, apicIrqOffs.setWidth 32 + irq.setWidth 32 = lo := ⟨_, rfl⟩
  rw [hword] at hlo
  have hbit (k : Nat) (hk : 11 ≤ k) : lo.getLsbD k = false := by
    refine Nat.testBit_lt_two_pow ?_
    exact Nat.lt_of_lt_of_le (by omega) (Nat.pow_le_pow_right (by decide) hk)
  have hvector : lo.setWidth 8 = apicIrqOffs + irq := by
    apply BitVec.eq_of_toNat_eq
    simp only [BitVec.toNat_setWidth, BitVec.toNat_add, hoffs, hlo]
  have hdelivery : lo.extractLsb' 8 3 = 0 ↔ irq.toNat < 192 := by
    rw [← BitVec.toNat_inj, BitVec.extractLsb'_toNat, hlo, Nat.shiftRight_eq_div_pow]
    change (64 + irq.toNat) / 2 ^ 8 % 2 ^ 3 = 0 ↔ _
    omega
  have hdest : ((0 : U32) >>> 24).setWidth 8 = (0 : U8) := by decide
  simp only [IoRoute.Sends, IoRoute.ofMapping, hword, IoRoute.ofWords, hvector,
    hbit 11 (by decide), hbit 13 (by decide), hbit 15 (by decide), hbit 16 (by decide), hdest,
    IoRoute.mk.injEq, hdelivery, and_true]
  exact and_comm.trans (and_congr_right fun _ => eq_comm)

end Redirect

section Dispatch

variable {irq irq' : U8}

theorem interruptHandler_apic (h : irq < 24) :
    interruptHandler (apicIrqOffs + irq) = some (apicActions irq) := by
  have hoffs : apicIrqOffs = 64 := rfl
  have hne : apicIrqOffs + irq ≠ 0xFF := by
    rw [hoffs]
    bv_omega
  have hapic : isApicIrq (apicIrqOffs + irq) = true := by
    refine Bool.and_eq_true_iff.mpr ⟨decide_eq_true ?_, decide_eq_true ?_⟩
    · rw [hoffs]
      bv_omega
    · rw [hoffs]
      bv_omega
  have hpic : isPicIrq (apicIrqOffs + irq) = false := by
    refine Bool.and_eq_false_iff.mpr (.inr (decide_eq_false ?_))
    rw [hoffs, picIrqOffs]
    bv_omega
  have hback : apicIrqOffs + irq - apicIrqOffs = irq := by bv_omega
  simp only [interruptHandler, if_neg hne, hapic, hpic, hback, if_true, Bool.true_or,
    Bool.false_eq_true, if_false, apicActions]
  split <;> rfl

theorem apicEoi_mem_irqCase : IrqAction.apicEoi irq ∉ irqCase irq' := by
  simp only [irqCase]
  repeat' split
  all_goals simp

theorem apicEoi_mem : IrqAction.apicEoi irq ∈ apicActions irq' ↔ irq = irq' := by
  rw [apicActions]
  split
  next => simp
  next => simp [apicEoi_mem_irqCase]

/-- A mapping is handled, and as itself, when its vector has a gate. -/
theorem pinHandled_iff (t : TrapText) {a : Apics} {pin : Nat} {mapping : U8}
    (hroute : a.ioapic.route pin = .ofMapping mapping)
    (haccepts : ∀ v : U8, 16 ≤ v.toNat → a.Accepts v) :
    PinHandled t a pin irq ↔ irq = mapping ∧ mapping < 23 := by
  rw [PinHandled, hroute]
  constructor
  · rintro ⟨v, hsends, -, hgate, hactions⟩
    obtain ⟨hfits, rfl⟩ := (sends_iff mapping v).mp hsends
    -- by `hfits` the vector has not wrapped to that of an exception
    have hpresent : apicIrqOffs + mapping = 0xAE ∨ mapping < 23 := by
      by_contra hnone
      rw [not_or] at hnone
      have hrange : ¬ (apicIrqOffs + mapping < 48 ∨
          (64 ≤ apicIrqOffs + mapping ∧ apicIrqOffs + mapping < 87)) := by
        simp only [apicIrqOffs] at hnone ⊢
        bv_omega
      rw [idt_gate, idtRoutine, if_neg hnone.1, if_neg hrange] at hgate
      cases hgate
    have heoi : IrqAction.apicEoi irq ∈ apicActions irq := apicEoi_mem.mpr rfl
    rcases hpresent with hsys | hlt
    · -- the gate of the system call, which is no interrupt of a pin
      rw [hsys, show interruptHandler 0xAE = some [] from rfl, Option.some.injEq] at hactions
      rw [← hactions] at heoi
      exact absurd heoi List.not_mem_nil
    · have hactions' : interruptHandler (apicIrqOffs + mapping) = some (apicActions mapping) :=
        interruptHandler_apic (by bv_omega)
      rw [hactions, Option.some.injEq] at hactions'
      exact ⟨apicEoi_mem.mp (hactions' ▸ heoi), hlt⟩
  · rintro ⟨rfl, hlt⟩
    refine ⟨apicIrqOffs + irq, (sends_iff irq _).mpr ⟨by bv_omega, rfl⟩, haccepts _ ?_, ?_, ?_⟩
    · simp only [apicIrqOffs]
      bv_omega
    · have hne : apicIrqOffs + irq ≠ 0xAE := by
        simp only [apicIrqOffs]
        bv_omega
      have hrange : 64 ≤ apicIrqOffs + irq ∧ apicIrqOffs + irq < 87 := by
        simp only [apicIrqOffs]
        bv_omega
      rw [idt_gate, idtRoutine, if_neg hne, if_pos (.inr hrange)]
      rfl
    · exact interruptHandler_apic (by bv_omega)

end Dispatch

/-- The ISA interrupt behind a pin: the last override of the pin, or its own number. -/
def pinIrq (records : List MadtRec) (pin : Nat) : U8 :=
  ((lastWith records fun r => r.type = 2 ∧ r.gsi.toNat = pin).map MadtRec.id).getD
    (BitVec.ofNat 8 pin)

/-- The address of the local APIC that the table gives. -/
def madtLapic (m : Mem) (sdt : Addr) (records : List MadtRec) : U32 :=
  ((lastWith records fun r => r.type = 5).map MadtRec.address).getD (read32 m (sdt + 36))

/-- The address of the I/O APIC, if there is a record of one. -/
def madtIoapic (records : List MadtRec) : Option U32 :=
  (lastWith records fun r => r.type = 1).map fun r => word r 4

/-- The interrupts of the kernel in APIC mode, with the 8259 controllers `p`. An edge at a pin
of the I/O APIC the table tells of is handled as the ISA interrupt the table gives for it, and
as no other. The exception is an interrupt from 23 on: its vector has no gate. If the table
tells of none, its registers stay as they were. -/
structure ApicMode (t : TrapText) (map : ApicMap) (records : List MadtRec) (a : Apics)
    (p : PicPair) (a' : Apics) : Prop where
  silent : ∀ q, Relation.ReflTransGen LineMoves p q → q.master.pending = none
  routed : madtIoapic records = some map.ioapic → ∀ pin < 24, ∀ irq, PinHandled t a' pin irq ↔
    irq = pinIrq records pin ∧ pinIrq records pin < 23
  unrouted : madtIoapic records = none → a'.ioapic = a.ioapic

/-- `acpi_initialize`, `pic_initialize` and what `kernel_enter` does then lead to it. -/
theorem apic_mode (t : TrapText) (map : ApicMap) (cpuinf : CpuInf) (a : Apics) (p : PicPair)
    (sdt : Addr) (records : List MadtRec) (hfind : acpiFindRsdp a.mem ≠ 0)
    (honly : MadtOnly a.mem (rsdtAddr a.mem (acpiFindRsdp a.mem)) sdt)
    (hfilled : MadtFilled a.mem sdt records) (hlapic : madtLapic a.mem sdt records = map.lapic) :
    ∃ k place acpi q r a', acpiInitialize a.mem acpiBoot k = some (place, acpi) ∧
      acpiStep a.mem (rsdtAddr a.mem (acpiFindRsdp a.mem)) (place, acpi) = none ∧
      picInitialize p = some q ∧ kernelEnterIrqs map cpuinf acpi q a = some (r, a') ∧
      ApicMode t map records a r a' := by
  obtain ⟨k, place, f, f', acpi, hinit, hend, hfolded⟩ :=
    acpiInitialize_folded hfind honly hfilled
  obtain ⟨q, r, hpic, hmask, hsilent⟩ := masked_silent p
  have hbase : acpi.lapic = map.lapic := by
    rw [hfolded.lapic, lastWith_address hfilled.formed]
    exact hlapic
  have hne : map.lapic ≠ 0 := fun h => by
    have hlow := map.lapic_low
    rw [h] at hlow
    exact absurd hlow (by decide)
  have hioapic : acpi.ioapic = (madtIoapic records).getD 0 := hfolded.ioapic
  have henter : kernelEnterIrqs map cpuinf { acpi with
      fadt := f', acpiLapic := acpi.lapic, acpiIoapic := acpi.ioapic } q a =
        some (r, apicInitialize map map.lapic acpi.ioapic acpi.acpiIntrMappings a) := by
    simp only [kernelEnterIrqs, findApic, hbase, if_pos hne, hmask]
    rfl
  refine ⟨k, place, _, q, r, _, hinit, hend _, hpic, henter, hsilent, fun hsome pin hpin irq => ?_,
    fun hnone => ?_⟩
  · have hown : acpi.ioapic = map.ioapic := by rw [hioapic, hsome, Option.getD_some]
    have hmapping : acpi.acpiIntrMappings pin = pinIrq records pin := by
      rw [hfolded.mappings, pinIrq]
      exact congrArg _ (acpiReset_mappings pin hpin)
    obtain ⟨hroutes, hregs⟩ := @apicInitialize_own map acpi.acpiIntrMappings a
    rw [hown, ← hmapping]
    exact pinHandled_iff t (hroutes pin hpin) fun v => lapicSetUp_accepts hregs
  · have hnull : acpi.ioapic = 0 := by rw [hioapic, hnone, Option.getD_none]
    rw [hnull]
    exact apicInitialize_null

/-- The controllers where PCs have them. -/
def pcApicMap : ApicMap where
  lapic := 0xFEE00000
  ioapic := 0xFEC00000
  lapic_low := by decide
  lapic_high := by decide
  ioapic_low := by decide
  ioapic_high := by decide
  apart := by decide

/-- The registers before anything is written to them, and the tables in memory. -/
def someApics : Apics := ⟨fun _ => 0, ⟨0, fun _ => 0⟩, 0xFEE00900, acpiMem someTables⟩

def somePics : PicPair :=
  ⟨⟨0, 0, 0, 0, 0, false, false, .ready⟩, ⟨0, 0, 0, 0, 0, false, false, .ready⟩⟩

/-- The timer is at pin 2, as the override says, and nobody handles pin 23. -/
theorem apic_mode_someTables : ∃ k place acpi q r a,
    acpiInitialize (acpiMem someTables) acpiBoot k = some (place, acpi) ∧
    picInitialize somePics = some q ∧
    kernelEnterIrqs pcApicMap ⟨true, true⟩ acpi q someApics = some (r, a) ∧
    PinHandled someRoutines a 2 irqPit ∧ ∀ irq, ¬ PinHandled someRoutines a 23 irq := by
  obtain ⟨k, place, acpi, q, r, a, hinit, _, hpic, henter, hmode⟩ := apic_mode someRoutines
    pcApicMap ⟨true, true⟩ someApics somePics 0x628 someRecords (by decide +kernel)
    someTables_only someTables_filled (by decide +kernel)
  have hrouted := hmode.routed (by decide)
  refine ⟨k, place, acpi, q, r, a, hinit, hpic, henter,
    (hrouted 2 (by decide) _).mpr ⟨by decide, by decide⟩, fun irq h => ?_⟩
  exact absurd ((hrouted 23 (by decide) irq).mp h).2 (by decide)

end DordOs
