import DordOs.Lib.Chain
import DordOs.Proc.State
import Mathlib.Data.Fintype.Card

/-!
The two loops of `proc_schedule` on null-terminated queues. Each is described by
the queues it leaves and by the links it does not touch; the induction is on the
rest of the queue under the cursor.
-/
namespace DordOs
open Lib

theorem queue_length_lt {next : Usz → Usz} {p : Usz} {l : List Usz} (h : Chain next 0 p l) :
    l.length < walkSteps := by
  have hnodup : ((0 :: l).map BitVec.toFin).Nodup := by
    refine List.Nodup.map (fun _ _ heq => BitVec.eq_of_toFin_eq heq) ?_
    exact List.nodup_cons.mpr ⟨fun h0 => h.ne_stop 0 h0 rfl, h.nodup⟩
  have hle := hnodup.length_le_card
  rw [Fintype.card_fin, List.length_map, List.length_cons] at hle
  exact hle

namespace Sched

variable (s : Sched)

@[simp] theorem load_store_self (it : Link) (v : Usz) : (s.store it v).load it = v := by
  cases it with
  | readyQ | waitingQ => rfl
  | next q => exact Function.update_self q v s.next

theorem load_store_of_ne {k it : Link} (h : k ≠ it) (v : Usz) :
    (s.store it v).load k = s.load k := by
  cases it with
  | readyQ | waitingQ =>
      cases k with
      | readyQ | waitingQ => first | rfl | exact absurd rfl h
      | next => rfl
  | next q =>
      cases k with
      | readyQ | waitingQ => rfl
      | next p => exact Function.update_of_ne (fun heq => h (congrArg Link.next heq)) v s.next

theorem store_only (it : Link) (v : Usz) :
    s.store it v = { s with
      next := (s.store it v).next
      readyQ := (s.store it v).readyQ
      waitingQ := (s.store it v).waitingQ } := by
  cases it <;> rfl

end Sched

/-- The process' wait is over at the current tick. -/
def Sched.due (s : Sched) (p : Usz) : Bool := s.pitSystimeMsec ≥ s.timeEnd p

/-- Waking the queue `W` under the cursor `it` in front of the ready queue `R`. -/
structure Woken (s : Sched) (it : Link) (W R : List Usz) (s' : Sched) : Prop where
  waiting : Chain s'.next 0 (s'.load it) (W.filter fun p => !s.due p)
  ready : Chain s'.next 0 s'.readyQ ((W.filter s.due).reverse ++ R)
  links : ∀ k, k ≠ it → k ≠ .readyQ → (∀ p ∈ W, k ≠ .next p) → s'.load k = s.load k
  state : s'.state = fun p => if p ∈ W ∧ s.due p = true then procReady else s.state p
  only : s' = { s with
    next := s'.next
    state := s'.state
    readyQ := s'.readyQ
    waitingQ := s'.waitingQ }

/-- One turn of the loop at a process that is due. -/
def Sched.wakeOne (s : Sched) (it : Link) (p : Usz) : Sched :=
  { ((s.store it (s.next p)).setState p procReady).setNext p (s.store it (s.next p)).readyQ with
    readyQ := p }

section

variable {s : Sched} {it : Link} {p : Usz}

theorem load_wakeOne_self (hq : it ≠ .readyQ) (hp : it ≠ .next p) :
    (s.wakeOne it p).load it = s.next p := by
  cases it with
  | readyQ => exact absurd rfl hq
  | waitingQ => rfl
  | next q =>
      have hne : q ≠ p := fun heq => hp (congrArg Link.next heq)
      change Function.update (Function.update s.next q (s.next p)) p _ q = s.next p
      rw [Function.update_of_ne hne, Function.update_self]

theorem load_wakeOne_of_ne {k : Link} (hq : k ≠ .readyQ) (hp : k ≠ .next p) (hit : k ≠ it) :
    (s.wakeOne it p).load k = s.load k := by
  rw [← s.load_store_of_ne hit (s.next p)]
  cases k with
  | readyQ => exact absurd rfl hq
  | waitingQ => rfl
  | next q => exact Function.update_of_ne (fun heq => hp (congrArg Link.next heq)) _ _

theorem next_wakeOne_self (hq : it ≠ .readyQ) : (s.wakeOne it p).next p = s.readyQ := by
  refine (@Function.update_self _ (fun _ => Usz) _ p _ _).trans ?_
  exact s.load_store_of_ne hq.symm (s.next p)

theorem wakeOne_only (s : Sched) (it : Link) (p : Usz) :
    s.wakeOne it p = { s with
      next := (s.wakeOne it p).next
      state := Function.update s.state p procReady
      readyQ := p
      waitingQ := (s.wakeOne it p).waitingQ } := by
  cases it <;> rfl

theorem wakeOne_due (s : Sched) (it : Link) (p : Usz) : (s.wakeOne it p).due = s.due := by
  cases it <;> rfl

theorem procWake_of_due {n : Nat} (hload : s.load it = p) (hp : p ≠ 0) (hdue : s.due p = true) :
    procWake (n + 1) s it = procWake n (s.wakeOne it p) it := by
  subst hload
  simp only [procWake, if_neg hp, if_pos (of_decide_eq_true hdue)]
  rfl

theorem procWake_of_not_due {n : Nat} (hload : s.load it = p) (hp : p ≠ 0)
    (hdue : s.due p = false) :
    procWake (n + 1) s it = procWake n s (.next p) := by
  subst hload
  simp only [procWake, if_neg hp, if_neg (of_decide_eq_false hdue)]

end

theorem Woken.of_due {s s' : Sched} {it : Link} {p : Usz} {W R : List Usz} (hdue : s.due p = true)
    (hp : p ∉ W) (h : Woken (s.wakeOne it p) it W (p :: R) s') :
    Woken s it (p :: W) R s' where
  waiting := by
    have hw := h.waiting
    rw [wakeOne_due] at hw
    rw [List.filter_cons_of_neg (by simp [hdue])]
    exact hw
  ready := by
    have hr := h.ready
    rw [wakeOne_due] at hr
    rw [List.filter_cons_of_pos (by simp [hdue]), List.reverse_cons, List.append_assoc]
    exact hr
  links := by
    intro k hk hkr hkW
    obtain ⟨hkp, hkW⟩ := List.forall_mem_cons.mp hkW
    rw [h.links k hk hkr hkW]
    exact load_wakeOne_of_ne hkr hkp hk
  state := by
    rw [h.state, wakeOne_due, wakeOne_only]
    funext q
    by_cases hq : q = p
    · subst hq
      simp [hp, hdue]
    · simp [hq]
  only := by
    rw [h.only, wakeOne_only]

theorem Woken.of_not_due {s s' : Sched} {it : Link} {p : Usz} {W R : List Usz}
    (hdue : s.due p = false) (hload : s.load it = p) (hp0 : p ≠ 0) (hp : p ∉ W) (hit : it ≠ .readyQ)
    (hitW : ∀ q ∈ p :: W, it ≠ .next q) (h : Woken s (.next p) W R s') :
    Woken s it (p :: W) R s' where
  waiting := by
    obtain ⟨hitp, hitW⟩ := List.forall_mem_cons.mp hitW
    rw [List.filter_cons_of_pos (by simp [hdue])]
    refine ⟨?_, hp0, h.waiting⟩
    rw [h.links it hitp hit hitW, hload]
  ready := by
    rw [List.filter_cons_of_neg (by simp [hdue])]
    exact h.ready
  links := by
    intro k _ hkr hkW
    obtain ⟨hkp, hkW⟩ := List.forall_mem_cons.mp hkW
    exact h.links k hkp hkr hkW
  state := by
    rw [h.state]
    funext q
    by_cases hq : q = p
    · subst hq
      simp [hp, hdue]
    · simp [hq]
  only := h.only

/-- The first loop of `proc_schedule` ends, and moves the processes that are due
to the front of the ready queue, the last one first. -/
theorem procWake_spec {n : Nat} {s : Sched} {it : Link} {W R : List Usz} (hn : W.length < n)
    (hW : Chain s.next 0 (s.load it) W) (hR : Chain s.next 0 s.readyQ R)
    (hdis : ∀ p ∈ W, p ∉ R) (hit : it ≠ .readyQ) (hitW : ∀ p ∈ W, it ≠ .next p)
    (hitR : ∀ p ∈ R, it ≠ .next p) :
    ∃ s', procWake n s it = some s' ∧ Woken s it W R s' := by
  induction W generalizing n s it R with
  | nil =>
      obtain ⟨n, rfl⟩ := Nat.exists_eq_succ_of_ne_zero (by omega : n ≠ 0)
      refine ⟨s, ?_, hW, hR, fun _ _ _ _ => rfl, ?_, rfl⟩
      · simp only [procWake, if_pos (show s.load it = 0 from hW)]
      · simp only [List.not_mem_nil, false_and, if_false]
  | cons p W ih =>
      obtain ⟨n, rfl⟩ := Nat.exists_eq_succ_of_ne_zero (by omega : n ≠ 0)
      have hpW : p ∉ W := (List.nodup_cons.mp hW.nodup).1
      obtain ⟨hload, hp0, hW⟩ := hW
      obtain ⟨hpR, hdisW⟩ := List.forall_mem_cons.mp hdis
      obtain ⟨hitp, hitW'⟩ := List.forall_mem_cons.mp hitW
      have hlen : W.length < n := Nat.lt_of_succ_lt_succ hn
      cases hdue : s.due p with
      | true =>
        have hne : ∀ q ∈ W, q ≠ p := fun q hq heq => hpW (heq ▸ hq)
        have hneR : ∀ q ∈ R, q ≠ p := fun q hq heq => hpR (heq ▸ hq)
        have hnext : ∀ q, q ≠ p → it ≠ .next q → (s.wakeOne it p).next q = s.next q := by
          intro q hqp hq
          exact load_wakeOne_of_ne (k := .next q) (by simp) (by simpa using hqp) hq.symm
        have hW₁ : Chain (s.wakeOne it p).next 0 ((s.wakeOne it p).load it) W := by
          rw [load_wakeOne_self hit hitp]
          exact hW.congr fun q hq => hnext q (hne q hq) (hitW' q hq)
        have hR₁ : Chain (s.wakeOne it p).next 0 p (p :: R) := by
          refine ⟨rfl, hp0, ?_⟩
          rw [next_wakeOne_self hit]
          exact hR.congr fun q hq => hnext q (hneR q hq) (hitR q hq)
        obtain ⟨s', hs', hwoken⟩ := ih hlen hW₁ hR₁
          (fun q hq => by simp [hne q hq, hdisW q hq]) hit hitW'
          (List.forall_mem_cons.mpr ⟨hitp, hitR⟩)
        exact ⟨s', (procWake_of_due hload hp0 hdue).trans hs', hwoken.of_due hdue hpW⟩
      | false =>
        obtain ⟨s', hs', hwoken⟩ := @ih n s (.next p) R hlen hW hR hdisW (by simp)
          (fun q hq heq => hpW (Link.next.inj heq ▸ hq))
          (fun q hq heq => hpR (Link.next.inj heq ▸ hq))
        exact ⟨s', (procWake_of_not_due hload hp0 hdue).trans hs',
          hwoken.of_not_due hdue hload hp0 hpW hit hitW⟩

/-- Linking the current process behind the queue `l` under the cursor `it`. -/
structure Appended (s : Sched) (it : Link) (l : List Usz) (s' : Sched) : Prop where
  queue : Chain s'.next s.procCurrent (s'.load it) l
  links : ∀ k, k ≠ it → (∀ p ∈ l, k ≠ .next p) → s'.load k = s.load k
  only : s' = { s with
    next := s'.next
    readyQ := s'.readyQ
    waitingQ := s'.waitingQ }

/-- The second loop of `proc_schedule` ends at the last link of the queue. -/
theorem procAppend_spec {n : Nat} {s : Sched} {it : Link} {l : List Usz} (hn : l.length < n)
    (hl : Chain s.next 0 (s.load it) l) (hcur : s.procCurrent ∉ l)
    (hit : ∀ p ∈ l, it ≠ .next p) :
    ∃ s', procAppend n s it = some s' ∧ Appended s it l s' := by
  induction l generalizing n it with
  | nil =>
      obtain ⟨n, rfl⟩ := Nat.exists_eq_succ_of_ne_zero (by omega : n ≠ 0)
      refine ⟨s.store it s.procCurrent, ?_, s.load_store_self it s.procCurrent, ?_,
        s.store_only it s.procCurrent⟩
      · simp only [procAppend, if_pos (show s.load it = 0 from hl)]
      · exact fun k hk _ => s.load_store_of_ne hk s.procCurrent
  | cons p l ih =>
      obtain ⟨n, rfl⟩ := Nat.exists_eq_succ_of_ne_zero (by omega : n ≠ 0)
      have hpl : p ∉ l := (List.nodup_cons.mp hl.nodup).1
      obtain ⟨hload, hp0, hl⟩ := hl
      obtain ⟨hcurp, hcurl⟩ := not_or.mp (mt List.mem_cons.mpr hcur)
      obtain ⟨hitp, hitl⟩ := List.forall_mem_cons.mp hit
      obtain ⟨s', hs', happ⟩ := @ih n (.next p) (Nat.lt_of_succ_lt_succ hn) hl hcurl
        (fun q hq heq => hpl (Link.next.inj heq ▸ hq))
      refine ⟨s', ?_, ⟨?_, Ne.symm hcurp, happ.queue⟩, ?_, happ.only⟩
      · subst hload
        simp only [procAppend, if_neg hp0]
        exact hs'
      · rw [happ.links it hitp hitl, hload]
      · intro k _ hkl
        obtain ⟨hkp, hkl⟩ := List.forall_mem_cons.mp hkl
        exact happ.links k hkp hkl

end DordOs
