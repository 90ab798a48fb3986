import Mathlib.Data.List.GetD
import DordOs.Lib.Memory

/-!
Elements of several bytes in byte memory: storing one, filling with copies of one, and
moving them one after the other upwards.
-/
namespace DordOs.Lib

/-- The `n` cells from `start` on, wrapping around. -/
def InSpan (start : Addr) (n : Nat) (a : Addr) : Prop := (a - start).toNat < n

instance (start : Addr) (n : Nat) (a : Addr) : Decidable (InSpan start n a) :=
  inferInstanceAs (Decidable (_ < _))

/-- Stores the bytes upwards from `dst`. -/
def writeBytes (m : Mem) (dst : Addr) : Bytes → Mem
  | [] => m
  | b :: l => writeBytes (m.set dst b) (dst + 1) l

/-- `rep stos` of an element upwards. -/
def fillElems (m : Mem) (dst : Addr) (elem : Bytes) : Nat → Mem
  | 0 => m
  | n + 1 => fillElems (writeBytes m dst elem) (dst + BitVec.ofNat 32 elem.length) elem n

/-- Moves `n` elements of `w` bytes, the lowest first. -/
def moveElems (w : Nat) (m : Mem) (dst src : Addr) : Nat → Mem
  | 0 => m
  | n + 1 =>
      moveElems w (writeBytes m dst (readBytes m src w)) (dst + BitVec.ofNat 32 w)
        (src + BitVec.ofNat 32 w) n

variable {m : Mem} {dst src a : Addr} {l elem : Bytes} {n k w : Nat}

theorem toNat_sub_succ (h : a ≠ dst) : (a - dst).toNat = (a - (dst + 1)).toNat + 1 := by
  have hne : a.toNat ≠ dst.toNat := fun heq => h (BitVec.eq_of_toNat_eq heq)
  bv_omega

theorem toNat_addr_add_sub (dst : Addr) (h : k < 2 ^ 32) :
    (dst + BitVec.ofNat 32 k - dst).toNat = k := by
  have hdst := dst.isLt
  rw [BitVec.toNat_sub, BitVec.toNat_add, BitVec.toNat_ofNat]
  omega

theorem addr_add_toNat_sub (dst a : Addr) : dst + BitVec.ofNat 32 (a - dst).toNat = a := by
  rw [BitVec.ofNat_toNat, BitVec.setWidth_eq, BitVec.add_comm]
  exact BitVec.sub_add_cancel a dst

theorem InSpan.of_add (h : InSpan (dst + BitVec.ofNat 32 k) w a) (hin : k + w ≤ n)
    (hn : n ≤ 2 ^ 32) : InSpan dst n a := by
  have ha := a.isLt
  have hdst := dst.isLt
  rw [InSpan, BitVec.toNat_sub, BitVec.toNat_add, BitVec.toNat_ofNat] at h
  rw [InSpan, BitVec.toNat_sub]
  omega

theorem inSpan_iff_inRange (hfit : dst.toNat + n ≤ 2 ^ 32) : InSpan dst n a ↔ InRange dst n a := by
  have ha := a.isLt
  rw [InSpan, InRange, BitVec.toNat_sub]
  omega

theorem writeBytes_apply (h : l.length ≤ 2 ^ 32) :
    writeBytes m dst l a = l[(a - dst).toNat]?.getD (m a) := by
  induction l generalizing m dst with
  | nil => rfl
  | cons b l ih =>
      rw [List.length_cons] at h
      rw [writeBytes, ih (by omega)]
      by_cases heq : a = dst
      · have hlast : (dst - (dst + 1)).toNat = 2 ^ 32 - 1 := by bv_omega
        rw [heq, Mem.set_self, hlast, List.getElem?_eq_none (by omega), BitVec.sub_self]
        rfl
      · rw [Mem.set_of_ne b heq, toNat_sub_succ heq, List.getElem?_cons_succ]

theorem writeBytes_outside (h : ¬ InSpan dst l.length a) : writeBytes m dst l a = m a := by
  induction l generalizing m dst with
  | nil => rfl
  | cons b l ih =>
      rw [InSpan, List.length_cons] at h
      have hne : a ≠ dst := by
        rintro rfl
        rw [BitVec.sub_self] at h
        exact h (Nat.succ_pos _)
      rw [toNat_sub_succ hne] at h
      rw [writeBytes, ih fun hin => h (Nat.succ_lt_succ hin), Mem.set_of_ne b hne]

theorem writeBytes_append (m : Mem) (dst : Addr) (l l' : Bytes) :
    writeBytes m dst (l ++ l') =
      writeBytes (writeBytes m dst l) (dst + BitVec.ofNat 32 l.length) l' := by
  induction l generalizing m dst with
  | nil =>
      rw [List.nil_append, List.length_nil, writeBytes]
      exact congrArg (writeBytes m · l') (BitVec.add_zero dst).symm
  | cons b l ih =>
      have hnext : dst + 1 + BitVec.ofNat 32 l.length = dst + BitVec.ofNat 32 (l.length + 1) := by
        rw [Nat.add_comm l.length 1]
        exact addr_add_add dst 1 l.length
      rw [List.cons_append, writeBytes, writeBytes, ih, hnext, List.length_cons]

/-- A fill is one store of all the copies. -/
theorem fillElems_eq_writeBytes (m : Mem) (dst : Addr) (elem : Bytes) (n : Nat) :
    fillElems m dst elem n = writeBytes m dst (List.replicate n elem).flatten := by
  induction n generalizing m dst with
  | zero => rfl
  | succ n ih => rw [fillElems, ih, List.replicate_succ, List.flatten_cons, writeBytes_append]

theorem length_flatten_replicate (n : Nat) (elem : Bytes) :
    (List.replicate n elem).flatten.length = elem.length * n := by
  rw [List.length_flatten, List.map_replicate, List.sum_replicate_nat, Nat.mul_comm]

theorem fillElems_outside (h : ¬ InSpan dst (elem.length * n) a) :
    fillElems m dst elem n a = m a := by
  rw [fillElems_eq_writeBytes]
  exact writeBytes_outside (by rwa [length_flatten_replicate])

theorem fillElems_replicate (b : BitVec 8) (h : n * w ≤ 2 ^ 32) :
    fillElems m dst (List.replicate w b) n a = if InSpan dst (n * w) a then b else m a := by
  rw [fillElems_eq_writeBytes, List.flatten_replicate_replicate,
    writeBytes_apply (by rwa [List.length_replicate]), List.getElem?_replicate]
  by_cases hin : InSpan dst (n * w) a
  · rw [if_pos hin, if_pos (show (a - dst).toNat < n * w from hin), Option.getD_some]
  · rw [if_neg hin, if_neg (show ¬ (a - dst).toNat < n * w from hin), Option.getD_none]

@[simp] theorem length_readBytes (m : Mem) (a : Addr) (n : Nat) : (readBytes m a n).length = n := by
  rw [readBytes, List.length_map, List.length_range]

theorem getElem?_readBytes (h : k < n) :
    (readBytes m a n)[k]? = some (m (a + BitVec.ofNat 32 k)) := by
  rw [readBytes, List.getElem?_map, List.getElem?_range h, Option.map_some]

theorem writeBytes_inside (hfit : dst.toNat + l.length ≤ 2 ^ 32) (hk : k < l.length) :
    some (writeBytes m dst l (dst + BitVec.ofNat 32 k)) = l[k]? := by
  have hofs := toNat_addr_add_sub dst (show k < 2 ^ 32 by omega)
  rw [writeBytes_apply (by omega), hofs, List.getElem?_eq_getElem hk, Option.getD_some]

theorem writeBytes_outside_range (hfit : dst.toNat + l.length ≤ 2 ^ 32)
    (h : ¬ InRange dst l.length a) : writeBytes m dst l a = m a :=
  writeBytes_outside fun hin => h ((inSpan_iff_inRange hfit).mp hin)

/-- Moving one more element is moving it last. -/
theorem moveElems_succ (w : Nat) (m : Mem) (dst src : Addr) (n : Nat) :
    moveElems w m dst src (n + 1) =
      writeBytes (moveElems w m dst src n) (dst + BitVec.ofNat 32 (w * n))
        (readBytes (moveElems w m dst src n) (src + BitVec.ofNat 32 (w * n)) w) := by
  induction n generalizing m dst src with
  | zero =>
      have hzero (a : Addr) : a + BitVec.ofNat 32 (w * 0) = a := BitVec.add_zero a
      rw [hzero, hzero]
      rfl
  | succ n ih =>
      have hnext (a : Addr) :
          a + BitVec.ofNat 32 w + BitVec.ofNat 32 (w * n) = a + BitVec.ofNat 32 (w * (n + 1)) := by
        rw [addr_add_add, Nat.mul_succ, Nat.add_comm w]
      rw [moveElems, ih, hnext, hnext]
      rfl

/-- What a move leaves in the cells of the destination: where the source, `dst - src` below,
was itself written before it was read, the cell is a copy of an earlier one. -/
structure Moves (w : Nat) (m : Mem) (dst src : Addr) (n : Nat) (m' : Mem) : Prop where
  outside : ∀ a, ¬ InRange dst (w * n) a → m' a = m a
  inside : ∀ k, k < w * n → m' (dst + BitVec.ofNat 32 k) =
    if dst.toNat - src.toNat ≤ k ∧ k % w < dst.toNat - src.toNat then
      m' (dst + BitVec.ofNat 32 (k - (dst.toNat - src.toNat)))
    else m (src + BitVec.ofNat 32 k)

/-- The memory when element `n` is moved as well. -/
structure MovesOne (w : Nat) (m' : Mem) (dst src : Addr) (n : Nat) (m'' : Mem) : Prop where
  outside : ∀ a, ¬ InRange dst (w * (n + 1)) a → m'' a = m' a
  earlier : ∀ k, k < w * n → m'' (dst + BitVec.ofNat 32 k) = m' (dst + BitVec.ofNat 32 k)
  elem : ∀ r, r < w →
    m'' (dst + BitVec.ofNat 32 (w * n + r)) = m' (src + BitVec.ofNat 32 (w * n + r))

theorem movesOne (m' : Mem) (hdst : dst.toNat + w * (n + 1) ≤ 2 ^ 32) :
    MovesOne w m' dst src n (writeBytes m' (dst + BitVec.ofNat 32 (w * n))
      (readBytes m' (src + BitVec.ofNat 32 (w * n)) w)) := by
  obtain ⟨l, hl⟩ : ∃ l, l = readBytes m' (src + BitVec.ofNat 32 (w * n)) w := ⟨_, rfl⟩
  have hlen : l.length = w := by rw [hl, length_readBytes]
  rw [Nat.mul_succ] at hdst
  rw [← hl]
  cases Nat.eq_zero_or_pos w with
  | inl hzero =>
      rw [hzero] at hlen ⊢
      rw [List.length_eq_zero_iff.mp hlen]
      exact ⟨fun _ _ => rfl, fun k hk => rfl, fun r hr => absurd hr (Nat.not_lt_zero r)⟩
  | inr hpos =>
      have hat : (dst + BitVec.ofNat 32 (w * n)).toNat = dst.toNat + w * n :=
        toNat_addr_add (by omega)
      have hfit : (dst + BitVec.ofNat 32 (w * n)).toNat + l.length ≤ 2 ^ 32 := by omega
      refine ⟨fun a ha => ?_, fun k hk => ?_, fun r hr => ?_⟩
      · refine writeBytes_outside_range hfit fun hin => ha ?_
        rw [InRange, hat, hlen] at hin
        rw [InRange, Nat.mul_succ]
        omega
      · refine writeBytes_outside_range hfit fun hin => ?_
        rw [InRange, hat, toNat_addr_add (by omega)] at hin
        omega
      · rw [← Option.some.injEq, ← addr_add_add, ← addr_add_add,
          writeBytes_inside hfit (by omega), hl, getElem?_readBytes hr]

theorem Moves.step {m' m'' : Mem} (h : Moves w m dst src n m') (hone : MovesOne w m' dst src n m'')
    (hdst : dst.toNat + w * (n + 1) ≤ 2 ^ 32) (hsrc : src.toNat + w * (n + 1) ≤ 2 ^ 32) :
    Moves w m dst src (n + 1) m'' := by
  refine ⟨fun a ha => ?_, fun k hk => ?_⟩
  · refine (hone.outside a ha).trans (h.outside a fun hin => ha ?_)
    rw [Nat.mul_succ]
    exact ⟨hin.1, by have := hin.2; omega⟩
  · rw [Nat.mul_succ] at hdst hsrc hk
    by_cases hold : k < w * n
    · rw [hone.earlier k hold, h.inside k hold]
      split
      next => rw [hone.earlier _ (by omega)]
      next => rfl
    · obtain ⟨r, rfl⟩ := Nat.exists_eq_add_of_le (Nat.not_lt.mp hold)
      have hr : r < w := by omega
      rw [hone.elem r hr, Nat.mul_add_mod, Nat.mod_eq_of_lt hr]
      split
      next hcopy =>
        -- the source cell is one that an earlier element was moved to
        have hsame : src + BitVec.ofNat 32 (w * n + r) =
            dst + BitVec.ofNat 32 (w * n + r - (dst.toNat - src.toNat)) := by
          apply BitVec.eq_of_toNat_eq
          rw [toNat_addr_add (by omega), toNat_addr_add (by omega)]
          omega
        rw [hsame, hone.earlier _ (by omega)]
      next hfresh =>
        refine h.outside _ fun hin => hfresh ?_
        rw [InRange, toNat_addr_add (by omega)] at hin
        omega

theorem moveElems_moves (hdst : dst.toNat + w * n ≤ 2 ^ 32) (hsrc : src.toNat + w * n ≤ 2 ^ 32) :
    Moves w m dst src n (moveElems w m dst src n) := by
  induction n with
  | zero => exact ⟨fun _ _ => rfl, fun k hk => absurd hk (Nat.not_lt_zero k)⟩
  | succ n ih =>
      have hle : w * n ≤ w * (n + 1) := Nat.mul_le_mul_left w (Nat.le_succ n)
      rw [moveElems_succ]
      exact (ih (by omega) (by omega)).step (movesOne _ hdst) hdst hsrc

/-- The destination holds what the source held, and no other cell has changed. -/
structure Copies (m : Mem) (dst src : Addr) (n : Nat) (m' : Mem) : Prop where
  inside : ∀ k, k < n → m' (dst + BitVec.ofNat 32 k) = m (src + BitVec.ofNat 32 k)
  outside : ∀ a, ¬ InRange dst n a → m' a = m a

/-- A move copies if the cells it overwrites too early repeat with the distance. -/
theorem Moves.copies_iff {m' : Mem} (h : Moves w m dst src n m') :
    Copies m dst src (w * n) m' ↔
      ∀ k, k < w * n → dst.toNat - src.toNat ≤ k → k % w < dst.toNat - src.toNat →
        m (src + BitVec.ofNat 32 k) = m (src + BitVec.ofNat 32 (k - (dst.toNat - src.toNat))) := by
  constructor
  · intro hcopies k hk hle hlt
    rw [← hcopies.inside k hk, ← hcopies.inside _ (by omega), h.inside k hk, if_pos ⟨hle, hlt⟩]
  · refine fun hrepeat => ⟨fun k => ?_, h.outside⟩
    induction k using Nat.strongRecOn with
    | _ k ih =>
        intro hk
        rw [h.inside k hk]
        split
        next hearly => rw [ih _ (by omega) (by omega), hrepeat k hk hearly.1 hearly.2]
        next => rfl

/-- Bytes are elements of one byte. -/
theorem fillUp_eq_fillElems (m : Mem) (dst : Addr) (v : BitVec 8) (n : Nat) :
    fillUp m dst v n = fillElems m dst [v] n := by
  induction n generalizing m dst with
  | zero => rfl
  | succ n ih => exact ih (m.set dst v) (dst + 1)

theorem copyUp_eq_moveElems (m : Mem) (dst src : Addr) (n : Nat) :
    copyUp m dst src n = moveElems 1 m dst src n := by
  induction n generalizing m dst src with
  | zero => rfl
  | succ n ih =>
      have hread : readBytes m src 1 = [m src] :=
        congrArg (fun a => [m a]) (BitVec.add_zero src)
      rw [copyUp, moveElems, hread]
      exact ih (m.set dst (m src)) (dst + 1) (src + 1)

theorem fillUp_inside {v : BitVec 8} (hfit : dst.toNat + n ≤ 2 ^ 32) (hk : k < n) :
    fillUp m dst v n (dst + BitVec.ofNat 32 k) = v := by
  have hn : n * 1 ≤ 2 ^ 32 := by omega
  have hin : InSpan dst (n * 1) (dst + BitVec.ofNat 32 k) := by
    rwa [InSpan, toNat_addr_add_sub dst (by omega), Nat.mul_one]
  rw [fillUp_eq_fillElems]
  exact (fillElems_replicate v hn).trans (if_pos hin)

theorem fillUp_outside {v : BitVec 8} (hfit : dst.toNat + n ≤ 2 ^ 32) (h : ¬ InRange dst n a) :
    fillUp m dst v n a = m a := by
  rw [fillUp_eq_fillElems]
  refine fillElems_outside fun hin => h ((inSpan_iff_inRange hfit).mp ?_)
  rwa [List.length_singleton, Nat.one_mul] at hin

/-- A copy to cells that are not copied from. -/
theorem copyUp_copies (hdst : dst.toNat + n ≤ 2 ^ 32) (hsrc : src.toNat + n ≤ 2 ^ 32)
    (hapart : ∀ k, k < n → ¬ InRange dst n (src + BitVec.ofNat 32 k)) :
    Copies m dst src n (copyUp m dst src n) := by
  have hmoves := @moveElems_moves m dst src n 1 (by omega) (by omega)
  have hcopies := hmoves.copies_iff.2 fun k hk hle hlt => by
    refine absurd ?_ (hapart k (by omega))
    rw [InRange, toNat_addr_add (by omega)]
    omega
  rwa [Nat.one_mul, ← copyUp_eq_moveElems] at hcopies

theorem Holds.left {l l' : Bytes} {base : Addr} (h : Holds m base (l ++ l')) :
    Holds m base l := by
  have hfits := h.fits
  rw [List.length_append] at hfits
  refine ⟨by omega, fun k hk => ?_⟩
  rw [h.cell k (by rw [List.length_append]; omega), List.getD_append _ _ _ _ hk]

theorem Holds.right {l l' : Bytes} {base : Addr} (h : Holds m base (l ++ l')) :
    Holds m (base + BitVec.ofNat 32 l.length) l' := by
  have hfits := h.fits
  rw [List.length_append] at hfits
  by_cases hnil : l' = []
  · subst hnil
    exact ⟨Nat.le_of_lt (BitVec.isLt _), fun k hk => absurd hk (Nat.not_lt_zero k)⟩
  · have hpos : 0 < l'.length := List.length_pos_of_ne_nil hnil
    have hat : (base + BitVec.ofNat 32 l.length).toNat = base.toNat + l.length :=
      toNat_addr_add (by omega)
    refine ⟨by omega, fun k hk => ?_⟩
    rw [addr_add_add, h.cell _ (by rw [List.length_append]; omega),
      List.getD_append_right _ _ _ _ (Nat.le_add_right _ _), Nat.add_sub_cancel_left]

section Encoded

variable {α : Type} {enc : α → Bytes} {cells : List α} {base : Addr} {i : Nat}

theorem Holds.set_elem (henc : ∀ v, (enc v).length = w) (h : Holds m base (cells.flatMap enc))
    (hi : i < cells.length) (v : α) :
    Holds (writeBytes m (base + BitVec.ofNat 32 (w * i)) (enc v)) base
      ((cells.set i v).flatMap enc) := by
  have hfits := h.fits
  have hin : w * i + w ≤ w * cells.length := by
    rw [← Nat.mul_succ]
    exact Nat.mul_le_mul_left w hi
  rw [length_flatMap_of_const henc] at hfits
  refine ⟨by rwa [length_flatMap_of_const henc, List.length_set], fun k hk => ?_⟩
  rw [length_flatMap_of_const henc, List.length_set] at hk
  obtain ⟨j, r, hr, rfl⟩ : ∃ j r, r < w ∧ w * j + r = k :=
    ⟨k / w, k % w, Nat.mod_lt k (Nat.pos_of_lt_mul_right hk), Nat.div_add_mod k w⟩
  have hj : j < cells.length := Nat.lt_of_mul_lt_mul_left (show w * j < w * cells.length by omega)
  have hat : (base + BitVec.ofNat 32 (w * i)).toNat = base.toNat + w * i :=
    toNat_addr_add (by omega)
  have hfit : (base + BitVec.ofNat 32 (w * i)).toNat + (enc v).length ≤ 2 ^ 32 := by
    rw [hat, henc]
    omega
  rw [List.getD_eq_getElem?_getD]
  by_cases hsame : j = i
  · subst hsame
    rw [getElem?_flatMap_of_const henc (List.getElem?_set_self hj) hr,
      ← writeBytes_inside hfit (by rwa [henc]), Option.getD_some, addr_add_add]
  · have hother : (cells.set i v)[j]? = some cells[j] := by
      rw [List.getElem?_set_ne (Ne.symm hsame), List.getElem?_eq_getElem hj]
    have hapart : w * (j + 1) ≤ w * i ∨ w * (i + 1) ≤ w * j := by
      obtain hlt | hgt := Nat.lt_or_gt_of_ne hsame
      · exact .inl (Nat.mul_le_mul_left w hlt)
      · exact .inr (Nat.mul_le_mul_left w hgt)
    rw [Nat.mul_succ, Nat.mul_succ] at hapart
    rw [getElem?_flatMap_of_const henc hother hr,
      ← getElem?_flatMap_of_const henc (List.getElem?_eq_getElem hj) hr,
      ← List.getD_eq_getElem?_getD, ← h.cell _ (by rwa [length_flatMap_of_const henc])]
    refine writeBytes_outside_range hfit fun hin => ?_
    rw [InRange, hat, henc, toNat_addr_add (by omega)] at hin
    omega

end Encoded

end DordOs.Lib
