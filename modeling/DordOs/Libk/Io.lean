import DordOs.Lib.Bytes
import DordOs.Lib.Numeral
import DordOs.Libk.Memory
import DordOs.Libk.Move

/-!
Formatted output of `libk/io.c`. The callback is seen through the chunks it is
given; like the callbacks of the repository it returns their length. The format is
read up to its terminator, a read past it is `none`.
-/
namespace DordOs
open Lib

/-- `callb(usr, data, len)`. -/
def callb (data : Bytes) : List Bytes × Usz := ([data], BitVec.ofNat 32 data.length)

/-- The loops of `io_printuq` and `io_printhq`: while there is more than one digit,
`*it-- = low(n)` and `n = rest(n)`; then `*it = last(n)`. -/
def fillBackwards (more : U64 → Bool) (low last : U64 → U8) (rest : U64 → U64) :
    Nat → U64 → Bytes → Option (Bytes × Nat)
  | 0, n, buf =>
      if more n then none
      else do
        let buf ← store buf 0 (last n)
        return (buf, 0)
  | it + 1, n, buf =>
      if more n then do
        let buf ← store buf (it + 1) (low n)
        fillBackwards more low last rest it (rest n) buf
      else do
        let buf ← store buf (it + 1) (last n)
        return (buf, it + 1)

/-- `char buf[32]`, filled from its end on. -/
def printDigits (more : U64 → Bool) (low last : U64 → U8) (rest : U64 → U64) (n : U64) :
    Option (List Bytes × Usz) := do
  let (buf, it) ← fillBackwards more low last rest 31 n (zeros 32)
  let len := 31 - it
  return callb (slice buf it (len + 1))

def ioPrintuq (n : U64) : Option (List Bytes × Usz) :=
  printDigits (fun n => decide (10 ≤ n)) (fun n => (n % 10 + 0x30).setWidth 8)
    (fun n => (n + 0x30).setWidth 8) (fun n => n / 10) n

/-- `-n` in C, which has no value for the least `i64`. -/
def negI64 (n : I64) : Option I64 := if n = BitVec.intMin 64 then none else some (-n)

/-- `-n` where it wraps. -/
def wrapNegI64 (n : I64) : Option I64 := some (-n)

/-- `neg` is the meaning of `n = -n`. -/
def ioPrintiq (neg : I64 → Option I64) (n : I64) : Option (List Bytes × Usz) :=
  if n.toInt < 0 then do
    let n ← neg n
    let (sign, _) := callb [0x2D]
    let (chunks, len) ← ioPrintuq n
    return (sign ++ chunks, len + 1)
  else
    ioPrintuq n

def ioHexChar : Bytes :=
  [0x30, 0x31, 0x32, 0x33, 0x34, 0x35, 0x36, 0x37, 0x38, 0x39, 0x41, 0x42, 0x43, 0x44, 0x45, 0x46]

def ioPrinthq (n : U64) : Option (List Bytes × Usz) :=
  printDigits (fun n => decide (0x0F < n)) (fun n => ioHexChar.getD (n &&& 0x0F).toNat 0)
    (fun n => ioHexChar.getD n.toNat 0) (fun n => n >>> 4) n

/-- What `va_arg` can fetch: a pointer to a string, 32 bits or 64 bits. -/
inductive VaArg where
  | ptr (str : CStr)
  | word (v : U32)
  | quad (v : U64)
  deriving DecidableEq

namespace CStr

/-- The bytes in memory, with the terminator. -/
def cells (str : CStr) : Bytes := str.bytes ++ [0]

/-- The bytes from `start` up to `stop`. -/
def span (str : CStr) (start stop : Nat) : Bytes := slice str.cells start (stop - start)

end CStr

/-- The inner `while` on literal text. -/
def literalRun : Bytes → Nat
  | [] => 0
  | b :: l => if b = 0x25 then 0 else literalRun l + 1

/-- What one pass of the loop hands on: the chunks, the position and the arguments. -/
abbrev Printed := List Bytes × Nat × List VaArg

/-- The inner `switch` on the width of an integer directive: `i64 val` receives what
`va_arg` fetches, with the conversion of its type. -/
def printWidth (fmt : CStr) (start it : Nat) (argl : List VaArg)
    (print : I64 → Option (List Bytes × Usz)) : Option Printed := do
  let width ← fmt.cells[it]?
  let it := it + 1
  if width = 0x71 then
    match argl with
    | .quad v :: argl => do
        let (chunks, _) ← print v
        return (chunks, it, argl)
    | _ => none
  else if width = 0x64 then
    match argl with
    | .word v :: argl => do
        let (chunks, _) ← print (v.signExtend 64)
        return (chunks, it, argl)
    | _ => none
  else if width = 0x7A then
    match argl with
    | .word v :: argl => do
        let (chunks, _) ← print (v.setWidth 64)
        return (chunks, it, argl)
    | _ => none
  else
    return ((callb (fmt.span start it)).1, it, argl)

/-- The outer `switch`, after the `'%'` at `start`. -/
def printDirective (fmt : CStr) (start it : Nat) (argl : List VaArg) : Option Printed := do
  let c ← fmt.cells[it]?
  let it := it + 1
  if c = 0x73 then
    match argl with
    | .ptr val :: argl => return ((callb val.bytes).1, it, argl)
    | _ => none
  else if c = 0x63 then
    match argl with
    | .word val :: argl => return ((callb [val.setWidth 8]).1, it, argl)
    | _ => none
  else if c = 0x25 then
    return ((callb (fmt.span (it - 1) it)).1, it, argl)
  else if c = 0x69 then
    printWidth fmt start it argl (ioPrintiq negI64)
  else if c = 0x75 then
    printWidth fmt start it argl ioPrintuq
  else if c = 0x68 then
    printWidth fmt start it argl ioPrinthq
  else
    return ((callb (fmt.span start it)).1, it, argl)

/-- The loop of `io_vprintf` from position `it` on. -/
def vprintfFrom (fmt : CStr) : Nat → Nat → List VaArg → Option (List Bytes)
  | 0, _, _ => none
  | fuel + 1, it, argl => do
      let c ← fmt.cells[it]?
      if c = 0 then
        return []
      else if c ≠ 0x25 then do
        let stop := it + literalRun (fmt.bytes.drop it)
        let later ← vprintfFrom fmt fuel stop argl
        return (callb (fmt.span it stop)).1 ++ later
      else do
        let (chunks, it, argl) ← printDirective fmt it (it + 1) argl
        let later ← vprintfFrom fmt fuel it argl
        return chunks ++ later

/-- The chunks `io_vprintf` gives its callback. Every pass moves on by a byte. -/
def ioVprintf (fmt : CStr) (argl : List VaArg) : Option (List Bytes) :=
  vprintfFrom fmt (fmt.cells.length + 1) 0 argl

/-- The loop of `fillBackwards` writes base `b` with the digits `char`. -/
structure Fills (b : Nat) (char : Nat → U8) (more : U64 → Bool) (low last : U64 → U8)
    (rest : U64 → U64) : Prop where
  base : 1 < b
  more : ∀ n, more n = decide (b ≤ n.toNat)
  low : ∀ n, low n = char (n.toNat % b)
  last : ∀ n, n.toNat < b → last n = char n.toNat
  rest : ∀ n, (rest n).toNat = n.toNat / b

section Fill

variable {b : Nat} {char : Nat → U8} {more : U64 → Bool} {low last : U64 → U8} {rest : U64 → U64}

/-- One digit left, wherever the pointer is. -/
theorem Fills.single (hf : Fills b char more low last rest) {it : Nat} {n : U64} {buf : Bytes}
    (hlen : it < buf.length) (hlt : n.toNat < b) :
    fillBackwards more low last rest it n buf = some (buf.set it (last n), it) ∧
      it + (numeral b n.toNat).length = it + 1 ∧
      (buf.set it (last n)).drop it = (numeral b n.toNat).map char ++ buf.drop (it + 1) := by
  rw [numeral_of_lt hlt]
  refine ⟨?_, rfl, ?_⟩
  · cases it with
    | zero | succ =>
        rw [fillBackwards, hf.more n, decide_eq_false (by omega), if_neg Bool.false_ne_true,
          store_of_lt hlen]
        rfl
  · rw [hf.last n hlt, List.drop_set, if_neg (Nat.lt_irrefl it), Nat.sub_self,
      List.drop_eq_getElem_cons hlen]
    rfl

/-- From the cell where the pointer stops the buffer holds the numeral, followed by
what the buffer held after the cell where it started. -/
theorem fillBackwards_eq_some (hf : Fills b char more low last rest) {it : Nat} {n : U64}
    {buf : Bytes} (hlen : it < buf.length) (hfit : (numeral b n.toNat).length ≤ it + 1) :
    ∃ buf' it', fillBackwards more low last rest it n buf = some (buf', it') ∧
      it' + (numeral b n.toNat).length = it + 1 ∧
      buf'.drop it' = (numeral b n.toNat).map char ++ buf.drop (it + 1) := by
  induction it generalizing n buf with
  | zero =>
      have hlt : n.toNat < b := by
        rw [length_numeral_le_iff hf.base (by omega), Nat.zero_add, Nat.pow_one] at hfit
        exact hfit
      exact ⟨_, _, hf.single hlen hlt⟩
  | succ it ih =>
      by_cases hlt : n.toNat < b
      · exact ⟨_, _, hf.single hlen hlt⟩
      · have hle := Nat.not_lt.mp hlt
        have hsplit := numeral_of_le hf.base hle
        have hrest := hf.rest n
        rw [hsplit, List.length_append, List.length_singleton] at hfit ⊢
        rw [← hrest] at hfit hsplit ⊢
        obtain ⟨buf', it', hfill, hpos, hdrop⟩ := @ih (rest n) (buf.set (it + 1) (low n))
          (by rw [List.length_set]; omega) (by omega)
        refine ⟨buf', it', ?_, by omega, ?_⟩
        · rw [fillBackwards, hf.more n, decide_eq_true hle, if_pos rfl, store_of_lt hlen,
            Option.bind_eq_bind, Option.bind_some, hfill]
        · rw [hdrop, List.drop_set, if_neg (Nat.lt_irrefl _), Nat.sub_self,
            List.drop_eq_getElem_cons hlen, List.set_cons_zero, hf.low, List.map_append,
            List.map_singleton, List.append_assoc]
          rfl

theorem printDigits_eq_some (hf : Fills b char more low last rest) {n : U64}
    (hfit : (numeral b n.toNat).length ≤ 32) :
    printDigits more low last rest n = some (callb ((numeral b n.toNat).map char)) := by
  obtain ⟨buf', it', hfill, hpos, hdrop⟩ := @fillBackwards_eq_some b char more low last rest hf 31 n
    (zeros 32) (by rw [length_zeros]; decide) hfit
  have hnil : (zeros 32).drop (31 + 1) = [] := List.drop_eq_nil_of_le (by rw [length_zeros])
  rw [hnil, List.append_nil] at hdrop
  have hchunk : slice buf' it' (31 - it' + 1) = (numeral b n.toNat).map char := by
    have hne := List.length_pos_iff.mpr (@numeral_ne_nil b n.toNat hf.base)
    rw [slice, hdrop, List.take_of_length_le]
    rw [List.length_map]
    omega
  rw [printDigits, hfill, Option.bind_eq_bind, Option.bind_some]
  simp only [hchunk]
  rfl

end Fill

def decimalChar (d : Nat) : U8 := BitVec.ofNat 8 (0x30 + d)

/-- Upper-case hexadecimal digits. -/
def hexChar (d : Nat) : U8 := BitVec.ofNat 8 (if d < 10 then 0x30 + d else 0x41 + (d - 10))

def decimal (n : Nat) : Bytes := (numeral 10 n).map decimalChar

def hexadecimal (n : Nat) : Bytes := (numeral 16 n).map hexChar

def signedDecimal (z : Int) : Bytes :=
  if z < 0 then 0x2D :: decimal z.natAbs else decimal z.natAbs

theorem fills_decimal :
    Fills 10 decimalChar (fun n => decide (10 ≤ n)) (fun n => (n % 10 + 0x30).setWidth 8)
      (fun n => (n + 0x30).setWidth 8) (fun n => n / 10) where
  base := by decide
  more n := decide_eq_decide.mpr BitVec.le_def
  low n := by
    have hbase : (10 : U64).toNat = 10 := rfl
    have hzero : (0x30 : U64).toNat = 0x30 := rfl
    apply BitVec.eq_of_toNat_eq
    simp only [decimalChar, BitVec.toNat_setWidth, BitVec.toNat_add, BitVec.toNat_umod,
      BitVec.toNat_ofNat, hbase, hzero]
    omega
  last n hn := by
    have hzero : (0x30 : U64).toNat = 0x30 := rfl
    apply BitVec.eq_of_toNat_eq
    simp only [decimalChar, BitVec.toNat_setWidth, BitVec.toNat_add, BitVec.toNat_ofNat, hzero]
    omega
  rest n := BitVec.toNat_udiv

theorem ioHexChar_getD {d : Nat} (h : d < 16) : ioHexChar.getD d 0 = hexChar d := by
  have hall : ∀ d : Fin 16, ioHexChar.getD d.val 0 = hexChar d.val := by decide
  exact hall ⟨d, h⟩

theorem fills_hexadecimal :
    Fills 16 hexChar (fun n => decide (0x0F < n)) (fun n => ioHexChar.getD (n &&& 0x0F).toNat 0)
      (fun n => ioHexChar.getD n.toNat 0) (fun n => n >>> 4) where
  base := by decide
  more n := decide_eq_decide.mpr BitVec.lt_def
  low n := by
    have hlow : (n &&& 0x0F).toNat = n.toNat % 16 := by
      rw [BitVec.toNat_and]
      exact Nat.and_two_pow_sub_one_eq_mod n.toNat 4
    rw [hlow]
    exact ioHexChar_getD (Nat.mod_lt _ (by decide))
  last n hn := ioHexChar_getD hn
  rest n := by
    rw [BitVec.toNat_ushiftRight, Nat.shiftRight_eq_div_pow]

theorem length_numeral_u64_le {b : Nat} (hb : 10 ≤ b) (n : U64) :
    (numeral b n.toNat).length ≤ 32 := by
  rw [length_numeral_le_iff (by omega) (by decide)]
  have hn : n.toNat < 10 ^ 32 := Nat.lt_trans n.isLt (by decide)
  exact Nat.lt_of_lt_of_le hn (Nat.pow_le_pow_left hb 32)

theorem ioPrintuq_eq (n : U64) : ioPrintuq n = some (callb (decimal n.toNat)) :=
  printDigits_eq_some fills_decimal (length_numeral_u64_le (by decide) n)

theorem ioPrinthq_eq (n : U64) : ioPrinthq n = some (callb (hexadecimal n.toNat)) :=
  printDigits_eq_some fills_hexadecimal (length_numeral_u64_le (by decide) n)

/-- The least value is its own negation, and as an unsigned value it is right. -/
theorem toNat_neg_of_neg {n : I64} (h : n.toInt < 0) : (-n).toNat = n.toInt.natAbs := by
  have hlt := n.isLt
  rw [BitVec.toInt_eq_toNat_cond] at h ⊢
  rw [BitVec.toNat_neg]
  split at h
  next => omega
  next hhigh =>
    rw [if_neg hhigh]
    omega

theorem toNat_of_nonneg {n : I64} (h : ¬ n.toInt < 0) : n.toNat = n.toInt.natAbs := by
  have hlt := n.isLt
  rw [BitVec.toInt_eq_toNat_cond] at h ⊢
  split at h
  next hlow =>
    rw [if_pos hlow]
    omega
  next => omega

theorem negI64_of_ne {n : I64} (h : n ≠ BitVec.intMin 64) : negI64 n = some (-n) := if_neg h

theorem ioPrintiq_eq (n : I64) :
    (ioPrintiq negI64 n).map (fun r => r.1.flatten) =
      if n = BitVec.intMin 64 then none else some (signedDecimal n.toInt) := by
  rw [ioPrintiq, signedDecimal]
  by_cases hmin : n = BitVec.intMin 64
  · rw [if_pos hmin, hmin]
    rfl
  · rw [if_neg hmin, negI64_of_ne hmin]
    by_cases h : n.toInt < 0
    · rw [if_pos h, if_pos h, Option.bind_eq_bind, Option.bind_some, ioPrintuq_eq,
        toNat_neg_of_neg h]
      exact congrArg (fun l => some (0x2D :: l)) (List.append_nil _)
    · rw [if_neg h, if_neg h, ioPrintuq_eq, toNat_of_nonneg h]
      exact congrArg some (List.append_nil _)

/-- The value of a digit, upper-case letters standing for ten to fifteen. -/
def digitValue (c : U8) : Option Nat :=
  if 0x30 ≤ c ∧ c ≤ 0x39 then some (c.toNat - 0x30)
  else if 0x41 ≤ c ∧ c ≤ 0x46 then some (c.toNat - 0x41 + 10)
  else none

/-- Reads a text from left to right as a number to base `b`. -/
def readNumeral (b : Nat) (text : Bytes) : Option Nat :=
  text.foldlM
    (fun v c => do
      let d ← digitValue c
      if d < b then return v * b + d else none)
    0

/-- The text is the numeral of `n` to base `b`. -/
structure IsNumeral (b n : Nat) (text : Bytes) : Prop where
  nonempty : text ≠ []
  reads : readNumeral b text = some n
  noLeadingZero : text.head? = some 0x30 → text = [0x30]

theorem digitValue_hexChar {d : Nat} (h : d < 16) : digitValue (hexChar d) = some d := by
  have hall : ∀ d : Fin 16, digitValue (hexChar d.val) = some d.val := by decide
  exact hall ⟨d, h⟩

theorem decimalChar_eq_hexChar {d : Nat} (h : d < 10) : decimalChar d = hexChar d := by
  rw [decimalChar, hexChar, if_pos h]

theorem decimal_eq_map_hexChar (n : Nat) : decimal n = (numeral 10 n).map hexChar :=
  List.map_congr_left fun _ hd => decimalChar_eq_hexChar (lt_of_mem_numeral (by decide) hd)

/-- Reading the characters of digits is reading the digits, whatever was read before. -/
theorem foldlM_hexChar {b : Nat} (hb : b ≤ 16) {digits : List Nat} (h : ∀ d ∈ digits, d < b)
    (v : Nat) :
    (digits.map hexChar).foldlM
        (fun v c => do
          let d ← digitValue c
          if d < b then return v * b + d else none)
        v = some (digits.foldl (fun v d => v * b + d) v) := by
  induction digits generalizing v with
  | nil => rfl
  | cons d digits ih =>
      have hd : d < b := h d List.mem_cons_self
      rw [List.map_cons, List.foldlM_cons, digitValue_hexChar (Nat.lt_of_lt_of_le hd hb),
        List.foldl_cons, ← ih (fun e he => h e (List.mem_cons_of_mem d he))]
      simp only [Option.bind_eq_bind, Option.bind_some, if_pos hd]
      rfl

theorem isNumeral_numeral {b : Nat} (hb : 1 < b) (hle : b ≤ 16) (n : Nat) :
    IsNumeral b n ((numeral b n).map hexChar) where
  nonempty := fun hnil => numeral_ne_nil hb (List.map_eq_nil_iff.mp hnil)
  reads := by
    rw [readNumeral, foldlM_hexChar hle fun d hd => lt_of_mem_numeral hb hd]
    exact congrArg some (numeralValue_numeral hb)
  noLeadingZero hhead := by
    obtain ⟨d, hd, hchar⟩ : ∃ d, (numeral b n).head? = some d ∧ hexChar d = 0x30 := by
      rwa [List.head?_map, Option.map_eq_some_iff] at hhead
    have hlt : d < 16 := Nat.lt_of_lt_of_le (lt_of_mem_numeral hb (List.mem_of_head? hd)) hle
    have hvalue := digitValue_hexChar hlt
    rw [hchar] at hvalue
    have hzero : 0 = d := Option.some.inj hvalue
    rw [← hzero] at hd
    rw [eq_zero_of_head?_numeral hd]
    rfl

/-- The call gives its callback these chunks and returns how many bytes they are. -/
def Emits (call : Option (List Bytes × Usz)) (chunks : List Bytes) : Prop :=
  ∃ len, call = some (chunks, len) ∧ len.toNat = chunks.flatten.length

theorem emits_callb {data : Bytes} (h : data.length < 2 ^ 32) :
    Emits (some (callb data)) [data] := by
  refine ⟨_, rfl, ?_⟩
  rw [List.flatten_cons, List.flatten_nil, List.append_nil]
  exact Nat.mod_eq_of_lt h

theorem length_decimal_le (n : U64) : (decimal n.toNat).length ≤ 32 := by
  rw [decimal, List.length_map]
  exact length_numeral_u64_le (by decide) n

theorem emits_ioPrintuq (n : U64) : Emits (ioPrintuq n) [decimal n.toNat] := by
  rw [ioPrintuq_eq]
  exact emits_callb (Nat.lt_of_le_of_lt (length_decimal_le n) (by decide))

theorem emits_ioPrinthq (n : U64) : Emits (ioPrinthq n) [hexadecimal n.toNat] := by
  rw [ioPrinthq_eq]
  refine emits_callb (Nat.lt_of_le_of_lt ?_ (show 32 < 2 ^ 32 by decide))
  rw [hexadecimal, List.length_map]
  exact length_numeral_u64_le (by decide) n

theorem emits_ioPrintiq (n : I64) : Emits (ioPrintiq wrapNegI64 n)
    (if n.toInt < 0 then [[0x2D], decimal n.toInt.natAbs] else [decimal n.toInt.natAbs]) := by
  rw [ioPrintiq]
  by_cases h : n.toInt < 0
  · obtain ⟨len, hcall, hlen⟩ := emits_ioPrintuq (-n)
    have hfit := length_decimal_le (-n)
    have hone : (1 : Usz).toNat = 1 := rfl
    rw [toNat_neg_of_neg h] at hcall hlen hfit
    rw [List.flatten_cons, List.flatten_nil, List.append_nil] at hlen
    rw [if_pos h, if_pos h, wrapNegI64, Option.bind_eq_bind, Option.bind_some, hcall]
    refine ⟨len + 1, rfl, ?_⟩
    rw [BitVec.toNat_add, hlen, hone, List.flatten_cons, List.flatten_cons, List.flatten_nil,
      List.append_nil, List.length_append, List.length_singleton]
    omega
  · rw [if_neg h, if_neg h, ← toNat_of_nonneg h]
    exact emits_ioPrintuq n

theorem io_print_exact (n : U64) (z : I64) :
    (∃ text, Emits (ioPrintuq n) [text] ∧ IsNumeral 10 n.toNat text) ∧
    (∃ text, Emits (ioPrinthq n) [text] ∧ IsNumeral 16 n.toNat text) ∧
    ∃ text, Emits (ioPrintiq wrapNegI64 z) (if z.toInt < 0 then [[0x2D], text] else [text]) ∧
      IsNumeral 10 z.toInt.natAbs text := by
  have hdecimal (k : Nat) : IsNumeral 10 k (decimal k) :=
    decimal_eq_map_hexChar k ▸ isNumeral_numeral (by decide) (by decide) k
  refine ⟨⟨_, emits_ioPrintuq n, hdecimal _⟩, ⟨_, emits_ioPrinthq n, ?_⟩,
    ⟨_, emits_ioPrintiq z, hdecimal _⟩⟩
  exact isNumeral_numeral (by decide) (by decide) n.toNat

end DordOs
