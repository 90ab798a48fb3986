import DordOs.Libk.Align

/-!
The two keymaps of the keyboard driver: for each scan code the key without shift and the
key with it. Characters stand for themselves, the other keys for numbers above them.
-/
namespace DordOs

/-- `keycode_t`, from 256 on. -/
inductive Keycode
  | lalt
  | ralt
  | lshift
  | rshift
  | lctrl
  | rctrl
  | lmeta
  | rmeta
  | capslock
  | numlock
  | scrolllock
  | pageup
  | pagedown
  | delete
  | insert
  | home
  | endKey
  | up
  | down
  | left
  | right
  | esc
  | f1
  | f2
  | f3
  | f4
  | f5
  | f6
  | f7
  | f8
  | f9
  | f10
  | f11
  | f12
  | prev
  | next
  | playPause
  | stop
  | mute
  | volDown
  | volUp
  deriving DecidableEq

def Keycode.toU32 (key : Keycode) : U32 := BitVec.ofNat 32 (256 + key.ctorIdx)

/-- The two columns of an entry. -/
abbrev KbEntry := U32 × U32

def kbNone : KbEntry := (0, 0)

def kbKey (key : Keycode) : KbEntry := (key.toU32, key.toU32)

def kbChars (plain shifted : Char) : KbEntry :=
  (BitVec.ofNat 32 plain.toNat, BitVec.ofNat 32 shifted.toNat)

/-- `kb_keymap1` up to its last initialiser. -/
def kbKeymap1Entries : List KbEntry :=
  [kbNone, kbKey .f9, kbNone, kbKey .f5, kbKey .f3, kbKey .f1, kbKey .f2, kbKey .f12, kbNone,
   kbKey .f10, kbKey .f8, kbKey .f6, kbKey .f4, kbChars '\t' '\t', kbChars '\x60' '~', kbNone,
   kbNone, kbKey .lalt, kbKey .lshift, kbNone, kbKey .lctrl, kbChars 'q' 'Q', kbChars '1' '!',
   kbNone, kbNone, kbNone, kbChars 'z' 'Z', kbChars 's' 'S', kbChars 'a' 'A', kbChars 'w' 'W',
   kbChars '2' '@', kbNone, kbNone, kbChars 'c' 'C', kbChars 'x' 'X', kbChars 'd' 'D',
   kbChars 'e' 'E', kbChars '4' '$', kbChars '3' '#', kbNone, kbNone, kbChars ' ' ' ',
   kbChars 'v' 'V', kbChars 'f' 'F', kbChars 't' 'T', kbChars 'r' 'R', kbChars '5' '%', kbNone,
   kbNone, kbChars 'n' 'N', kbChars 'b' 'B', kbChars 'h' 'H', kbChars 'g' 'G', kbChars 'y' 'Y',
   kbChars '6' '^', kbNone, kbNone, kbNone, kbChars 'm' 'M', kbChars 'j' 'J', kbChars 'u' 'U',
   kbChars '7' '&', kbChars '8' '*', kbNone, kbNone, kbChars ',' '<', kbChars 'k' 'K',
   kbChars 'i' 'I', kbChars 'o' 'O', kbChars '0' ')', kbChars '9' '(', kbNone, kbNone,
   kbChars '.' '>', kbChars '/' '?', kbChars 'l' 'L', kbChars ';' ':', kbChars 'p' 'P',
   kbChars '-' '_', kbNone, kbNone, kbNone, kbChars '\x27' '\x22', kbNone, kbChars '[' '\x7b',
   kbChars '=' '+', kbNone, kbNone, kbKey .capslock, kbKey .rshift, kbChars '\n' '\n',
   kbChars ']' '\x7d', kbNone, kbChars '\x5c' '|', kbNone, kbNone, kbNone, kbNone, kbNone, kbNone,
   kbNone, kbNone, kbChars '\x08' '\x08', kbNone, kbNone, kbNone, kbNone, kbNone, kbNone, kbNone,
   kbNone, kbNone, kbNone, kbNone, kbNone, kbNone, kbNone, kbNone, kbKey .esc, kbKey .numlock,
   kbKey .f11, kbNone, kbNone, kbNone, kbNone, kbNone, kbKey .scrolllock, kbNone, kbNone, kbNone,
   kbNone, kbKey .f7]

/-- The initialisers of `kb_keymap2` that are not zero, with their indices. -/
def kbKeymap2Entries : List (Nat × KbEntry) :=
  [(0x11, kbKey .ralt), (0x14, kbKey .rctrl), (0x15, kbKey .prev), (0x1F, kbKey .lmeta),
   (0x21, kbKey .volDown), (0x23, kbKey .mute), (0x27, kbKey .rmeta), (0x32, kbKey .volUp),
   (0x34, kbKey .playPause), (0x3B, kbKey .stop), (0x4D, kbKey .next), (0x69, kbKey .endKey),
   (0x6B, kbKey .left), (0x6C, kbKey .home), (0x70, kbKey .insert), (0x71, kbKey .delete),
   (0x72, kbKey .down), (0x74, kbKey .right), (0x75, kbKey .up), (0x7A, kbKey .pagedown),
   (0x7D, kbKey .pageup)]

def kbKeymap1 (scanCode : U8) : KbEntry := kbKeymap1Entries.getD scanCode.toNat kbNone

def kbKeymap2 (scanCode : U8) : KbEntry := (kbKeymap2Entries.lookup scanCode.toNat).getD kbNone

/-- `keymap[code][shift_pressed]`. -/
def KbEntry.column (entry : KbEntry) (shiftPressed : Bool) : U32 :=
  if shiftPressed then entry.2 else entry.1

def isShiftKey (c : U32) : Prop := c = Keycode.lshift.toU32 ∨ c = Keycode.rshift.toU32

instance (c : U32) : Decidable (isShiftKey c) := inferInstanceAs (Decidable (_ ∨ _))

theorem kbNone_column (shiftPressed : Bool) : ¬ isShiftKey (kbNone.column shiftPressed) := by
  cases shiftPressed <;> decide

theorem kbKeymap1Entries_shift : ∀ entry ∈ kbKeymap1Entries.zipIdx, ∀ shiftPressed,
    isShiftKey (entry.1.column shiftPressed) ↔ entry.2 = 0x12 ∨ entry.2 = 0x59 := by
  decide +kernel

theorem kbKeymap2Entries_shift : ∀ entry ∈ kbKeymap2Entries, ∀ shiftPressed,
    ¬ isShiftKey (entry.2.column shiftPressed) := by
  decide

theorem kbKeymap1_shift (scanCode : U8) (shiftPressed : Bool) :
    isShiftKey ((kbKeymap1 scanCode).column shiftPressed) ↔ scanCode = 0x12 ∨ scanCode = 0x59 := by
  have hlshift : scanCode.toNat = 0x12 ↔ scanCode = 0x12 := BitVec.toNat_inj (y := 0x12)
  have hrshift : scanCode.toNat = 0x59 ↔ scanCode = 0x59 := BitVec.toNat_inj (y := 0x59)
  rw [kbKeymap1, List.getD_eq_getElem?_getD, ← hlshift, ← hrshift]
  cases hentry : kbKeymap1Entries[scanCode.toNat]? with
  | none =>
      have hbehind : 132 ≤ scanCode.toNat := List.getElem?_eq_none_iff.mp hentry
      exact iff_of_false (kbNone_column shiftPressed) (by omega)
  | some entry =>
      exact kbKeymap1Entries_shift (entry, scanCode.toNat)
        (List.mem_zipIdx_iff_getElem?.mpr hentry) shiftPressed

/-- The fake shifts of the second map are not keys. -/
theorem kbKeymap2_shift (scanCode : U8) (shiftPressed : Bool) :
    ¬ isShiftKey ((kbKeymap2 scanCode).column shiftPressed) := by
  rw [kbKeymap2]
  cases hentry : kbKeymap2Entries.lookup scanCode.toNat with
  | none => exact kbNone_column shiftPressed
  | some entry =>
      obtain ⟨before, after, hsplit, -⟩ := List.lookup_eq_some_iff.mp hentry
      refine kbKeymap2Entries_shift (scanCode.toNat, entry) ?_ shiftPressed
      rw [hsplit]
      exact List.mem_append_right _ List.mem_cons_self

end DordOs
