import GatOS.Terminal
import Mathlib.Data.Nat.Bitwise

/-!
# The keyboard

`keyboardHandlerC` takes one scan code and puts at most one character into the buffer of the
terminal. Which character depends on the shift keys and on caps lock, which the handler tracks in
two variables. A typist thinks of a keyboard layout and of the keys pressed so far.
-/
namespace GatOS.Keyboard

open Terminal

def leftShiftMake : UInt8 := 0x2A
def rightShiftMake : UInt8 := 0x36
def capsLock : UInt8 := 0x3A
def leftShiftBreak : UInt8 := 0xAA
def rightShiftBreak : UInt8 := 0xB6

/-- `NOCHAR` is -1, as a character. -/
def noChar : UInt8 := 0xFF

/-- The key F1. -/
def f1 : UInt8 := 0x3b

/-- A row of `kbd_EN`: columns 0 to 4. -/
structure Row where
  code : UInt8
  normal : UInt8
  shifted : UInt8
  capsLocked : UInt8
  both : UInt8

def Row.column (row : Row) : ℕ → UInt8
  | 0 => row.code
  | 1 => row.normal
  | 2 => row.shifted
  | 3 => row.capsLocked
  | _ => row.both

def ch (c : Char) : UInt8 := c.toUInt8

-- 8 is the backspace, 9 the tab, 10 the new line; 34, 39, 92 and 96 are the two quotation marks,
-- the backslash and the grave accent
def kbd_EN : List Row := [
  ⟨0x00, noChar, noChar, noChar, noChar⟩,
  ⟨0x01, noChar, noChar, noChar, noChar⟩,
  ⟨0x02, ch '1', ch '!', ch '1', ch '!'⟩,
  ⟨0x03, ch '2', ch '@', ch '2', ch '@'⟩,
  ⟨0x04, ch '3', ch '#', ch '3', ch '#'⟩,
  ⟨0x05, ch '4', ch '$', ch '4', ch '$'⟩,
  ⟨0x06, ch '5', ch '%', ch '5', ch '%'⟩,
  ⟨0x07, ch '6', ch '^', ch '6', ch '^'⟩,
  ⟨0x08, ch '7', ch '&', ch '7', ch '&'⟩,
  ⟨0x09, ch '8', ch '*', ch '8', ch '*'⟩,
  ⟨0x0A, ch '9', ch '(', ch '9', ch '('⟩,
  ⟨0x0B, ch '0', ch ')', ch '0', ch ')'⟩,
  ⟨0x0C, ch '-', ch '_', ch '-', ch '_'⟩,
  ⟨0x0D, ch '=', ch '+', ch '=', ch '+'⟩,
  ⟨0x0E, 8, 8, 8, 8⟩,
  ⟨0x0F, 9, 9, 9, 9⟩,
  ⟨0x10, ch 'q', ch 'Q', ch 'Q', ch 'q'⟩,
  ⟨0x11, ch 'w', ch 'W', ch 'W', ch 'w'⟩,
  ⟨0x12, ch 'e', ch 'E', ch 'E', ch 'e'⟩,
  ⟨0x13, ch 'r', ch 'R', ch 'R', ch 'r'⟩,
  ⟨0x14, ch 't', ch 'T', ch 'T', ch 't'⟩,
  ⟨0x15, ch 'y', ch 'Y', ch 'Y', ch 'y'⟩,
  ⟨0x16, ch 'u', ch 'U', ch 'U', ch 'u'⟩,
  ⟨0x17, ch 'i', ch 'I', ch 'I', ch 'i'⟩,
  ⟨0x18, ch 'o', ch 'O', ch 'O', ch 'o'⟩,
  ⟨0x19, ch 'p', ch 'P', ch 'P', ch 'p'⟩,
  ⟨0x1a, ch '[', ch '{', ch '[', ch '{'⟩,
  ⟨0x1b, ch ']', ch '}', ch ']', ch '}'⟩,
  ⟨0x1c, 10, 10, 10, 10⟩,
  ⟨0x1d, noChar, noChar, noChar, noChar⟩,
  ⟨0x1e, ch 'a', ch 'A', ch 'A', ch 'a'⟩,
  ⟨0x1f, ch 's', ch 'S', ch 'S', ch 's'⟩,
  ⟨0x20, ch 'd', ch 'D', ch 'D', ch 'd'⟩,
  ⟨0x21, ch 'f', ch 'F', ch 'F', ch 'f'⟩,
  ⟨0x22, ch 'g', ch 'G', ch 'G', ch 'g'⟩,
  ⟨0x23, ch 'h', ch 'H', ch 'H', ch 'h'⟩,
  ⟨0x24, ch 'j', ch 'J', ch 'J', ch 'j'⟩,
  ⟨0x25, ch 'k', ch 'K', ch 'K', ch 'k'⟩,
  ⟨0x26, ch 'l', ch 'L', ch 'L', ch 'l'⟩,
  ⟨0x27, ch ';', ch ':', ch ';', ch ':'⟩,
  ⟨0x28, 39, 34, 39, 34⟩,
  ⟨0x29, 96, ch '~', 96, ch '~'⟩,
  ⟨0x2a, leftShiftMake, leftShiftMake, leftShiftMake, leftShiftMake⟩,
  ⟨0x2b, 92, ch '|', noChar, ch '|'⟩,
  ⟨0x2c, ch 'z', ch 'Z', ch 'Z', ch 'z'⟩,
  ⟨0x2d, ch 'x', ch 'X', ch 'X', ch 'x'⟩,
  ⟨0x2e, ch 'c', ch 'C', ch 'C', ch 'c'⟩,
  ⟨0x2f, ch 'v', ch 'V', ch 'V', ch 'v'⟩,
  ⟨0x30, ch 'b', ch 'B', ch 'B', ch 'b'⟩,
  ⟨0x31, ch 'n', ch 'N', ch 'N', ch 'n'⟩,
  ⟨0x32, ch 'm', ch 'M', ch 'M', ch 'm'⟩,
  ⟨0x33, ch ',', ch '<', ch ',', ch '<'⟩,
  ⟨0x34, ch '.', ch '>', ch '.', ch '>'⟩,
  ⟨0x35, ch '/', ch '?', ch '/', ch '?'⟩,
  ⟨0x36, rightShiftMake, rightShiftMake, rightShiftMake, rightShiftMake⟩,
  ⟨0x37, ch '*', noChar, noChar, noChar⟩,
  ⟨0x38, noChar, noChar, noChar, noChar⟩,
  ⟨0x39, ch ' ', ch ' ', ch ' ', ch ' '⟩,
  ⟨0x3a, capsLock, capsLock, capsLock, capsLock⟩,
  ⟨0x3b, noChar, noChar, noChar, noChar⟩,
  ⟨0x3c, noChar, noChar, noChar, noChar⟩,
  ⟨0x3d, noChar, noChar, noChar, noChar⟩,
  ⟨0x3e, noChar, noChar, noChar, noChar⟩,
  ⟨0x3f, noChar, noChar, noChar, noChar⟩,
  ⟨0x40, noChar, noChar, noChar, noChar⟩,
  ⟨0x41, noChar, noChar, noChar, noChar⟩,
  ⟨0x42, noChar, noChar, noChar, noChar⟩,
  ⟨0x43, noChar, noChar, noChar, noChar⟩,
  ⟨0x44, noChar, noChar, noChar, noChar⟩,
  ⟨0x45, noChar, noChar, noChar, noChar⟩,
  ⟨0x46, noChar, noChar, noChar, noChar⟩,
  ⟨0x47, ch '7', noChar, noChar, noChar⟩,
  ⟨0x48, noChar, noChar, noChar, noChar⟩,
  ⟨0x49, ch '9', noChar, noChar, noChar⟩,
  ⟨0x4a, ch '-', noChar, noChar, noChar⟩,
  ⟨0x4b, noChar, noChar, noChar, noChar⟩,
  ⟨0x4c, ch '5', noChar, noChar, noChar⟩,
  ⟨0x4d, noChar, noChar, noChar, noChar⟩,
  ⟨0x4e, ch '+', noChar, noChar, noChar⟩,
  ⟨0x4f, ch '1', noChar, noChar, noChar⟩,
  ⟨0x50, noChar, noChar, noChar, noChar⟩,
  ⟨0x51, ch '3', noChar, noChar, noChar⟩,
  ⟨0x52, ch '0', noChar, noChar, noChar⟩,
  ⟨0x53, ch '.', noChar, noChar, noChar⟩,
  ⟨0x57, noChar, noChar, noChar, noChar⟩,
  ⟨0x58, noChar, noChar, noChar, noChar⟩]

/-- `kbd_EN[c][j]`. The table has no bounds check: a read outside of it returns what `memory` has
at that distance from its first character. -/
def kbd_ENAt (memory : ℤ → UInt8) (c : ℤ) (j : ℕ) : UInt8 :=
  match if 0 ≤ c then kbd_EN[c.toNat]? else none with
  | some row => row.column j
  | none => memory (5 * c + j)

/-- What the handler does besides changing its variables. -/
inductive Effect
  | restartSHELL
  | console (call : ConsoleCall)
  /-- The characters that a process gets. -/
  | read (chars : List UInt8)
  deriving DecidableEq

structure State where
  shift : Bool
  caps : Bool
  terminal : TerminalBuffer

def keyboardHandlerC (memory : ℤ → UInt8) (c : UInt8) (s : State) : List Effect × State :=
  if c = capsLock then ([], { s with caps := !s.caps })
  else if c = leftShiftMake ∨ c = rightShiftMake then ([], { s with shift := true })
  else if c = leftShiftBreak ∨ c = rightShiftBreak then ([], { s with shift := false })
  else
    -- the code is a signed character, so that those from 0x80 on are negative indices
    let toSend := kbd_ENAt memory c.toInt8.toInt 1
    let restart := if s.shift ∧ c = f1 then [Effect.restartSHELL] else []
    if c &&& 0x80 = 0 ∧ toSend ≠ noChar then
      let j := if s.caps ∧ s.shift then 4 else if s.caps then 3 else if s.shift then 2 else 1
      let r := putTerminalBuffer (kbd_ENAt memory c.toInt8.toInt j) s.terminal
      (restart ++ r.1.map .console, { s with terminal := r.2 })
    else (restart, s)

/-! ### The layout -/

/-- What a key is to a typist. -/
inductive Key
  | silent
  | letter (lower : UInt8)
  | symbol (plain shifted : UInt8)
  /-- Caps lock takes the plain symbol away, unless a shift key is held. -/
  | bar (plain shifted : UInt8)
  /-- A shift key and caps lock take the symbol away. -/
  | keypad (plain : UInt8)

/-- The character that a key types. Where the symbol is taken away it is `noChar`, which is put
into the buffer like any other. -/
def Key.types (shift caps : Bool) : Key → Option UInt8
  | silent => none
  | letter lower => some (if shift != caps then lower - 32 else lower)
  | symbol plain shifted => some (if shift then shifted else plain)
  | bar plain shifted => some (if shift then shifted else if caps then noChar else plain)
  | keypad plain => some (if shift || caps then noChar else plain)

def letters (l : List Char) : List Key := l.map fun c => .letter (ch c)

def symbols (plain shifted : List Char) : List Key :=
  List.zipWith (fun c d => .symbol (ch c) (ch d)) plain shifted

/-- The keys in the order of their codes. -/
def layout : List Key :=
  [.silent, .silent] ++
  symbols ['1', '2', '3', '4', '5', '6', '7', '8', '9', '0', '-', '=']
    ['!', '@', '#', '$', '%', '^', '&', '*', '(', ')', '_', '+'] ++
  [.symbol 8 8, .symbol 9 9] ++
  letters ['q', 'w', 'e', 'r', 't', 'y', 'u', 'i', 'o', 'p'] ++
  symbols ['[', ']'] ['{', '}'] ++
  [.symbol 10 10, .silent] ++
  letters ['a', 's', 'd', 'f', 'g', 'h', 'j', 'k', 'l'] ++
  [.symbol (ch ';') (ch ':'), .symbol 39 34, .symbol 96 (ch '~'), .silent, .bar 92 (ch '|')] ++
  letters ['z', 'x', 'c', 'v', 'b', 'n', 'm'] ++
  symbols [',', '.', '/'] ['<', '>', '?'] ++
  [.silent, .keypad (ch '*'), .silent, .symbol 32 32, .silent] ++
  List.replicate 12 .silent ++
  [.keypad (ch '7'), .silent, .keypad (ch '9'), .keypad (ch '-'), .silent, .keypad (ch '5'),
    .silent, .keypad (ch '+'), .keypad (ch '1'), .silent, .keypad (ch '3'), .keypad (ch '0'),
    .keypad (ch '.'), .silent, .silent]

/-- A code that the handler does not look up behind the end of the table. -/
def Known (c : UInt8) : Prop := c.toNat < layout.length ∨ 0x80 ≤ c.toNat

instance (c : UInt8) : Decidable (Known c) := inferInstanceAs (Decidable (_ ∨ _))

def keyOf (c : UInt8) : Key := (layout[c.toNat]?).getD .silent

def shiftAfter (c : UInt8) (shift : Bool) : Bool :=
  if c = leftShiftMake ∨ c = rightShiftMake then true
  else if c = leftShiftBreak ∨ c = rightShiftBreak then false
  else shift

def capsAfter (c : UInt8) (caps : Bool) : Bool := if c = capsLock then !caps else caps

def restarts (shift : Bool) (c : UInt8) : List Effect :=
  if shift ∧ c = f1 then [.restartSHELL] else []

/-- A key as the layout has it. -/
def press (c : UInt8) (s : State) : List Effect × State :=
  let s' := { s with shift := shiftAfter c s.shift, caps := capsAfter c s.caps }
  match (keyOf c).types s.shift s.caps with
  | none => (restarts s.shift c, s')
  | some x =>
    let r := putTerminalBuffer x s.terminal
    (restarts s.shift c ++ r.1.map .console, { s' with terminal := r.2 })

section

variable {memory : ℤ → UInt8} {c : UInt8} {s : State}

/-- Of the keys in the table. A shift key and caps lock are silent, although they have a
character there. -/
theorem column_types (shift caps : Bool) : ∀ i : Fin 86, (i : ℕ) ∉ [0x2A, 0x36, 0x3A] →
    ∃ row, kbd_EN[(i : ℕ)]? = some row ∧ ((layout[(i : ℕ)]?).getD .silent).types shift caps =
      if row.normal = noChar then none
      else some (row.column
        (if caps ∧ shift then 4 else if caps then 3 else if shift then 2 else 1)) := by
  have hall : ∀ shift caps : Bool, ∀ i : Fin 86, (i : ℕ) ∉ [0x2A, 0x36, 0x3A] →
      (kbd_EN[(i : ℕ)]?).map (fun row => if row.normal = noChar then none
        else some (row.column
          (if caps ∧ shift then 4 else if caps then 3 else if shift then 2 else 1))) =
        some (((layout[(i : ℕ)]?).getD .silent).types shift caps) := by
    decide +kernel
  intro i hi
  obtain ⟨row, hrow, heq⟩ := Option.map_eq_some_iff.mp (hall shift caps i hi)
  exact ⟨row, hrow, heq.symm⟩

theorem toInt_toInt8 (hc : c.toNat < 0x80) : c.toInt8.toInt = c.toNat := by
  apply BitVec.toInt_eq_toNat_of_lt
  have hlt : 2 * c.toNat < 256 := by omega
  simpa using hlt

theorem kbd_ENAt_of_row {row : Row} (hc : c.toNat < 0x80) (hrow : kbd_EN[c.toNat]? = some row)
    (j : ℕ) : kbd_ENAt memory c.toInt8.toInt j = row.column j := by
  simp [kbd_ENAt, toInt_toInt8 hc, hrow]

theorem and_eq_zero_iff : c &&& 0x80 = 0 ↔ c.toNat < 0x80 := by
  have hlt := c.toNat_lt
  have hbit : c.toNat &&& 2 ^ 7 = (c.toNat.testBit 7).toNat * 2 ^ 7 := Nat.and_two_pow _ _
  rw [← UInt8.toNat_inj, UInt8.toNat_and]
  show c.toNat &&& 2 ^ 7 = 0 ↔ _
  rw [hbit, Nat.testBit_eq_decide_div_mod_eq]
  simp
  omega

theorem keyOf_eq_silent (hc : 86 ≤ c.toNat) : keyOf c = .silent := by
  have hlength : layout.length = 86 := by decide
  simp [keyOf, List.getElem?_eq_none (hlength ▸ hc)]

theorem press_of_none (hc : (keyOf c).types s.shift s.caps = none) : press c s =
    (restarts s.shift c,
      { s with shift := shiftAfter c s.shift, caps := capsAfter c s.caps }) := by
  simp [press, hc]

theorem press_of_some {x : UInt8} (hc : (keyOf c).types s.shift s.caps = some x) : press c s =
    (restarts s.shift c ++ (putTerminalBuffer x s.terminal).1.map .console,
      ⟨shiftAfter c s.shift, capsAfter c s.caps, (putTerminalBuffer x s.terminal).2⟩) := by
  simp [press, hc]

theorem press_of_silent (hkey : keyOf c = .silent) (hf1 : c ≠ f1) : press c s =
    ([], { s with shift := shiftAfter c s.shift, caps := capsAfter c s.caps }) := by
  rw [press_of_none (by simp [hkey, Key.types])]
  simp [restarts, hf1]

/-- The handler does what the layout says; what lies behind the table has no part in it. -/
theorem keyboardHandlerC_eq_press (hc : Known c) :
    keyboardHandlerC memory c s = press c s := by
  by_cases hcaps : c = capsLock
  · subst hcaps
    rw [press_of_silent rfl (by decide)]
    simp [keyboardHandlerC, shiftAfter, capsAfter, capsLock, leftShiftMake, rightShiftMake,
      leftShiftBreak, rightShiftBreak]
  by_cases hmake : c = leftShiftMake ∨ c = rightShiftMake
  · have hsilent : keyOf c = .silent ∧ c ≠ f1 := by
      rcases hmake with rfl | rfl
      · exact ⟨rfl, by decide⟩
      · exact ⟨rfl, by decide⟩
    simp [press_of_silent hsilent.1 hsilent.2, keyboardHandlerC, shiftAfter, capsAfter, hcaps,
      hmake]
  by_cases hbreak : c = leftShiftBreak ∨ c = rightShiftBreak
  · have hsilent : keyOf c = .silent ∧ c ≠ f1 := by
      rcases hbreak with rfl | rfl
      · exact ⟨rfl, by decide⟩
      · exact ⟨rfl, by decide⟩
    simp [press_of_silent hsilent.1 hsilent.2, keyboardHandlerC, shiftAfter, capsAfter, hcaps,
      hmake, hbreak]
  -- the other keys leave the two variables alone
  have hshift : shiftAfter c s.shift = s.shift := by
    simp [shiftAfter, hmake, hbreak]
  have hcapsAfter : capsAfter c s.caps = s.caps := by
    simp [capsAfter, hcaps]
  simp only [keyboardHandlerC, press, if_neg hcaps, if_neg hmake, if_neg hbreak, hshift, hcapsAfter,
    restarts]
  rcases hc with hc | hc
  · have hlt : c.toNat < 86 := hc
    have hnot : c.toNat ∉ [0x2A, 0x36, 0x3A] := by
      simp only [not_or] at hmake
      simp only [List.mem_cons, List.not_mem_nil, or_false, not_or]
      exact ⟨fun h => hmake.1 (UInt8.toNat_inj.mp h), fun h => hmake.2 (UInt8.toNat_inj.mp h),
        fun h => hcaps (UInt8.toNat_inj.mp h)⟩
    obtain ⟨row, hrow, htypes⟩ := column_types s.shift s.caps ⟨c.toNat, hlt⟩ hnot
    have hlow : c.toNat < 0x80 := by omega
    have hand : c &&& 0x80 = 0 := and_eq_zero_iff.mpr hlow
    have hkey : (keyOf c).types s.shift s.caps = _ := htypes
    rw [hkey]
    simp only [kbd_ENAt_of_row hlow hrow, hand, true_and]
    by_cases hnone : row.normal = noChar
    · simp [hnone, Row.column]
    · simp [hnone, Row.column]
  · have hand : ¬ c &&& 0x80 = 0 := by
      rw [and_eq_zero_iff]
      omega
    rw [if_neg (fun h => hand h.1), keyOf_eq_silent (by omega)]
    rfl

theorem kbd_ENAt_outside (hlow : 86 ≤ c.toNat) (hc : c.toNat < 0x80) (j : ℕ) :
    kbd_ENAt memory c.toInt8.toInt j = memory (5 * c.toNat + j) := by
  have hlength : kbd_EN.length = 86 := by decide
  have hnone : kbd_EN[c.toNat]? = none := List.getElem?_eq_none (hlength ▸ hlow)
  simp [kbd_ENAt, toInt_toInt8 hc, hnone]

/-- Exactly the codes from 0x56 to 0x7F, among them those of F11 and F12, read behind the table. -/
theorem known_iff : (∀ memory memory' s, keyboardHandlerC memory c s =
    keyboardHandlerC memory' c s) ↔ Known c := by
  constructor
  · intro h
    by_contra hknown
    have hlength : layout.length = 86 := by decide
    simp only [Known, hlength, not_or, not_lt, not_le] at hknown
    obtain ⟨hlow, hc⟩ := hknown
    have hmodifier : c ≠ capsLock ∧ ¬ (c = leftShiftMake ∨ c = rightShiftMake) ∧
        ¬ (c = leftShiftBreak ∨ c = rightShiftBreak) := by
      refine ⟨?_, ?_, ?_⟩
      · rintro rfl
        exact absurd hlow (by decide)
      · rintro (rfl | rfl)
        · exact absurd hlow (by decide)
        · exact absurd hlow (by decide)
      · rintro (rfl | rfl)
        · exact absurd hc (by decide)
        · exact absurd hc (by decide)
    have hand : c &&& 0x80 = 0 := and_eq_zero_iff.mpr hc
    -- an empty buffer, and once a letter and once nothing behind the table
    have heq := congrArg Prod.fst
      (h (fun _ => 97) (fun _ => noChar) ⟨false, false, ⟨fun _ => 0, 0, 0, true⟩⟩)
    simp [keyboardHandlerC, kbd_ENAt_outside hlow hc, hmodifier, hand, putTerminalBuffer,
      isBufferFull, bufferSize, echo, noChar] at heq
  · intro hc memory memory' s
    rw [keyboardHandlerC_eq_press hc, keyboardHandlerC_eq_press hc]

end

end GatOS.Keyboard
