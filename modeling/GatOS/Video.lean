import GatOS.MachineInt
import GatOS.Terminal

/-!
# The screen

The cells and the cursor of `video.c`, the margins that a program can set, and the calls that
write to the screen. The rows 0, 1 and 2 hold the banner and the clock.
-/
namespace GatOS.Video
open Transition Terminal

def width : ℤ := 80

def height : ℤ := 25

/-- The last three fields record the past: the cells that were written, the positions of the
cursor, and the number of steps of each loop in `lineJump`. -/
structure Screen where
  video : ℤ → ℤ → UInt8
  i : ℤ
  j : ℤ
  iStartModule : ℤ
  jStartModule : ℤ
  written : List (ℤ × ℤ)
  cursors : List (ℤ × ℤ)
  jumps : List ℕ

namespace Screen

/-- An assignment to `video[f][c]`. -/
def store (f c : ℤ) (a : UInt8) (s : Screen) : Screen :=
  { s with
    video := fun f' c' => if f' = f ∧ c' = c then a else s.video f' c'
    written := (f, c) :: s.written }

def setI (i : ℤ) (s : Screen) : Screen := { s with i, cursors := (i, s.j) :: s.cursors }

def setJ (j : ℤ) (s : Screen) : Screen := { s with j, cursors := (s.i, j) :: s.cursors }

end Screen

/-! ### Cells and rows -/

def validPosition (f c : ℤ) : Bool := !(f ≥ height ∨ c ≥ width ∨ f < 0 ∨ c < 0)

def printChar (f c : ℤ) (a : UInt8) (s : Screen) : Screen :=
  if ¬ validPosition f c then s else s.store f c a

/-- Stores a space. -/
def clearPosition (f c : ℤ) (s : Screen) : Screen :=
  if ¬ validPosition f c then s else s.store f c 32

def clearRow (f : ℤ) (s : Screen) : Screen :=
  (List.range width.toNat).foldl (fun s (k : ℕ) => clearPosition f k s) s

def copyRow (source dest : ℤ) (s : Screen) : Screen :=
  (List.range width.toNat).foldl
    (fun s (k : ℕ) => clearPosition source k (s.store dest k (s.video source k))) s

/-- -1 outside the screen. -/
def getScreen (f c : ℤ) (s : Screen) : UInt8 :=
  if ¬ validPosition f c then 255 else s.video f c

/-! ### The cursor -/

def scroll (s : Screen) : Screen :=
  let rows := List.range (height - (s.jStartModule + 1)).toNat
  let s := rows.foldl
    (fun t (n : ℕ) => copyRow (s.jStartModule + 1 + n) (s.jStartModule + 1 + n - 1) t) s
  let s := (clearRow (height - 1) s).setJ (height - 1)
  s.setI s.iStartModule

def forwardCursor (s : Screen) : Screen :=
  if s.i = width - 1 then
    if s.j = height - 1 then scroll s
    else
      let s := s.setJ (MachineInt.int32 (s.j + 1))
      s.setI s.iStartModule
  else s.setI (MachineInt.int32 (s.i + 1))

/-- The loop of `lineJump`, with the number of its steps. -/
def jumpLoop (aux : ℤ) : ℕ → Screen → ℕ × Screen
  | 0, s => (0, s)
  | fuel + 1, s =>
    if s.j = aux then (0, s)
    else
      let r := jumpLoop aux fuel (forwardCursor s)
      (r.1 + 1, r.2)

/-- The column takes every value of an `int` before it takes one twice. -/
def lineJump (s : Screen) : Screen :=
  if s.j = height - 1 then scroll s
  else
    let r := jumpLoop (MachineInt.int32 (s.j + 1)) (2 ^ 32) s
    { r.2 with jumps := r.1 :: r.2.jumps }

def backInLine (s : Screen) : Screen :=
  if s.i = s.iStartModule then s else s.setI (MachineInt.int32 (s.i - 1))

def putChar (a : UInt8) (s : Screen) : Screen := forwardCursor (printChar s.j s.i a s)

def setCursor (f c : ℤ) (s : Screen) : Screen :=
  if ¬ validPosition f c then s else (s.setI c).setJ f

def changeStartModule (f c : ℤ) (s : Screen) : Screen :=
  if f < 0 ∨ f > width ∨ c < 3 ∨ c > height then s
  else { s with jStartModule := c, iStartModule := f }.setI f

/-! ### System calls -/

/-- '\n' starts a new line. -/
def writeChar (c : UInt8) (s : Screen) : Screen := if c = 10 then lineJump s else putChar c s

/-- The loop counts `length` down to 0, through all the negative numbers if it is one. -/
def sys_call_writeC (stdout : ℕ) (msg : ℕ → UInt8) (length : ℤ) (s : Screen) : Screen :=
  if MachineInt.uint32 stdout = 0 then
    (List.range (length % 2 ^ 32).toNat).foldl (fun s (k : ℕ) => writeChar (msg k) s) s
  else s

/-- The rows from 25 down to 3. -/
def sys_call_clearC (s : Screen) : Screen :=
  setCursor 3 0 ((List.range 23).foldl (fun s (n : ℕ) => clearRow (25 - n) s) s)

def sys_call_changeModuleEnvironmetC (qi qj : ℤ) (s : Screen) : Screen :=
  changeStartModule (MachineInt.int32 qi) (MachineInt.int32 qj) s

/-! ### The console -/

/-- The screen, the keyboard buffer and the text that was selected with the mouse. -/
structure Console where
  screen : Screen
  terminal : TerminalBuffer
  mouseSelect : List UInt8

def perform (s : Screen) : ConsoleCall → Screen
  | .backInLine => backInLine s
  | .lineJump => lineJump s
  | .putChar c => putChar c s

def putTerminalBuffer (c : UInt8) (s : Console) : Console :=
  let r := Terminal.putTerminalBuffer c s.terminal
  { s with screen := r.1.foldl perform s.screen, terminal := r.2 }

/-- The cells from `initial` to `final`; a zero byte is copied as a space. -/
def copyMouse (initial final : ℤ) (s : Console) : Console :=
  { s with
    mouseSelect := (List.range (final - initial + 1).toNat).map fun (h : ℕ) =>
      let c := getScreen ((h + initial) / width) ((h + initial) % width) s.screen
      if c = 0 then 32 else c }

def paste (s : Console) : Console :=
  s.mouseSelect.foldl (fun s c => putTerminalBuffer c s) s

inductive Action
  | write (stdout : ℕ) (msg : ℕ → UInt8) (length : ℤ)
  | clear
  | changeModuleEnvironment (qi qj : ℤ)
  | key (c : UInt8)
  | read (length : ℕ)
  | echo (on : Bool)
  | copyMouse (initial final : ℤ)
  | paste

/-- The mouse selects cells of the screen, the first one first. -/
def step (s : Console) : Action → Option Console
  | .write stdout msg length => some { s with screen := sys_call_writeC stdout msg length s.screen }
  | .clear => some { s with screen := sys_call_clearC s.screen }
  | .changeModuleEnvironment qi qj =>
    some { s with screen := sys_call_changeModuleEnvironmetC qi qj s.screen }
  | .key c => some (putTerminalBuffer c s)
  | .read length => some { s with terminal := (getTerminalBuffer length s.terminal).2 }
  | .echo on => some { s with terminal := { s.terminal with isEcho := on } }
  | .copyMouse initial final =>
    if 0 ≤ initial ∧ initial ≤ final ∧ final < height * width then
      some (copyMouse initial final s)
    else none
  | .paste => some (paste s)

/-- The cursor and the margins have their initial values, the cells hold any characters. -/
structure IsStart (s : Console) : Prop where
  i : s.screen.i = 0
  j : s.screen.j = 3
  iStartModule : s.screen.iStartModule = 0
  jStartModule : s.screen.jStartModule = 3
  written : s.screen.written = []
  cursors : s.screen.cursors = [(0, 3)]
  jumps : s.screen.jumps = []

def consoleSystem : System Console Action := ofStep IsStart step

/-! ### The cells -/

/-- Only cells below the status lines are written. -/
structure Redrawn (s t : Screen) : Prop where
  rows : ∀ f c, f < 3 → t.video f c = s.video f c
  written : ∀ cell ∈ t.written, cell ∈ s.written ∨
    3 ≤ cell.1 ∧ validPosition cell.1 cell.2 = true
  frame : t = { s with video := t.video, written := t.written }

section

variable {s t u : Screen} {f c : ℤ}

theorem validPosition_iff :
    validPosition f c = true ↔ (0 ≤ f ∧ f < height) ∧ 0 ≤ c ∧ c < width := by
  simp only [validPosition, Bool.not_eq_true', decide_eq_false_iff_not]
  omega

theorem Redrawn.refl (s : Screen) : Redrawn s s := ⟨fun _ _ _ => rfl, fun _ h => Or.inl h, rfl⟩

theorem Redrawn.trans (h : Redrawn s t) (g : Redrawn t u) : Redrawn s u := by
  refine ⟨fun f c hf => (g.rows f c hf).trans (h.rows f c hf), fun cell hcell => ?_, ?_⟩
  · rcases g.written cell hcell with hcell | hnew
    · exact h.written cell hcell
    · exact Or.inr hnew
  · rw [g.frame, h.frame]

theorem Redrawn.store (s : Screen) (a : UInt8) (hf : 3 ≤ f) (hvalid : validPosition f c = true) :
    Redrawn s (s.store f c a) := by
  refine ⟨fun f' c' hf' => if_neg fun h => by omega, fun cell hcell => ?_, rfl⟩
  rcases List.mem_cons.mp hcell with rfl | hcell
  · exact Or.inr ⟨hf, hvalid⟩
  · exact Or.inl hcell

theorem Redrawn.clearPosition (s : Screen) (hf : 3 ≤ f) : Redrawn s (clearPosition f c s) := by
  unfold Video.clearPosition
  split_ifs with hvalid
  · exact .store s 32 hf hvalid
  · exact .refl s

theorem Redrawn.printChar (s : Screen) (a : UInt8) (hf : 3 ≤ f) :
    Redrawn s (printChar f c a s) := by
  unfold Video.printChar
  split_ifs with hvalid
  · exact .store s a hf hvalid
  · exact .refl s

/-- A loop over cells. -/
theorem Redrawn.foldl {α : Type*} {g : Screen → α → Screen} {l : List α}
    (hg : ∀ s, ∀ x ∈ l, Redrawn s (g s x)) (s : Screen) : Redrawn s (l.foldl g s) := by
  induction l generalizing s with
  | nil => exact .refl s
  | cons x l ih =>
    have hhead := hg s x List.mem_cons_self
    exact hhead.trans (ih (fun s y hy => hg s y (List.mem_cons_of_mem x hy)) (g s x))

theorem Redrawn.clearRow (s : Screen) (hf : 3 ≤ f) : Redrawn s (clearRow f s) :=
  .foldl (fun s _ _ => .clearPosition s hf) s

theorem Redrawn.copyRow (s : Screen) {source dest : ℤ} (hsource : 3 ≤ source) (hdest : 3 ≤ dest)
    (hlt : dest < height) : Redrawn s (copyRow source dest s) := by
  refine .foldl (fun s k hk => ?_) s
  have hvalid : validPosition dest k = true := by
    have hk' := List.mem_range.mp hk
    rw [validPosition_iff]
    unfold width at *
    omega
  exact (Redrawn.store s _ hdest hvalid).trans (.clearPosition _ hsource)

/-- `scroll` redraws the rows of the module and puts the cursor in the last row. -/
theorem scroll_spec (hj : 3 ≤ s.jStartModule) :
    ∃ t, Redrawn s t ∧ scroll s = (t.setJ (height - 1)).setI s.iStartModule := by
  have hcopied : Redrawn s ((List.range (height - (s.jStartModule + 1)).toNat).foldl
      (fun t (n : ℕ) => copyRow (s.jStartModule + 1 + n) (s.jStartModule + 1 + n - 1) t) s) := by
    refine .foldl (fun t n hn => ?_) s
    have hn' := List.mem_range.mp hn
    exact .copyRow t (by omega) (by omega) (by omega)
  have hcleared := hcopied.trans (.clearRow _ (show 3 ≤ height - 1 by decide))
  refine ⟨_, hcleared, ?_⟩
  have hstart := congrArg Screen.iStartModule hcleared.frame
  simp only [scroll, Screen.setJ] at hstart ⊢
  rw [hstart]

end

/-! ### The loops -/

section

variable {P : Screen → Prop} {s : Screen}

/-- What every step of the cursor preserves is preserved by the loop of `lineJump`. -/
theorem jumpLoop_rule (hforward : ∀ s, P s → P (forwardCursor s)) (h : P s) (aux : ℤ) (fuel : ℕ) :
    P (jumpLoop aux fuel s).2 := by
  induction fuel generalizing s with
  | zero => exact h
  | succ fuel ih =>
    rw [jumpLoop]
    split_ifs with hj
    · exact h
    · exact ih (hforward s h)

theorem writeChar_rule (hjump : ∀ s, P s → P (lineJump s)) (hput : ∀ s a, P s → P (putChar a s))
    (h : P s) (c : UInt8) : P (writeChar c s) := by
  unfold writeChar
  split_ifs with hc
  · exact hjump s h
  · exact hput s c h

theorem write_rule (hjump : ∀ s, P s → P (lineJump s)) (hput : ∀ s a, P s → P (putChar a s))
    (h : P s) (stdout : ℕ) (msg : ℕ → UInt8) (length : ℤ) :
    P (sys_call_writeC stdout msg length s) := by
  unfold sys_call_writeC
  split_ifs with hout
  · exact List.foldlRecOn _ _ h fun s hs k _ => writeChar_rule hjump hput hs (msg k)
  · exact h

theorem jumpLoop_done {aux : ℤ} (h : s.j = aux) (fuel : ℕ) : jumpLoop aux fuel s = (0, s) := by
  cases fuel with
  | zero => rfl
  | succ fuel => rw [jumpLoop, if_pos h]

/-- The loop of `lineJump` ends, whatever the column is: it goes on up to the last column. -/
theorem jumpLoop_steps {aux : ℤ} (hj : s.j ≠ height - 1) (haux : MachineInt.int32 (s.j + 1) = aux)
    (hne : s.j ≠ aux) (hi : MachineInt.intMin ≤ s.i ∧ s.i ≤ MachineInt.intMax) (fuel : ℕ)
    (hfuel : (width - 1 - s.i) % 2 ^ 32 < fuel) :
    ((jumpLoop aux fuel s).1 : ℤ) = (width - 1 - s.i) % 2 ^ 32 + 1 ∧
      (jumpLoop aux fuel s).2.j = aux := by
  induction fuel generalizing s with
  | zero =>
    have hpos := Int.emod_nonneg (width - 1 - s.i) (show (2 ^ 32 : ℤ) ≠ 0 by decide)
    omega
  | succ fuel ih =>
    rw [jumpLoop, if_neg hne]
    by_cases hlast : s.i = width - 1
    · have hdone : (forwardCursor s).j = aux := by
        rw [forwardCursor, if_pos hlast, if_neg hj]
        exact haux
      rw [jumpLoop_done hdone, hlast]
      exact ⟨by simp, hdone⟩
    · have hforward : forwardCursor s = s.setI (MachineInt.int32 (s.i + 1)) := if_neg hlast
      -- one step less, also when the column overflows
      have hstep : (width - 1 - MachineInt.int32 (s.i + 1)) % 2 ^ 32 + 1 =
          (width - 1 - s.i) % 2 ^ 32 := by
        rw [MachineInt.int32_sub_emod]
        unfold width MachineInt.intMin MachineInt.intMax at *
        omega
      have hrest := ih (s := s.setI (MachineInt.int32 (s.i + 1))) hj haux hne
        (MachineInt.int32_range _) (by
          rw [← hstep, Nat.cast_add, Nat.cast_one] at hfuel
          exact Int.lt_of_add_lt_add_right hfuel)
      rw [hforward]
      refine ⟨?_, hrest.2⟩
      rw [Nat.cast_add, Nat.cast_one, hrest.1, ← hstep]
      rfl

end

end GatOS.Video
