import GatOS.Page
import GatOS.ScreenLimits

/-!
# The screen as a page

As long as the cursor stays on the screen, the rows 3 to 24 show a page with the margins that the
programs have set: what the loops over cells and columns do is to put a character behind the last
one, to begin a new line or to take a character back.
-/
namespace GatOS.Video
open Transition Terminal

/-- The rows below the status lines. -/
def windowHeight : ℕ := 22

def windowWidth : ℕ := 80

def space : UInt8 := 32

/-- The cells of the window show the page, and the cursor is in the row of the last line. -/
structure Draws (s : Screen) (p : Page UInt8) : Prop where
  cells : ∀ f < windowHeight, ∀ c < windowWidth, s.video (3 + f) c = p.cell space f c
  rows : p.above.length < windowHeight
  left : p.left < windowWidth
  j : s.j = 3 + p.above.length
  iStartModule : s.iStartModule = p.left
  jStartModule : s.jStartModule = 3 + p.top

/-- In addition the cursor is where the next character goes. -/
structure Shows (s : Screen) (p : Page UInt8) : Prop extends Draws s p where
  column : p.column < windowWidth
  i : s.i = p.column

section

variable {s t : Screen} {p : Page UInt8} {a : UInt8} {f c source dest : ℤ} {n : ℕ}

/-! ### Rows -/

theorem store_video (f' c' : ℤ) :
    (s.store f c a).video f' c' = if f' = f ∧ c' = c then a else s.video f' c' := rfl

theorem clearRow_cells (hf : 0 ≤ f ∧ f < height) (hn : n ≤ windowWidth) (f' c' : ℤ) :
    ((List.range n).foldl (fun s (k : ℕ) => clearPosition f k s) s).video f' c' =
      if f' = f ∧ 0 ≤ c' ∧ c' < n then space else s.video f' c' := by
  induction n with
  | zero =>
    rw [if_neg (by omega)]
    rfl
  | succ n ih =>
    have hvalid : validPosition f n = true := by
      rw [validPosition_iff]
      unfold width windowWidth at *
      omega
    rw [List.range_succ, List.foldl_append, List.foldl_cons, List.foldl_nil, clearPosition,
      if_neg (by simp [hvalid]), store_video, ih (by omega)]
    by_cases hlast : f' = f ∧ c' = n
    · rw [if_pos hlast, if_pos (by omega)]
      rfl
    · rw [if_neg hlast]
      refine if_congr ?_ rfl rfl
      omega

theorem copyRow_cells (hsource : 0 ≤ source ∧ source < height) (hne : source ≠ dest)
    (hn : n ≤ windowWidth) (f' c' : ℤ) :
    ((List.range n).foldl
      (fun s (k : ℕ) => clearPosition source k (s.store dest k (s.video source k))) s).video f' c' =
      if f' = dest ∧ 0 ≤ c' ∧ c' < n then s.video source c'
      else if f' = source ∧ 0 ≤ c' ∧ c' < n then space
      else s.video f' c' := by
  induction n generalizing f' c' with
  | zero =>
    rw [if_neg (by omega), if_neg (by omega)]
    rfl
  | succ n ih =>
    have hvalid : validPosition source n = true := by
      rw [validPosition_iff]
      unfold width windowWidth at *
      omega
    have hih := ih (by omega)
    rw [List.range_succ, List.foldl_append, List.foldl_cons, List.foldl_nil, clearPosition,
      if_neg (by simp [hvalid]), store_video, store_video, hih, hih,
      if_neg (show ¬ (source = dest ∧ 0 ≤ (n : ℤ) ∧ (n : ℤ) < n) by omega),
      if_neg (show ¬ (source = source ∧ 0 ≤ (n : ℤ) ∧ (n : ℤ) < n) by omega)]
    by_cases hnew : c' = n
    · subst hnew
      by_cases hs : f' = source
      · subst hs
        simp [hne, space]
      · by_cases hd : f' = dest
        · simp [hd, Ne.symm hne]
        · simp [hs, hd]
    · rw [if_neg (by omega), if_neg (by omega)]
      have hlt : (c' < ((n + 1 : ℕ) : ℤ)) ↔ c' < (n : ℤ) := by omega
      simp only [hlt]

/-- The rows behind `f₀` move up one after the other. -/
theorem scrollRows_cells {f₀ : ℤ} (hlo : 0 ≤ f₀) (hn : f₀ + n < height ∨ n = 0)
    (hc : 0 ≤ c ∧ c < width) :
    ((List.range n).foldl (fun t (k : ℕ) => copyRow (f₀ + 1 + k) (f₀ + 1 + k - 1) t) s).video f c =
      if f₀ ≤ f ∧ f < f₀ + n then s.video (f + 1) c
      else if f = f₀ + n ∧ 0 < n then space
      else s.video f c := by
  induction n generalizing f with
  | zero =>
    rw [if_neg (by omega), if_neg (by omega)]
    rfl
  | succ n ih =>
    have hcopy := fun t : Screen => @copyRow_cells t (f₀ + 1 + n) (f₀ + 1 + n - 1) windowWidth
      ⟨by omega, by unfold height at *; omega⟩ (by omega) le_rfl f c
    have hcolumn : 0 ≤ c ∧ c < (windowWidth : ℕ) := hc
    rw [List.range_succ, List.foldl_append, List.foldl_cons, List.foldl_nil, copyRow]
    rw [show width.toNat = windowWidth from rfl, hcopy, ih (by omega), ih (by omega)]
    by_cases hd : f = f₀ + n
    · subst hd
      rw [if_pos ⟨by omega, hcolumn⟩, if_neg (by omega), if_neg (by omega), if_pos (by omega)]
      congr 1
      omega
    · by_cases hs : f = f₀ + 1 + n
      · subst hs
        rw [if_neg (by omega), if_pos ⟨rfl, hcolumn⟩, if_neg (by omega), if_pos (by omega)]
      · rw [if_neg (by omega), if_neg (by omega)]
        by_cases hin : f₀ ≤ f ∧ f < f₀ + n
        · rw [if_pos hin, if_pos (by omega)]
        · rw [if_neg hin, if_neg (by omega), if_neg (by omega), if_neg (by omega)]

/-- The cells, the cursor and the margins after `scroll`. -/
theorem scroll_result (htop : 3 ≤ s.jStartModule) :
    (∀ f c, 3 ≤ f → f < height → 0 ≤ c → c < width → (scroll s).video f c =
      if f = height - 1 then space
      else if s.jStartModule ≤ f then s.video (f + 1) c else s.video f c) ∧
    (scroll s).i = s.iStartModule ∧ (scroll s).j = height - 1 ∧
    (scroll s).iStartModule = s.iStartModule ∧ (scroll s).jStartModule = s.jStartModule := by
  constructor
  · intro f c hlo hhi hc0 hc
    have hrows := @scrollRows_cells s f c (height - (s.jStartModule + 1)).toNat s.jStartModule
      (by omega) (by omega) ⟨hc0, hc⟩
    have hclear := fun t : Screen =>
      @clearRow_cells t (height - 1) windowWidth (by decide) le_rfl f c
    have hvideo : (scroll s).video f c = (clearRow (height - 1)
        ((List.range (height - (s.jStartModule + 1)).toNat).foldl
          (fun t (k : ℕ) => copyRow (s.jStartModule + 1 + k) (s.jStartModule + 1 + k - 1) t)
            s)).video f c := rfl
    rw [hvideo, clearRow, show width.toNat = windowWidth from rfl, hclear, hrows]
    have hcolumn : 0 ≤ c ∧ c < (windowWidth : ℕ) := ⟨hc0, hc⟩
    by_cases hlast : f = height - 1
    · rw [if_pos ⟨hlast, hcolumn⟩, if_pos hlast]
    · rw [if_neg (by tauto), if_neg hlast]
      by_cases hin : s.jStartModule ≤ f
      · rw [if_pos (by omega), if_pos hin]
      · rw [if_neg (by omega), if_neg (by omega), if_neg hin]
  · obtain ⟨t, hd, ht⟩ := @scroll_spec s htop
    have hleft : t.iStartModule = s.iStartModule := by rw [hd.frame]
    have htop' : t.jStartModule = s.jStartModule := by rw [hd.frame]
    rw [ht]
    exact ⟨rfl, rfl, hleft, htop'⟩

/-! ### The page -/

theorem Draws.row (h : Draws s p) : 3 ≤ s.j ∧ s.j < height := by
  have hrows := h.rows
  have hj := h.j
  unfold height windowHeight at *
  omega

/-- The cursor is elsewhere in its row. -/
theorem Draws.setColumn (h : Draws s p) {k : ℕ} {i : ℤ} (hk : k < windowWidth) (hi : i = k) :
    Shows (s.setI i) { p with column := k } :=
  ⟨⟨h.cells, h.rows, h.left, h.j, h.iStartModule, h.jStartModule⟩, hk, hi⟩

theorem printChar_eq (hvalid : validPosition f c = true) : printChar f c a s = s.store f c a := by
  simp [printChar, hvalid]

/-- A character in the last line. -/
theorem Draws.store (h : Draws s p) {k : ℕ} (hk : k < windowWidth) (a : UInt8) :
    Draws (printChar s.j k a s) (p.store k a) := by
  have hj := h.j
  have hvalid : validPosition s.j k = true := by
    have hrow := h.row
    rw [validPosition_iff]
    unfold width windowWidth at *
    omega
  rw [printChar_eq hvalid]
  refine ⟨fun f hf c hc => ?_, h.rows, h.left, hj, h.iStartModule, h.jStartModule⟩
  rw [store_video, Page.cell_store, h.cells f hf c hc]
  refine if_congr ?_ rfl rfl
  omega

/-- In the last row the others move up. -/
theorem Draws.scroll (h : Draws s p) (hlast : s.j = height - 1) :
    Shows (scroll s) (p.newline windowHeight space) := by
  have htop := h.jStartModule
  obtain ⟨hcells, hi, hj, hleft, hstart⟩ := @scroll_result s (by omega)
  have hfull : p.above.length + 1 = windowHeight := by
    have hj := h.j
    unfold height windowHeight at *
    omega
  have hnew := fun f c => @Page.cell_newline_full _ windowHeight f c space p hfull
  refine ⟨⟨fun f hf c hc => ?_, ?_, h.left, ?_, hleft.trans h.iStartModule, hstart.trans htop⟩,
    h.left, hi.trans h.iStartModule⟩
  · rw [(hnew f c).2, hcells (3 + f) c (by omega)
      (by unfold height windowHeight at *; omega) (by omega)
      (by unfold width windowWidth at *; omega)]
    by_cases hbottom : f + 1 = windowHeight
    · rw [if_pos (by unfold height windowHeight at *; omega),
        if_neg (by unfold windowHeight at *; omega), Page.cell_below (by omega)]
    · rw [if_neg (by unfold height windowHeight at *; omega)]
      by_cases hin : p.top ≤ f
      · rw [if_pos (by omega), if_neg (by omega), ← h.cells (f + 1) (by omega) c hc]
        rfl
      · rw [if_neg (by omega), if_pos (by unfold windowHeight at *; omega), h.cells f hf c hc]
  · rw [(hnew 0 0).1]
    exact h.rows
  · rw [(hnew 0 0).1, hj, ← hlast]
    exact h.j

/-- The cursor goes to the next row, and nothing moves. -/
theorem Draws.next (h : Draws s p) (hroom : s.j ≠ height - 1) (hvideo : t.video = s.video)
    (hi : t.i = s.iStartModule) (hj : t.j = s.j + 1) (hleft : t.iStartModule = s.iStartModule)
    (htop : t.jStartModule = s.jStartModule) : Shows t (p.newline windowHeight space) := by
  have hrow : p.above.length + 1 < windowHeight := by
    have hrows := h.rows
    have hj := h.j
    unfold height windowHeight at *
    omega
  have hnew := fun f c => @Page.cell_newline_room _ windowHeight f c space p hrow
  refine ⟨⟨fun f hf c hc => ?_, ?_, h.left, ?_, hleft.trans h.iStartModule,
    htop.trans h.jStartModule⟩, h.left, hi.trans h.iStartModule⟩
  · rw [(hnew f c).2, hvideo]
    exact h.cells f hf c hc
  · rw [(hnew 0 0).1]
    exact hrow
  · rw [(hnew 0 0).1, hj, h.j]
    push_cast
    exact Int.add_assoc _ _ _

/-! ### Characters -/

theorem forwardCursor_inside (hi : 0 ≤ s.i ∧ s.i < width - 1) :
    forwardCursor s = s.setI (s.i + 1) := by
  rw [forwardCursor, if_neg (by omega), int32_column (by omega)]

theorem forwardCursor_next (hi : s.i = width - 1) (hj : 3 ≤ s.j ∧ s.j < height - 1) :
    forwardCursor s = (s.setJ (s.j + 1)).setI s.iStartModule := by
  rw [forwardCursor, if_pos hi, if_neg (by omega), int32_succ_row (by omega)]
  rfl

/-- At the end of a full line. -/
theorem Draws.forward (h : Draws s p) (hi : s.i = width - 1) :
    Shows (forwardCursor s) (p.newline windowHeight space) := by
  have hrow := h.row
  by_cases hlast : s.j = height - 1
  · have hscroll : forwardCursor s = Video.scroll s := by
      rw [forwardCursor, if_pos hi, if_pos hlast]
    rw [hscroll]
    exact h.scroll hlast
  · rw [forwardCursor_next hi (by omega)]
    exact h.next hlast rfl rfl rfl rfl rfl

theorem printChar_i (f c : ℤ) (a : UInt8) (s : Screen) : (printChar f c a s).i = s.i := by
  unfold printChar
  split_ifs
  · rfl
  · rfl

theorem Shows.putChar (h : Shows s p) (a : UInt8) :
    Shows (putChar a s) (p.put windowWidth windowHeight space a) := by
  have hcolumn := h.column
  have hdraws := h.toDraws.store hcolumn a
  rw [← h.i] at hdraws
  have hi : (printChar s.j s.i a s).i = p.column := by rw [printChar_i, h.i]
  unfold Page.put
  by_cases hfull : p.column + 1 = windowWidth
  · rw [if_pos hfull]
    refine hdraws.forward ?_
    rw [hi]
    unfold width windowWidth at *
    omega
  · rw [if_neg hfull, Video.putChar, forwardCursor_inside (by
      rw [hi]
      unfold width windowWidth at *
      omega)]
    exact hdraws.setColumn (by omega) (by rw [hi]; rfl)

/-! ### New lines -/

/-- The loop goes on to the end of the row. -/
theorem jumpLoop_row {aux : ℤ} (hj : 3 ≤ s.j ∧ s.j < height - 1) (haux : s.j + 1 = aux)
    (hi : 0 ≤ s.i ∧ s.i + n = width - 1) {fuel : ℕ} (hfuel : n < fuel) :
    (jumpLoop aux fuel s).2.video = s.video ∧ (jumpLoop aux fuel s).2.i = s.iStartModule ∧
      (jumpLoop aux fuel s).2.j = aux ∧
      (jumpLoop aux fuel s).2.iStartModule = s.iStartModule ∧
      (jumpLoop aux fuel s).2.jStartModule = s.jStartModule := by
  induction n generalizing s fuel with
  | zero =>
    obtain ⟨fuel, rfl⟩ := Nat.exists_eq_succ_of_ne_zero (show fuel ≠ 0 by omega)
    have hnext := forwardCursor_next (s := s) (by omega) hj
    rw [Nat.succ_eq_add_one, jumpLoop, if_neg (by omega), hnext, jumpLoop_done haux]
    exact ⟨rfl, rfl, haux, rfl, rfl⟩
  | succ n ih =>
    obtain ⟨fuel, rfl⟩ := Nat.exists_eq_succ_of_ne_zero (show fuel ≠ 0 by omega)
    rw [Nat.succ_eq_add_one, jumpLoop, if_neg (by omega), forwardCursor_inside (by omega)]
    exact @ih (s.setI (s.i + 1)) hj haux ⟨by simp only [Screen.setI]; omega,
      by simp only [Screen.setI]; omega⟩ fuel (by omega)

theorem Shows.lineJump (h : Shows s p) : Shows (lineJump s) (p.newline windowHeight space) := by
  have hrow := h.row
  by_cases hlast : s.j = height - 1
  · rw [Video.lineJump, if_pos hlast]
    exact h.scroll hlast
  · have hcolumn := h.column
    have hi := h.i
    obtain ⟨hvideo, hleave, hj, hleft, htop⟩ := @jumpLoop_row s (79 - p.column) (s.j + 1)
      (by omega) rfl (by unfold width windowWidth at *; omega) (2 ^ 32)
      (lt_of_le_of_lt (Nat.sub_le _ _) (by decide))
    rw [Video.lineJump, if_neg hlast, int32_succ_row hrow]
    exact h.toDraws.next hlast hvideo hleave hj hleft htop

/-! ### Backspaces -/

theorem Shows.back_margin (h : Shows s p) (hmargin : p.column = p.left) :
    Shows (backInLine s) p := by
  have hi := h.i
  have hleft := h.iStartModule
  rw [backInLine, if_pos (by omega)]
  exact h

theorem Shows.back_inside (h : Shows s p) (hinside : p.column ≠ p.left) (hpos : 1 ≤ p.column) :
    Shows (backInLine s) { p with column := p.column - 1 } := by
  have hi := h.i
  have hleft := h.iStartModule
  have hcolumn := h.column
  have hlt : s.i < width := by
    unfold width windowWidth at *
    omega
  rw [backInLine, if_neg (by omega), int32_column (by omega)]
  exact h.toDraws.setColumn (by omega) (by omega)

/-- A space that does not fill the line is taken back. -/
theorem Shows.putSpace (h : Shows s p) (hfits : p.column + 1 < windowWidth)
    (hmargin : p.column + 1 ≠ p.left) :
    Shows (backInLine (Video.putChar space s)) (p.store p.column space) := by
  have hput := h.putChar space
  rw [Page.put, if_neg (by omega)] at hput
  exact hput.back_inside hmargin (Nat.le_add_left 1 _)

theorem Shows.erase (h : Shows s p) (hroom : p.column ≠ p.left → 1 ≤ p.column) :
    Shows (backInLine (Video.putChar space (backInLine s)))
      (p.erase windowWidth windowHeight space) := by
  have hcolumn := h.column
  unfold Page.erase
  by_cases hleft : p.column = p.left
  · rw [if_pos hleft]
    have hback := h.back_margin hleft
    by_cases hfull : p.column + 1 = windowWidth
    · -- the space begins a new line, and the cursor is at the margin again
      rw [if_pos hfull]
      have hput := hback.putChar space
      have hnew : p.put windowWidth windowHeight space space =
          (p.store p.column space).newline windowHeight space := if_pos hfull
      rw [hnew] at hput ⊢
      exact hput.back_margin rfl
    · rw [if_neg hfull]
      exact hback.putSpace (by omega) (by omega)
  · rw [if_neg hleft]
    have hpos := hroom hleft
    have hback := h.back_inside hleft hpos
    exact hback.putSpace (by change p.column - 1 + 1 < windowWidth; omega)
      (by change p.column - 1 + 1 ≠ p.left; omega)

/-! ### Clearing and margins -/

theorem clearRow_outside (hf : height ≤ f) : clearRow f s = s := by
  have hinvalid : ∀ k : ℤ, validPosition f k = false := by
    intro k
    simp only [validPosition, Bool.not_eq_false', decide_eq_true_eq]
    omega
  simp [clearRow, clearPosition, hinvalid]

theorem clearRows_cells (hn : n ≤ 23) (hc : 0 ≤ c ∧ c < width) (hf : f < height) :
    ((List.range n).foldl (fun s (k : ℕ) => clearRow (25 - k) s) s).video f c =
      if 25 - n < f then space else s.video f c := by
  induction n with
  | zero =>
    rw [if_neg (by unfold height at hf; omega)]
    rfl
  | succ n ih =>
    rw [List.range_succ, List.foldl_append, List.foldl_cons, List.foldl_nil]
    by_cases hzero : n = 0
    · subst hzero
      rw [clearRow_outside (by decide), if_neg (by unfold height at hf; omega)]
      rfl
    · rw [clearRow, show width.toNat = windowWidth from rfl,
        clearRow_cells (by unfold height; omega) le_rfl, ih (by omega)]
      by_cases hrow : f = 25 - n
      · rw [if_pos ⟨hrow, hc.1, hc.2⟩, if_pos (by omega)]
      · rw [if_neg (by tauto)]
        refine if_congr ?_ rfl rfl
        omega

theorem Shows.clear (h : Shows s p) : Shows (sys_call_clearC s) (p.clear space) := by
  have hd := Redrawn.clearRows s
  have hcells := fun f c => @clearRows_cells s f c 23 le_rfl
  rw [sys_call_clearC, setCursor, if_neg (by decide)]
  generalize (List.range 23).foldl (fun s (k : ℕ) => clearRow (25 - k) s) s = t at hd hcells ⊢
  have hleft : t.iStartModule = s.iStartModule := by rw [hd.frame]
  have htop : t.jStartModule = s.jStartModule := by rw [hd.frame]
  refine ⟨⟨fun f hf c hc => ?_, ?_, h.left, rfl, hleft.trans h.iStartModule,
    htop.trans h.jStartModule⟩, ?_, rfl⟩
  · have hcell := hcells (3 + f) c ⟨by omega, by unfold width windowWidth at *; omega⟩
      (by unfold height windowHeight at *; omega)
    rw [if_pos (by omega)] at hcell
    rw [Page.cell_blankLine [] _ rfl rfl]
    exact hcell
  · exact (by decide : 0 < windowHeight)
  · exact (by decide : 0 < windowWidth)

/-- The margins that `changeStartModule` takes. -/
def marginsOn (f c : ℤ) (p : Page UInt8) : Page UInt8 :=
  if f < 0 ∨ f > width ∨ c < 3 ∨ c > height then p else p.setMargins f.toNat (c - 3).toNat

theorem Shows.changeStartModule (h : Shows s p) (hok : ¬ (f = width ∧ 3 ≤ c ∧ c ≤ height)) :
    Shows (changeStartModule f c s) (marginsOn f c p) := by
  unfold Video.changeStartModule marginsOn
  split_ifs with hbad
  · exact h
  · have hf : f.toNat < windowWidth := by
      unfold width windowWidth at *
      omega
    have hleft : f = f.toNat := by omega
    have htop : c = 3 + (c - 3).toNat := by omega
    exact ⟨⟨h.cells, h.rows, hf, h.j, hleft, htop⟩, hf, hleft⟩

end

/-! ### Characters from the programs and from the keyboard -/

/-- A character of `sys_call_writeC`. -/
def writeOn (p : Page UInt8) (c : UInt8) : Page UInt8 :=
  if c = 10 then p.newline windowHeight space else p.put windowWidth windowHeight space c

/-- The echo of a key. -/
def keyOn (t : TerminalBuffer) (c : UInt8) (p : Page UInt8) : Page UInt8 :=
  if isBufferFull t then p
  else if c = 8 then p.erase windowWidth windowHeight space
  else if c = 10 then p.newline windowHeight space
  else if t.isEcho then p.put windowWidth windowHeight space c
  else p

/-- A console and the page behind its screen. -/
structure Session where
  console : Console
  page : Page UInt8

namespace Session

def key (x : Session) (c : UInt8) : Session :=
  ⟨putTerminalBuffer c x.console, keyOn x.console.terminal c x.page⟩

/-- The page after an action. -/
def write (x : Session) : Action → Page UInt8
  | .write stdout msg length =>
    if MachineInt.uint32 stdout = 0 then
      (List.range (length % 2 ^ 32).toNat).foldl (fun p (k : ℕ) => writeOn p (msg k)) x.page
    else x.page
  | .clear => x.page.clear space
  | .changeModuleEnvironment qi qj =>
    marginsOn (MachineInt.int32 qi) (MachineInt.int32 qj) x.page
  | .key c => (x.key c).page
  | .read _ => x.page
  | .echo _ => x.page
  | .copyMouse _ _ => x.page
  | .paste => (x.console.mouseSelect.foldl key x).page

end Session

def sessionStep (x : Session) (a : Action) : Option Session :=
  (step x.console a).map fun s => ⟨s, x.write a⟩

/-- The page before the first line. -/
def blankPage : Page UInt8 := ⟨[], fun _ => space, 0, 0, 0⟩

/-- The window is blank. -/
structure IsBlank (x : Session) : Prop where
  start : IsStart x.console
  cells : ∀ f < windowHeight, ∀ c < windowWidth, x.console.screen.video (3 + f) c = space
  page : x.page = blankPage

def sessionSystem : System Session Action := ofStep IsBlank sessionStep

/-- No step takes the cursor off the screen. -/
def Session.Stays (x : Session) (a : Action) : Prop := StaysOnScreen x.console a

instance (x : Session) (a : Action) : Decidable (x.Stays a) :=
  inferInstanceAs (Decidable (StaysOnScreen x.console a))

section

variable {s : Screen} {p : Page UInt8} {x y : Session}

theorem Shows.writeChar (h : Shows s p) (c : UInt8) : Shows (writeChar c s) (writeOn p c) := by
  unfold Video.writeChar writeOn
  split_ifs with hc
  · exact h.lineJump
  · exact h.putChar c

theorem Shows.write (h : Shows s p) (msg : ℕ → UInt8) (l : List ℕ) :
    Shows (l.foldl (fun s k => Video.writeChar (msg k) s) s)
      (l.foldl (fun p k => writeOn p (msg k)) p) := by
  induction l generalizing s p with
  | nil => exact h
  | cons k l ih => exact ih (h.writeChar (msg k))

/-- A backspace needs a character in front of the cursor, or the margin. -/
theorem Shows.key (h : Shows x.console.screen x.page) {c : UInt8}
    (hroom : c = 8 → isBufferFull x.console.terminal = false →
      x.page.column ≠ x.page.left → 1 ≤ x.page.column) :
    Shows (x.key c).console.screen (x.key c).page := by
  by_cases hfull : isBufferFull x.console.terminal = true
  · simpa [Session.key, putTerminalBuffer, Terminal.putTerminalBuffer, keyOn, hfull] using h
  · simp only [Session.key, putTerminalBuffer, Terminal.putTerminalBuffer, keyOn, if_neg hfull,
      echo]
    split_ifs with hback hnew hecho
    · exact h.erase (hroom hback (by simpa using hfull))
    · exact h.lineJump
    · exact h.putChar c
    · exact h

theorem Shows.paste (h : Shows x.console.screen x.page) {l : List UInt8} (hl : 8 ∉ l) :
    Shows (l.foldl Session.key x).console.screen (l.foldl Session.key x).page := by
  induction l generalizing x with
  | nil => exact h
  | cons c l ih =>
    simp only [List.mem_cons, not_or] at hl
    exact ih (h.key fun hc => absurd hc.symm hl.1) hl.2

theorem foldl_key (l : List UInt8) : (l.foldl Session.key x).console =
    l.foldl (fun s c => putTerminalBuffer c s) x.console := by
  induction l generalizing x with
  | nil => rfl
  | cons c l ih => exact ih

theorem step_shows (h : Shows x.console.screen x.page) {a : Action} (hok : x.Stays a)
    (hstep : sessionStep x a = some y) : Shows y.console.screen y.page := by
  obtain ⟨s, hs, rfl⟩ := Option.map_eq_some_iff.mp hstep
  cases a with
  | write stdout msg length =>
    obtain rfl := Option.some.inj hs
    simp only [Session.write, sys_call_writeC]
    split_ifs with hout
    · exact h.write msg _
    · exact h
  | clear =>
    obtain rfl := Option.some.inj hs
    exact h.clear
  | changeModuleEnvironment qi qj =>
    obtain rfl := Option.some.inj hs
    exact h.changeStartModule hok
  | key c =>
    obtain rfl := Option.some.inj hs
    refine h.key fun hc hfull hinside => ?_
    have hmargin := hok hc hfull
    have hi := h.i
    have hleft := h.iStartModule
    omega
  | read length =>
    obtain rfl := Option.some.inj hs
    exact h
  | echo on =>
    obtain rfl := Option.some.inj hs
    exact h
  | copyMouse initial final =>
    simp only [step] at hs
    split_ifs at hs
    obtain rfl := Option.some.inj hs
    exact h
  | paste =>
    obtain rfl := Option.some.inj hs
    have hpasted := h.paste hok
    rw [foldl_key] at hpasted
    exact hpasted

theorem IsBlank.shows (h : IsBlank x) : Shows x.console.screen x.page := by
  obtain ⟨hstart, hcells, hpage⟩ := h
  rw [hpage]
  refine ⟨⟨fun f hf c hc => ?_, (by decide : 0 < windowHeight), (by decide : 0 < windowWidth),
    hstart.j, hstart.iStartModule, hstart.jStartModule⟩, (by decide : 0 < windowWidth), hstart.i⟩
  have hblank : blankPage.cell space f c = space := Page.cell_blankLine [] blankPage rfl rfl
  rw [hblank]
  exact hcells f hf c hc

theorem reachable_shows (h : (sessionSystem.restrict Session.Stays).Reachable x) :
    Shows x.console.screen x.page := by
  induction h with
  | start hs => exact hs.shows
  | next _ hstep ih => exact step_shows ih hstep.1 hstep.2

/-- Whatever the programs write and clear, whatever margins they set, and whatever is typed and
pasted, the rows 3 to 24 show the page and the cursor is where its next character goes. -/
theorem window_shows_text (h : (sessionSystem.restrict Session.Stays).Reachable x) :
    (∀ f < windowHeight, ∀ c < windowWidth,
      x.console.screen.video (3 + f) c = x.page.cell space f c) ∧
    x.console.screen.j = 3 + x.page.above.length ∧ x.page.above.length < windowHeight ∧
    x.console.screen.i = x.page.column ∧ x.page.column < windowWidth ∧
    x.console.screen.iStartModule = x.page.left ∧ x.console.screen.jStartModule = 3 + x.page.top := by
  have hshows := reachable_shows h
  exact ⟨hshows.cells, hshows.j, hshows.rows, hshows.i, hshows.column, hshows.iStartModule,
    hshows.jStartModule⟩

end

/-- A blank screen. -/
def blankSession : Session :=
  ⟨⟨⟨fun _ _ => space, 0, 3, 0, 3, [], [(0, 3)], []⟩, ⟨fun _ => 0, 0, 0, true⟩, []⟩, blankPage⟩

theorem isBlank_blankSession : IsBlank blankSession :=
  ⟨⟨rfl, rfl, rfl, rfl, rfl, rfl, rfl⟩, fun _ _ _ _ => rfl, rfl⟩

/-- A program sets a margin and writes two characters and a new line, two keys and a backspace
follow. -/
theorem window_shows_text_typed : ∃ x : Session,
    (sessionSystem.restrict Session.Stays).Reachable x ∧
    x.page.above.length = 1 ∧ x.page.line 6 = 99 ∧ x.page.column = 7 ∧ x.page.left = 6 ∧
    x.console.screen.i = 7 ∧ x.console.screen.j = 4 ∧ x.console.screen.video 4 6 = 99 := by
  obtain ⟨x, hx, hf⟩ := reachable_restrict_of_execute IsBlank isBlank_blankSession
    (show (execute (guarded Session.Stays sessionStep) blankSession
      [.changeModuleEnvironment 6 4, .write 0 (fun k => [97, 98, 10].getD k 0) 3, .key 99, .key 100,
        .key 8]).map
        (fun x => (x.page.above.length, x.page.line 6, x.page.column, x.page.left)) =
          some (1, 99, 7, 6) by decide +kernel)
  obtain ⟨habove, hf⟩ := Prod.mk.inj hf
  obtain ⟨hline, hf⟩ := Prod.mk.inj hf
  obtain ⟨hcolumn, hleft⟩ := Prod.mk.inj hf
  obtain ⟨hcells, hj, -, hi, -, -, -⟩ := window_shows_text hx
  have hcell := hcells 1 (by decide) 6 (by decide)
  rw [show x.page.cell space 1 6 = x.page.line 6 from by
    rw [← habove]
    exact Page.cell_line] at hcell
  rw [habove] at hj
  rw [hcolumn] at hi
  exact ⟨x, hx, habove, hline, hcolumn, hleft, hi, hj, hcell.trans hline⟩

end GatOS.Video
