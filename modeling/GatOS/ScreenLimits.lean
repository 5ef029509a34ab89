import GatOS.Video

/-!
# What stays on the screen and what stays off the status lines

The status lines are never written, whatever the margins are. The cursor stays on the screen as
long as the margin does and a backspace finds a column to go back to.
-/
namespace GatOS.Video
open Transition Terminal

/-! ### The status lines -/

/-- The status lines show what they showed at the start, and everything that is drawn from now on
is below them. -/
structure Protected (video : ℤ → ℤ → UInt8) (s : Screen) : Prop where
  rows : ∀ f c, f < 3 → s.video f c = video f c
  written : ∀ cell ∈ s.written, 3 ≤ cell.1 ∧ validPosition cell.1 cell.2 = true
  j : 3 ≤ s.j ∧ s.j < height
  jStartModule : 3 ≤ s.jStartModule

section

variable {video : ℤ → ℤ → UInt8} {s t : Screen}

theorem Protected.redrawn (h : Protected video s) (hd : Redrawn s t) : Protected video t := by
  refine ⟨fun f c hf => (hd.rows f c hf).trans (h.rows f c hf), fun cell hcell => ?_, ?_, ?_⟩
  · rcases hd.written cell hcell with hold | hnew
    · exact h.written cell hold
    · exact hnew
  · rw [hd.frame]
    exact h.j
  · rw [hd.frame]
    exact h.jStartModule

theorem Protected.setI (h : Protected video s) (i : ℤ) : Protected video (s.setI i) :=
  ⟨h.rows, h.written, h.j, h.jStartModule⟩

theorem Protected.setJ (h : Protected video s) {j : ℤ} (hj : 3 ≤ j ∧ j < height) :
    Protected video (s.setJ j) := ⟨h.rows, h.written, hj, h.jStartModule⟩

theorem Protected.scroll (h : Protected video s) : Protected video (scroll s) := by
  obtain ⟨t, hd, hscroll⟩ := scroll_spec h.jStartModule
  rw [hscroll]
  exact ((h.redrawn hd).setJ (by decide)).setI _

/-- A row above the last one has a successor. -/
theorem int32_succ_row {j : ℤ} (hj : 3 ≤ j ∧ j < height) :
    MachineInt.int32 (j + 1) = j + 1 := by
  unfold height at hj
  exact MachineInt.int32_eq (by unfold MachineInt.intMin; omega) (by unfold MachineInt.intMax; omega)

theorem Protected.forwardCursor (h : Protected video s) : Protected video (forwardCursor s) := by
  unfold Video.forwardCursor
  split_ifs with hi hj
  · exact h.scroll
  · refine (h.setJ ?_).setI _
    have hrow := h.j
    rw [int32_succ_row hrow]
    omega
  · exact h.setI _

theorem Protected.lineJump (h : Protected video s) : Protected video (lineJump s) := by
  unfold Video.lineJump
  split_ifs with hj
  · exact h.scroll
  · have hloop := jumpLoop_rule (fun _ hs => hs.forwardCursor) h (MachineInt.int32 (s.j + 1))
      (2 ^ 32)
    exact ⟨hloop.rows, hloop.written, hloop.j, hloop.jStartModule⟩

theorem Protected.backInLine (h : Protected video s) : Protected video (backInLine s) := by
  unfold Video.backInLine
  split_ifs with hi
  · exact h
  · exact h.setI _

theorem Protected.putChar (h : Protected video s) (a : UInt8) : Protected video (putChar a s) :=
  (h.redrawn (.printChar s a h.j.1)).forwardCursor

theorem Protected.write (h : Protected video s) (stdout : ℕ) (msg : ℕ → UInt8) (length : ℤ) :
    Protected video (sys_call_writeC stdout msg length s) :=
  write_rule (fun _ hs => hs.lineJump) (fun _ a hs => hs.putChar a) h stdout msg length

theorem Redrawn.clearRows (s : Screen) :
    Redrawn s ((List.range 23).foldl (fun s (n : ℕ) => Video.clearRow (25 - n) s) s) := by
  refine .foldl (fun s n hn => .clearRow s ?_) s
  have hn' := List.mem_range.mp hn
  omega

theorem Protected.clear (h : Protected video s) : Protected video (sys_call_clearC s) := by
  unfold sys_call_clearC setCursor
  rw [if_neg (by decide)]
  exact ((h.redrawn (.clearRows s)).setI 0).setJ (j := 3) (by decide)

theorem Protected.changeStartModule (h : Protected video s) (f c : ℤ) :
    Protected video (changeStartModule f c s) := by
  unfold Video.changeStartModule
  split_ifs with hbad
  · exact h
  · exact ⟨h.rows, h.written, h.j, show 3 ≤ c by omega⟩

theorem Protected.perform (h : Protected video s) (call : ConsoleCall) :
    Protected video (perform s call) := by
  cases call with
  | backInLine => exact h.backInLine
  | lineJump => exact h.lineJump
  | putChar c => exact h.putChar c

end

section

variable {video : ℤ → ℤ → UInt8} {s t : Console}

theorem Protected.putTerminalBuffer (h : Protected video s.screen) (c : UInt8) :
    Protected video (putTerminalBuffer c s).screen :=
  List.foldlRecOn _ _ h fun _ hs call _ => hs.perform call

theorem step_protected {a : Action} (h : Protected video s.screen) (hstep : step s a = some t) :
    Protected video t.screen := by
  cases a with
  | write stdout msg length =>
    obtain rfl := Option.some.inj hstep
    exact h.write stdout msg length
  | clear =>
    obtain rfl := Option.some.inj hstep
    exact h.clear
  | changeModuleEnvironment qi qj =>
    obtain rfl := Option.some.inj hstep
    exact h.changeStartModule _ _
  | key c =>
    obtain rfl := Option.some.inj hstep
    exact h.putTerminalBuffer c
  | read length =>
    obtain rfl := Option.some.inj hstep
    exact h
  | echo on =>
    obtain rfl := Option.some.inj hstep
    exact h
  | copyMouse initial final =>
    simp only [step] at hstep
    split_ifs at hstep
    obtain rfl := Option.some.inj hstep
    exact h
  | paste =>
    obtain rfl := Option.some.inj hstep
    exact List.foldlRecOn (motive := fun s : Console => Protected video s.screen) _ _ h
      fun _ hs c _ => hs.putTerminalBuffer c

theorem IsStart.protected (h : IsStart s) : Protected s.screen.video s.screen := by
  refine ⟨fun _ _ _ => rfl, fun cell hcell => ?_, ?_, ?_⟩
  · simp [h.written] at hcell
  · rw [h.j]
    decide
  · rw [h.jStartModule]

/-- In every run the rows 0, 1 and 2 keep their contents, and no cell of them is ever written. -/
theorem status_lines_protected {as : List Action} (hs : IsStart s)
    (hpath : consoleSystem.Path s as t) :
    (∀ f c, f < 3 → t.screen.video f c = s.screen.video f c) ∧
      ∀ cell ∈ t.screen.written, 3 ≤ cell.1 ∧ validPosition cell.1 cell.2 = true := by
  have h : Protected s.screen.video t.screen := by
    have hstart := hs.protected
    clear hs
    generalize s.screen.video = video at hstart
    induction hpath with
    | nil => exact hstart
    | cons hstep _ ih => exact ih (step_protected hstart hstep)
  exact ⟨h.rows, h.written⟩

end

/-! ### The cursor on the screen -/

/-- The cursor is on the screen, has been so since the start, and no `lineJump` has taken more
steps than there are columns. -/
structure OnScreen (video : ℤ → ℤ → UInt8) (s : Screen) : Prop extends Protected video s where
  i : 0 ≤ s.i ∧ s.i < width
  iStartModule : 0 ≤ s.iStartModule ∧ s.iStartModule < width
  cursors : ∀ p ∈ s.cursors, validPosition p.2 p.1 = true
  jumps : ∀ n ∈ s.jumps, (n : ℤ) ≤ width

/-- The margin is not put behind the last column, and no backspace is accepted when the cursor is
in the first column and the margin is not. -/
def StaysOnScreen (s : Console) : Action → Prop
  | .changeModuleEnvironment qi qj => ¬ (MachineInt.int32 qi = width ∧
      3 ≤ MachineInt.int32 qj ∧ MachineInt.int32 qj ≤ height)
  | .key c => c = 8 → isBufferFull s.terminal = false → s.screen.i = 0 → s.screen.iStartModule = 0
  | .paste => 8 ∉ s.mouseSelect
  | _ => True

instance (s : Console) : (a : Action) → Decidable (StaysOnScreen s a)
  | .changeModuleEnvironment _ _ => inferInstanceAs (Decidable (¬ _))
  | .key _ => inferInstanceAs (Decidable (_ → _))
  | .paste => inferInstanceAs (Decidable (_ ∉ _))
  | .write _ _ _ | .clear | .read _ | .echo _ | .copyMouse _ _ => .isTrue trivial

section

variable {video : ℤ → ℤ → UInt8} {s t : Screen}

theorem OnScreen.redrawn (h : OnScreen video s) (hd : Redrawn s t) : OnScreen video t := by
  refine ⟨h.toProtected.redrawn hd, ?_, ?_, ?_, ?_⟩
  · rw [hd.frame]
    exact h.i
  · rw [hd.frame]
    exact h.iStartModule
  · rw [hd.frame]
    exact h.cursors
  · rw [hd.frame]
    exact h.jumps

theorem OnScreen.setI (h : OnScreen video s) {i : ℤ} (hi : 0 ≤ i ∧ i < width) :
    OnScreen video (s.setI i) := by
  refine ⟨h.toProtected.setI i, hi, h.iStartModule, List.forall_mem_cons.mpr ⟨?_, h.cursors⟩,
    h.jumps⟩
  have hj := h.j
  exact validPosition_iff.mpr ⟨by omega, hi⟩

theorem OnScreen.setJ (h : OnScreen video s) {j : ℤ} (hj : 3 ≤ j ∧ j < height) :
    OnScreen video (s.setJ j) := by
  refine ⟨h.toProtected.setJ hj, h.i, h.iStartModule, List.forall_mem_cons.mpr ⟨?_, h.cursors⟩,
    h.jumps⟩
  exact validPosition_iff.mpr ⟨by omega, h.i⟩

theorem OnScreen.scroll (h : OnScreen video s) : OnScreen video (scroll s) := by
  obtain ⟨t, hd, hscroll⟩ := scroll_spec h.jStartModule
  rw [hscroll]
  exact ((h.redrawn hd).setJ (by decide)).setI h.iStartModule

theorem int32_column {i : ℤ} (hi : -1 ≤ i ∧ i ≤ width) : MachineInt.int32 i = i := by
  unfold width at hi
  exact MachineInt.int32_eq (by unfold MachineInt.intMin; omega) (by unfold MachineInt.intMax; omega)

theorem OnScreen.forwardCursor (h : OnScreen video s) : OnScreen video (forwardCursor s) := by
  have hcolumn := h.i
  unfold Video.forwardCursor
  split_ifs with hi hj
  · exact h.scroll
  · have hrow := h.j
    refine (h.setJ ?_).setI h.iStartModule
    rw [int32_succ_row hrow]
    omega
  · refine h.setI ?_
    rw [int32_column (by omega)]
    omega

/-- After a step forward the cursor is at the margin or has a column before it. -/
theorem OnScreen.forwardCursor_column (h : OnScreen video s) :
    (Video.forwardCursor s).i = (Video.forwardCursor s).iStartModule ∨
      1 ≤ (Video.forwardCursor s).i := by
  unfold Video.forwardCursor
  split_ifs with hi hj
  · left
    obtain ⟨t, hd, hscroll⟩ := scroll_spec h.jStartModule
    have hstart := congrArg Screen.iStartModule hd.frame
    rw [hscroll]
    exact hstart.symm
  · exact Or.inl rfl
  · right
    have hcolumn := h.i
    show 1 ≤ MachineInt.int32 (s.i + 1)
    rw [int32_column (by omega)]
    omega

theorem OnScreen.lineJump (h : OnScreen video s) : OnScreen video (lineJump s) := by
  unfold Video.lineJump
  split_ifs with hj
  · exact h.scroll
  · have hloop := jumpLoop_rule (fun _ hs => hs.forwardCursor) h (MachineInt.int32 (s.j + 1))
      (2 ^ 32)
    refine ⟨⟨hloop.rows, hloop.written, hloop.j, hloop.jStartModule⟩, hloop.i, hloop.iStartModule,
      hloop.cursors, List.forall_mem_cons.mpr ⟨?_, hloop.jumps⟩⟩
    have hcolumn := h.i
    have hmod : (width - 1 - s.i) % 2 ^ 32 = width - 1 - s.i := by
      unfold width at *
      omega
    have hne : s.j ≠ MachineInt.int32 (s.j + 1) := by
      rw [int32_succ_row h.j]
      omega
    have hi : MachineInt.intMin ≤ s.i ∧ s.i ≤ MachineInt.intMax := by
      unfold width MachineInt.intMin MachineInt.intMax at *
      omega
    have hfuel : (width - 1 - s.i) % 2 ^ 32 < (2 ^ 32 : ℕ) := by
      unfold width at *
      omega
    have hsteps := (jumpLoop_steps hj rfl hne hi (2 ^ 32) hfuel).1
    rw [hsteps, hmod]
    omega

theorem OnScreen.backInLine (h : OnScreen video s) (hi : s.i = s.iStartModule ∨ 1 ≤ s.i) :
    OnScreen video (backInLine s) := by
  have hcolumn := h.i
  unfold Video.backInLine
  split_ifs with hstart
  · exact h
  · refine h.setI ?_
    rw [int32_column (by omega)]
    omega

theorem OnScreen.putChar (h : OnScreen video s) (a : UInt8) : OnScreen video (putChar a s) :=
  (h.redrawn (.printChar s a h.j.1)).forwardCursor

theorem OnScreen.clear (h : OnScreen video s) : OnScreen video (sys_call_clearC s) := by
  unfold sys_call_clearC setCursor
  rw [if_neg (by decide)]
  exact ((h.redrawn (.clearRows s)).setI (i := 0) (by decide)).setJ (j := 3) (by decide)

theorem OnScreen.changeStartModule (h : OnScreen video s) {f c : ℤ}
    (hok : ¬ (f = width ∧ 3 ≤ c ∧ c ≤ height)) : OnScreen video (changeStartModule f c s) := by
  unfold Video.changeStartModule
  split_ifs with hbad
  · exact h
  · have hf : 0 ≤ f ∧ f < width := by omega
    exact OnScreen.setI (s := { s with jStartModule := c, iStartModule := f })
      ⟨⟨h.rows, h.written, h.j, show 3 ≤ c by omega⟩, h.i, hf, h.cursors, h.jumps⟩ hf

/-- What `putTerminalBuffer` shows for a character. -/
theorem OnScreen.echo (h : OnScreen video s) (t : TerminalBuffer) {c : UInt8}
    (hok : c = 8 → s.i = s.iStartModule ∨ 1 ≤ s.i) :
    OnScreen video ((echo c t).foldl perform s) := by
  unfold Terminal.echo
  split_ifs with hback hline hecho
  · have hmoved := h.backInLine (hok hback)
    have hdrawn := hmoved.redrawn (.printChar (c := (Video.backInLine s).i) _ 32 hmoved.j.1)
    exact hdrawn.forwardCursor.backInLine hdrawn.forwardCursor_column
  · exact h.lineJump
  · exact h.putChar c
  · exact h

end

section

variable {video : ℤ → ℤ → UInt8} {s t : Console}

theorem OnScreen.putTerminalBuffer (h : OnScreen video s.screen) {c : UInt8}
    (hok : c = 8 → isBufferFull s.terminal = false →
      s.screen.i = s.screen.iStartModule ∨ 1 ≤ s.screen.i) :
    OnScreen video (putTerminalBuffer c s).screen := by
  unfold Video.putTerminalBuffer Terminal.putTerminalBuffer
  split_ifs with hfull
  · exact h
  · exact h.echo s.terminal fun hc => hok hc (by simpa using hfull)

theorem step_onScreen {a : Action} (h : OnScreen video s.screen) (hok : StaysOnScreen s a)
    (hstep : step s a = some t) : OnScreen video t.screen := by
  cases a with
  | write stdout msg length =>
    obtain rfl := Option.some.inj hstep
    exact write_rule (fun _ hs => hs.lineJump) (fun _ a hs => hs.putChar a) h stdout msg length
  | clear =>
    obtain rfl := Option.some.inj hstep
    exact h.clear
  | changeModuleEnvironment qi qj =>
    obtain rfl := Option.some.inj hstep
    exact h.changeStartModule hok
  | key c =>
    obtain rfl := Option.some.inj hstep
    refine h.putTerminalBuffer fun hc hfull => ?_
    have hcolumn := h.i
    have hmargin := hok hc hfull
    omega
  | read length =>
    obtain rfl := Option.some.inj hstep
    exact h
  | echo on =>
    obtain rfl := Option.some.inj hstep
    exact h
  | copyMouse initial final =>
    simp only [step] at hstep
    split_ifs at hstep
    obtain rfl := Option.some.inj hstep
    exact h
  | paste =>
    obtain rfl := Option.some.inj hstep
    refine List.foldlRecOn (motive := fun s : Console => OnScreen video s.screen) _ _ h
      fun _ hs c hc => hs.putTerminalBuffer fun he => ?_
    exact absurd (he ▸ hc) hok

theorem IsStart.onScreen (h : IsStart s) : OnScreen s.screen.video s.screen := by
  refine ⟨h.protected, ?_, ?_, fun p hp => ?_, fun n hn => ?_⟩
  · rw [h.i]
    decide
  · rw [h.iStartModule]
    decide
  · rw [h.cursors, List.mem_singleton] at hp
    rw [hp]
    decide
  · simp [h.jumps] at hn

/-- In a run that keeps to the condition the cursor never leaves the screen, and the loop of
`lineJump` takes at most as many steps as there are columns. -/
theorem cursor_on_screen (h : (consoleSystem.restrict StaysOnScreen).Reachable s) :
    (0 ≤ s.screen.i ∧ s.screen.i < width) ∧ (0 ≤ s.screen.j ∧ s.screen.j < height) ∧
      (∀ p ∈ s.screen.cursors, validPosition p.2 p.1 = true) ∧
      ∀ n ∈ s.screen.jumps, (n : ℤ) ≤ width := by
  obtain ⟨video, hs⟩ : ∃ video, OnScreen video s.screen := by
    induction h with
    | start hs => exact ⟨_, IsStart.onScreen hs⟩
    | next _ hstep ih =>
      obtain ⟨video, hs⟩ := ih
      exact ⟨video, step_onScreen hs hstep.1 hstep.2⟩
  have hj := hs.j
  exact ⟨hs.i, by omega, hs.cursors, hs.jumps⟩

end

/-! ### Runs -/

def started : Console :=
  ⟨⟨fun _ _ => 0, 0, 3, 0, 3, [], [(0, 3)], []⟩, ⟨fun _ => 0, 0, 0, true⟩, []⟩

theorem isStart_started : IsStart started := ⟨rfl, rfl, rfl, rfl, rfl, rfl, rfl⟩

/-- A new margin, two characters and a line jump, and a backspace at the margin. -/
def typed : List Action :=
  [.changeModuleEnvironment 78 24, .key 65, .key 66, .key 10, .clear, .key 67, .key 8]

/-- The two characters fill the line, the line jump goes on to the next one. -/
theorem cursor_on_screen_typed : ∃ s, (consoleSystem.restrict StaysOnScreen).Reachable s ∧
    s.screen.i = 0 ∧ s.screen.j = 3 ∧ s.screen.jumps = [2] ∧ s.screen.i < width := by
  obtain ⟨s, hs, hf⟩ := reachable_restrict_of_execute IsStart isStart_started
    (show (execute (guarded StaysOnScreen step) started typed).map
      (fun s => (s.screen.i, s.screen.j, s.screen.jumps)) = some (0, 3, [2]) by decide +kernel)
  obtain ⟨hi, hf⟩ := Prod.mk.inj hf
  obtain ⟨hj, hjumps⟩ := Prod.mk.inj hf
  exact ⟨s, hs, hi, hj, hjumps, (cursor_on_screen hs).1.2⟩

/-- A margin behind the last column is accepted, and so is a backspace in the first column when
the margin is not there. -/
theorem cursor_leaves_screen : (∃ s, consoleSystem.Reachable s ∧ s.screen.i = width) ∧
    ∃ s, consoleSystem.Reachable s ∧ s.screen.i = -1 := by
  constructor
  · obtain ⟨s, hs, hi⟩ := exists_path_of_execute IsStart
      (show (execute step started [.changeModuleEnvironment 80 3]).map (fun s => s.screen.i) =
        some width by decide +kernel)
    exact ⟨s, hs.reachable (.start isStart_started), hi⟩
  · obtain ⟨s, hs, hi⟩ := exists_path_of_execute IsStart
      (show (execute step started [.changeModuleEnvironment 40 5, .clear, .key 8]).map
        (fun s => s.screen.i) = some (-1) by decide +kernel)
    exact ⟨s, hs.reachable (.start isStart_started), hi⟩

/-- The cursor leaves the screen on both sides, and three characters are written there. -/
theorem status_lines_protected_outside : ∃ t, consoleSystem.Path started
      [.changeModuleEnvironment 40 5, .clear, .key 8, .changeModuleEnvironment 80 25,
        .write 0 (fun _ => 65) 3] t ∧
    t.screen.i = 83 ∧ ∀ f c, f < 3 → t.screen.video f c = 0 := by
  obtain ⟨t, ht, hi⟩ := exists_path_of_execute IsStart
    (show (execute step started [.changeModuleEnvironment 40 5, .clear, .key 8,
      .changeModuleEnvironment 80 25, .write 0 (fun _ => 65) 3]).map (fun s => s.screen.i) =
        some 83 by decide +kernel)
  exact ⟨t, ht, hi, (status_lines_protected isStart_started ht).1⟩

end GatOS.Video
