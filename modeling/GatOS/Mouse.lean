import GatOS.ScreenLimits

/-!
# The mouse

`mouse_handlerC` of `mouse.c`, and the functions of `video.c` that mark the selected cells. A packet
of the mouse has three bytes. The handler keeps its place in the packet from one interrupt to the
next.
-/
namespace GatOS.Mouse
open Transition Video

/-- The number of characters in `mouseSelect`. -/
def mouseSelectSize : ℕ := (height * width).toNat

/-- The arguments of `selection` and `undoSelection`. -/
structure Range where
  finit : ℤ
  cinit : ℤ
  ffin : ℤ
  cfin : ℤ

/-- The static variables of `mouse.c`, and the colours of the cells. The last three fields record
the past: the calls of `selection` and `undoSelection`, and the places of `mouseSelect` that
`copyMouse` has written and `paste` has read. -/
structure State where
  console : Console
  attributes : ℤ → ℤ → UInt8
  mouseCycle : ℕ
  mouseByte : Fin 3 → Int8
  flag : Bool
  x : ℤ
  y : ℤ
  xinit : ℤ
  yinit : ℤ
  xfin : ℤ
  yfin : ℤ
  selecting : Bool
  ranges : List Range
  stored : List ℕ
  loaded : List ℕ

/-! ### `video.c` -/

def paint (colour : UInt8) (f c : ℤ) (s : State) : State :=
  if ¬ validPosition f c then s
  else { s with attributes := fun f' c' => if f' = f ∧ c' = c then colour else s.attributes f' c' }

def drawMouse : ℤ → ℤ → State → State := paint 0x30

def udrawMouse : ℤ → ℤ → State → State := paint 0x0F

/-- The loop of `selection` and `undoSelection`, from the cell `i` on. -/
def paintLoop (draw : ℤ → ℤ → State → State) (fin : ℤ) : ℕ → ℤ → State → State
  | 0, _, s => s
  | fuel + 1, i, s =>
    if validPosition (i.tdiv width) (i.tmod width) ∧ i ≤ fin then
      paintLoop draw fin fuel (i + 1) (draw (i.tdiv width) (i.tmod width) s)
    else s

/-- The first `size` places of `mouseSelect` are written. -/
def copyMouse (initial final : ℤ) (s : State) : State :=
  { s with
    console := Video.copyMouse initial final s.console
    stored := List.range (final - initial + 1).toNat ++ s.stored }

/-- The loop reads `size` characters. -/
def paste (s : State) : State :=
  { s with
    console := Video.paste s.console
    loaded := List.range s.console.mouseSelect.length ++ s.loaded }

def selection (r : Range) (s : State) : State :=
  let i := r.finit * width + r.cinit
  let fin := r.ffin * width + r.cfin
  let s := copyMouse i fin { s with ranges := r :: s.ranges }
  paintLoop drawMouse fin (fin + 1 - i).toNat i s

def undoSelection (r : Range) (s : State) : State :=
  let i := r.finit * width + r.cinit
  let fin := r.ffin * width + r.cfin
  paintLoop udrawMouse fin (fin + 1 - i).toNat i { s with ranges := r :: s.ranges }

/-! ### `mouse.c` -/

/-- The two ends of the selection, the first one first. -/
def State.range (s : State) : Range :=
  if s.yfin < s.yinit ∨ s.yfin = s.yinit ∧ s.xfin < s.xinit then
    ⟨s.yfin, s.xfin, s.yinit, s.xinit⟩
  else ⟨s.yinit, s.xinit, s.yfin, s.xfin⟩

/-- Bit 0 of the first byte is the left button. -/
def leftButton (s : State) : State :=
  if s.mouseByte 0 &&& 0x01 ≠ 0 then
    let s :=
      if s.selecting then { undoSelection s.range s with xfin := s.x, yfin := s.y }
      else { s with selecting := true, xinit := s.x, yinit := s.y, xfin := s.x, yfin := s.y }
    selection s.range s
  else if s.selecting then { undoSelection s.range s with selecting := false }
  else s

/-- Bit 1 is the right button. The text is pasted when it is released. -/
def rightButton (s : State) : State :=
  if s.mouseByte 0 &&& 0x02 ≠ 0 then { s with flag := true }
  else if s.flag then { paste s with flag := false }
  else s

/-- `rel_x` and `rel_y`. -/
def relative (negative : Bool) (b : Int8) : ℤ :=
  if negative then MachineInt.int32 ((b.toInt % 2 ^ 32).toNat ||| 0xFFFFFF00 : ℕ) else b.toInt

def moveX (rel_x : ℤ) (s : State) : State :=
  if s.x + rel_x.tdiv 10 < 80 ∧ s.x + rel_x.tdiv 10 ≥ 0 then { s with x := s.x + rel_x.tdiv 10 }
  else s

def moveY (rel_y : ℤ) (s : State) : State :=
  if s.y - rel_y.tdiv 10 < 25 ∧ s.y - rel_y.tdiv 10 ≥ 0 then { s with y := s.y - rel_y.tdiv 10 }
  else s

def move (s : State) : State :=
  let d := s.mouseByte 0
  let rel_x := relative (d &&& 0x10 = 0x10) (s.mouseByte 1)
  let rel_y := relative (d &&& 0x20 = 0x20) (s.mouseByte 2)
  let s := moveY rel_y (moveX rel_x (udrawMouse s.y s.x s))
  drawMouse s.y s.x s

/-- A packet with an overflow bit is dropped. -/
def packet (s : State) : State :=
  if s.mouseByte 0 &&& (0x80 : UInt8).toInt8 ≠ 0 ∨ s.mouseByte 0 &&& 0x40 ≠ 0 then
    { s with mouseCycle := 4 }
  else { move (rightButton (leftButton s)) with mouseCycle := 4 }

def setByte (k : Fin 3) (mouse_in : Int8) (s : State) : State :=
  { s with mouseByte := Function.update s.mouseByte k mouse_in }

/-- The `switch` over `mouse_cycle`; whether the handler returns there. -/
def receive (mouse_in : Int8) (s : State) : Bool × State :=
  match s.mouseCycle with
  | 0 =>
    let s := setByte 0 mouse_in s
    if mouse_in &&& 0x08 = 0 then (true, s) else (false, { s with mouseCycle := 1 })
  | 1 => (false, { setByte 1 mouse_in s with mouseCycle := 2 })
  | 2 => (false, packet (setByte 2 mouse_in s))
  | _ => (false, s)

/-- The controller gives one status and one byte in each turn of the loop; behind the last of them
bit 0 of the status is clear. -/
def mouse_handlerC : List (UInt8 × UInt8) → State → State
  | [], s => s
  | (status, data) :: rest, s =>
    if status &&& 0x01 = 0 then s
    else
      let r := if status &&& 0x20 ≠ 0 then receive data.toInt8 s else (false, s)
      if r.1 then r.2
      else if r.2.mouseCycle ≥ 4 then { r.2 with mouseCycle := 0 }
      else mouse_handlerC rest r.2

/-! ### Runs -/

inductive Action
  | handler (polls : List (UInt8 × UInt8))
  | console (a : Video.Action)

/-- Only the mouse selects text and pastes it. -/
def byMouse : Video.Action → Bool
  | .copyMouse _ _ | .paste => true
  | _ => false

def step (s : State) : Action → Option State
  | .handler polls => some (mouse_handlerC polls s)
  | .console a =>
    if byMouse a then none else (Video.step s.console a).map fun console => { s with console }

/-- The colours of the cells are any. -/
structure IsStart (s : State) : Prop where
  console : Video.IsStart s.console
  mouseSelect : s.console.mouseSelect = []
  mouseCycle : s.mouseCycle = 0
  position : s.x = 10 ∧ s.y = 10
  ends : s.xinit = 0 ∧ s.yinit = 0 ∧ s.xfin = 0 ∧ s.yfin = 0
  buttons : s.flag = false ∧ s.selecting = false
  past : s.ranges = [] ∧ s.stored = [] ∧ s.loaded = []

def mouseSystem : System State Action := ofStep IsStart step

/-! ### The result -/

/-- Both ends are on the screen, and the start is not after the end. -/
structure Range.Ordered (r : Range) : Prop where
  start : validPosition r.finit r.cinit = true
  final : validPosition r.ffin r.cfin = true
  order : r.finit < r.ffin ∨ r.finit = r.ffin ∧ r.cinit ≤ r.cfin

structure InBounds (s : State) : Prop where
  x : 0 ≤ s.x ∧ s.x < 80
  y : 0 ≤ s.y ∧ s.y < 25
  mouseCycle : s.mouseCycle < 3
  ordered : ∀ r ∈ s.ranges, r.Ordered
  stored : ∀ h ∈ s.stored, h < mouseSelectSize
  loaded : ∀ h ∈ s.loaded, h < mouseSelectSize

/-- The invariant of every statement of the handler. The console does what `consoleSystem` allows:
the cells that the mouse selects are on the screen. -/
structure Bounded (s : State) : Prop where
  console : consoleSystem.Reachable s.console
  pointer : validPosition s.y s.x = true
  init : validPosition s.yinit s.xinit = true
  final : validPosition s.yfin s.xfin = true
  selected : s.console.mouseSelect.length ≤ mouseSelectSize
  ordered : ∀ r ∈ s.ranges, r.Ordered
  stored : ∀ h ∈ s.stored, h < mouseSelectSize
  loaded : ∀ h ∈ s.loaded, h < mouseSelectSize

section

variable {s t : State} {r : Range}

theorem Range.Ordered.cells (h : r.Ordered) :
    0 ≤ r.finit * width + r.cinit ∧
      r.finit * width + r.cinit ≤ r.ffin * width + r.cfin ∧
      r.ffin * width + r.cfin < height * width := by
  obtain ⟨hstart, hfinal, horder⟩ := h
  rw [validPosition_iff] at hstart hfinal
  unfold width height at *
  omega

/-- Whatever the two ends are, they are given in the order of the cells. -/
theorem Bounded.range (h : Bounded s) : s.range.Ordered := by
  unfold State.range
  split_ifs with hbefore
  · exact ⟨h.final, h.init, hbefore.imp_right (And.imp_right le_of_lt)⟩
  · refine ⟨h.init, h.final, ?_⟩
    dsimp only
    omega

theorem Bounded.paint (h : Bounded s) (colour : UInt8) (f c : ℤ) :
    Bounded (paint colour f c s) := by
  unfold Mouse.paint
  split_ifs
  · exact ⟨h.console, h.pointer, h.init, h.final, h.selected, h.ordered, h.stored, h.loaded⟩
  · exact h

/-- What the colouring of one cell preserves is preserved by the loop. -/
theorem paintLoop_rule {P : State → Prop} {draw : ℤ → ℤ → State → State}
    (hdraw : ∀ s f c, P s → P (draw f c s)) (h : P s) (fin : ℤ) (fuel : ℕ) (i : ℤ) :
    P (paintLoop draw fin fuel i s) := by
  induction fuel generalizing s i with
  | zero => exact h
  | succ fuel ih =>
    rw [paintLoop]
    split_ifs
    · exact ih (hdraw s _ _ h) (i + 1)
    · exact h

theorem Bounded.called (h : Bounded s) (hr : r.Ordered) :
    Bounded { s with ranges := r :: s.ranges } :=
  ⟨h.console, h.pointer, h.init, h.final, h.selected, List.forall_mem_cons.mpr ⟨hr, h.ordered⟩,
    h.stored, h.loaded⟩

theorem mem_range_append {P : ℕ → Prop} {n : ℕ} {l : List ℕ} (hn : ∀ h < n, P h)
    (hl : ∀ h ∈ l, P h) : ∀ h ∈ List.range n ++ l, P h := by
  intro h hmem
  rcases List.mem_append.mp hmem with hrange | hold
  · exact hn h (List.mem_range.mp hrange)
  · exact hl h hold

theorem Bounded.copyMouse (h : Bounded s) {i fin : ℤ} (hi : 0 ≤ i) (hle : i ≤ fin)
    (hfin : fin < height * width) : Bounded (copyMouse i fin s) := by
  have hsize : (fin - i + 1).toNat ≤ mouseSelectSize := by
    unfold mouseSelectSize width height at *
    omega
  refine ⟨?_, h.pointer, h.init, h.final, ?_, h.ordered, ?_, h.loaded⟩
  · exact h.console.next (a := .copyMouse i fin) (if_pos ⟨hi, hle, hfin⟩)
  · simpa [Mouse.copyMouse, Video.copyMouse] using hsize
  · exact mem_range_append (fun k hk => lt_of_lt_of_le hk hsize) h.stored

theorem mouseSelect_putTerminalBuffer (c : UInt8) (s : Console) :
    (putTerminalBuffer c s).mouseSelect = s.mouseSelect := rfl

theorem mouseSelect_paste (s : Console) : (Video.paste s).mouseSelect = s.mouseSelect :=
  List.foldlRecOn (motive := fun t : Console => t.mouseSelect = s.mouseSelect) _ _ rfl
    fun t ht c _ => (mouseSelect_putTerminalBuffer c t).trans ht

theorem mouseSelect_step {a : Video.Action} {s t : Console} (hmouse : ¬ byMouse a = true)
    (ht : Video.step s a = some t) : t.mouseSelect = s.mouseSelect := by
  cases a with
  | copyMouse initial final => exact absurd rfl hmouse
  | paste => exact absurd rfl hmouse
  | key c =>
    rw [← Option.some.inj ht]
    exact mouseSelect_putTerminalBuffer c s
  | write | clear | changeModuleEnvironment | read | echo => rw [← Option.some.inj ht]

theorem Bounded.paste (h : Bounded s) : Bounded (paste s) := by
  refine ⟨h.console.next (a := .paste) rfl, h.pointer, h.init, h.final, ?_, h.ordered, h.stored, ?_⟩
  · exact (congrArg List.length (mouseSelect_paste s.console)).trans_le h.selected
  · exact mem_range_append (fun k hk => lt_of_lt_of_le hk h.selected) h.loaded

theorem Bounded.selection (h : Bounded s) (hr : r.Ordered) : Bounded (selection r s) := by
  obtain ⟨hi, hle, hfin⟩ := hr.cells
  exact paintLoop_rule (fun _ f c hs => hs.paint _ f c) ((h.called hr).copyMouse hi hle hfin) _ _ _

theorem Bounded.undoSelection (h : Bounded s) (hr : r.Ordered) : Bounded (undoSelection r s) :=
  paintLoop_rule (fun _ f c hs => hs.paint _ f c) (h.called hr) _ _ _

/-! ### The handler -/

theorem Bounded.leftButton (h : Bounded s) : Bounded (leftButton s) := by
  have hundone := h.undoSelection h.range
  unfold Mouse.leftButton
  dsimp only
  split_ifs
  · -- the end of the selection follows the pointer
    have hfollow : Bounded { Mouse.undoSelection s.range s with xfin := s.x, yfin := s.y } :=
      ⟨hundone.console, hundone.pointer, hundone.init, h.pointer, hundone.selected,
        hundone.ordered, hundone.stored, hundone.loaded⟩
    exact hfollow.selection hfollow.range
  · have hbegin : Bounded { s with
        selecting := true, xinit := s.x, yinit := s.y, xfin := s.x, yfin := s.y } :=
      ⟨h.console, h.pointer, h.pointer, h.pointer, h.selected, h.ordered, h.stored, h.loaded⟩
    exact hbegin.selection hbegin.range
  · exact ⟨hundone.console, hundone.pointer, hundone.init, hundone.final, hundone.selected,
      hundone.ordered, hundone.stored, hundone.loaded⟩
  · exact h

theorem Bounded.rightButton (h : Bounded s) : Bounded (rightButton s) := by
  have hpasted := h.paste
  unfold Mouse.rightButton
  split_ifs
  · exact ⟨h.console, h.pointer, h.init, h.final, h.selected, h.ordered, h.stored, h.loaded⟩
  · exact ⟨hpasted.console, hpasted.pointer, hpasted.init, hpasted.final, hpasted.selected,
      hpasted.ordered, hpasted.stored, hpasted.loaded⟩
  · exact h

/-- The pointer moves only to a cell of the screen. -/
theorem Bounded.moveX (h : Bounded s) (rel_x : ℤ) : Bounded (moveX rel_x s) := by
  unfold Mouse.moveX
  split_ifs with hx
  · refine ⟨h.console, ?_, h.init, h.final, h.selected, h.ordered, h.stored, h.loaded⟩
    have hpointer := validPosition_iff.mp h.pointer
    rw [validPosition_iff]
    exact ⟨hpointer.1, hx.2, hx.1⟩
  · exact h

theorem Bounded.moveY (h : Bounded s) (rel_y : ℤ) : Bounded (moveY rel_y s) := by
  unfold Mouse.moveY
  split_ifs with hy
  · refine ⟨h.console, ?_, h.init, h.final, h.selected, h.ordered, h.stored, h.loaded⟩
    have hpointer := validPosition_iff.mp h.pointer
    rw [validPosition_iff]
    exact ⟨⟨hy.2, hy.1⟩, hpointer.2⟩
  · exact h

theorem Bounded.move (h : Bounded s) : Bounded (move s) := by
  have hmoved := (h.paint 0x0F s.y s.x).moveX
    (relative (s.mouseByte 0 &&& 0x10 = 0x10) (s.mouseByte 1))
  exact (hmoved.moveY _).paint 0x30 _ _

theorem Bounded.withCycle (h : Bounded s) (n : ℕ) : Bounded { s with mouseCycle := n } :=
  ⟨h.console, h.pointer, h.init, h.final, h.selected, h.ordered, h.stored, h.loaded⟩

theorem Bounded.setByte (h : Bounded s) (k : Fin 3) (mouse_in : Int8) :
    Bounded (setByte k mouse_in s) :=
  ⟨h.console, h.pointer, h.init, h.final, h.selected, h.ordered, h.stored, h.loaded⟩

theorem Bounded.packet (h : Bounded s) : Bounded (packet s) := by
  unfold Mouse.packet
  split_ifs
  · exact h.withCycle 4
  · exact h.leftButton.rightButton.move.withCycle 4

theorem packet_mouseCycle (s : State) : (packet s).mouseCycle = 4 := by
  unfold Mouse.packet
  split_ifs <;> rfl

/-- A byte takes the handler to the next place of the packet, or to the end. -/
theorem receive_spec (h : Bounded s) (hcycle : s.mouseCycle < 3) (mouse_in : Int8) :
    Bounded (receive mouse_in s).2 ∧
      ((receive mouse_in s).2.mouseCycle < 3 ∨
        (receive mouse_in s).1 = false ∧ (receive mouse_in s).2.mouseCycle = 4) := by
  unfold receive
  split
  · dsimp only
    split_ifs
    · exact ⟨h.setByte 0 mouse_in, Or.inl hcycle⟩
    · exact ⟨(h.setByte 0 mouse_in).withCycle 1, Or.inl Nat.one_lt_ofNat⟩
  · exact ⟨(h.setByte 1 mouse_in).withCycle 2, Or.inl (Nat.lt_add_one 2)⟩
  · exact ⟨(h.setByte 2 mouse_in).packet, Or.inr ⟨rfl, packet_mouseCycle _⟩⟩
  · exact ⟨h, Or.inl hcycle⟩

/-- Each call of the handler ends at a place of the packet. -/
theorem mouse_handlerC_spec (h : Bounded s) (hcycle : s.mouseCycle < 3)
    (polls : List (UInt8 × UInt8)) :
    Bounded (mouse_handlerC polls s) ∧ (mouse_handlerC polls s).mouseCycle < 3 := by
  induction polls generalizing s with
  | nil => exact ⟨h, hcycle⟩
  | cons poll rest ih =>
    obtain ⟨status, data⟩ := poll
    rw [mouse_handlerC]
    dsimp only
    split_ifs with hdata haux hreturned hend hreturned hend
    · exact ⟨h, hcycle⟩
    · obtain ⟨hbounded, hplace⟩ := receive_spec h hcycle data.toInt8
      rcases hplace with hplace | ⟨hno, -⟩
      · exact ⟨hbounded, hplace⟩
      · rw [hno] at hreturned
        exact absurd hreturned (by decide)
    · exact ⟨(receive_spec h hcycle data.toInt8).1.withCycle 0, Nat.zero_lt_succ 2⟩
    · obtain ⟨hbounded, hplace⟩ := receive_spec h hcycle data.toInt8
      refine ih hbounded ?_
      omega
    · exact absurd hreturned (by decide)
    · exact absurd hcycle (by dsimp only at hend; omega)
    · exact ih h hcycle

theorem bounded_start (hs : IsStart s) : Bounded s := by
  obtain ⟨hconsole, hselect, -, ⟨hx, hy⟩, ⟨hxinit, hyinit, hxfin, hyfin⟩, -, hranges, hstored,
    hloaded⟩ := hs
  refine ⟨System.Reachable.start hconsole, ?_, ?_, ?_, ?_, ?_, ?_, ?_⟩
  · rw [hx, hy]
    decide
  · rw [hxinit, hyinit]
    decide
  · rw [hxfin, hyfin]
    decide
  · rw [hselect]
    exact Nat.zero_le _
  · simp [hranges]
  · simp [hstored]
  · simp [hloaded]

/-- Between two calls of the handler. -/
def Rests (s : State) : Prop := Bounded s ∧ s.mouseCycle < 3

theorem Rests.step (h : Rests s) {a : Action} (ht : step s a = some t) : Rests t := by
  obtain ⟨hbounded, hcycle⟩ := h
  cases a with
  | handler polls =>
    rw [← Option.some.inj ht]
    exact mouse_handlerC_spec hbounded hcycle polls
  | console a =>
    simp only [Mouse.step] at ht
    split_ifs at ht with hmouse
    obtain ⟨console, hconsole, rfl⟩ := Option.map_eq_some_iff.mp ht
    refine ⟨⟨hbounded.console.next hconsole, hbounded.pointer, hbounded.init, hbounded.final, ?_,
      hbounded.ordered, hbounded.stored, hbounded.loaded⟩, hcycle⟩
    exact (congrArg List.length (mouseSelect_step hmouse hconsole)).trans_le hbounded.selected

theorem reachable_rests (h : mouseSystem.Reachable s) : Rests s := by
  refine h.invariant (I := Rests) (fun s (hs : IsStart s) => ⟨bounded_start hs, ?_⟩)
    fun _ _ _ hs ht => hs.step ht
  rw [hs.mouseCycle]
  exact Nat.zero_lt_succ 2

/-- The mouse uses the console as `consoleSystem` says. -/
theorem reachable_console (h : mouseSystem.Reachable s) : consoleSystem.Reachable s.console :=
  (reachable_rests h).1.console

/-- Whatever bytes the controller gives, the pointer stays on the screen, and only the places of
`mouseSelect` are used. -/
theorem mouse_inBounds (h : mouseSystem.Reachable s) : InBounds s := by
  obtain ⟨hbounded, hcycle⟩ := reachable_rests h
  obtain ⟨hy, hx⟩ := validPosition_iff.mp hbounded.pointer
  exact ⟨hx, hy, hcycle, hbounded.ordered, hbounded.stored, hbounded.loaded⟩

end

/-! ### A run -/

def started : State :=
  ⟨Video.started, fun _ _ => 0x0F, 0, fun _ => 0, false, 10, 10, 0, 0, 0, 0, false, [], [], []⟩

theorem isStart_started : IsStart started :=
  ⟨Video.isStart_started, rfl, rfl, ⟨rfl, rfl⟩, ⟨rfl, rfl, rfl, rfl⟩, ⟨rfl, rfl⟩, rfl, rfl, rfl⟩

/-- With the left button down the pointer goes up one line, then the left button is released and
the right one is pressed and released. -/
def drag : List Action :=
  [[9, 0, 10], [9, 0, 0], [10, 0, 0], [8, 0, 0]].map fun bytes =>
    .handler (bytes.map fun data => (0x21, data))

/-- The cells from the pointer to the place where it was one line below are selected and pasted. -/
theorem mouse_inBounds_drag : ∃ s, mouseSystem.Reachable s ∧ s.y = 9 ∧ s.loaded.length = 81 ∧
    InBounds s := by
  obtain ⟨s, hpath, hview⟩ := exists_path_of_execute IsStart
    (show (execute step started drag).map (fun s => (s.y, s.loaded.length)) = some (9, 81) by
      decide +kernel)
  obtain ⟨hy, hloaded⟩ := Prod.mk.inj hview
  have hs := hpath.reachable (System.Reachable.start isStart_started)
  exact ⟨s, hs, hy, hloaded, mouse_inBounds hs⟩

end GatOS.Mouse
