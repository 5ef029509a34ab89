import GatOS.Keyboard
import GatOS.Transition

/-!
# Typing

A run of the keyboard and of the processes that read from the terminal, against a typist who knows
the keys pressed so far and a queue of 2499 characters.
-/
namespace GatOS.Keyboard

open Terminal Transition

/-! ### What the keys pressed so far say -/

def IsShift (c : UInt8) : Bool :=
  c = leftShiftMake ∨ c = rightShiftMake ∨ c = leftShiftBreak ∨ c = rightShiftBreak

/-- The last event of a shift key is a press. It may be that of the other one. -/
def shiftHeld (history : List UInt8) : Bool :=
  ((history.filter IsShift).getLast?).any fun c => c = leftShiftMake ∨ c = rightShiftMake

/-- Caps lock has been pressed an odd number of times. -/
def capsOn (history : List UInt8) : Bool := history.count capsLock % 2 = 1

/-- What `f` gives for each element of a list and the elements before it. -/
def along {α β : Type*} (f : List α → α → List β) : List α → List α → List β
  | _, [] => []
  | past, a :: l => f past a ++ along f (past ++ [a]) l

theorem along_concat {α β : Type*} (f : List α → α → List β) (past l : List α) (a : α) :
    along f past (l ++ [a]) = along f past l ++ f (past ++ l) a := by
  induction l generalizing past with
  | nil => simp [along]
  | cons b l ih => simp [along, ih]

def typedBy (history : List UInt8) (c : UInt8) : List UInt8 :=
  ((keyOf c).types (shiftHeld history) (capsOn history)).toList

/-- The characters of a layout. -/
def typed (history : List UInt8) : List UInt8 := along typedBy [] history

def restartsOf (history : List UInt8) : List Effect :=
  along (fun past c => restarts (shiftHeld past) c) [] history

section

variable {history : List UInt8} {c : UInt8}

@[simp] theorem shiftHeld_concat :
    shiftHeld (history ++ [c]) = shiftAfter c (shiftHeld history) := by
  by_cases hmake : c = leftShiftMake ∨ c = rightShiftMake
  · have hshift : IsShift c = true := by
      simp only [IsShift, decide_eq_true_eq]
      tauto
    simp [shiftHeld, shiftAfter, hshift, hmake]
  · by_cases hbreak : c = leftShiftBreak ∨ c = rightShiftBreak
    · have hshift : IsShift c = true := by
        simp only [IsShift, decide_eq_true_eq]
        tauto
      simp [shiftHeld, shiftAfter, hshift, not_or.mp hmake, hbreak]
    · have hshift : IsShift c = false := by
        simp only [IsShift, decide_eq_false_iff_not]
        tauto
      simp [shiftHeld, shiftAfter, hshift, hmake, hbreak]

@[simp] theorem capsOn_concat : capsOn (history ++ [c]) = capsAfter c (capsOn history) := by
  by_cases hcaps : c = capsLock
  · subst hcaps
    simp only [capsOn, capsAfter, List.count_append, List.count_singleton_self, if_true]
    by_cases hodd : history.count capsLock % 2 = 1
    · simp [hodd]
      omega
    · simp [hodd]
      omega
  · simp [capsOn, capsAfter, hcaps]

end

/-! ### The typist -/

structure Typist where
  history : List UInt8
  queue : BoundedQueue UInt8 (bufferSize - 1)
  isEcho : Bool

/-- How an accepted character is shown. -/
def shown (isEcho : Bool) (c : UInt8) : List ConsoleCall :=
  if c = 8 then [.backInLine, .putChar 32, .backInLine]
  else if c = 10 then [.lineJump]
  else if isEcho then [.putChar c]
  else []

inductive Event
  | key (c : UInt8)
  | read (length : ℕ)
  | resetBuffer
  | echoON
  | echoOF

def resetBuffer (t : TerminalBuffer) : TerminalBuffer :=
  { t with bufferPosition := 0, bufferConsume := 0 }

def handle (memory : ℤ → UInt8) (s : State) : Event → List Effect × State
  | .key c => keyboardHandlerC memory c s
  | .read length =>
    let r := getTerminalBuffer length s.terminal
    ([.read r.1], { s with terminal := r.2 })
  | .resetBuffer => ([], { s with terminal := resetBuffer s.terminal })
  | .echoON => ([], { s with terminal := { s.terminal with isEcho := true } })
  | .echoOF => ([], { s with terminal := { s.terminal with isEcho := false } })

def Typist.handle (y : Typist) : Event → List Effect × Typist
  | .key c =>
    let l := typedBy y.history c
    let room := bufferSize - 1 - y.queue.items.length
    (restarts (shiftHeld y.history) c ++
        ((l.take room).flatMap (shown y.isEcho)).map .console,
      { y with history := y.history ++ [c], queue := (y.queue.enqueue l).2 })
  | .read length =>
    let r := y.queue.dequeue length
    ([.read r.1], { y with queue := r.2 })
  | .resetBuffer => ([], { y with queue := BoundedQueue.empty })
  | .echoON => ([], { y with isEcho := true })
  | .echoOF => ([], { y with isEcho := false })

/-- The typist knows the variables of the handler and the characters that are stored. -/
structure Simulates (s : State) (y : Typist) : Prop where
  wellFormed : s.terminal.WellFormed
  stored : s.terminal.stored = y.queue.items
  isEcho : s.terminal.isEcho = y.isEcho
  shift : s.shift = shiftHeld y.history
  caps : s.caps = capsOn y.history

/-- The code is one of the table, and a character does not arrive at the wrap. -/
def Proper (s : State) (y : Typist) : Event → Prop
  | .key c => Known c ∧ (typedBy y.history c ≠ [] → ¬ s.terminal.AtWrap)
  | _ => True

instance (s : State) (y : Typist) : (e : Event) → Decidable (Proper s y e)
  | .key _ => inferInstanceAs (Decidable (_ ∧ _))
  | .read _ => inferInstanceAs (Decidable True)
  | .resetBuffer => inferInstanceAs (Decidable True)
  | .echoON => inferInstanceAs (Decidable True)
  | .echoOF => inferInstanceAs (Decidable True)

section

variable {memory : ℤ → UInt8} {s : State} {y : Typist} {c : UInt8}

theorem put_isEcho (c : UInt8) (t : TerminalBuffer) :
    (putTerminalBuffer c t).2.isEcho = t.isEcho := by
  by_cases hfull : isBufferFull t = true
  · simp [putTerminalBuffer, hfull]
  · simp [putTerminalBuffer, hfull]

theorem get_isEcho (length : ℕ) (t : TerminalBuffer) :
    (getTerminalBuffer length t).2.isEcho = t.isEcho := by
  induction length generalizing t with
  | zero => rfl
  | succ length ih =>
    by_cases hempty : isBufferEmpty t = true
    · simp [getTerminalBuffer, hempty]
    · simp [getTerminalBuffer, hempty, ih]

/-- A character is shown if there is room for it. -/
theorem put_effects {t : TerminalBuffer} (h : t.WellFormed) (hok : ¬ t.AtWrap) (c : UInt8) :
    (putTerminalBuffer c t).1 =
      ([c].take (bufferSize - 1 - t.stored.length)).flatMap (shown t.isEcho) := by
  obtain ⟨-, hfull, -⟩ := put_spec h hok c
  have hlt := h.count_spec.1
  rw [← stored_length] at hlt
  by_cases hf : isBufferFull t = true
  · rw [hfull.mp hf]
    simp [putTerminalBuffer, hf]
  · have hne : t.stored.length ≠ bufferSize - 1 := fun he => hf (hfull.mpr he)
    have hroom : [c].length ≤ bufferSize - 1 - t.stored.length := by
      rw [List.length_singleton]
      omega
    rw [List.take_of_length_le hroom]
    simp [putTerminalBuffer, hf, shown, echo]

theorem Simulates.key (h : Simulates s y) (hok : Proper s y (.key c)) :
    (keyboardHandlerC memory c s).1 = (y.handle (.key c)).1 ∧
      Simulates (keyboardHandlerC memory c s).2 (y.handle (.key c)).2 := by
  obtain ⟨hknown, hwrap⟩ := hok
  rw [keyboardHandlerC_eq_press hknown]
  have htypes : (keyOf c).types s.shift s.caps = (keyOf c).types (shiftHeld y.history)
      (capsOn y.history) := by rw [h.shift, h.caps]
  cases hc : (keyOf c).types s.shift s.caps with
  | none =>
    have htyped : typedBy y.history c = [] := by
      simp [typedBy, ← htypes, hc]
    rw [press_of_none hc]
    constructor
    · simp [Typist.handle, htyped, h.shift]
    · constructor
      · exact h.wellFormed
      · simpa [Typist.handle, htyped, BoundedQueue.enqueue] using h.stored
      · exact h.isEcho
      · simp [Typist.handle, h.shift]
      · simp [Typist.handle, h.caps]
  | some x =>
    have htyped : typedBy y.history c = [x] := by
      simp [typedBy, ← htypes, hc]
    have hnot := hwrap (by simp [htyped])
    obtain ⟨hwell, -, hstored⟩ := put_spec h.wellFormed hnot x
    rw [press_of_some hc]
    constructor
    · simp [Typist.handle, htyped, h.shift, put_effects h.wellFormed hnot, h.stored, h.isEcho]
    · constructor
      · exact hwell
      · simp only [Typist.handle, htyped, BoundedQueue.enqueue]
        rw [hstored, h.stored, List.take_eq_take_min]
        simp [Nat.min_comm]
      · simpa [Typist.handle, put_isEcho] using h.isEcho
      · simp [Typist.handle, h.shift]
      · simp [Typist.handle, h.caps]

theorem resetBuffer_stored (t : TerminalBuffer) : (resetBuffer t).stored = [] := by
  apply List.eq_nil_of_length_eq_zero
  simp [stored_length, TerminalBuffer.count, resetBuffer]

theorem Simulates.handle (h : Simulates s y) (memory : ℤ → UInt8) {e : Event}
    (hok : Proper s y e) : (handle memory s e).1 = (y.handle e).1 ∧
      Simulates (handle memory s e).2 (y.handle e).2 := by
  cases e with
  | key c => exact h.key hok
  | read length =>
    obtain ⟨hwell, htake, hdrop⟩ := get_spec h.wellFormed length
    constructor
    · simp [Keyboard.handle, Typist.handle, htake, h.stored, BoundedQueue.dequeue]
    · constructor
      · exact hwell
      · simp [Keyboard.handle, Typist.handle, hdrop, h.stored, BoundedQueue.dequeue]
      · simpa [Keyboard.handle, Typist.handle, get_isEcho] using h.isEcho
      · exact h.shift
      · exact h.caps
  | resetBuffer =>
    constructor
    · rfl
    · constructor
      · exact ⟨Nat.succ_pos _, Nat.succ_pos _⟩
      · exact resetBuffer_stored _
      · exact h.isEcho
      · exact h.shift
      · exact h.caps
  | echoON => exact ⟨rfl, ⟨h.wellFormed.1, h.wellFormed.2⟩, h.stored, rfl, h.shift, h.caps⟩
  | echoOF => exact ⟨rfl, ⟨h.wellFormed.1, h.wellFormed.2⟩, h.stored, rfl, h.shift, h.caps⟩

/-! ### What the typist sees -/

def readOf (effects : List Effect) : List UInt8 :=
  effects.flatMap fun
    | .read chars => chars
    | _ => []

@[simp] theorem readOf_append (l l' : List Effect) : readOf (l ++ l') = readOf l ++ readOf l' := by
  simp [readOf]

@[simp] theorem readOf_restarts (shift : Bool) (c : UInt8) : readOf (restarts shift c) = [] := by
  by_cases h : shift = true ∧ c = f1
  · simp [restarts, h, readOf]
  · simp [restarts, h, readOf]

@[simp] theorem readOf_console (l : List ConsoleCall) : readOf (l.map .console) = [] := by
  simp [readOf]

theorem count_restarts_console (l : List ConsoleCall) :
    (l.map Effect.console).count .restartSHELL = 0 := by
  simp [List.count_eq_zero]

theorem count_restarts (shift : Bool) (c : UInt8) :
    (restarts shift c).count .restartSHELL = (restarts shift c).length := by
  by_cases h : shift = true ∧ c = f1
  · simp [restarts, h]
  · simp [restarts, h]

/-- The effects so far, as a typist accounts for them: what was read and what is queued was typed,
in that order, and the shell was restarted for each F1 with a shift key held. -/
structure Typist.Accounts (y : Typist) (effects : List Effect) : Prop where
  typed : (readOf effects ++ y.queue.items).Sublist (typed y.history)
  restarts : effects.count .restartSHELL = (restartsOf y.history).length

theorem Typist.Accounts.handle {effects : List Effect} (h : y.Accounts effects) (e : Event) :
    (y.handle e).2.Accounts (effects ++ (y.handle e).1) := by
  cases e with
  | key c =>
    constructor
    · simp only [Typist.handle, readOf_append, readOf_restarts, readOf_console, List.append_nil,
        BoundedQueue.enqueue]
      rw [Keyboard.typed, along_concat, ← List.append_assoc]
      exact h.typed.append (List.take_sublist _ _)
    · simp [Typist.handle, restartsOf, along_concat, count_restarts_console, count_restarts,
        h.restarts]
  | read length =>
    constructor
    · simpa [Typist.handle, readOf, BoundedQueue.dequeue] using h.typed
    · simpa [Typist.handle] using h.restarts
  | resetBuffer =>
    constructor
    · have hread := (List.sublist_append_left (readOf effects) y.queue.items).trans h.typed
      simpa [Typist.handle, BoundedQueue.empty] using hread
    · simpa [Typist.handle] using h.restarts
  | echoON =>
    constructor
    · simpa [Typist.handle] using h.typed
    · simpa [Typist.handle] using h.restarts
  | echoOF =>
    constructor
    · simpa [Typist.handle] using h.typed
    · simpa [Typist.handle] using h.restarts

end

/-! ### Runs -/

/-- The handler and the typist get the same events; `expected` are the effects that the typist
expects. -/
structure Run where
  state : State
  typist : Typist
  effects : List Effect
  expected : List Effect

def step (memory : ℤ → UInt8) (r : Run) (e : Event) : Option Run :=
  some {
    state := (handle memory r.state e).2
    typist := (r.typist.handle e).2
    effects := r.effects ++ (handle memory r.state e).1
    expected := r.expected ++ (r.typist.handle e).1 }

def IsStart (r : Run) : Prop :=
  ∃ t, r = ⟨⟨false, false, terminalInitializeC t⟩, ⟨[], BoundedQueue.empty, true⟩, [], []⟩

def keyboardSystem (memory : ℤ → UInt8) : System Run Event := ofStep IsStart (step memory)

def ProperStep (r : Run) (e : Event) : Prop := Proper r.state r.typist e

instance (r : Run) (e : Event) : Decidable (ProperStep r e) :=
  inferInstanceAs (Decidable (Proper _ _ _))

structure RunInvariant (r : Run) : Prop where
  effects : r.effects = r.expected
  simulates : Simulates r.state r.typist
  accounts : r.typist.Accounts r.effects

section

variable {memory : ℤ → UInt8} {r s : Run}

theorem runInvariant_start (h : IsStart r) : RunInvariant r := by
  obtain ⟨t, rfl⟩ := h
  constructor
  · rfl
  · have hstored : (terminalInitializeC t).stored = [] := resetBuffer_stored _
    exact ⟨⟨Nat.succ_pos _, Nat.succ_pos _⟩, hstored, rfl, rfl, rfl⟩
  · constructor
    · simp [readOf, BoundedQueue.empty]
    · rfl

theorem step_runInvariant (h : RunInvariant r) {e : Event} (hok : ProperStep r e)
    (hstep : step memory r e = some s) : RunInvariant s := by
  obtain rfl := Option.some.inj hstep
  obtain ⟨heffects, hsimulates⟩ := h.simulates.handle memory hok
  constructor
  · simp [h.effects, heffects]
  · exact hsimulates
  · simp only [heffects]
    exact h.accounts.handle e

theorem reachable_runInvariant (h : ((keyboardSystem memory).restrict ProperStep).Reachable r) :
    RunInvariant r := by
  induction h with
  | start hs => exact runInvariant_start hs
  | next _ hstep ih => exact step_runInvariant ih hstep.1 hstep.2

end

/-- A handler that has seen no key. -/
def started : Run :=
  ⟨⟨false, false, terminalInitializeC ⟨fun _ => 0, 0, 0, false⟩⟩, ⟨[], BoundedQueue.empty, true⟩,
    [], []⟩

end GatOS.Keyboard
