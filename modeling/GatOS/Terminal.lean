import GatOS.BoundedQueue
import GatOS.Transition

/-!
# The keyboard buffer of the terminal

The ring of 2500 characters between the keyboard and the processes, against a queue of 2499. They
agree as long as no character arrives when the writer is on the last cell and the reader on the
first.
-/
namespace GatOS.Terminal
open Transition

def bufferSize : ℕ := 2500

/-- `bufferConsume` and `bufferPosition` are offsets from `bufferStart`. -/
structure TerminalBuffer where
  buffer : ℕ → UInt8
  bufferConsume : ℕ
  bufferPosition : ℕ
  isEcho : Bool

/-- The calls of the console that show a character. -/
inductive ConsoleCall
  | backInLine
  | lineJump
  | putChar (c : UInt8)
  deriving DecidableEq

def terminalInitializeC (t : TerminalBuffer) : TerminalBuffer :=
  { t with bufferConsume := 0, bufferPosition := 0, isEcho := true }

def isBufferFull (t : TerminalBuffer) : Bool :=
  t.bufferConsume = t.bufferPosition + 1 ∨ t.bufferConsume = bufferSize ∧ t.bufferPosition = 0

def isBufferEmpty (t : TerminalBuffer) : Bool := t.bufferConsume = t.bufferPosition

/-- Of an offset in the buffer. -/
def next (offset : ℕ) : ℕ := if offset + 1 = bufferSize then 0 else offset + 1

def echo (c : UInt8) (t : TerminalBuffer) : List ConsoleCall :=
  -- '\b' and '\n'
  if c = 8 then [.backInLine, .putChar 32, .backInLine]
  else if c = 10 then [.lineJump]
  else if t.isEcho then [.putChar c]
  else []

def putTerminalBuffer (c : UInt8) (t : TerminalBuffer) : List ConsoleCall × TerminalBuffer :=
  if isBufferFull t then ([], t)
  else (echo c t, { t with
    buffer := fun i => if i = t.bufferPosition then c else t.buffer i
    bufferPosition := next t.bufferPosition })

/-- The characters that are stored in the buffer of the caller; the call returns their number. -/
def getTerminalBuffer : ℕ → TerminalBuffer → List UInt8 × TerminalBuffer
  | 0, t => ([], t)
  | length + 1, t =>
    if isBufferEmpty t then ([], t)
    else
      let r := getTerminalBuffer length { t with bufferConsume := next t.bufferConsume }
      (t.buffer t.bufferConsume :: r.1, r.2)

/-! ### The contents of the ring -/

namespace TerminalBuffer

structure WellFormed (t : TerminalBuffer) : Prop where
  bufferConsume : t.bufferConsume < bufferSize
  bufferPosition : t.bufferPosition < bufferSize

def count (t : TerminalBuffer) : ℕ := (t.bufferPosition + bufferSize - t.bufferConsume) % bufferSize

/-- The characters not yet read, the oldest first. -/
def stored (t : TerminalBuffer) : List UInt8 :=
  ringContents bufferSize t.buffer t.bufferConsume t.count

/-- The writer is on the last cell and the reader on the first. -/
def AtWrap (t : TerminalBuffer) : Prop := t.bufferPosition + 1 = bufferSize ∧ t.bufferConsume = 0

instance (t : TerminalBuffer) : Decidable t.AtWrap := inferInstanceAs (Decidable (_ ∧ _))

end TerminalBuffer

section

variable {t : TerminalBuffer}

theorem stored_length : t.stored.length = t.count := ringContents_length

theorem TerminalBuffer.WellFormed.count_spec (h : t.WellFormed) :
    t.count < bufferSize ∧ t.bufferPosition = (t.bufferConsume + t.count) % bufferSize := by
  obtain ⟨hconsume, hposition⟩ := h
  unfold TerminalBuffer.count bufferSize at *
  omega

theorem next_eq {offset : ℕ} (h : offset < bufferSize) :
    next offset = (offset + 1) % bufferSize := by
  unfold next
  unfold bufferSize at *
  split_ifs <;> omega

/-- The number of stored characters is the one that puts the writer in its place. -/
theorem count_eq (hconsume : t.bufferConsume < bufferSize) {c : ℕ} (hc : c < bufferSize)
    (hposition : t.bufferPosition = (t.bufferConsume + c) % bufferSize) :
    t.WellFormed ∧ t.count = c := by
  constructor
  · refine ⟨hconsume, ?_⟩
    rw [hposition]
    exact Nat.mod_lt _ (by decide)
  · unfold TerminalBuffer.count bufferSize at *
    omega

theorem isBufferEmpty_iff (h : t.WellFormed) : isBufferEmpty t = true ↔ t.count = 0 := by
  obtain ⟨hconsume, hposition⟩ := h
  simp only [isBufferEmpty, decide_eq_true_eq]
  unfold TerminalBuffer.count bufferSize at *
  omega

/-- The second comparison of `isBufferFull` never holds. -/
theorem isBufferFull_iff (h : t.WellFormed) :
    isBufferFull t = true ↔ t.count + 1 = bufferSize ∧ ¬ t.AtWrap := by
  obtain ⟨hconsume, hposition⟩ := h
  simp only [isBufferFull, decide_eq_true_eq]
  unfold TerminalBuffer.AtWrap TerminalBuffer.count bufferSize at *
  omega

theorem count_atWrap (hwrap : t.AtWrap) : t.count + 1 = bufferSize := by
  obtain ⟨hposition, hconsume⟩ := hwrap
  unfold TerminalBuffer.count bufferSize at *
  omega

/-- A character joins the stored ones, or is dropped because there are 2499 of them. -/
theorem put_spec (h : t.WellFormed) (hok : ¬ t.AtWrap) (c : UInt8) :
    (putTerminalBuffer c t).2.WellFormed ∧
      (isBufferFull t = true ↔ t.stored.length = bufferSize - 1) ∧
      (putTerminalBuffer c t).2.stored =
        t.stored ++ [c].take (bufferSize - 1 - t.stored.length) := by
  obtain ⟨hlt, hposition⟩ := h.count_spec
  rw [stored_length]
  by_cases hfull : isBufferFull t = true
  · have hcount := ((isBufferFull_iff h).mp hfull).1
    have hroom : bufferSize - 1 - t.count = 0 := by omega
    rw [putTerminalBuffer, if_pos hfull, hroom]
    exact ⟨h, iff_of_true hfull (by omega), by simp⟩
  · have hroom : t.count + 1 < bufferSize := by
      refine lt_of_le_of_ne hlt fun he => hfull ?_
      exact (isBufferFull_iff h).mpr ⟨he, hok⟩
    obtain ⟨hwell, hcount⟩ := @count_eq (putTerminalBuffer c t).2 (by
        rw [putTerminalBuffer, if_neg hfull]
        exact h.bufferConsume) _ hroom (by
        rw [putTerminalBuffer, if_neg hfull]
        show next t.bufferPosition = (t.bufferConsume + (t.count + 1)) % bufferSize
        rw [next_eq h.bufferPosition, hposition, Nat.mod_add_mod, Nat.add_assoc])
    refine ⟨hwell, iff_of_false hfull (by omega), ?_⟩
    rw [TerminalBuffer.stored, hcount, putTerminalBuffer, if_neg hfull]
    have hstore := @ringContents_store _ bufferSize t.bufferConsume _ t.buffer hlt c
    rw [← hposition] at hstore
    rw [List.take_of_length_le (show [c].length ≤ bufferSize - 1 - t.count by
      rw [List.length_singleton]
      omega)]
    exact hstore

/-- At the wrap a character is accepted, and all that are stored are lost. -/
theorem put_atWrap (hwrap : t.AtWrap) (c : UInt8) :
    isBufferFull t = false ∧ (putTerminalBuffer c t).2.stored = [] := by
  obtain ⟨hposition, hconsume⟩ := hwrap
  have hfull : isBufferFull t = false := by
    simp [isBufferFull, hconsume, bufferSize]
  refine ⟨hfull, List.eq_nil_of_length_eq_zero ?_⟩
  rw [stored_length, putTerminalBuffer, hfull]
  simp [TerminalBuffer.count, next, hposition, hconsume]

/-- `getTerminalBuffer` takes the oldest characters. -/
theorem get_spec (h : t.WellFormed) (length : ℕ) :
    (getTerminalBuffer length t).2.WellFormed ∧
      (getTerminalBuffer length t).1 = t.stored.take length ∧
      (getTerminalBuffer length t).2.stored = t.stored.drop length := by
  induction length generalizing t with
  | zero => exact ⟨h, rfl, rfl⟩
  | succ length ih =>
    obtain ⟨hlt, hposition⟩ := h.count_spec
    rw [getTerminalBuffer]
    by_cases hempty : isBufferEmpty t = true
    · have hnil : t.stored = [] := by
        refine List.eq_nil_of_length_eq_zero ?_
        rw [stored_length]
        exact (isBufferEmpty_iff h).mp hempty
      rw [if_pos hempty]
      exact ⟨h, by rw [hnil, List.take_nil], by rw [hnil, List.drop_nil]⟩
    · obtain ⟨k, hk⟩ := Nat.exists_eq_succ_of_ne_zero fun hz =>
        hempty ((isBufferEmpty_iff h).mpr hz)
      rw [Nat.succ_eq_add_one] at hk
      obtain ⟨hwell, hcount⟩ := @count_eq { t with bufferConsume := next t.bufferConsume } (by
          show next t.bufferConsume < bufferSize
          rw [next_eq h.bufferConsume]
          exact Nat.mod_lt _ (by decide)) k (by omega) (by
          show t.bufferPosition = (next t.bufferConsume + k) % bufferSize
          rw [next_eq h.bufferConsume, Nat.mod_add_mod, hposition, hk]
          congr 1
          omega)
      have hstored : t.stored = t.buffer t.bufferConsume ::
          ({ t with bufferConsume := next t.bufferConsume } : TerminalBuffer).stored := by
        rw [TerminalBuffer.stored, TerminalBuffer.stored, hcount, hk, ringContents_cons,
          Nat.mod_eq_of_lt h.bufferConsume, next_eq h.bufferConsume, ringContents_mod]
      obtain ⟨hrest, htake, hdrop⟩ := ih hwell
      rw [if_neg hempty, hstored, List.take_succ_cons]
      exact ⟨hrest, congrArg _ htake, hdrop⟩

end

/-! ### Runs -/

inductive Call
  | put (c : UInt8)
  | get (length : ℕ)

/-- A terminal and the abstract queue that gets the same calls, with the characters that the
calls on the terminal have accepted and delivered. -/
structure Run where
  terminal : TerminalBuffer
  queue : BoundedQueue UInt8 (bufferSize - 1)
  accepted : List UInt8
  delivered : List UInt8

def call (r : Run) : Call → Option Run
  | .put c => some { r with
      terminal := (putTerminalBuffer c r.terminal).2
      queue := (r.queue.enqueue [c]).2
      accepted := if isBufferFull r.terminal then r.accepted else r.accepted ++ [c] }
  | .get length =>
    let w := getTerminalBuffer length r.terminal
    some { r with
      terminal := w.2
      queue := (r.queue.dequeue length).2
      delivered := r.delivered ++ w.1 }

def IsInitialized (r : Run) : Prop :=
  ∃ t, r = ⟨terminalInitializeC t, BoundedQueue.empty, [], []⟩

def terminalSystem : System Run Call := ofStep IsInitialized call

/-- No character arrives at the wrap. -/
def Proper (r : Run) : Call → Prop
  | .put _ => ¬ r.terminal.AtWrap
  | .get _ => True

instance (r : Run) : (c : Call) → Decidable (Proper r c)
  | .put _ => inferInstanceAs (Decidable (¬ _))
  | .get _ => inferInstanceAs (Decidable True)

/-- The terminal holds what the queue holds: the characters that were accepted and not yet
delivered. -/
structure Faithful (r : Run) : Prop where
  stored : r.terminal.stored = r.queue.items
  fifo : r.delivered ++ r.terminal.stored = r.accepted

structure RunInvariant (r : Run) : Prop where
  wellFormed : r.terminal.WellFormed
  faithful : Faithful r

section

variable {r s : Run}

theorem runInvariant_initialized (h : IsInitialized r) : RunInvariant r := by
  obtain ⟨t, rfl⟩ := h
  have hstored : (terminalInitializeC t).stored = [] := by
    apply List.eq_nil_of_length_eq_zero
    simp [stored_length, TerminalBuffer.count, terminalInitializeC]
  exact ⟨⟨Nat.succ_pos _, Nat.succ_pos _⟩, hstored, by simp [hstored]⟩

theorem call_runInvariant (h : RunInvariant r) {c : Call} (hok : Proper r c)
    (hcall : call r c = some s) : RunInvariant s := by
  obtain ⟨hwell, hstored, hfifo⟩ := h
  cases c with
  | put c =>
    obtain rfl := Option.some.inj hcall
    obtain ⟨hwell', hfull, hput⟩ := put_spec hwell hok c
    refine ⟨hwell', ?_, ?_⟩
    · dsimp only
      rw [hput, hstored, BoundedQueue.enqueue, List.take_eq_take_min]
      simp [Nat.min_comm]
    · dsimp only
      rw [hput, ← List.append_assoc, hfifo]
      by_cases hf : isBufferFull r.terminal = true
      · rw [if_pos hf, hfull.mp hf, Nat.sub_self, List.take_zero, List.append_nil]
      · have hroom : 1 ≤ bufferSize - 1 - r.terminal.stored.length := by
          have hlt := hwell.count_spec.1
          rw [← stored_length] at hlt
          have hne : r.terminal.stored.length ≠ bufferSize - 1 := fun he => hf (hfull.mpr he)
          omega
        rw [if_neg hf, List.take_of_length_le (show [c].length ≤ _ from hroom)]
  | get length =>
    obtain rfl := Option.some.inj hcall
    obtain ⟨hwell', htake, hdrop⟩ := get_spec hwell length
    refine ⟨hwell', ?_, ?_⟩
    · dsimp only
      rw [hdrop, hstored]
      rfl
    · dsimp only
      rw [htake, hdrop, List.append_assoc, List.take_append_drop, hfifo]

theorem reachable_runInvariant (h : (terminalSystem.restrict Proper).Reachable r) :
    RunInvariant r := by
  induction h with
  | start hs => exact runInvariant_initialized hs
  | next _ hstep ih => exact call_runInvariant ih hstep.1 hstep.2

/-- At the wrap the queue drops the character and keeps the others. -/
theorem not_faithful_of_atWrap (h : RunInvariant r) (hwrap : r.terminal.AtWrap) {c : UInt8}
    (hcall : call r (.put c) = some s) : ¬ Faithful s := by
  obtain rfl := Option.some.inj hcall
  intro hfaithful
  have hlength : r.queue.items.length = bufferSize - 1 := by
    rw [← h.faithful.stored, stored_length, ← count_atWrap hwrap, Nat.add_sub_cancel]
  have hnil := hfaithful.stored
  dsimp only at hnil
  rw [(put_atWrap hwrap c).2] at hnil
  have hitems := List.append_eq_nil_iff.mp hnil.symm
  rw [hitems.1] at hlength
  exact absurd hlength (by decide)

/-- As long as no character arrives at the wrap, the buffer is a queue of 2499 characters; a call
at the wrap breaks it. -/
theorem terminal_fifo (h : (terminalSystem.restrict Proper).Reachable r) :
    Faithful r ∧ r.delivered <+: r.accepted ∧
      (isBufferFull r.terminal = true → r.terminal.stored.length = bufferSize - 1) ∧
      ∀ c s, call r c = some s → (Faithful s ↔ Proper r c) := by
  have hinv := reachable_runInvariant h
  refine ⟨hinv.faithful, ⟨_, hinv.faithful.fifo⟩, fun hfull => ?_, fun c s hcall =>
    ⟨fun hs => ?_, fun hok => ?_⟩⟩
  · rw [stored_length, ← ((isBufferFull_iff hinv.wellFormed).mp hfull).1, Nat.add_sub_cancel]
  · cases c with
    | put c => exact fun hwrap => not_faithful_of_atWrap hinv hwrap hcall hs
    | get length => trivial
  · exact (call_runInvariant hinv hok hcall).faithful

end

/-- A terminal that just came up. -/
def started : Run := ⟨terminalInitializeC ⟨fun _ => 0, 0, 0, false⟩, BoundedQueue.empty, [], []⟩

theorem isInitialized_started : IsInitialized started := ⟨_, rfl⟩

theorem terminal_fifo_two_reads : ∃ r, (terminalSystem.restrict Proper).Reachable r ∧
    r.delivered = [104, 101, 108, 108, 111] ∧ r.delivered <+: r.accepted := by
  obtain ⟨r, hr, hf⟩ := reachable_restrict_of_execute IsInitialized isInitialized_started
    (show (execute (guarded Proper call) started
      [.put 104, .get 7, .put 101, .put 108, .put 108, .put 111, .put 33, .get 2, .get 2]).map
        (fun r => r.delivered) = some [104, 101, 108, 108, 111] by decide +kernel)
  exact ⟨r, hr, hf, (terminal_fifo hr).2.1⟩

/-- Characters that nobody reads, up to the wrap. -/
theorem reachable_unread {n : ℕ} (hn : n < bufferSize) : ∃ r, terminalSystem.Reachable r ∧
    r.terminal.bufferConsume = 0 ∧ r.terminal.bufferPosition = n ∧
      r.accepted = List.replicate n 7 ∧ r.delivered = [] := by
  induction n with
  | zero =>
    exact ⟨started, System.Reachable.start isInitialized_started, rfl, rfl, rfl, rfl⟩
  | succ n ih =>
    obtain ⟨r, hr, hconsume, hposition, haccepted, hdelivered⟩ := ih (Nat.lt_of_succ_lt hn)
    have hfull : isBufferFull r.terminal = false := by
      simp [isBufferFull, hconsume, bufferSize]
    refine ⟨_, hr.next (show call r (.put 7) = some _ from rfl), ?_, ?_, ?_, hdelivered⟩
    · simp [putTerminalBuffer, hfull, hconsume]
    · simp [putTerminalBuffer, hfull, hposition, next, hn.ne]
    · simp [hfull, haccepted, List.replicate_succ']

/-- 2500 characters are accepted, none is delivered and the buffer is empty. -/
theorem terminal_not_fifo : ∃ r, terminalSystem.Reachable r ∧
    r.accepted = List.replicate 2500 7 ∧ r.delivered = [] ∧
      ∀ length, (getTerminalBuffer length r.terminal).1 = [] := by
  obtain ⟨r, hr, hconsume, hposition, haccepted, hdelivered⟩ :=
    reachable_unread (show 2499 < bufferSize by decide)
  have hwrap : r.terminal.AtWrap := ⟨by rw [hposition]; rfl, hconsume⟩
  have hput : call r (.put 7) = some _ := rfl
  obtain ⟨hfull, -⟩ := put_atWrap hwrap 7
  refine ⟨_, hr.next hput, ?_, hdelivered, fun length => ?_⟩
  · simp only [hfull, haccepted, Bool.false_eq_true, if_false]
    exact List.replicate_succ'.symm
  · have hempty : isBufferEmpty (putTerminalBuffer 7 r.terminal).2 = true := by
      simp [isBufferEmpty, putTerminalBuffer, hfull, hconsume, hposition, next, bufferSize]
    cases length with
    | zero => rfl
    | succ length =>
      rw [getTerminalBuffer, if_pos hempty]

end GatOS.Terminal
