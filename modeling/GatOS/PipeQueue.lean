import GatOS.IPC

/-!
# A pipe is a queue of ten bytes

The pipe and an abstract queue are given the same calls. They agree as long as no empty message
is written to an empty pipe and no call asks a full pipe for no bytes.
-/
namespace GatOS.IPC
open Transition

/-- The bytes of a message in front of the final zero. -/
def text (message : List UInt8) : List UInt8 := message.takeWhile (· ≠ 0)

/-- How many bytes a call of `read` asks for at most. -/
def requested (bytes : ℤ) : ℕ := if bytes = -1 then pipeLength else bytes.toNat

namespace Pipe

def isEmpty (p : Pipe) : Bool := p.position = p.endPosition ∧ p.readFlag = false

def isFull (p : Pipe) : Bool := p.position = p.endPosition ∧ p.readFlag = true

def count (p : Pipe) : ℕ :=
  if p.isEmpty then 0
  else if p.isFull then pipeLength
  else (p.endPosition + pipeLength - p.position) % pipeLength

/-- The bytes that are stored, the oldest first. -/
def stored (p : Pipe) : List UInt8 := ringContents pipeLength p.pipe p.position p.count

structure WellFormed (p : Pipe) : Prop where
  position : p.position < pipeLength
  endPosition : p.endPosition < pipeLength
  flag : p.readFlag = true → p.position = p.endPosition

end Pipe

section

variable {p : Pipe}

theorem Pipe.WellFormed.count_spec (h : p.WellFormed) :
    p.count ≤ pipeLength ∧ p.endPosition = (p.position + p.count) % pipeLength ∧
      (p.count = 0 ↔ p.isEmpty = true) ∧ (p.count = pipeLength ↔ p.isFull = true) := by
  obtain ⟨hpos, hend, hflag⟩ := h
  unfold Pipe.count Pipe.isEmpty Pipe.isFull pipeLength at *
  cases hf : p.readFlag with
  | false =>
    by_cases heq : p.position = p.endPosition
    · simp [heq]
      omega
    · simp [heq]
      omega
  | true =>
    have := hflag hf
    simp [this]
    omega

theorem next_eq {aux : ℕ} (h : aux < pipeLength) : next aux = (aux + 1) % pipeLength := by
  unfold next
  unfold pipeLength at *
  split_ifs <;> omega

/-- The place behind the stored bytes meets `position` only when there are none or ten. -/
theorem room_iff (h : p.WellFormed) (hroom : p.count < pipeLength) {b : ℕ}
    (hb : p.count + b ≤ pipeLength) :
    ((p.endPosition + b) % pipeLength ≠ p.position ∨ b = 0) ↔ p.count + b < pipeLength := by
  obtain ⟨-, hend, -, -⟩ := h.count_spec
  have hpos := h.position
  unfold pipeLength at *
  omega

theorem text_cons {c : UInt8} {rest : List UInt8} (hc : c ≠ 0) :
    text (c :: rest) = c :: text rest := by
  simp [text, hc]

/-- The loop of `write` appends bytes until the message ends or the pipe is full. -/
theorem writeLoop_spec (h : p.WellFormed) (hroom : p.count < pipeLength) (message : List UInt8)
    {b : ℕ} (hb : p.count + b ≤ pipeLength) (cells : ℕ → UInt8) :
    ∃ k cells', k = min (text message).length (pipeLength - (p.count + b)) ∧
      writeLoop p message ((p.position + (p.count + b)) % pipeLength) b cells = (b + k, cells') ∧
      ringContents pipeLength cells' p.position (p.count + b + k) =
        ringContents pipeLength cells p.position (p.count + b) ++ (text message).take k := by
  induction message generalizing b cells with
  | nil => exact ⟨0, cells, by simp [text], rfl, by simp⟩
  | cons c rest ih =>
    by_cases hc : c ≠ 0 ∧ p.count + b < pipeLength
    · obtain ⟨hne, hlt⟩ := hc
      have hcond : c ≠ 0 ∧ ((p.endPosition + b) % pipeLength ≠ p.position ∨ b = 0) :=
        ⟨hne, (room_iff h hroom hb).mpr hlt⟩
      have hnext : next ((p.position + (p.count + b)) % pipeLength) =
          (p.position + (p.count + (b + 1))) % pipeLength := by
        rw [next_eq (Nat.mod_lt _ (by decide)), Nat.mod_add_mod]
        rfl
      obtain ⟨k, cells', hk, hloop, hcontents⟩ := ih (b := b + 1) (by omega)
        (fun i => if i = (p.position + (p.count + b)) % pipeLength then c else cells i)
      refine ⟨k + 1, cells', ?_, ?_, ?_⟩
      · rw [text_cons hne, List.length_cons]
        omega
      · rw [writeLoop, if_pos hcond, hnext, hloop]
        congr 1
        omega
      · rw [text_cons hne, List.take_succ_cons]
        have hstore := @ringContents_store _ _ p.position _ cells hlt c
        rw [← Nat.add_assoc p.count b 1] at hcontents
        rw [show p.count + b + (k + 1) = p.count + b + 1 + k by omega, hcontents, hstore,
          List.append_assoc]
        rfl
    · refine ⟨0, cells, ?_, ?_, by simp⟩
      · by_cases hne : c = 0
        · simp [text, hne]
        · have hlt : ¬ p.count + b < pipeLength := fun hlt => hc ⟨hne, hlt⟩
          omega
      · rw [writeLoop, if_neg fun hcond => hc ⟨hcond.1, (room_iff h hroom hb).mp hcond.2⟩]
        rfl

/-- The loop of `read` takes bytes until it has enough or the pipe is empty. -/
theorem readLoop_spec (h : p.WellFormed) (hne : 0 < p.count) {n i : ℕ} (hi : i ≤ p.count) :
    readLoop p n ((p.position + i) % pipeLength) i =
      (ringContents pipeLength p.pipe (p.position + i) (p.count - i)).take n := by
  obtain ⟨hle, hend, -, -⟩ := h.count_spec
  induction n generalizing i with
  | zero => rfl
  | succ n ih =>
    have hcond : ((i + p.position) % pipeLength ≠ p.endPosition ∨ i = 0) ↔ i < p.count := by
      have hpos := h.position
      unfold pipeLength at *
      omega
    rw [readLoop]
    by_cases hlt : i < p.count
    · have hnext : next ((p.position + i) % pipeLength) = (p.position + (i + 1)) % pipeLength := by
        rw [next_eq (Nat.mod_lt _ (by decide)), Nat.mod_add_mod]
        rfl
      rw [if_pos (hcond.mpr hlt), hnext, ih hlt, show p.count - i = p.count - (i + 1) + 1 by omega,
        ringContents_cons, List.take_succ_cons]
      rfl
    · rw [if_neg fun hc => hlt (hcond.mp hc), show p.count - i = 0 by omega]
      rfl

/-- The number of stored bytes is the one that puts `endPosition` in its place. -/
theorem count_eq (hpos : p.position < pipeLength) {c : ℕ} (hc : c ≤ pipeLength)
    (hend : p.endPosition = (p.position + c) % pipeLength)
    (hflag : p.readFlag = true ↔ c = pipeLength) : p.WellFormed ∧ p.count = c := by
  have hwell : p.WellFormed := by
    refine ⟨hpos, ?_, fun hf => ?_⟩
    · rw [hend]
      exact Nat.mod_lt _ (by decide)
    · rw [hend, hflag.mp hf, Nat.add_mod_right, Nat.mod_eq_of_lt hpos]
  refine ⟨hwell, ?_⟩
  unfold Pipe.count Pipe.isEmpty Pipe.isFull pipeLength at *
  cases hf : p.readFlag with
  | false =>
    have hne : c ≠ 10 := fun he => by simp [hflag.mpr he] at hf
    by_cases heq : p.position = p.endPosition
    · simp [heq]
      omega
    · simp [heq]
      omega
  | true =>
    have := hflag.mp hf
    have := hwell.flag hf
    simp [this]
    omega

theorem stored_length : p.stored.length = p.count := ringContents_length

/-- `write` appends what fits, unless the message and the pipe are empty. -/
theorem write_spec (h : p.WellFormed) {message : List UInt8}
    (hok : ¬ (text message = [] ∧ p.isEmpty = true)) :
    (write message p).2.WellFormed ∧
      (write message p).1 = min (text message).length (pipeLength - p.stored.length) ∧
      (write message p).2.stored = p.stored ++ (text message).take (write message p).1 := by
  obtain ⟨hle, hend, hempty, hfull⟩ := h.count_spec
  rw [stored_length]
  by_cases hf : p.position = p.endPosition ∧ p.readFlag = true
  · have hten : p.count = pipeLength := hfull.mpr (by simp [Pipe.isFull, hf])
    rw [write, if_pos hf]
    exact ⟨h, by omega, by simp⟩
  · have hroom : p.count < pipeLength :=
      lt_of_le_of_ne hle fun he => hf (by simpa [Pipe.isFull] using hfull.mp he)
    have hflag : p.readFlag = false := by
      cases hr : p.readFlag with
      | false => rfl
      | true => exact absurd ⟨h.flag hr, hr⟩ hf
    obtain ⟨k, cells, hk, hloop, hcontents⟩ :=
      writeLoop_spec h hroom message (b := 0) (by omega) p.pipe
    simp only [Nat.add_zero, Nat.zero_add, ← hend] at hk hloop hcontents
    rw [write, if_neg hf, hloop]
    -- a byte was stored, or there were some before
    have hpos : p.count + k ≠ 0 := fun hzero => by
      refine hok ⟨?_, hempty.mp (by omega)⟩
      have hlen : (text message).length = 0 := by
        unfold pipeLength at *
        omega
      exact List.eq_nil_of_length_eq_zero hlen
    have hposition := h.position
    have hcount := @count_eq ⟨p.position, (p.endPosition + k) % pipeLength,
        if (p.endPosition + k) % pipeLength = p.position then true else p.readFlag, cells⟩
      hposition (c := p.count + k) (by omega)
      (by rw [hend, Nat.mod_add_mod, Nat.add_assoc])
      (by
        dsimp only
        rw [hflag]
        unfold pipeLength at *
        split_ifs with he
        · simp only [true_iff]
          omega
        · simp only [false_iff]
          omega)
    refine ⟨hcount.1, hk, ?_⟩
    rw [Pipe.stored, hcount.2]
    exact hcontents

/-- `read` takes the oldest bytes, unless it asks a full pipe for none. -/
theorem read_spec (h : p.WellFormed) {bytes : ℤ}
    (hok : ¬ (requested bytes = 0 ∧ p.isFull = true)) :
    (read bytes p).2.WellFormed ∧ (read bytes p).1 = p.stored.take (requested bytes) ∧
      (read bytes p).2.stored = p.stored.drop (requested bytes) := by
  obtain ⟨hle, hend, hempty, hfull⟩ := h.count_spec
  by_cases he : p.position = p.endPosition ∧ p.readFlag = false
  · have hzero : p.count = 0 := hempty.mpr (by simp [Pipe.isEmpty, he])
    have hnil : p.stored = [] := List.eq_nil_of_length_eq_zero (stored_length.trans hzero)
    rw [read, if_pos he, hnil]
    exact ⟨h, by simp, by simp⟩
  · have hpos : 0 < p.count := Nat.pos_of_ne_zero fun hz =>
      he (by simpa [Pipe.isEmpty] using hempty.mp hz)
    have hbytes : (if bytes = -1 then (pipeLength : ℤ) else bytes).toNat = requested bytes := by
      unfold requested
      split_ifs <;> rfl
    have hloop : readLoop p (requested bytes) p.position 0 = p.stored.take (requested bytes) := by
      have := readLoop_spec h hpos (n := requested bytes) (Nat.zero_le _)
      rwa [Nat.add_zero, Nat.mod_eq_of_lt h.position, Nat.sub_zero] at this
    rw [read, if_neg he]
    simp only [hbytes, hloop, List.length_take, stored_length]
    set k := min (requested bytes) p.count with hk
    have hlt : p.count - k < pipeLength := by
      by_contra hge
      have hten : p.count = pipeLength := by omega
      exact hok ⟨by omega, hfull.mp hten⟩
    have hcount := @count_eq ⟨(p.position + k) % pipeLength, p.endPosition, false, p.pipe⟩
      (Nat.mod_lt _ (by decide)) (c := p.count - k) (by omega)
      (by
        rw [hend, Nat.mod_add_mod]
        congr 1
        omega)
      (by
        simp only [Bool.false_eq_true, false_iff]
        omega)
    refine ⟨hcount.1, trivial, ?_⟩
    have hdrop : p.stored.drop (requested bytes) = p.stored.drop k := by
      rcases Nat.le_total (requested bytes) p.count with hreq | hreq
      · rw [hk, min_eq_left hreq]
      · rw [hk, min_eq_right hreq, List.drop_of_length_le (by rw [stored_length]; exact hreq),
          List.drop_of_length_le (by rw [stored_length])]
    rw [hdrop, Pipe.stored, Pipe.stored, hcount.2, ringContents_drop, ringContents_mod]

end

/-! ### Runs -/

inductive Call
  | write (message : List UInt8)
  | read (bytes : ℤ)

/-- A pipe and the abstract queue that gets the same calls, with the bytes that the calls on the
pipe have reported as written and delivered. -/
structure Run where
  pipe : Pipe
  queue : BoundedQueue UInt8 pipeLength
  accepted : List UInt8
  delivered : List UInt8

/-- No empty message is written to an empty pipe, and no call asks a full pipe for no bytes. -/
def Proper (r : Run) : Call → Prop
  | .write message => ¬ (text message = [] ∧ r.pipe.isEmpty = true)
  | .read bytes => ¬ (requested bytes = 0 ∧ r.pipe.isFull = true)

instance (r : Run) : (c : Call) → Decidable (Proper r c)
  | .write _ => inferInstanceAs (Decidable (¬ _))
  | .read _ => inferInstanceAs (Decidable (¬ _))

def call (r : Run) : Call → Option Run
  | .write message =>
    let w := write message r.pipe
    some { r with
      pipe := w.2
      queue := (r.queue.enqueue (text message)).2
      accepted := r.accepted ++ (text message).take w.1 }
  | .read bytes =>
    let w := read bytes r.pipe
    some { r with
      pipe := w.2
      queue := (r.queue.dequeue (requested bytes)).2
      delivered := r.delivered ++ w.1 }

def IsCreated (r : Run) : Prop :=
  ∃ memory, r = ⟨createPipeStruct memory, BoundedQueue.empty, [], []⟩

def pipeSystem : System Run Call := ofStep IsCreated call

/-- The call on the pipe returns what the queue returns. -/
def Conforms (r : Run) : Call → Prop
  | .write message => (write message r.pipe).1 = (r.queue.enqueue (text message)).1
  | .read bytes => (read bytes r.pipe).1 = (r.queue.dequeue (requested bytes)).1

structure RunInvariant (r : Run) : Prop where
  wellFormed : r.pipe.WellFormed
  stored : r.pipe.stored = r.queue.items
  fifo : r.queue.Fifo r.accepted r.delivered

section

variable {r t : Run}

theorem RunInvariant.conforms (h : RunInvariant r) {c : Call} (hok : Proper r c) :
    Conforms r c := by
  cases c with
  | write message =>
    have hcount := (write_spec h.wellFormed hok).2.1
    rw [h.stored] at hcount
    exact hcount
  | read bytes =>
    have hbytes := (read_spec h.wellFormed hok).2.1
    rw [h.stored] at hbytes
    exact hbytes

theorem call_runInvariant (h : RunInvariant r) {c : Call} (hok : Proper r c)
    (hcall : call r c = some t) : RunInvariant t := by
  have hconforms := h.conforms hok
  cases c with
  | write message =>
    obtain rfl := Option.some.inj hcall
    obtain ⟨hwell, -, hstored⟩ := write_spec h.wellFormed hok
    rw [Conforms] at hconforms
    refine ⟨hwell, ?_, ?_⟩
    · rw [hstored, h.stored, hconforms]
      rfl
    · dsimp only
      rw [hconforms]
      exact h.fifo.enqueue _
  | read bytes =>
    obtain rfl := Option.some.inj hcall
    obtain ⟨hwell, -, hstored⟩ := read_spec h.wellFormed hok
    rw [Conforms] at hconforms
    refine ⟨hwell, ?_, ?_⟩
    · rw [hstored, h.stored]
      rfl
    · dsimp only
      rw [hconforms]
      exact h.fifo.dequeue _

theorem runInvariant_created (h : IsCreated r) : RunInvariant r := by
  obtain ⟨memory, rfl⟩ := h
  exact ⟨⟨Nat.succ_pos 9, Nat.succ_pos 9, fun _ => rfl⟩, rfl, BoundedQueue.fifo_empty⟩

theorem reachable_runInvariant (h : (pipeSystem.restrict Proper).Reachable r) :
    RunInvariant r := by
  induction h with
  | start hs => exact runInvariant_created hs
  | next _ hstep ih => exact call_runInvariant ih hstep.1 hstep.2

/-- The pipe behaves as the queue: it holds the same bytes, every call returns the same, and the
bytes read are a prefix of the bytes accepted. -/
theorem pipe_fifo (h : (pipeSystem.restrict Proper).Reachable r) :
    r.pipe.stored = r.queue.items ∧ r.delivered <+: r.accepted ∧
      ∀ c, Proper r c → Conforms r c ∧
        ∀ t, call r c = some t → t.pipe.stored = t.queue.items := by
  have hinv := reachable_runInvariant h
  exact ⟨hinv.stored, hinv.fifo.isPrefix, fun c hok =>
    ⟨hinv.conforms hok, fun t ht => (call_runInvariant hinv hok ht).stored⟩⟩

end

/-- A new pipe whose bytes are all seven. -/
def created : Run := ⟨createPipeStruct fun _ => 7, BoundedQueue.empty, [], []⟩

/-- The bytes go around the end of the array, and the pipe gets full and empty. -/
theorem pipe_fifo_wrap : ∃ r, (pipeSystem.restrict Proper).Reachable r ∧
    r.delivered = [1, 2, 3, 4, 5, 6, 7, 8, 9, 10, 11, 12, 13, 14] ∧
      r.delivered <+: r.accepted := by
  obtain ⟨r, hr, hf⟩ := reachable_restrict_of_execute IsCreated
    (show IsCreated created from ⟨_, rfl⟩)
    (show (execute (guarded Proper call) created
      [.write [1, 2, 3, 4, 5, 6, 7], .read 4, .write [], .write [8, 9, 10, 11, 12, 13, 14, 15],
        .read (-1), .read 0]).map (fun r => r.delivered) =
          some [1, 2, 3, 4, 5, 6, 7, 8, 9, 10, 11, 12, 13, 14] by decide +kernel)
  exact ⟨r, hr, hf, (pipe_fifo hr).2.1⟩

/-- After an empty message a new pipe delivers ten bytes that nobody has written; a call that
asks a full pipe for no bytes loses all of them. -/
theorem pipe_not_fifo :
    (∃ r, pipeSystem.Reachable r ∧ r.accepted = [] ∧ r.delivered = List.replicate 10 7) ∧
      ∃ r, pipeSystem.Reachable r ∧ r.accepted = [1, 2, 3, 4, 5, 6, 7, 8, 9, 10] ∧
        r.delivered = [] ∧ r.pipe.stored = [] := by
  have hcreated : IsCreated created := ⟨_, rfl⟩
  constructor
  · obtain ⟨r, hr, hf⟩ := Option.map_eq_some_iff.mp
      (show (execute call created [.write [], .read (-1)]).map
        (fun r => (r.accepted, r.delivered)) = some ([], List.replicate 10 7) by decide +kernel)
    exact ⟨r, reachable_of_execute IsCreated hcreated hr, Prod.mk.inj hf⟩
  · obtain ⟨r, hr, hf⟩ := Option.map_eq_some_iff.mp
      (show (execute call created [.write [1, 2, 3, 4, 5, 6, 7, 8, 9, 10], .read 0]).map
        (fun r => (r.accepted, r.delivered, r.pipe.stored)) =
          some ([1, 2, 3, 4, 5, 6, 7, 8, 9, 10], [], []) by decide +kernel)
    obtain ⟨haccepted, hf⟩ := Prod.mk.inj hf
    exact ⟨r, reachable_of_execute IsCreated hcreated hr, haccepted, Prod.mk.inj hf⟩

end GatOS.IPC
