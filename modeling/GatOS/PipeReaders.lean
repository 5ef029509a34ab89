import GatOS.PipeCalls
import GatOS.ProcessRing
import GatOS.WaiterQueues

/-!
# Readers that wait for bytes

The readers that block on a pipe are the ones that the next write wakes, as long as the array
that records them is not stored over and the pipe is found under its name.
-/
namespace GatOS.IPC
open Scheduler Sync Transition ByteMemory BuddyAllocator

/-- The next reader of pipe `i` is recorded in the page, off the readers of the other pipes. -/
def RecordFits (m : PipeMachine) (i : PipeIndex) : Prop :=
  let a := (m.pipe i).blocked + 4 * (m.pipe i).cardinalBlocked
  a + 4 ≤ pageSize ∧
    ∀ j, j ≠ i → ∀ e < (m.pipe j).cardinalBlocked, Apart a ((m.pipe j).blocked + 4 * e)

/-- A reader that finds the pipe empty can be recorded; a writer that finds room finds the pipe
under its name, and does not write an empty message to an empty pipe. -/
def ReaderSound (m : PipeMachine) : PipePending → Prop
  | .write i message _ => (m.pipe i).isFull = true ∨
      (m.findName (m.pipe i).name).map m.pipes = some i ∧
        ¬ (text message = [] ∧ (m.pipe i).isEmpty = true)
  | .read i _ _ => (m.pipe i).isEmpty = true → RecordFits m i
  | _ => True

instance (m : PipeMachine) (i : PipeIndex) : Decidable (RecordFits m i) :=
  inferInstanceAs (Decidable (_ ∧ ∀ j : PipeIndex, j ≠ i → ∀ e < _, Apart _ _))

instance (m : PipeMachine) : (c : PipePending) → Decidable (ReaderSound m c)
  | .write _ _ _ => inferInstanceAs (Decidable (_ ∨ _ ∧ ¬ (_ ∧ _)))
  | .read i _ _ => inferInstanceAs (Decidable ((m.pipe i).isEmpty = true → RecordFits m i))
  | .reading => inferInstanceAs (Decidable True)
  | .locking => inferInstanceAs (Decidable True)

/-- The array of a pipe holds the readers that sleep on it, and they sleep on empty pipes. -/
structure ReaderInvariant (m : PipeMachine) : Prop where
  ring : RingInvariant m.kernel.sched
  recorded : ∀ i, entries (m.pipe i).blocked (m.pipe i).cardinalBlocked m.page =
    m.ledger.sleepers i
  empty : ∀ i, m.ledger.sleepers i ≠ [] → (m.pipe i).isEmpty = true

section

variable {k k' : Kernel} {m t : PipeMachine} {i : PipeIndex}

theorem readerInvariant_start (h : IsPipeStart m) : ReaderInvariant m := by
  refine ⟨h.ring, fun i => ?_, fun i hne => ?_⟩
  · obtain ⟨name, mutex, memory, hp⟩ := h.pipe i
    rw [hp, h.ledger]
    rfl
  · rw [h.ledger] at hne
    exact absurd rfl hne

theorem ReaderInvariant.quiet (h : ReaderInvariant m) (hquiet : Quiet m t) :
    ReaderInvariant t := by
  refine ⟨hquiet.ring, fun i => ?_, fun i hne => ?_⟩
  · rw [hquiet.pipe, hquiet.page, hquiet.ledger]
    exact h.recorded i
  · rw [hquiet.ledger] at hne
    rw [hquiet.pipe]
    exact h.empty i hne

theorem Quiet.readerSound (h : Quiet m t) (c : PipePending) :
    ReaderSound t c ↔ ReaderSound m c := by
  cases c <;>
    simp only [ReaderSound, RecordFits, PipeMachine.findName, h.pipe, h.strings, h.pipeNames,
      h.pipes, h.lastPipeName]

/-- A change of the processes alone. -/
theorem ReaderInvariant.of_kernel (h : ReaderInvariant m) (hring : RingInvariant k.sched) :
    ReaderInvariant { m with kernel := k } := ⟨hring, h.recorded, h.empty⟩

theorem ReaderInvariant.freeMutex (h : ReaderInvariant m) {mutex : ℤ}
    (hfree : m.freeMutex mutex = some t) : ReaderInvariant t := by
  obtain ⟨k, hk, rfl⟩ := Option.map_eq_some_iff.mp hfree
  exact h.of_kernel (ring_freeMutex h.ring hk)

theorem isFull_iff {p : Pipe} :
    p.isFull = true ↔ p.position = p.endPosition ∧ p.readFlag = true := by
  simp [Pipe.isFull]

theorem isEmpty_iff {p : Pipe} :
    p.isEmpty = true ↔ p.position = p.endPosition ∧ p.readFlag = false := by
  simp [Pipe.isEmpty]

/-! ### Waking -/

/-- All the processes of a list go to `READY`. -/
theorem wakeAll_spec (h : RingInvariant k.sched) (l : List ℤ) :
    RingInvariant (PipeMachine.wakeAll l k).sched ∧
      processes (PipeMachine.wakeAll l k).sched =
        (processes k.sched).map fun p => if p.pid ∈ l then { p with state := .ready } else p := by
  induction l generalizing k with
  | nil =>
    refine ⟨h, ?_⟩
    simp [PipeMachine.wakeAll]
  | cons pid l ih =>
    obtain ⟨hring, hprocs, -⟩ := changeProcessState_spec h pid .ready
    obtain ⟨hring', hprocs'⟩ := @ih (k.setState pid .ready) hring
    refine ⟨hring', ?_⟩
    show processes (PipeMachine.wakeAll l (k.setState pid .ready)).sched = _
    rw [hprocs', Kernel.setState_sched, hprocs, List.map_map]
    refine List.map_congr_left fun p _ => ?_
    rw [Function.comp_apply, withState_pid, withState]
    by_cases hpid : p.pid = pid
    · simp [hpid]
    · simp [hpid]

/-- A pipe that is found under its name wakes its readers and forgets them. -/
theorem unlockProcesses_found {name : ℕ} (h : (m.findName name).map m.pipes = some i) :
    m.unlockProcesses name = { m.setPipe i { m.pipe i with cardinalBlocked := 0 } with
      kernel := PipeMachine.wakeAll
        (entries (m.pipe i).blocked (m.pipe i).cardinalBlocked m.page) m.kernel } := by
  obtain ⟨n, hn, rfl⟩ := Option.map_eq_some_iff.mp h
  rw [PipeMachine.unlockProcesses, hn]

/-! ### The calls -/

/-- A message is stored at least in part, unless it is empty. -/
theorem writeLoop_bytes_le (p : Pipe) (message : List UInt8) (aux bytes : ℕ) (pipe : ℕ → UInt8) :
    bytes ≤ (writeLoop p message aux bytes pipe).1 := by
  induction message generalizing aux bytes pipe with
  | nil => exact le_rfl
  | cons current rest ih =>
    rw [writeLoop]
    split_ifs
    · exact (Nat.le_succ bytes).trans (ih _ _ _)
    · exact le_rfl

theorem writeLoop_eq_zero_iff (p : Pipe) (message : List UInt8) (aux : ℕ) (pipe : ℕ → UInt8) :
    (writeLoop p message aux 0 pipe).1 = 0 ↔ text message = [] := by
  cases message with
  | nil => exact iff_of_true rfl rfl
  | cons current rest =>
    rw [writeLoop]
    by_cases hc : current = 0
    · simp [hc, text]
    · rw [if_pos ⟨hc, Or.inr rfl⟩, text_cons hc]
      have hle := writeLoop_bytes_le p rest (next aux) (0 + 1) fun i =>
        if i = aux then current else pipe i
      exact iff_of_false (by omega) (List.cons_ne_nil _ _)

theorem store_sleepers_ne (l : PipeLedger) (n : ℕ) {j : PipeIndex} (hj : j ≠ i) :
    (l.store i n).sleepers j = l.sleepers j := by
  unfold PipeLedger.store
  split_ifs
  · rfl
  · exact Function.update_of_ne hj _ _

theorem store_sleepers_self (l : PipeLedger) {n : ℕ} (h : n = 0 → l.sleepers i = []) :
    (l.store i n).sleepers i = [] := by
  unfold PipeLedger.store
  split_ifs with hn
  · exact h hn
  · exact Function.update_self i _ _

/-- A writer that finds room: the bytes are stored and the readers are woken. -/
theorem writeRest_stored {message : List UInt8} {aux : ℕ} (hfull : ¬ (m.pipe i).isFull = true)
    (hname : (m.findName (m.pipe i).name).map m.pipes = some i)
    (hrun : m.writeRest i message aux = some t) :
    ∃ p : SharedPipe, p.blocked = (m.pipe i).blocked ∧ p.cardinalBlocked = 0 ∧
      ({ m with
        kernel := PipeMachine.wakeAll
          (entries (m.pipe i).blocked (m.pipe i).cardinalBlocked m.page) m.kernel
        pipe := Function.update m.pipe i p
        ledger := (m.storeMessage i message aux).ledger } : PipeMachine).freeMutex
          (m.pipe i).mutex = some t := by
  rw [isFull_iff] at hfull
  rw [PipeMachine.writeRest, if_neg hfull] at hrun
  have hself : (m.storeMessage i message aux).pipe i = { m.pipe i with
      pipe := ((m.storeMessage i message aux).pipe i).pipe
      endPosition := ((m.storeMessage i message aux).pipe i).endPosition
      readFlag := ((m.storeMessage i message aux).pipe i).readFlag } := by
    simp only [PipeMachine.storeMessage, PipeMachine.setPipe, Function.update_self]
  have hname' : ((m.storeMessage i message aux).findName (m.pipe i).name).map
      (m.storeMessage i message aux).pipes = some i := hname
  rw [unlockProcesses_found hname'] at hrun
  refine ⟨{ (m.storeMessage i message aux).pipe i with cardinalBlocked := 0 }, ?_, rfl, ?_⟩
  · rw [hself]
  · rw [hself] at hrun ⊢
    rw [← hrun]
    simp only [PipeMachine.storeMessage, PipeMachine.setPipe, Function.update_idem]

theorem ReaderInvariant.writeRest (h : ReaderInvariant m) {message : List UInt8} {aux : ℕ}
    (hok : ReaderSound m (.write i message aux)) (hrun : m.writeRest i message aux = some t) :
    ReaderInvariant t := by
  by_cases hfull : (m.pipe i).isFull = true
  · rw [PipeMachine.writeRest, if_pos (isFull_iff.mp hfull)] at hrun
    have hrefused : ReaderInvariant (m.refuseWriter i message) :=
      ⟨(changeProcessState_spec h.ring m.pid .blocked).1, h.recorded, h.empty⟩
    exact hrefused.freeMutex hrun
  · obtain ⟨hname, hproper⟩ := hok.resolve_left hfull
    obtain ⟨p, hblocked, hcard, hfree⟩ := writeRest_stored hfull hname hrun
    have hnil : (m.storeMessage i message aux).ledger.sleepers i = [] := by
      refine store_sleepers_self m.ledger fun hzero => ?_
      by_contra hne
      exact hproper ⟨(writeLoop_eq_zero_iff _ _ _ _).mp hzero, h.empty i hne⟩
    refine ReaderInvariant.freeMutex ⟨(wakeAll_spec h.ring _).1, fun j => ?_, fun j hne => ?_⟩ hfree
    · by_cases hj : j = i
      · subst hj
        dsimp only
        rw [hnil, Function.update_self, hcard]
        rfl
      · dsimp only
        rw [Function.update_of_ne hj]
        exact (h.recorded j).trans (store_sleepers_ne m.ledger _ hj).symm
    · by_cases hj : j = i
      · subst hj
        exact absurd hnil hne
      · dsimp only
        rw [Function.update_of_ne hj]
        exact h.empty j fun hf => hne ((store_sleepers_ne m.ledger _ hj).trans hf)

/-- A pid is a value of type `int`. -/
theorem pid_range (h : RingInvariant m.kernel.sched) :
    MachineInt.intMin ≤ m.pid ∧ m.pid ≤ MachineInt.intMax := by
  obtain ⟨hlo, hhi⟩ := h.pid_range _ (getCurrentPid_mem h)
  have hle := h.pid_le
  have hpages : (numberOfPages : ℤ) ≤ MachineInt.intMax := by decide
  exact ⟨le_trans (by decide) hlo, (hhi.le.trans hle).trans hpages⟩

theorem ReaderInvariant.recordReader (h : ReaderInvariant m) (hempty : (m.pipe i).isEmpty = true)
    (hfits : RecordFits m i) (bytes : ℤ) : ReaderInvariant (m.recordReader i bytes) := by
  obtain ⟨hlo, hhi⟩ := pid_range h.ring
  refine ⟨(changeProcessState_spec h.ring m.pid .blocked).1, fun j => ?_, fun j hne => ?_⟩
  · by_cases hj : j = i
    · subst hj
      simp only [PipeMachine.recordReader, PipeMachine.setPipe, PipeLedger.record,
        PipeLedger.sleep, Function.update_self]
      rw [entries_storeInt_end hlo hhi, h.recorded j]
    · simp only [PipeMachine.recordReader, PipeMachine.setPipe, PipeLedger.record,
        PipeLedger.sleep, Function.update_of_ne hj]
      rw [entries_storeInt_apart (hfits.2 j hj), h.recorded j]
  · by_cases hj : j = i
    · subst hj
      simp only [PipeMachine.recordReader, PipeMachine.setPipe, Function.update_self]
      exact hempty
    · simp only [PipeMachine.recordReader, PipeMachine.setPipe, PipeLedger.record,
        PipeLedger.sleep, Function.update_of_ne hj] at hne ⊢
      exact h.empty j hne

theorem ReaderInvariant.takeBytes (h : ReaderInvariant m) (hempty : ¬ (m.pipe i).isEmpty = true)
    (bytes : ℤ) (aux : ℕ) : ReaderInvariant (m.takeBytes i bytes aux) := by
  refine ⟨h.ring, fun j => ?_, fun j hne => ?_⟩
  · rw [show (m.takeBytes i bytes aux).ledger.sleepers j = m.ledger.sleepers j from rfl,
      ← h.recorded j]
    by_cases hj : j = i
    · subst hj
      simp only [PipeMachine.takeBytes, PipeMachine.setPipe, Function.update_self]
    · simp only [PipeMachine.takeBytes, PipeMachine.setPipe, Function.update_of_ne hj]
  · have hj : j ≠ i := fun hj => hempty (hj ▸ h.empty j hne)
    simp only [PipeMachine.takeBytes, PipeMachine.setPipe, Function.update_of_ne hj]
    exact h.empty j hne

theorem ReaderInvariant.readRest (h : ReaderInvariant m) {bytes : ℤ} {aux : ℕ}
    (hok : ReaderSound m (.read i bytes aux)) (hrun : m.readRest i bytes aux = some t) :
    ReaderInvariant t := by
  by_cases hempty : (m.pipe i).isEmpty = true
  · rw [PipeMachine.readRest, if_pos (isEmpty_iff.mp hempty)] at hrun
    obtain ⟨m₁, hfree, hyield⟩ := Option.bind_eq_some_iff.mp hrun
    obtain ⟨k, hk, rfl⟩ := Option.map_eq_some_iff.mp hyield
    obtain ⟨sched, hs, rfl⟩ := Option.map_eq_some_iff.mp hk
    have h₁ := (h.recordReader hempty (hok hempty) bytes).freeMutex hfree
    exact ⟨ring_yield h₁.ring hs, h₁.recorded, h₁.empty⟩
  · rw [PipeMachine.readRest, if_neg fun hf => hempty (isEmpty_iff.mpr hf)] at hrun
    exact (h.takeBytes hempty bytes aux).freeMutex hrun

theorem ReaderInvariant.proceed (h : ReaderInvariant m) {c : PipePending} (hok : ReaderSound m c)
    (hrun : m.proceed c = some t) : ReaderInvariant t := by
  cases c with
  | write i message aux => exact h.writeRest hok hrun
  | read i bytes aux => exact h.readRest hok hrun
  | reading => exact Option.some.inj hrun ▸ h
  | locking => exact Option.some.inj hrun ▸ h

theorem reachable_readerInvariant
    (h : (pipeMachine.restrict (Meets ReaderSound)).Reachable m) : ReaderInvariant m := by
  induction h with
  | start hs => exact readerInvariant_start hs
  | next _ hstep ih =>
    obtain ⟨hok, hrun⟩ := hstep
    rcases pipeStep_cases ih.ring hrun with ⟨-, hquiet⟩ | ⟨c, m₁, hc, hstarted, hproceed⟩
    · exact ih.quiet hquiet
    · exact (ih.quiet hstarted.quiet).proceed
        ((hstarted.quiet.readerSound c).mpr (hok c hc)) hproceed

/-- A write that stores a byte sets the processes that have blocked on the pipe to `READY`, and
no other process; then it frees the mutex. -/
theorem readers_woken (h : (pipeMachine.restrict (Meets ReaderSound)).Reachable m)
    {a : PipeAction} {message : List UInt8} {aux : ℕ}
    (hstarts : a.starts m = some (.write i message aux)) (hok : Meets ReaderSound m a)
    (hstores : ¬ (m.pipe i).isFull = true ∧ text message ≠ []) (hstep : pipeStep m a = some t) :
    ∃ k, processes k.sched = (processes m.kernel.sched).map (fun p =>
        if p.pid ∈ m.ledger.sleepers i then { p with state := .ready } else p) ∧
      Sync.freeMutex (m.pipe i).mutex k = some t.kernel ∧ t.ledger.sleepers i = [] := by
  have hinv := reachable_readerInvariant h
  rcases pipeStep_cases hinv.ring hstep with ⟨hnone, -⟩ | ⟨c, m₁, hc, hstarted, hproceed⟩
  · exact absurd (hstarts.symm.trans hnone) (Option.some_ne_none _)
  · obtain rfl := Option.some.inj (hstarts.symm.trans hc)
    have hquiet := hstarted.quiet
    have hsound := (hquiet.readerSound _).mpr (hok _ hc)
    have h₁ := hinv.quiet hquiet
    have hfull : ¬ (m₁.pipe i).isFull = true := by
      rw [hquiet.pipe]
      exact hstores.1
    obtain ⟨p, -, -, hfree⟩ := writeRest_stored hfull (hsound.resolve_left hfull).1 hproceed
    obtain ⟨k, hk, rfl⟩ := Option.map_eq_some_iff.mp hfree
    refine ⟨_, ?_, by rw [← hquiet.pipe]; exact hk, ?_⟩
    · rw [(wakeAll_spec h₁.ring _).2, hstarted.processes, h₁.recorded, hquiet.ledger]
    · refine store_sleepers_self m₁.ledger fun hzero => ?_
      exact absurd ((writeLoop_eq_zero_iff _ _ _ _).mp hzero) hstores.2

end

/-- Three new pipes with the names at the given addresses, one mutex for each. -/
def newPipes (names : PipeIndex → ℕ) : PipeMachine where
  kernel := { zeroKernel emptySlots (fun a => [(a : ℤ)]) with
    sched := started.state
    mutexes := fun _ => ⟨true, null, emptyQueue, 0, 0, 0⟩ }
  pipe := fun i => createSharedPipe i (names i) i.val fun _ => 0
  page := fun _ => 0
  pipeNames := fun n => names (Fin.ofNat maxProcessPipes n.toNat)
  pipes := fun n => Fin.ofNat maxProcessPipes n.toNat
  lastPipeName := maxProcessPipes
  pending := fun _ => none
  ledger := ⟨fun _ => [], fun _ => [], fun _ => createPipeStruct fun _ => 0, fun _ => []⟩

theorem isPipeStart_newPipes (names : PipeIndex → ℕ) : IsPipeStart (newPipes names) where
  ring := (historyInvariant_start ⟨emptySlots, pageAt 0, by decide, rfl⟩).ring
  pipe i := ⟨names i, i.val, fun _ => 0, rfl⟩
  pending _ := rfl
  ledger := rfl

/-- Three processes beside the init process, the last of which runs. -/
def threeCallers : List PipeAction :=
  [.createProcess (pageAt 1), .createProcess (pageAt 2), .createProcess (pageAt 3), .tick]

/-- Two readers of pipe 0 are woken by the third process. -/
theorem readers_woken_two : ∃ m t, (pipeMachine.restrict (Meets ReaderSound)).Reachable m ∧
    m.ledger.sleepers 0 = [3, 2] ∧ pipeStep m (.write 0 [7] 0) = some t ∧
      t.ledger.sleepers 0 = [] := by
  obtain ⟨m, hm, hobserved⟩ := reachable_restrict_of_execute IsPipeStart
    (isPipeStart_newPipes fun i => i.val)
    (show (execute (guarded (Meets ReaderSound) pipeStep) (newPipes fun i => i.val)
      (threeCallers ++ [.read 0 1 0, .read 0 1 0])).map (fun m => (m.ledger.sleepers 0,
        (PipeAction.write 0 [7] 0).starts m, decide (Meets ReaderSound m (.write 0 [7] 0)),
          (m.pipe 0).isFull, (pipeStep m (.write 0 [7] 0)).isSome)) =
            some ([3, 2], some (.write 0 [7] 0), true, false, true) by decide +kernel)
  obtain ⟨hsleepers, hobserved⟩ := Prod.mk.inj hobserved
  obtain ⟨hstarts, hobserved⟩ := Prod.mk.inj hobserved
  obtain ⟨hok, hobserved⟩ := Prod.mk.inj hobserved
  obtain ⟨hfull, hstep⟩ := Prod.mk.inj hobserved
  obtain ⟨t, ht⟩ := Option.isSome_iff_exists.mp hstep
  obtain ⟨k, -, -, hnil⟩ := readers_woken hm hstarts (of_decide_eq_true hok)
    ⟨by simp [hfull], by decide⟩ ht
  exact ⟨m, t, hm, hsleepers, ht, hnil⟩

/-- The record of a reader of pipe 1 is stored over that of a reader of pipe 0, who is not woken.
With two pipes of one name a write to the second wakes the readers of the first. -/
theorem readers_not_woken :
    (∃ m t, pipeMachine.Reachable m ∧ m.ledger.sleepers 0 = [3] ∧
      pipeStep m (.write 0 [7] 0) = some t ∧ (t.pipe 0).stored = [7] ∧ Blocked t.kernel.sched 3) ∧
    ∃ m t, pipeMachine.Reachable m ∧ m.ledger.sleepers 0 = [3] ∧ m.ledger.sleepers 2 = [2] ∧
      pipeStep m (.write 2 [7] 0) = some t ∧ (t.pipe 2).stored = [7] ∧
        ¬ Blocked t.kernel.sched 3 ∧ Blocked t.kernel.sched 2 := by
  have hrun : ∀ names as a b, ((execute pipeStep (newPipes names) as).bind fun m =>
      (pipeStep m a).map fun t => (m.ledger.sleepers 0, m.ledger.sleepers 2,
        (t.pipe 0).stored, (t.pipe 2).stored, processes t.kernel.sched)) = some b →
      ∃ m t, pipeMachine.Reachable m ∧ pipeStep m a = some t ∧
        (m.ledger.sleepers 0, m.ledger.sleepers 2, (t.pipe 0).stored, (t.pipe 2).stored,
          processes t.kernel.sched) = b := by
    intro names as a b h
    obtain ⟨m, hm, h⟩ := Option.bind_eq_some_iff.mp h
    obtain ⟨t, ht, h⟩ := Option.map_eq_some_iff.mp h
    exact ⟨m, t, reachable_of_execute IsPipeStart (isPipeStart_newPipes names) hm, ht, h⟩
  constructor
  · obtain ⟨m, t, hm, ht, h⟩ := hrun (fun i => i.val) (threeCallers ++ [.read 0 1 0, .read 1 1 0])
      (.write 0 [7] 0) ([3], [], [7], [],
        [⟨1, .running⟩, ⟨0, .ready⟩, ⟨3, .blocked⟩, ⟨2, .blocked⟩]) (by decide +kernel)
    simp only [Prod.mk.injEq] at h
    obtain ⟨hsleepers, -, hstored, -, hprocs⟩ := h
    exact ⟨m, t, hm, hsleepers, ht, hstored, by rw [Blocked, hprocs]; decide⟩
  · obtain ⟨m, t, hm, ht, h⟩ := hrun (fun _ => 0) (threeCallers ++ [.read 0 1 0, .read 2 1 0])
      (.write 2 [7] 0) ([3], [2], [], [7],
        [⟨1, .running⟩, ⟨0, .ready⟩, ⟨3, .ready⟩, ⟨2, .blocked⟩]) (by decide +kernel)
    simp only [Prod.mk.injEq] at h
    obtain ⟨hsleepers, hsleepers', -, hstored, hprocs⟩ := h
    exact ⟨m, t, hm, hsleepers, hsleepers', ht, hstored, by rw [Blocked, hprocs]; decide,
      by rw [Blocked, hprocs]; decide⟩

end GatOS.IPC
