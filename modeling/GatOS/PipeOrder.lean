import GatOS.PipeReaders

/-!
# Writers and the order of the calls

A writer that finds the pipe full is marked `BLOCKED`, goes on and is never woken. A call that was
suspended in `lockMutex` reads or writes at the place it had computed before; as long as the pipe
has not moved since, the calls are carried out one after another as they obtain the mutex.
-/
namespace GatOS.IPC
open Scheduler Sync Transition ByteMemory

section

variable {k k' : Kernel} {m t : PipeMachine} {i : PipeIndex}

/-! ### What the rest of a call does -/

theorem unlockProcesses_pipe (name : ℕ) (m : PipeMachine) (i : PipeIndex) :
    ((m.unlockProcesses name).pipe i).toPipe = (m.pipe i).toPipe := by
  unfold PipeMachine.unlockProcesses
  split
  · rfl
  · next n hn =>
    by_cases hi : i = m.pipes n
    · subst hi
      simp only [PipeMachine.setPipe, Function.update_self]
    · simp only [PipeMachine.setPipe, Function.update_of_ne hi]

theorem unlockProcesses_ring (h : RingInvariant m.kernel.sched) (name : ℕ) :
    RingInvariant (m.unlockProcesses name).kernel.sched := by
  unfold PipeMachine.unlockProcesses
  split
  · exact h
  · exact (wakeAll_spec h _).1

theorem unlockProcesses_ledger (name : ℕ) (m : PipeMachine) :
    (m.unlockProcesses name).ledger = m.ledger := by
  unfold PipeMachine.unlockProcesses
  split <;> rfl

theorem pid_freeMutex (h : RingInvariant k.sched) {mutex : ℤ}
    (hfree : Sync.freeMutex mutex k = some k') : k'.pid = k.pid := by
  rcases (freeMutex_sched hfree).2 with hs | ⟨p, hs⟩
  · rw [Kernel.pid, hs, Kernel.pid]
  · rw [Kernel.pid, hs, (changeProcessState_spec h p .ready).2.2, Kernel.pid]

/-- The call runs on the pipe, and everything that it records is about the pipe. -/
inductive Outcome (m t : PipeMachine) : PipePending → Prop
  | refused {i : PipeIndex} {message : List UInt8} {aux : ℕ} (hfull : (m.pipe i).isFull = true)
      (hpipe : t.pipe = m.pipe) (hpid : t.pid = m.pid)
      (hledger : t.ledger = (m.refuseWriter i message).ledger) :
      Outcome m t (.write i message aux)
  | stored {i : PipeIndex} {message : List UInt8} {aux : ℕ} (hfull : ¬ (m.pipe i).isFull = true)
      (hpipe : ∀ j, (t.pipe j).toPipe = ((m.storeMessage i message aux).pipe j).toPipe)
      (hledger : t.ledger = (m.storeMessage i message aux).ledger) :
      Outcome m t (.write i message aux)
  | waits {i : PipeIndex} {bytes : ℤ} {aux : ℕ} (hempty : (m.pipe i).isEmpty = true)
      (hpipe : ∀ j, (t.pipe j).toPipe = (m.pipe j).toPipe)
      (hledger : t.ledger = (m.recordReader i bytes).ledger) : Outcome m t (.read i bytes aux)
  | taken {i : PipeIndex} {bytes : ℤ} {aux : ℕ} (hempty : ¬ (m.pipe i).isEmpty = true)
      (hpipe : t.pipe = (m.takeBytes i bytes aux).pipe)
      (hledger : t.ledger = (m.takeBytes i bytes aux).ledger) : Outcome m t (.read i bytes aux)
  | reading (h : t = m) : Outcome m t .reading
  | locking (h : t = m) : Outcome m t .locking

theorem recordReader_pipe (m : PipeMachine) (i j : PipeIndex) (bytes : ℤ) :
    ((m.recordReader i bytes).pipe j).toPipe = (m.pipe j).toPipe := by
  by_cases hj : j = i
  · subst hj
    simp only [PipeMachine.recordReader, PipeMachine.setPipe, Function.update_self]
  · simp only [PipeMachine.recordReader, PipeMachine.setPipe, Function.update_of_ne hj]

theorem proceed_outcome (h : RingInvariant m.kernel.sched) {c : PipePending}
    (hrun : m.proceed c = some t) : RingInvariant t.kernel.sched ∧ Outcome m t c := by
  have hblock := changeProcessState_spec h m.pid .blocked
  cases c with
  | write i message aux =>
    simp only [PipeMachine.proceed, PipeMachine.writeRest] at hrun
    split_ifs at hrun with hfull
    · obtain ⟨k, hk, rfl⟩ := Option.map_eq_some_iff.mp hrun
      have hpid : k.pid = m.kernel.pid := (pid_freeMutex hblock.1 hk).trans hblock.2.2
      exact ⟨ring_freeMutex hblock.1 hk, .refused (isFull_iff.mpr hfull) rfl hpid rfl⟩
    · obtain ⟨k, hk, rfl⟩ := Option.map_eq_some_iff.mp hrun
      have hring := @unlockProcesses_ring (m.storeMessage i message aux) h (m.pipe i).name
      exact ⟨ring_freeMutex hring hk, .stored (fun hf => hfull (isFull_iff.mp hf))
        (unlockProcesses_pipe _ _) (unlockProcesses_ledger _ _)⟩
  | read i bytes aux =>
    simp only [PipeMachine.proceed, PipeMachine.readRest] at hrun
    split_ifs at hrun with hempty
    · obtain ⟨m₁, hfree, hyield⟩ := Option.bind_eq_some_iff.mp hrun
      obtain ⟨k, hk, rfl⟩ := Option.map_eq_some_iff.mp hfree
      obtain ⟨k₂, hk₂, rfl⟩ := Option.map_eq_some_iff.mp hyield
      obtain ⟨sched, hs, rfl⟩ := Option.map_eq_some_iff.mp hk₂
      exact ⟨ring_yield (ring_freeMutex hblock.1 hk) hs,
        .waits (isEmpty_iff.mpr hempty) (fun j => recordReader_pipe m i j bytes) rfl⟩
    · obtain ⟨k, hk, rfl⟩ := Option.map_eq_some_iff.mp hrun
      exact ⟨ring_freeMutex h hk, .taken (fun hf => hempty (isEmpty_iff.mp hf)) rfl rfl⟩
  | reading =>
    obtain rfl := Option.some.inj hrun
    exact ⟨h, .reading rfl⟩
  | locking =>
    obtain rfl := Option.some.inj hrun
    exact ⟨h, .locking rfl⟩

/-- What holds at the start, and is kept by every step that meets the condition. -/
theorem pipe_invariant {I : PipeMachine → Prop} {ok : PipeMachine → PipePending → Prop}
    (hstart : ∀ m, IsPipeStart m → I m)
    (hquiet : ∀ m t, I m → t.pipe = m.pipe → t.ledger = m.ledger → I t)
    (hcall : ∀ m m₁ t c, I m₁ → m₁.pipe = m.pipe → ok m c → Outcome m₁ t c → I t)
    (h : (pipeMachine.restrict (Meets ok)).Reachable m) : RingInvariant m.kernel.sched ∧ I m := by
  induction h with
  | start hs => exact ⟨hs.ring, hstart _ hs⟩
  | next _ hstep ih =>
    obtain ⟨hring, hI⟩ := ih
    obtain ⟨hok, hrun⟩ := hstep
    rcases pipeStep_cases hring hrun with ⟨-, hq⟩ | ⟨c, m₁, hc, hstarted, hproceed⟩
    · exact ⟨hq.ring, hquiet _ _ hI hq.pipe hq.ledger⟩
    · have hq := hstarted.quiet
      obtain ⟨hring', houtcome⟩ := proceed_outcome hq.ring hproceed
      exact ⟨hring', hcall _ _ _ c (hquiet _ _ hI hq.pipe hq.ledger) hq.pipe (hok c hc) houtcome⟩

/-! ### Writers on a full pipe -/

/-- No writer finds the pipe full when it has the mutex. -/
def WriterSound (m : PipeMachine) : PipePending → Prop
  | .write i _ _ => ¬ (m.pipe i).isFull = true
  | _ => True

instance (m : PipeMachine) : (c : PipePending) → Decidable (WriterSound m c)
  | .write _ _ _ => inferInstanceAs (Decidable (¬ _))
  | .read _ _ _ => inferInstanceAs (Decidable True)
  | .reading => inferInstanceAs (Decidable True)
  | .locking => inferInstanceAs (Decidable True)

/-- A writer that was blocked because the pipe was full, and that no read has set `READY` since,
does not run, and the pipe is still full. -/
def Unstranded (m : PipeMachine) : Prop :=
  ∀ i, ∀ p ∈ m.ledger.refused i, p ≠ m.pid ∧ (m.pipe i).isFull = true

theorem reachable_refused (h : (pipeMachine.restrict (Meets WriterSound)).Reachable m) :
    RingInvariant m.kernel.sched ∧ ∀ i, m.ledger.refused i = [] := by
  refine pipe_invariant (I := fun m => ∀ i, m.ledger.refused i = [])
    (fun m hs i => ?_) (fun m t hm _ hledger => ?_) ?_ h
  · rw [hs.ledger]
  · rwa [hledger]
  · intro m m₁ t c hm hpipe hok houtcome
    cases houtcome with
    | refused hfull =>
      rw [hpipe] at hfull
      exact absurd hfull hok
    | stored hfull hpipes hledger =>
      intro j
      rw [hledger, ← hm j]
      show (m₁.ledger.store _ _).refused j = m₁.ledger.refused j
      unfold PipeLedger.store
      split_ifs <;> rfl
    | waits hempty hpipes hledger =>
      rw [hledger]
      exact hm
    | taken hempty hpipes hledger =>
      rw [hledger]
      exact hm
    | reading heq => exact heq ▸ hm
    | locking heq => exact heq ▸ hm

/-- As long as no writer finds the pipe full, none is stranded; a writer that does is marked
`BLOCKED`, runs on and is stranded. -/
theorem writers_not_stranded (h : (pipeMachine.restrict (Meets WriterSound)).Reachable m) :
    Unstranded m ∧ ∀ a t, pipeStep m a = some t → (Unstranded t ↔ Meets WriterSound m a) := by
  obtain ⟨hring, hnil⟩ := reachable_refused h
  have hunstranded : ∀ {m : PipeMachine}, (∀ i, m.ledger.refused i = []) → Unstranded m := by
    intro m hm i p hp
    rw [hm i] at hp
    exact absurd hp List.not_mem_nil
  refine ⟨hunstranded hnil, fun a t hstep => ⟨fun ht c hc => ?_, fun hok => ?_⟩⟩
  · cases c with
    | write i message aux =>
      intro hfull
      rcases pipeStep_cases hring hstep with ⟨hnone, -⟩ | ⟨c, m₁, hc', hstarted, hproceed⟩
      · rw [hnone] at hc
        exact absurd hc (Option.not_mem_none _)
      · obtain rfl := Option.some.inj (hc.symm.trans hc')
        have hq := hstarted.quiet
        cases (proceed_outcome hq.ring hproceed).2 with
        | refused _ _ hpid hledger =>
          have hmem : m₁.pid ∈ t.ledger.refused i := by
            rw [hledger]
            simp [PipeMachine.refuseWriter, PipeLedger.record, PipeLedger.refuse]
          exact (ht i _ hmem).1 hpid.symm
        | stored hroom =>
          rw [hq.pipe] at hroom
          exact hroom hfull
    | read i bytes aux => trivial
    | reading => trivial
    | locking => trivial
  · exact hunstranded (reachable_refused (h.next ⟨hok, hstep⟩)).2

end

/-- The pipe is written by one process and read by another, and never found full. -/
theorem writers_not_stranded_room : ∃ m, (pipeMachine.restrict (Meets WriterSound)).Reachable m ∧
    (m.pipe 0).stored = [4, 5, 6, 7] ∧ Unstranded m := by
  obtain ⟨m, hm, hstored⟩ := reachable_restrict_of_execute IsPipeStart
    (isPipeStart_newPipes fun i => i.val)
    (show (execute (guarded (Meets WriterSound) pipeStep) (newPipes fun i => i.val)
      (threeCallers ++ [.write 0 [1, 2, 3, 4] 0, .tick, .read 0 3 0, .write 0 [5, 6, 7] 0])).map
        (fun m => (m.pipe 0).stored) = some [4, 5, 6, 7] by decide +kernel)
  exact ⟨m, hm, hstored, (writers_not_stranded hm).1⟩

/-- Process 3 runs on after it was marked `BLOCKED`; when the pipe is empty again it is still
`BLOCKED`. -/
theorem writer_stranded :
    (∃ m, pipeMachine.Reachable m ∧ m.ledger.refused 0 = [3] ∧ m.pid = 3 ∧
      Blocked m.kernel.sched 3) ∧
    ∃ m, pipeMachine.Reachable m ∧ m.ledger.refused 0 = [3] ∧ (m.pipe 0).stored = [] ∧
      Blocked m.kernel.sched 3 := by
  have hrun : ∀ as b, ((execute pipeStep (newPipes fun i => i.val)
      (threeCallers ++ [.write 0 [1, 2, 3, 4, 5, 6, 7, 8, 9, 10] 0, .write 0 [11] 0] ++ as)).map
        fun m => (m.ledger.refused 0, m.pid, (m.pipe 0).stored, processes m.kernel.sched)) =
          some b →
      ∃ m, pipeMachine.Reachable m ∧
        (m.ledger.refused 0, m.pid, (m.pipe 0).stored, processes m.kernel.sched) = b := by
    intro as b h
    obtain ⟨m, hm, h⟩ := Option.map_eq_some_iff.mp h
    exact ⟨m, reachable_of_execute IsPipeStart (isPipeStart_newPipes _) hm, h⟩
  constructor
  · obtain ⟨m, hm, h⟩ := hrun [] ([3], 3, [1, 2, 3, 4, 5, 6, 7, 8, 9, 10],
      [⟨3, .blocked⟩, ⟨2, .ready⟩, ⟨1, .ready⟩, ⟨0, .ready⟩]) (by decide +kernel)
    simp only [Prod.mk.injEq] at h
    obtain ⟨hrefused, hpid, -, hprocs⟩ := h
    exact ⟨m, hm, hrefused, hpid, by rw [Blocked, hprocs]; decide⟩
  · obtain ⟨m, hm, h⟩ := hrun [.tick, .read 0 (-1) 0] ([3], 2, [],
      [⟨2, .running⟩, ⟨1, .ready⟩, ⟨0, .ready⟩, ⟨3, .blocked⟩]) (by decide +kernel)
    simp only [Prod.mk.injEq] at h
    obtain ⟨hrefused, -, hstored, hprocs⟩ := h
    exact ⟨m, hm, hrefused, hstored, by rw [Blocked, hprocs]; decide⟩

/-! ### The order of the calls -/

section

variable {m t : PipeMachine} {i : PipeIndex} {p : Pipe}

/-- A call on a pipe that no other call uses. -/
def perform (p : Pipe) : Call → CallResult × Pipe
  | .write message => (.written (write message p).1, (write message p).2)
  | .read bytes => (.delivered (read bytes p).1, (read bytes p).2)

/-- The calls one after another. -/
def performAll : Pipe → List Call → List CallResult × Pipe
  | p, [] => ([], p)
  | p, c :: cs =>
    let r := perform p c
    let rest := performAll r.2 cs
    (r.1 :: rest.1, rest.2)

theorem performAll_concat (p : Pipe) (cs : List Call) (c : Call) :
    performAll p (cs ++ [c]) = ((performAll p cs).1 ++ [(perform (performAll p cs).2 c).1],
      (perform (performAll p cs).2 c).2) := by
  induction cs generalizing p with
  | nil => rfl
  | cons c' cs ih =>
    rw [List.cons_append, performAll, ih]
    rfl

/-- The calls in the order in which they obtained the mutex give the results that were returned
and the pipe that there is. -/
def Linear (m : PipeMachine) (i : PipeIndex) : Prop :=
  performAll (m.ledger.start i) ((m.ledger.log i).map Prod.fst) =
    ((m.ledger.log i).map Prod.snd, (m.pipe i).toPipe)

/-- The place that a call has computed is the one where the pipe is when it has the mutex, or the
call does not need it. -/
def OrderSound (m : PipeMachine) : PipePending → Prop
  | .write i message aux =>
    aux = (m.pipe i).endPosition ∨ (m.pipe i).isFull = true ∨ text message = []
  | .read i bytes aux =>
    aux = (m.pipe i).position ∨ (m.pipe i).isEmpty = true ∨ requested bytes = 0
  | _ => True

instance (m : PipeMachine) : (c : PipePending) → Decidable (OrderSound m c)
  | .write _ _ _ => inferInstanceAs (Decidable (_ ∨ _ ∨ _))
  | .read _ _ _ => inferInstanceAs (Decidable (_ ∨ _ ∨ _))
  | .reading => inferInstanceAs (Decidable True)
  | .locking => inferInstanceAs (Decidable True)

theorem writeLoop_of_text_nil {message : List UInt8} (h : text message = []) (aux : ℕ)
    (pipe : ℕ → UInt8) : writeLoop p message aux 0 pipe = (0, pipe) := by
  cases message with
  | nil => rfl
  | cons c rest =>
    by_cases hc : c = 0
    · rw [writeLoop, if_neg fun hf => hf.1 hc]
    · rw [text_cons hc] at h
      exact absurd h (List.cons_ne_nil _ _)

theorem writeLoop_fresh {message : List UInt8} {aux : ℕ}
    (h : aux = p.endPosition ∨ text message = []) :
    writeLoop p message aux 0 p.pipe = writeLoop p message p.endPosition 0 p.pipe := by
  rcases h with rfl | hnil
  · rfl
  · rw [writeLoop_of_text_nil hnil, writeLoop_of_text_nil hnil]

theorem readLoop_fresh {bytes : ℤ} {aux : ℕ} (h : aux = p.position ∨ requested bytes = 0) :
    readLoop p (if bytes = -1 then (pipeLength : ℤ) else bytes).toNat aux 0 =
      readLoop p (if bytes = -1 then (pipeLength : ℤ) else bytes).toNat p.position 0 := by
  rcases h with rfl | hzero
  · rfl
  · have hbytes : (if bytes = -1 then (pipeLength : ℤ) else bytes).toNat = 0 := by
      rw [← hzero, requested]
      split_ifs <;> rfl
    rw [hbytes, readLoop, readLoop]

/-- The call does to the pipe what it does on its own. -/
theorem linear_call {c : Call} {r : CallResult} (h : Linear m i)
    (hstart : t.ledger.start i = m.ledger.start i)
    (hlog : t.ledger.log i = m.ledger.log i ++ [(c, r)])
    (hperform : perform (m.pipe i).toPipe c = (r, (t.pipe i).toPipe)) : Linear t i := by
  rw [Linear] at h ⊢
  rw [hstart, hlog, List.map_append, List.map_append, List.map_singleton, List.map_singleton,
    performAll_concat, h, hperform]

theorem linear_other (h : Linear m i) (hstart : t.ledger.start = m.ledger.start)
    (hlog : t.ledger.log i = m.ledger.log i) (hpipe : (t.pipe i).toPipe = (m.pipe i).toPipe) :
    Linear t i := by
  rw [Linear] at h ⊢
  rw [hstart, hlog, h, hpipe]

theorem record_log_self (l : PipeLedger) (i : PipeIndex) (c : Call) (r : CallResult) :
    (l.record i c r).log i = l.log i ++ [(c, r)] := Function.update_self i _ _

theorem record_log_ne (l : PipeLedger) {i j : PipeIndex} (c : Call) (r : CallResult)
    (hj : j ≠ i) : (l.record i c r).log j = l.log j := Function.update_of_ne hj _ _

theorem store_log (l : PipeLedger) (i : PipeIndex) (n : ℕ) :
    (l.store i n).log = l.log ∧ (l.store i n).start = l.start := by
  unfold PipeLedger.store
  split_ifs <;> exact ⟨rfl, rfl⟩

theorem outcome_linear {m₁ : PipeMachine} {c : PipePending} (h : ∀ i, Linear m₁ i)
    (hok : OrderSound m₁ c) (houtcome : Outcome m₁ t c) (j : PipeIndex) : Linear t j := by
  cases houtcome with
  | @refused i message aux hfull hpipe hpid hledger =>
    by_cases hj : j = i
    · subst hj
      refine linear_call (h j) (by rw [hledger]; rfl)
        (by rw [hledger]; exact record_log_self _ j _ _) ?_
      rw [perform, write, if_pos (isFull_iff.mp hfull), hpipe]
    · refine linear_other (h j) (by rw [hledger]; rfl) ?_ (by rw [hpipe])
      rw [hledger]
      exact record_log_ne _ _ _ hj
  | @stored i message aux hfull hpipe hledger =>
    have hstore := store_log m₁.ledger i
      (writeLoop (m₁.pipe i).toPipe message aux 0 (m₁.pipe i).pipe).1
    have hfresh := writeLoop_fresh
      (hok.imp_right fun hor => hor.resolve_left hfull)
    by_cases hj : j = i
    · subst hj
      have hlog : t.ledger.log j = m₁.ledger.log j ++ [(.write message, .written
          (writeLoop (m₁.pipe j).toPipe message aux 0 (m₁.pipe j).pipe).1)] := by
        rw [hledger]
        exact (record_log_self _ j _ _).trans (by rw [hstore.1])
      refine linear_call (h j) (by rw [hledger]; exact congrFun hstore.2 j) hlog ?_
      rw [perform, write, if_neg fun hf => hfull (isFull_iff.mpr hf), ← hfresh, hpipe]
      simp only [PipeMachine.storeMessage, PipeMachine.setPipe, Function.update_self]
    · refine linear_other (h j) (by rw [hledger]; exact hstore.2) ?_ ?_
      · rw [hledger]
        exact (record_log_ne _ _ _ hj).trans (by rw [hstore.1])
      · rw [hpipe]
        simp only [PipeMachine.storeMessage, PipeMachine.setPipe, Function.update_of_ne hj]
  | @waits i bytes aux hempty hpipe hledger =>
    by_cases hj : j = i
    · subst hj
      refine linear_call (h j) (by rw [hledger]; rfl)
        (by rw [hledger]; exact record_log_self _ j _ _) ?_
      rw [perform, read, if_pos (isEmpty_iff.mp hempty), hpipe]
    · refine linear_other (h j) (by rw [hledger]; rfl) ?_ (hpipe j)
      rw [hledger]
      exact record_log_ne _ _ _ hj
  | @taken i bytes aux hempty hpipe hledger =>
    have hfresh := @readLoop_fresh (m₁.pipe i).toPipe _ _
      (hok.imp_right fun hor => hor.resolve_left hempty)
    by_cases hj : j = i
    · subst hj
      refine linear_call (h j) (by rw [hledger]; rfl)
        (by rw [hledger]; exact record_log_self _ j _ _) ?_
      rw [perform, read, if_neg fun hf => hempty (isEmpty_iff.mpr hf)]
      dsimp only
      rw [← hfresh, hpipe]
      simp only [PipeMachine.takeBytes, PipeMachine.setPipe, Function.update_self]
    · refine linear_other (h j) (by rw [hledger]; rfl) ?_ ?_
      · rw [hledger]
        exact record_log_ne _ _ _ hj
      · rw [hpipe]
        simp only [PipeMachine.takeBytes, PipeMachine.setPipe, Function.update_of_ne hj]
  | reading heq => exact heq ▸ h j
  | locking heq => exact heq ▸ h j

/-- The calls are carried out one after another, in the order in which they obtain the mutex. -/
theorem calls_linear (h : (pipeMachine.restrict (Meets OrderSound)).Reachable m)
    (i : PipeIndex) : Linear m i := by
  refine (pipe_invariant (I := fun m => ∀ i, Linear m i) (fun m hs i => ?_)
    (fun m t hm hpipe hledger i => ?_) ?_ h).2 i
  · rw [Linear, hs.ledger]
    rfl
  · rw [Linear, hpipe, hledger]
    exact hm i
  · intro m m₁ t c hm hpipe hok houtcome
    refine outcome_linear hm ?_ houtcome
    cases c <;> simp only [OrderSound, hpipe] at hok ⊢ <;> exact hok

end

/-- A writer waits for the mutex while nobody else uses the pipe. -/
theorem calls_linear_handOff : ∃ m, (pipeMachine.restrict (Meets OrderSound)).Reachable m ∧
    (m.ledger.log 0).map Prod.snd = [.written 2, .delivered [1]] ∧ Linear m 0 := by
  obtain ⟨m, hm, hlog⟩ := reachable_restrict_of_execute IsPipeStart
    (isPipeStart_newPipes fun i => i.val)
    (show (execute (guarded (Meets OrderSound) pipeStep) (newPipes fun i => i.val)
      (threeCallers ++ [.lockMutex 0 0, .tick, .write 0 [1, 2] 0, .tick, .tick, .freeMutex 0,
        .tick, .resume, .tick, .read 0 1 0])).map (fun m => (m.ledger.log 0).map Prod.snd) =
          some [.written 2, .delivered [1]] by decide +kernel)
  exact ⟨m, hm, hlog, calls_linear hm 0⟩

/-- Two writers wait for the mutex with the same place; the second stores its byte over that of
the first. -/
theorem calls_not_linear : ∃ m, pipeMachine.Reachable m ∧
    (m.ledger.log 0).map Prod.snd = [.written 1, .written 1] ∧ (m.pipe 0).stored = [2, 0] ∧
      (performAll (m.ledger.start 0) ((m.ledger.log 0).map Prod.fst)).2.stored = [1, 2] ∧
        ¬ Linear m 0 := by
  obtain ⟨m, hm, h⟩ := Option.map_eq_some_iff.mp
    (show (execute pipeStep (newPipes fun i => i.val) (threeCallers ++ [.lockMutex 0 0, .tick,
      .write 0 [1] 0, .write 0 [2] 0, .tick, .freeMutex 0, .tick, .resume, .tick, .resume])).map
        (fun m => ((m.ledger.log 0).map Prod.snd, (m.pipe 0).stored,
          (performAll (m.ledger.start 0) ((m.ledger.log 0).map Prod.fst)).2.stored)) =
            some ([.written 1, .written 1], [2, 0], [1, 2]) by decide +kernel)
  simp only [Prod.mk.injEq] at h
  obtain ⟨hlog, hstored, hperform⟩ := h
  refine ⟨m, reachable_of_execute IsPipeStart (isPipeStart_newPipes _) hm, hlog, hstored,
    hperform, fun hlinear => ?_⟩
  rw [Linear] at hlinear
  rw [hlinear] at hperform
  exact absurd (hstored.symm.trans hperform) (by decide)

end GatOS.IPC
