import GatOS.SchedulerRing

/-!
# The ring over whole runs

Processes are created, removed and switched in any order. The init process is never blocked,
so that every switch finds a ready process.
-/
namespace GatOS.Scheduler
open BuddyAllocator LinkedRing Transition

/-! ### Switching comes to an end -/

/-- The init process is ready, or it is the running one. -/
def InitRuns (s : State) : Prop :=
  ⟨initPid, .ready⟩ ∈ processes s ∨
    getCurrentPid s = initPid ∧ ⟨initPid, .running⟩ ∈ processes s

theorem schedule_isSome {s : State} {l : List ℕ} {b : ℕ}
    (h : Chain s.nextOf (s.nextOf s.current) l b) (hlen : l.length = s.cardinalProcesses)
    (hready : ∃ x ∈ l, (s.preempted.processOf x).state = .ready) :
    ∃ t, schedule s = some t := by
  obtain ⟨x, hx, hr⟩ := hready
  rw [← preempted_nextOf] at h
  have hfind := findReady_chain h
  have hsome : (l.find? fun x => (s.preempted.processOf x).state = .ready).isSome := by
    rw [List.find?_isSome]
    exact ⟨x, hx, by simpa using hr⟩
  obtain ⟨y, hy⟩ := Option.isSome_iff_exists.mp hsome
  rw [hy, hlen, ← preempted_cardinalProcesses, preempted_nextOf] at hfind
  refine ⟨{ s.preempted with current := y }.setState y .running, ?_⟩
  have hrun : schedule s = (findReady s.preempted s.preempted.cardinalProcesses
      (s.preempted.nextOf s.preempted.current)).map fun slot =>
        { s.preempted with current := slot }.setState slot .running := rfl
  rw [hrun, preempted_nextOf, preempted_current, hfind]
  rfl

theorem mem_processes {s : State} {p : Process} :
    p ∈ processes s ↔ ∃ a ∈ ring s, s.processOf a = p := List.mem_map

/-- When the init process runs, its slot is ready as soon as the current one is preempted. -/
theorem InitRuns.exists_ready {s : State} (h : RingInvariant s) (hinit : InitRuns s) :
    ∃ x ∈ ring s, s.preempted.processOf x = ⟨initPid, .ready⟩ := by
  rcases hinit with hready | ⟨hcur, hrunning⟩
  · obtain ⟨x, hx, hp⟩ := mem_processes.mp hready
    refine ⟨x, hx, ?_⟩
    rw [preempted_processOf, hp]
    split_ifs <;> rfl
  · obtain ⟨x, hx, hp⟩ := mem_processes.mp hrunning
    have hxcur : x = s.current := by
      refine h.slot_eq hx h.current_mem ?_
      rw [hp, ← getCurrentPid_eq h, hcur]
    refine ⟨x, hx, ?_⟩
    rw [preempted_processOf, if_pos hxcur, hp]
    rfl

/-- Switching keeps the init process ready or running. -/
theorem InitRuns.of_dispatched {t : State} {l : List Process} (h : RingInvariant t)
    (hd : Dispatched l (processes t)) (hready : ⟨initPid, .ready⟩ ∈ l) : InitRuns t := by
  obtain ⟨l₁, p, l₂, rfl, -, hm⟩ := hd.exists_split
  rw [InitRuns, getCurrentPid_of_processes h hm, hm]
  rw [List.mem_append, List.mem_cons] at hready
  rcases hready with hl | rfl | hl
  · exact Or.inl (by simp [hl])
  · exact Or.inr ⟨rfl, List.mem_cons_self⟩
  · exact Or.inl (by simp [hl])

theorem RingInvariant.schedule_total {s : State} (h : RingInvariant s) (hinit : InitRuns s) :
    ∃ t, Scheduler.schedule s = some t ∧ RingInvariant t ∧ InitRuns t ∧
      (pids t).Perm (pids s) := by
  obtain ⟨x, hx, hready⟩ := hinit.exists_ready h
  obtain ⟨l, hl, hproc⟩ := processes_eq_cons h
  obtain ⟨hring, -, hlen⟩ := h.round hl
  rw [hl] at hx
  have hmem : x ∈ l ++ [s.current] := by simpa [or_comm] using hx
  obtain ⟨t, ht⟩ := schedule_isSome hring.tail hlen ⟨x, hmem, by rw [hready]⟩
  obtain ⟨hinv, -, c, rest, hc, hdisp⟩ := h.schedule ht
  obtain ⟨rfl, rfl⟩ := List.cons.inj (hc.symm.trans hproc)
  refine ⟨t, ht, hinv, InitRuns.of_dispatched hinv hdisp ?_, ?_⟩
  · rw [← hready, preempted_processOf]
    split_ifs with hcur
    · rw [hcur]
      simp
    · have : x ∈ l := by simpa [hcur] using hx
      simp only [List.mem_append, List.mem_map]
      exact Or.inl ⟨x, this, rfl⟩
  · exact (schedule_view h ht).2.1

theorem InitRuns.ready_of_current_ne {s : State} {c : Process} {rest : List Process}
    (h : RingInvariant s) (hinit : InitRuns s) (hl : processes s = c :: rest)
    (hne : c.pid ≠ initPid) : ⟨initPid, .ready⟩ ∈ rest := by
  rw [InitRuns, getCurrentPid_of_processes h hl, hl, List.mem_cons] at hinit
  rcases hinit with (rfl | hmem) | ⟨hc, -⟩
  · exact absurd rfl hne
  · exact hmem
  · exact absurd hc hne

theorem RingInvariant.removeProcess_total {s : State} (h : RingInvariant s) (hinit : InitRuns s)
    {pid : ℤ} (hpid : pid ≠ 0) :
    ∃ t, Scheduler.removeProcess pid s = some t ∧ RingInvariant t ∧ InitRuns t ∧
      (pids t).Perm ((pids s).erase pid) := by
  have hsome : ∃ t, Scheduler.removeProcess pid s = some t := by
    rcases removeProcess_cases h hpid with
      ⟨-, hrun⟩ | ⟨_, _, _, _, -, -, -, hrun⟩ | ⟨l, p, hl, hcur, hrun⟩
    · exact ⟨_, hrun⟩
    · exact ⟨_, hrun⟩
    · obtain ⟨hchain, hlen, hproc⟩ := h.unlink_current_chain hl
      have hready := hinit.ready_of_current_ne h hproc (by
        rw [← getCurrentPid_eq h, ← hcur]
        exact hpid)
      obtain ⟨x, hx, hp⟩ := List.mem_map.mp hready
      rw [hrun]
      exact schedule_isSome hchain hlen ⟨x, hx, by rw [hp]⟩
  obtain ⟨t, ht⟩ := hsome
  refine ⟨t, ht, ?_⟩
  rcases h.removeProcess hpid ht with
    ⟨hnone, rfl⟩ | ⟨-, hinv, -, hcur, hproc⟩ | ⟨hcur, hinv, -, c, rest, hproc, hc, hdisp⟩
  · rw [List.erase_of_not_mem hnone]
    exact ⟨h, hinit, List.Perm.refl _⟩
  · refine ⟨hinv, ?_, ?_⟩
    · have hkeep : ∀ st, ⟨initPid, st⟩ ∈ processes s → ⟨initPid, st⟩ ∈ processes t :=
        fun st hmem => by
          rw [hproc, List.mem_filter]
          exact ⟨hmem, by simpa using fun he => hpid he.symm⟩
      rw [InitRuns, hcur]
      exact hinit.imp (hkeep _) fun hr => ⟨hr.1, hkeep _ hr.2⟩
    · rw [pids, hproc, h.pids_nodup.erase_eq_filter, pids, List.filter_map]
      refine List.Perm.of_eq (congrArg _ (List.filter_congr fun q _ => ?_))
      by_cases hq : q.pid = pid <;> simp [hq]
  · have hready := hinit.ready_of_current_ne h hproc (by rw [hc]; exact hpid)
    refine ⟨hinv, InitRuns.of_dispatched hinv hdisp hready, ?_⟩
    rw [pids, pids, hproc, List.map_cons, hc, List.erase_cons_head]
    exact hdisp.perm_pids

/-- The other processes can go to any state. -/
theorem InitRuns.changeProcessState {s : State} (h : RingInvariant s) (hinit : InitRuns s) {pid : ℤ}
    (hpid : pid ≠ initPid) (state : ProcessState) :
    InitRuns (changeProcessState pid state s) := by
  obtain ⟨-, hproc, hcur⟩ := changeProcessState_spec h pid state
  have hkeep : ∀ st, ⟨initPid, st⟩ ∈ processes s →
      ⟨initPid, st⟩ ∈ processes (Scheduler.changeProcessState pid state s) := fun st hmem => by
    rw [hproc, List.mem_map]
    exact ⟨_, hmem, if_neg fun he => hpid he.symm⟩
  rw [InitRuns, hcur]
  exact hinit.imp (hkeep _) fun hrun => ⟨hrun.1, hkeep _ hrun.2⟩

theorem InitRuns.createProcess {s : State} (h : RingInvariant s) (hinit : InitRuns s) {page : ℕ}
    (hpage : FreshPage s page) : InitRuns (createProcess page s).2 := by
  obtain ⟨hinv, c, rest, hproc, hproc'⟩ := h.createProcess hpage
  have hcur := getCurrentPid_of_processes h hproc
  have hkeep : ∀ st, ⟨initPid, st⟩ ∈ processes s →
      ⟨initPid, st⟩ ∈ processes (Scheduler.createProcess page s).2 := fun st hmem => by
    rw [hproc', List.mem_cons, List.mem_cons]
    rw [hproc, List.mem_cons] at hmem
    exact hmem.imp_right Or.inr
  rw [InitRuns, getCurrentPid_of_processes hinv hproc', ← hcur]
  exact hinit.imp (hkeep _) fun hrun => ⟨hrun.1, hkeep _ hrun.2⟩

/-! ### Runs -/

/-- The memory of the slots holds anything before the first process is created. -/
def boot (slot : ℕ → ProcessSlot) : State := ⟨slot, null, 0, 0, []⟩

/-- The scheduler, and the processes created and not removed. -/
structure History where
  state : State
  alive : List ℤ

inductive Request
  | createProcess (page : ℕ)
  | removeProcess (pid : ℤ)
  | changeProcessState (pid : ℤ) (state : ProcessState)
  | switch

/-- `main` starts with the init process. -/
def IsStart (s : History) : Prop :=
  ∃ slot page, IsPage page ∧ s = ⟨(createProcess page (boot slot)).2, [initPid]⟩

/-- `allocPage` returns fresh pages, and the init process, which makes no system call, is never
put to sleep or blocked. -/
def Request.Admissible (s : History) : Request → Prop
  | .createProcess page => FreshPage s.state page
  | .changeProcessState pid _ => pid ≠ initPid
  | .removeProcess _ => True
  | .switch => True

instance (s : History) (r : Request) : Decidable (r.Admissible s) := by
  cases r <;> unfold Request.Admissible <;> infer_instance

/-- Process 0 is never removed. -/
def historyStep (s : History) : Request → Option History
  | .createProcess page =>
    let r := createProcess page s.state
    some ⟨r.2, r.1 :: s.alive⟩
  | .removeProcess pid =>
    (removeProcess pid s.state).map fun t => ⟨t, if pid = 0 then s.alive else s.alive.erase pid⟩
  | .changeProcessState pid state => some { s with state := changeProcessState pid state s.state }
  | .switch => (yield s.state).map fun t => { s with state := t }

def historySystem : System History Request := ofStep IsStart historyStep

/-- Following `next` from `current` visits each process created and not removed, once, and comes
back to `current`. -/
structure ProcessRing (s : History) : Prop where
  visits : (ring s.state).Nodup
  returns : s.state.nextOf^[s.state.cardinalProcesses] s.state.current = s.state.current
  pids_nodup : (pids s.state).Nodup
  init : initPid ∈ pids s.state
  alive : (pids s.state).Perm s.alive

structure HistoryInvariant (s : History) : Prop where
  ring : RingInvariant s.state
  initRuns : InitRuns s.state
  alive : (pids s.state).Perm s.alive

theorem HistoryInvariant.processRing {s : History} (h : HistoryInvariant s) : ProcessRing s := by
  have hret := h.ring.isRing.chain.iterate_length
  rw [length_ring] at hret
  exact ⟨h.ring.isRing.nodup, hret, h.ring.pids_nodup, h.ring.init, h.alive⟩

/-- The first process becomes the current one and its own successor. -/
theorem createProcess_boot (slot : ℕ → ProcessSlot) (page : ℕ) :
    let t := (createProcess page (boot slot)).2
    t.current = page ∧ t.cardinalProcesses = 1 ∧ t.pid = 1 ∧ t.pages = [page] ∧
      t.nextOf page = page ∧ t.processOf page = ⟨initPid, .ready⟩ := by
  have hadd : ∀ p s, State.current s = null → addProcess page p s =
      { (newProcessSlot page p s).setNext page page with current := page } :=
    fun p s h => if_pos h
  intro t
  have ht : t = { addProcess page ⟨0, .ready⟩ (getProcess (boot slot)).2 with
      cardinalProcesses :=
        (addProcess page ⟨0, .ready⟩ (getProcess (boot slot)).2).cardinalProcesses + 1 } := rfl
  rw [ht, hadd _ _ rfl]
  refine ⟨rfl, rfl, rfl, rfl, ?_, ?_⟩
  · simp [State.nextOf, State.setNext, State.setSlot]
  · simp [State.processOf, State.setNext, State.setSlot, newProcessSlot, initPid]

theorem historyInvariant_start {s : History} (hs : IsStart s) : HistoryInvariant s := by
  obtain ⟨slot, page, hpage, rfl⟩ := hs
  obtain ⟨hcur, hcard, hpid, hpages, hnext, hproc⟩ := createProcess_boot slot page
  set t := (createProcess page (boot slot)).2
  have hring : IsRing t.nextOf t.current [page] := by
    rw [hcur]
    exact isRing_singleton hnext
  have heq : ring t = [page] := ring_eq hring (by rw [hcard]; rfl)
  have hprocs : processes t = [⟨initPid, .ready⟩] := by
    rw [processes, heq, List.map_singleton, hproc]
  have hpids : pids t = [initPid] := by rw [pids, hprocs, List.map_singleton]
  refine ⟨⟨by rwa [heq], ?_, ?_, ?_, ?_, ?_, ?_, ?_⟩, Or.inl ?_, ?_⟩
  · rw [heq, hpages]
    exact fun a ha => ha
  · simpa [hpages] using hpage
  · simp [hpages]
  · simp [hpid, hpages]
  · simp [hpids, hpid, initPid]
  · simp [hpids]
  · simp [hpids]
  · simp [hprocs]
  · rw [hpids]

theorem historyStep_total {s : History} (h : HistoryInvariant s) {r : Request}
    (hr : r.Admissible s) : ∃ t, historyStep s r = some t ∧ HistoryInvariant t := by
  cases r with
  | createProcess page =>
    refine ⟨_, rfl, (h.ring.createProcess hr).1, h.initRuns.createProcess h.ring hr, ?_⟩
    exact (pids_createProcess h.ring hr).trans (h.alive.cons _)
  | removeProcess pid =>
    by_cases hpid : pid = 0
    · obtain ⟨t, ht, hinv, hinit, hperm⟩ := h.ring.schedule_total h.initRuns
      have hrun : removeProcess pid s.state = some t := by
        rw [removeProcess, if_pos hpid, yield, if_neg h.ring.current_ne_null, ht]
      refine ⟨⟨t, s.alive⟩, ?_, hinv, hinit, hperm.trans h.alive⟩
      rw [historyStep, hrun, if_pos hpid]
      rfl
    · obtain ⟨t, ht, hinv, hinit, hperm⟩ := h.ring.removeProcess_total h.initRuns hpid
      refine ⟨⟨t, s.alive.erase pid⟩, ?_, hinv, hinit, hperm.trans (h.alive.erase pid)⟩
      rw [historyStep, ht, if_neg hpid]
      rfl
  | changeProcessState pid state =>
    refine ⟨_, rfl, (changeProcessState_spec h.ring pid state).1,
      h.initRuns.changeProcessState h.ring hr state, ?_⟩
    show (pids (Scheduler.changeProcessState pid state s.state)).Perm s.alive
    rw [pids_changeProcessState h.ring]
    exact h.alive
  | switch =>
    obtain ⟨t, ht, hinv, hinit, hperm⟩ := h.ring.schedule_total h.initRuns
    refine ⟨{ s with state := t }, ?_, hinv, hinit, hperm.trans h.alive⟩
    rw [historyStep, yield, if_neg h.ring.current_ne_null, ht]
    rfl

theorem reachable_historyInvariant {s : History}
    (h : (historySystem.restrict fun s r => r.Admissible s).Reachable s) : HistoryInvariant s := by
  refine h.invariant (I := HistoryInvariant) (fun _ hs => historyInvariant_start hs) ?_
  rintro s r t hinv ⟨hr, hstep⟩
  obtain ⟨t', ht', hinv'⟩ := historyStep_total hinv hr
  obtain rfl : t' = t := by
    rw [historySystem, ofStep] at hstep
    exact Option.some.inj (ht'.symm.trans hstep)
  exact hinv'

/-- In every run the slots form a ring of the processes created and not removed, and every
request comes to an end. -/
theorem process_ring {s : History}
    (h : (historySystem.restrict fun s r => r.Admissible s).Reachable s) :
    ProcessRing s ∧ ∀ r, r.Admissible s → ∃ t, historyStep s r = some t := by
  have hinv := reachable_historyInvariant h
  refine ⟨hinv.processRing, fun r hr => ?_⟩
  obtain ⟨t, ht, -⟩ := historyStep_total hinv hr
  exact ⟨t, ht⟩

/-- The first pages of the heap. -/
def pageAt (i : ℕ) : ℕ := baseMemory + pageSize * i

def emptySlots : ℕ → ProcessSlot := fun _ => ⟨null, ⟨0, .running⟩⟩

def started : History := ⟨(createProcess (pageAt 0) (boot emptySlots)).2, [initPid]⟩

theorem process_ring_removals : ∃ s, pids s.state = [3, 0] ∧ ProcessRing s := by
  obtain ⟨s, hs, hp⟩ := reachable_restrict_of_execute IsStart
    (show IsStart started from ⟨emptySlots, pageAt 0, by decide, rfl⟩)
    (show (execute (guarded (fun s r => Request.Admissible s r) historyStep) started
      [.createProcess (pageAt 1), .createProcess (pageAt 2), .switch, .removeProcess 2,
        .changeProcessState 1 .blocked, .createProcess (pageAt 3), .removeProcess 9, .switch,
        .removeProcess 1]).map (fun s => pids s.state) = some [3, 0] by decide +kernel)
  exact ⟨s, hp, (process_ring hs).1⟩

end GatOS.Scheduler
