import GatOS.ProcessRing

/-!
# Looking up a process

`changeProcessState` follows the links of the ring. `getProcessById` takes the slot of the current
process for the first element of an array of slots.
-/
namespace GatOS.Scheduler
open BuddyAllocator LinkedRing Transition

/-- `sizeof(ProcessSlot)`. -/
def slotSize : ℕ := 16

/-- `&slot[i]`. -/
def element (slot i : ℕ) : ℕ := slot + i * slotSize

/-- The loop of `getProcessById` in round `i`: the slots that it reads, and the one whose process it
returns. -/
def getProcessByIdLoop (pid : ℤ) (slot : ℕ) (s : State) : ℕ → ℕ → List ℕ × Option ℕ
  | 0, _ => ([], none)
  | n + 1, i =>
    if (s.processOf (element slot i)).pid = pid then ([element slot i], some (element slot i))
    else
      let rest := getProcessByIdLoop pid slot s n (i + 1)
      (element slot i :: rest.1, rest.2)

def getProcessByIdRun (pid : ℤ) (s : State) : List ℕ × Option ℕ :=
  getProcessByIdLoop pid s.current s s.cardinalProcesses 0

/-- A process is given by the slot that points to it, `NULL` by `none`. -/
def getProcessById (pid : ℤ) (s : State) : Option ℕ := (getProcessByIdRun pid s).2

def slotsRead (pid : ℤ) (s : State) : List ℕ := (getProcessByIdRun pid s).1

/-- The slots form a ring, unless there are none, and each begins a page. -/
structure SlotRing (s : State) : Prop where
  isRing : ring s ≠ [] → IsRing s.nextOf s.current (ring s)
  isPage : ∀ a ∈ ring s, IsPage a

/-- The process that is found is the one that `changeProcessState` changes, and only slots of the
ring are read. -/
structure LookupAgrees (pid : ℤ) (s : State) : Prop where
  found : ∀ a, getProcessById pid s = some a →
    ∀ state, changeProcessState pid state s = s.setState a state
  null : getProcessById pid s = none ↔ ∀ state, changeProcessState pid state s = s
  reads : ∀ a ∈ slotsRead pid s, a ∈ ring s

variable {s : State} {pid : ℤ}

theorem RingInvariant.slotRing (h : RingInvariant s) : SlotRing s :=
  ⟨fun _ => h.isRing, fun a ha => h.isPage a (h.slots a ha)⟩

/-- Two pages are further apart than two elements. -/
theorem element_one_notMem (h : SlotRing s) (hmem : s.current ∈ ring s) :
    element s.current 1 ∉ ring s := by
  intro hnext
  have hcur := (h.isPage _ hmem).2.2
  have hpage := h.isPage _ hnext
  have hge := (h.isPage _ hmem).1
  have hmod := hpage.2.2
  unfold element slotSize pageSize at *
  omega

/-- The first round looks at the current process. -/
theorem getProcessByIdRun_current (hcur : (s.processOf s.current).pid = pid)
    (hpos : 0 < s.cardinalProcesses) : getProcessByIdRun pid s = ([s.current], some s.current) := by
  obtain ⟨n, hn⟩ := Nat.exists_eq_succ_of_ne_zero hpos.ne'
  have hfirst : element s.current 0 = s.current := by simp [element]
  simp [getProcessByIdRun, hn, getProcessByIdLoop, hfirst, hcur]

theorem changeProcessState_current (hcur : (s.processOf s.current).pid = pid)
    (hpos : 0 < s.cardinalProcesses) (state : ProcessState) :
    changeProcessState pid state s = s.setState s.current state := by
  obtain ⟨n, hn⟩ := Nat.exists_eq_succ_of_ne_zero hpos.ne'
  simp [changeProcessState, hn, changeProcessStateLoop, hcur]

theorem setState_ne_self (s : State) (a : ℕ) :
    ¬ ∀ state, s.setState a state = s := by
  intro hall
  have hat : ∀ state, (s.processOf a).state = state := fun state => by
    have hself := setState_processOf_self s a state
    rw [hall state] at hself
    exact congrArg Process.state hself
  exact absurd ((hat .running).symm.trans (hat .ready)) (by simp)

theorem lookupAgrees_current (hmem : s.current ∈ ring s)
    (hcur : (s.processOf s.current).pid = pid) : LookupAgrees pid s := by
  have hpos : 0 < s.cardinalProcesses := by
    rw [← length_ring]
    exact List.length_pos_of_mem hmem
  have hrun := getProcessByIdRun_current hcur hpos
  have hchange := changeProcessState_current hcur hpos
  constructor
  · intro a ha state
    rw [getProcessById, hrun] at ha
    rw [hchange, Option.some.inj ha]
  · rw [getProcessById, hrun]
    simp only [reduceCtorEq, false_iff]
    intro hall
    exact setState_ne_self s s.current fun state => by rw [← hchange, hall]
  · rw [slotsRead, hrun]
    simpa using hmem

/-- A ring without a second process. -/
theorem lookupAgrees_of_le (hmem : 0 < s.cardinalProcesses → s.current ∈ ring s)
    (hcard : s.cardinalProcesses ≤ 1) : LookupAgrees pid s := by
  rcases Nat.le_one_iff_eq_zero_or_eq_one.mp hcard with hzero | hone
  · have hrun : getProcessByIdRun pid s = ([], none) := by
      simp [getProcessByIdRun, hzero, getProcessByIdLoop]
    have hchange : ∀ state, changeProcessState pid state s = s := fun state => by
      simp [changeProcessState, hzero, changeProcessStateLoop]
    constructor
    · simp [getProcessById, hrun]
    · simp [getProcessById, hrun, hchange]
    · simp [slotsRead, hrun]
  · have hmem := hmem (by rw [hone]; exact Nat.one_pos)
    by_cases hcur : (s.processOf s.current).pid = pid
    · exact lookupAgrees_current hmem hcur
    · have hfirst : element s.current 0 = s.current := by simp [element]
      have hrun : getProcessByIdRun pid s = ([s.current], none) := by
        simp [getProcessByIdRun, hone, getProcessByIdLoop, hfirst, hcur]
      have hchange : ∀ state, changeProcessState pid state s = s := fun state => by
        simp [changeProcessState, hone, changeProcessStateLoop, hcur]
      constructor
      · simp [getProcessById, hrun]
      · simp [getProcessById, hrun, hchange]
      · simpa [slotsRead, hrun] using hmem

/-- The second round reads behind the slot of the current process. -/
theorem element_one_mem_slotsRead (hcur : (s.processOf s.current).pid ≠ pid)
    (hcard : 2 ≤ s.cardinalProcesses) : element s.current 1 ∈ slotsRead pid s := by
  obtain ⟨n, hn⟩ := Nat.exists_eq_add_of_le' hcard
  have hfirst : element s.current 0 = s.current := by simp [element]
  simp only [slotsRead, getProcessByIdRun, hn, getProcessByIdLoop, hfirst, hcur, if_false]
  split_ifs <;> simp

/-- The lookup and the update agree on the running process, and in a ring of one process. -/
theorem lookupAgrees_iff (h : SlotRing s) (pid : ℤ) :
    LookupAgrees pid s ↔ getCurrentPid s = pid ∨ s.cardinalProcesses ≤ 1 := by
  have hmem : 0 < s.cardinalProcesses → s.current ∈ ring s := fun hpos => by
    have hne : ring s ≠ [] := by
      rw [← List.length_pos_iff, length_ring]
      exact hpos
    obtain ⟨l, hl⟩ := (h.isRing hne).eq_cons
    rw [hl]
    exact List.mem_cons_self
  by_cases hcard : s.cardinalProcesses ≤ 1
  · exact iff_of_true (lookupAgrees_of_le hmem hcard) (Or.inr hcard)
  · have hcurrent := hmem (by omega)
    have hnull : s.current ≠ null := (h.isPage _ hcurrent).ne_null
    rw [or_iff_left hcard, getCurrentPid, if_neg hnull]
    constructor
    · intro hagrees
      by_contra hcur
      exact element_one_notMem h hcurrent
        (hagrees.reads _ (element_one_mem_slotsRead hcur (by omega)))
    · exact lookupAgrees_current hcurrent

/-- The init process creates the shell. -/
theorem exists_shell :
    ∃ s, (historySystem.restrict fun s r => r.Admissible s).Reachable s ∧
      pids s.state = [0, 1] ∧ ring s.state = [pageAt 0, pageAt 1] ∧
      getProcessByIdRun 1 s.state = ([pageAt 0, pageAt 0 + 16], none) ∧
      processes (changeProcessState 1 .blocked s.state) = [⟨0, .ready⟩, ⟨1, .blocked⟩] := by
  obtain ⟨s, hs, hview⟩ := reachable_restrict_of_execute IsStart
    (show IsStart started from ⟨emptySlots, pageAt 0, by decide, rfl⟩)
    (show (execute (guarded (fun s r => Request.Admissible s r) historyStep) started
      [.createProcess (pageAt 1)]).map (fun s : History => (pids s.state, ring s.state,
        getProcessByIdRun 1 s.state, processes (changeProcessState 1 .blocked s.state))) =
      some ([0, 1], [pageAt 0, pageAt 1], ([pageAt 0, pageAt 0 + 16], none),
        [⟨0, .ready⟩, ⟨1, .blocked⟩]) by decide +kernel)
  simp only [Prod.mk.injEq] at hview
  exact ⟨s, hs, hview⟩

theorem lookupAgrees_running : ∃ s : History, pids s.state = [0, 1] ∧ LookupAgrees 0 s.state := by
  obtain ⟨s, hs, hpids, -⟩ := exists_shell
  have hinv := (reachable_historyInvariant hs).ring
  refine ⟨s, hpids, (lookupAgrees_iff hinv.slotRing 0).mpr (Or.inl ?_)⟩
  obtain ⟨l, -, hproc⟩ := processes_eq_cons hinv
  rw [pids, hproc] at hpids
  rw [getCurrentPid_eq hinv]
  exact (List.cons.inj hpids).1

/-- The init process looks for the shell: it reads behind its own slot and finds nothing. -/
theorem shell_not_found :
    ∃ s, (historySystem.restrict fun s r => r.Admissible s).Reachable s ∧
      pids s.state = [0, 1] ∧ getProcessById 1 s.state = none ∧
      InState (changeProcessState 1 .blocked s.state) 1 .blocked ∧
      (∃ a ∈ slotsRead 1 s.state, a ∉ ring s.state) ∧ ¬ LookupAgrees 1 s.state := by
  obtain ⟨s, hs, hpids, hring, hrun, hproc⟩ := exists_shell
  have hreads : pageAt 0 + 16 ∈ slotsRead 1 s.state := by simp [slotsRead, hrun]
  have hnot : pageAt 0 + 16 ∉ ring s.state := by
    rw [hring]
    decide
  refine ⟨s, hs, hpids, by rw [getProcessById, hrun], ?_, ⟨_, hreads, hnot⟩, fun hagrees => ?_⟩
  · rw [InState, hproc]
    simp
  · exact hnot (hagrees.reads _ hreads)

end GatOS.Scheduler
