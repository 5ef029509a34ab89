import GatOS.BoundedWaiting
import GatOS.ProcessRing

/-!
# No process waits forever

A process that is ready gets the processor after as many switches as there are processes before it
in the ring and processes that are created meanwhile: a new process goes to the place behind the
running one, ahead of all that wait. As there are not more processes than pages, the number of
switches has a fixed bound.
-/
namespace GatOS.Scheduler
open LinkedRing Transition

/-- Process `p` is ready and does not have the processor. -/
def Awaits (p : ℤ) (s : State) : Prop := ⟨p, .ready⟩ ∈ (processes s).tail

/-- The processes that `schedule` looks at before `p`. -/
def ahead (p : ℤ) (s : State) : ℕ := (pids s).tail.idxOf p

namespace Request

def switches : Request → ℕ
  | .switch => 1
  | _ => 0

def creations : Request → ℕ
  | .createProcess _ => 1
  | _ => 0

/-- The request neither removes `p` nor changes its state. -/
def Keeps (p : ℤ) : Request → Prop
  | .removeProcess pid => pid ≠ p
  | .changeProcessState pid _ => pid ≠ p
  | _ => True

end Request

section

variable {s t : State} {p : ℤ}

/-- The slots before the one that gets the processor hold no process that is ready. -/
theorem schedule_skips {l l₁ l₂ : List ℕ} {x : ℕ}
    (h : Chain s.nextOf (s.nextOf s.current) l (s.nextOf s.current)) (hnodup : l.Nodup)
    (hlen : l.length = s.cardinalProcesses) (ht : schedule s = some t)
    (hsplit : l = l₁ ++ x :: l₂) (hx : t.current = x) :
    ∀ a ∈ l₁, (s.preempted.processOf a).state ≠ .ready := by
  intro a ha hready
  rw [← preempted_nextOf] at h
  have hfind := findReady_chain h
  have hrun : schedule s = (findReady s.preempted s.preempted.cardinalProcesses
      (s.preempted.nextOf s.preempted.current)).map fun slot =>
        { s.preempted with current := slot }.setState slot .running := rfl
  rw [hrun, preempted_cardinalProcesses, preempted_current, ← hlen, hfind,
    Option.map_eq_some_iff] at ht
  obtain ⟨y, hy, rfl⟩ := ht
  obtain rfl : y = x := hx
  -- the search would have stopped in `l₁`
  rw [hsplit, List.find?_append] at hy
  have hsome : (l₁.find? fun b => (s.preempted.processOf b).state = .ready).isSome := by
    rw [List.find?_isSome]
    exact ⟨a, ha, by simpa using hready⟩
  obtain ⟨z, hz⟩ := Option.isSome_iff_exists.mp hsome
  rw [hz] at hy
  obtain rfl : z = y := by simpa using hy
  rw [hsplit] at hnodup
  exact (List.disjoint_of_nodup_append hnodup) (List.mem_of_find?_eq_some hz) List.mem_cons_self

/-- A switch gives the processor to `p` or brings it forward. -/
theorem schedule_forward {l : List ℕ}
    (h : Chain s.nextOf (s.nextOf s.current) l (s.nextOf s.current)) (hnodup : l.Nodup)
    (hlen : l.length = s.cardinalProcesses) (ht : schedule s = some t)
    (hpids : ((l.map s.preempted.processOf).map Process.pid).Nodup)
    (hp : ⟨p, .ready⟩ ∈ l.map s.preempted.processOf) (hring : RingInvariant t) :
    getCurrentPid t = p ∨ (Awaits p t ∧
      ahead p t + 1 ≤ ((l.map s.preempted.processOf).map Process.pid).idxOf p) := by
  obtain ⟨l₁, x, l₂, hsplit, -, htx, -, hringt⟩ := schedule_chain h hnodup hlen ht
  have hcurrent : t.current = x := by rw [htx]; rfl
  have hskips := schedule_skips h hnodup hlen ht hsplit hcurrent
  have hdisp := (schedule_dispatched h hnodup hlen ht).2.2.2.2.2
  have hother : ∀ a ∈ l₂ ++ l₁, t.processOf a = s.preempted.processOf a := fun a ha => by
    have hne : a ≠ x := by
      rintro rfl
      rw [hsplit] at hnodup
      rcases List.mem_append.mp ha with ha | ha
      · exact (List.nodup_cons.mp (List.nodup_append.mp hnodup).2.1).1 ha
      · exact (List.disjoint_of_nodup_append hnodup) ha List.mem_cons_self
    rw [htx, setState_processOf_ne _ _ hne]
    rfl
  have hprocesses : processes t = t.processOf x :: (l₂ ++ l₁).map s.preempted.processOf := by
    rw [processes, hringt, List.cons_append, List.map_cons]
    exact congrArg _ (List.map_congr_left hother)
  have hpid : (t.processOf x).pid = (s.preempted.processOf x).pid := by
    rw [htx, setState_processOf_self]
    rfl
  subst hsplit
  simp only [List.map_append, List.map_cons] at hpids hp ⊢
  rw [List.mem_append, List.mem_cons] at hp
  rcases hp with hp | hp | hp
  · obtain ⟨a, ha, he⟩ := List.mem_map.mp hp
    exact absurd (by rw [he]) (hskips a ha)
  · left
    rw [getCurrentPid_of_processes hring hprocesses, hpid, ← hp]
  · right
    refine ⟨?_, ?_⟩
    · rw [Awaits, hprocesses, List.tail_cons, List.map_append]
      exact List.mem_append_left _ hp
    · rw [ahead, pids, hprocesses, List.map_cons, List.tail_cons, List.map_append,
        List.map_append]
      exact idxOf_turn hpids (List.mem_map.mpr ⟨_, hp, rfl⟩)

theorem switch_forward (h : RingInvariant s) (ht : schedule s = some t) (hp : Awaits p s) :
    getCurrentPid t = p ∨ (Awaits p t ∧ ahead p t + 1 ≤ ahead p s) := by
  obtain ⟨l, hl, hproc⟩ := processes_eq_cons h
  obtain ⟨hring, hnodup, hlen⟩ := h.round hl
  have hcur : s.current ∉ l := (List.nodup_cons.mp hring.nodup).1
  have hmap : (l ++ [s.current]).map s.preempted.processOf =
      l.map s.processOf ++ [preempt (s.processOf s.current)] := by
    rw [List.map_append, List.map_singleton, preempted_processOf, if_pos rfl]
    congr 1
    refine List.map_congr_left fun a ha => ?_
    rw [preempted_processOf, if_neg]
    rintro rfl
    exact hcur ha
  have hpids := h.pids_nodup
  rw [pids, hproc, List.map_cons] at hpids
  rw [Awaits, hproc, List.tail_cons] at hp
  have hmem : p ∈ (l.map s.processOf).map Process.pid := List.mem_map.mpr ⟨_, hp, rfl⟩
  have hforward := schedule_forward (p := p) hring.tail hnodup hlen ht ?_ ?_ (h.schedule ht).1
  · rw [hmap, List.map_append, List.idxOf_append_of_mem hmem] at hforward
    have hahead : ahead p s = ((l.map s.processOf).map Process.pid).idxOf p := by
      rw [ahead, pids, hproc, List.map_cons, List.tail_cons]
    rw [hahead]
    exact hforward
  · rw [hmap, List.map_append, List.map_singleton, preempt_pid]
    exact List.nodup_append_comm.mp hpids
  · rw [hmap]
    exact List.mem_append_left _ hp

theorem removal_forward (h : RingInvariant s) {pid : ℤ} (ht : removeProcess pid s = some t)
    (hne : pid ≠ p) (hp : Awaits p s) :
    getCurrentPid t = p ∨ (Awaits p t ∧ ahead p t ≤ ahead p s) := by
  by_cases hpid : pid = 0
  · rw [removeProcess, if_pos hpid, yield, if_neg h.current_ne_null] at ht
    exact (switch_forward h ht hp).imp_right fun hforward => ⟨hforward.1, by omega⟩
  have hring := h.removeProcess hpid ht
  rcases removeProcess_cases h hpid with
    ⟨-, hrun⟩ | ⟨l₁, a, x, l₂, hl, hx, hother, -⟩ | ⟨l, a, hl, -, hrun⟩
  · obtain rfl : s = t := Option.some.inj (hrun.symm.trans ht)
    exact Or.inr ⟨hp, le_rfl⟩
  · -- another process leaves the ring
    rcases hring with ⟨hnone, -⟩ | ⟨-, -, -, -, hproc⟩ | ⟨hcur, -⟩
    · refine absurd (List.mem_map.mpr ⟨s.processOf x, ?_, hx⟩) hnone
      exact List.mem_map.mpr ⟨x, by simp [hl], rfl⟩
    · obtain ⟨l, -, hold⟩ := processes_eq_cons h
      have hcurrent : (s.processOf s.current).pid ≠ pid := by
        rw [← getCurrentPid_eq h]
        exact Ne.symm hother
      rw [hold, List.filter_cons_of_pos (by simpa using hcurrent)] at hproc
      rw [Awaits, hold, List.tail_cons] at hp
      right
      refine ⟨?_, ?_⟩
      · rw [Awaits, hproc, List.tail_cons, List.mem_filter]
        exact ⟨hp, by simpa using Ne.symm hne⟩
      · rw [ahead, ahead, pids, pids, hproc, hold, List.map_cons, List.map_cons, List.tail_cons,
          List.tail_cons]
        have hmap : ((l.map s.processOf).filter fun q => decide (q.pid ≠ pid)).map Process.pid =
            ((l.map s.processOf).map Process.pid).filter fun q => decide (q ≠ pid) := by
          conv_rhs => rw [List.filter_map]
          rfl
        rw [hmap]
        exact idxOf_filter_le _ (by simpa using Ne.symm hne)
    · exact absurd hcur hother
  · -- the running process leaves the ring, and the next one takes over
    rw [hrun] at ht
    obtain ⟨hchain, hlen, hproc⟩ := h.unlink_current_chain hl
    have hnodup := h.isRing.nodup
    rw [hl] at hnodup
    have hpids := h.pids_nodup
    rw [pids, hproc, List.map_cons] at hpids
    have hinv : RingInvariant t := by
      rcases hring with ⟨-, rfl⟩ | ⟨-, hinv, -⟩ | ⟨-, hinv, -⟩
      · exact h
      · exact hinv
      · exact hinv
    rw [Awaits, hproc, List.tail_cons] at hp
    have hforward := schedule_forward hchain (List.nodup_cons.mp hnodup).2 hlen ht
      (List.nodup_cons.mp hpids).2 hp hinv
    refine hforward.imp_right fun hf => ⟨hf.1, ?_⟩
    have hahead : ahead p s = (((l ++ [a]).map
        (s.unlink a s.current).preempted.processOf).map Process.pid).idxOf p := by
      rw [ahead, pids, hproc, List.map_cons, List.tail_cons]
    omega

/-- A new process goes to the place behind the running one. -/
theorem creation_forward (h : RingInvariant s) {page : ℕ} (hpage : FreshPage s page)
    (hp : Awaits p s) :
    Awaits p (createProcess page s).2 ∧ ahead p (createProcess page s).2 ≤ ahead p s + 1 := by
  obtain ⟨-, c, rest, hproc, hproc'⟩ := h.createProcess hpage
  rw [Awaits, hproc, List.tail_cons] at hp
  refine ⟨?_, ?_⟩
  · rw [Awaits, hproc', List.tail_cons]
    exact List.mem_cons_of_mem _ hp
  · have hmem : p ∈ pids s := by
      rw [pids, hproc]
      exact List.mem_map.mpr ⟨_, List.mem_cons_of_mem _ hp, rfl⟩
    have hne : s.pid ≠ p := (h.pid_range p hmem).2.ne'
    rw [ahead, ahead, pids, pids, hproc, hproc']
    simp only [List.map_cons, List.tail_cons]
    rw [List.idxOf_cons_ne _ hne]

theorem change_forward (h : RingInvariant s) {pid : ℤ} (state : ProcessState) (hne : pid ≠ p)
    (hp : Awaits p s) :
    Awaits p (changeProcessState pid state s) ∧
      ahead p (changeProcessState pid state s) = ahead p s := by
  obtain ⟨-, hproc, -⟩ := changeProcessState_spec h pid state
  refine ⟨?_, by rw [ahead, ahead, pids_changeProcessState h]⟩
  rw [Awaits, hproc, ← List.map_tail, List.mem_map]
  exact ⟨_, hp, if_neg (Ne.symm hne)⟩

end

/-! ### Runs -/

section

variable {s t : History} {p : ℤ} {rs : List Request}

/-- The requests that `allocPage` and the init process allow. -/
abbrev admissibleSystem : System History Request :=
  historySystem.restrict fun s r => r.Admissible s

theorem step_forward (h : HistoryInvariant s) {r : Request} (hr : r.Admissible s)
    (hstep : historyStep s r = some t) (hp : Awaits p s.state) (hkeeps : r.Keeps p) :
    getCurrentPid t.state = p ∨
      (Awaits p t.state ∧ ahead p t.state + r.switches ≤ ahead p s.state + r.creations) := by
  cases r with
  | createProcess page =>
    obtain rfl := Option.some.inj hstep
    exact Or.inr (creation_forward h.ring hr hp)
  | removeProcess pid =>
    obtain ⟨t', ht, rfl⟩ := Option.map_eq_some_iff.mp hstep
    exact removal_forward h.ring ht hkeeps hp
  | changeProcessState pid state =>
    obtain rfl := Option.some.inj hstep
    obtain ⟨hawaits, hahead⟩ := change_forward h.ring state hkeeps hp
    exact Or.inr ⟨hawaits, hahead.le⟩
  | switch =>
    obtain ⟨t', ht, rfl⟩ := Option.map_eq_some_iff.mp hstep
    rw [yield, if_neg h.ring.current_ne_null] at ht
    exact switch_forward h.ring ht hp

/-- Each creation takes the next number. -/
theorem step_count (h : HistoryInvariant s) {r : Request} (hr : r.Admissible s)
    (hstep : historyStep s r = some t) : t.state.pid = s.state.pid + r.creations := by
  cases r with
  | createProcess page =>
    obtain rfl := Option.some.inj hstep
    exact pid_createProcess h.ring hr
  | removeProcess pid =>
    obtain ⟨t', ht, rfl⟩ := Option.map_eq_some_iff.mp hstep
    show t'.pid = s.state.pid + 0
    rw [add_zero]
    by_cases hpid : pid = 0
    · rw [removeProcess, if_pos hpid, yield, if_neg h.ring.current_ne_null] at ht
      exact (h.ring.schedule ht).2.1
    · rcases h.ring.removeProcess hpid ht with ⟨-, rfl⟩ | ⟨-, -, hcount, -⟩ | ⟨-, -, hcount, -⟩
      · rfl
      · exact hcount
      · exact hcount
  | changeProcessState pid state =>
    obtain rfl := Option.some.inj hstep
    show (changeProcessState pid state s.state).pid = s.state.pid + 0
    rw [pid_changeProcessState h.ring, add_zero]
  | switch =>
    obtain ⟨t', ht, rfl⟩ := Option.map_eq_some_iff.mp hstep
    rw [yield, if_neg h.ring.current_ne_null] at ht
    show t'.pid = s.state.pid + 0
    rw [(h.ring.schedule ht).2.1, add_zero]

theorem path_invariant (hpath : admissibleSystem.Path s rs t) (h : HistoryInvariant s) :
    HistoryInvariant t ∧ t.state.pid = s.state.pid + total Request.creations rs := by
  induction hpath with
  | nil s => exact ⟨h, by simp⟩
  | cons hstep _ ih =>
    obtain ⟨hr, hstep⟩ := hstep
    obtain ⟨u, hu, hinv⟩ := historyStep_total h hr
    obtain rfl := Option.some.inj (hu.symm.trans hstep)
    obtain ⟨ht, hcount⟩ := ih hinv
    refine ⟨ht, ?_⟩
    rw [hcount, step_count h hr hstep, total_cons, Nat.cast_add, add_assoc]

/-- There are at least as many numbers as processes in the ring. -/
theorem ahead_lt (h : RingInvariant s.state) (hp : Awaits p s.state) :
    (ahead p s.state : ℤ) + 1 < s.state.pid := by
  obtain ⟨l, hl, hproc⟩ := processes_eq_cons h
  have hlt : ahead p s.state < l.length := by
    have hmem : p ∈ (pids s.state).tail := by
      rw [pids, ← List.map_tail]
      exact List.mem_map.mpr ⟨_, hp, rfl⟩
    have hidx := List.idxOf_lt_length_iff.mpr hmem
    rw [pids, hproc, List.map_cons, List.tail_cons] at hidx
    rw [ahead, pids, hproc, List.map_cons, List.tail_cons]
    simpa using hidx
  have hsub : (ring s.state).length ≤ s.state.pages.length :=
    (h.isRing.nodup.subperm h.slots).length_le
  rw [hl, List.length_cons] at hsub
  rw [h.pid_eq]
  omega

/-- In every run a process that is ready, and that nobody removes or puts into another state, gets
the processor after as many switches as processes are ahead of it or are created meanwhile, and
after as many switches as there are pages at the latest. -/
theorem bounded_waiting (hs : admissibleSystem.Reachable s) (hp : Awaits p s.state)
    (hpath : admissibleSystem.Path s rs t) (hkeeps : ∀ r ∈ rs, r.Keeps p)
    (hlong : ahead p s.state + total Request.creations rs < total Request.switches rs ∨
      BuddyAllocator.numberOfPages ≤ total Request.switches rs) :
    System.Path.Passes admissibleSystem (fun u => getCurrentPid u.state = p) s rs t := by
  have hinv := reachable_historyInvariant hs
  have hstep : ∀ u r v, (HistoryInvariant u ∧ Awaits p u.state) → r.Keeps p →
      admissibleSystem.step u r v → getCurrentPid v.state = p ∨
        ((HistoryInvariant v ∧ Awaits p v.state) ∧
          ahead p v.state + r.switches ≤ ahead p u.state + r.creations) := by
    rintro u r v ⟨hu, hawaits⟩ hr ⟨hadmissible, hrun⟩
    obtain ⟨w, hw, hinv'⟩ := historyStep_total hu hadmissible
    obtain rfl := Option.some.inj (hw.symm.trans hrun)
    have hforward := step_forward hu hadmissible hrun hawaits hr
    exact hforward.imp_right fun hf => ⟨⟨hinv', hf.1⟩, hf.2⟩
  refine (hpath.passes_or_rank hstep ⟨hinv, hp⟩ hkeeps).resolve_right fun hrank => ?_
  obtain ⟨ht, hcount⟩ := path_invariant hpath hinv
  have hlt := ahead_lt hinv.ring hp
  have hle := ht.ring.pid_le
  rcases hlong with hlong | hlong
  · omega
  · omega

end

instance (p : ℤ) (s : State) : Decidable (Awaits p s) := inferInstanceAs (Decidable (_ ∈ _))

/-- Process 1 is ready behind process 2; a third process is created before two switches. -/
theorem bounded_waiting_three : ∃ s t, admissibleSystem.Reachable s ∧ Awaits 1 s.state ∧
    System.Path.Passes admissibleSystem (fun u => getCurrentPid u.state = 1) s
      [.createProcess (pageAt 3), .switch, .switch, .switch] t := by
  have hstart : IsStart started := ⟨emptySlots, pageAt 0, by decide, rfl⟩
  obtain ⟨s, hs, hf⟩ := reachable_restrict_of_execute IsStart hstart
    (show (execute (guarded (fun s r => Request.Admissible s r) historyStep) started
      [.createProcess (pageAt 1), .createProcess (pageAt 2)]).map (fun s =>
        (decide (Awaits 1 s.state), ahead 1 s.state,
          (execute (guarded (fun s r => Request.Admissible s r) historyStep) s
            [.createProcess (pageAt 3), .switch, .switch, .switch]).isSome)) =
      some (true, 1, true) by decide +kernel)
  obtain ⟨hawaits, hf⟩ := Prod.mk.inj hf
  obtain ⟨hahead, hsome⟩ := Prod.mk.inj hf
  obtain ⟨t, ht⟩ := Option.isSome_iff_exists.mp hsome
  have hpath := path_restrict_of_execute IsStart ht
  have hp : Awaits 1 s.state := of_decide_eq_true hawaits
  refine ⟨s, t, hs, hp, bounded_waiting hs hp hpath (fun r hr => ?_) (Or.inl ?_)⟩
  · simp only [List.mem_cons, List.not_mem_nil, or_false] at hr
    rcases hr with rfl | rfl | rfl | rfl <;> trivial
  · rw [hahead]
    decide

end GatOS.Scheduler
