import GatOS.SchedulerFairness
import GatOS.SleepRuns

/-!
# When sleeping processes run again

A process that sleeps does not run before its alarm. From the alarm on it waits in the ring like
any other process, so it runs again after as many ticks as there can be processes at the latest.
-/
namespace GatOS.Sleep
open Scheduler Transition

namespace Action

def ticks : Action → ℕ
  | .tick => 1
  | _ => 0

def creations : Action → ℕ
  | .createProcess _ => 1
  | _ => 0

end Action

theorem total_ticks (as : List Action) : total Action.ticks as = as.count .tick := by
  induction as with
  | nil => rfl
  | cons a as ih =>
    by_cases ha : a = .tick
    · subst ha
      rw [total_cons, ih, List.count_cons_self, Nat.add_comm]
      rfl
    · rw [total_cons, ih, List.count_cons_of_ne (by simpa using ha)]
      cases a with
      | tick => exact absurd rfl ha
      | _ => exact Nat.zero_add _

section

variable {s t u : Clock} {sched : State} {p : ℤ} {as : List Action}

/-! ### Waiting in the ring -/

theorem awaits_of_ready (h : RingInvariant sched) (hp : InState sched p .ready)
    (hne : p ≠ getCurrentPid sched) : Awaits p sched := by
  obtain ⟨l, -, hproc⟩ := processes_eq_cons h
  rw [InState, hproc] at hp
  rw [Awaits, hproc, List.tail_cons]
  refine (List.mem_cons.mp hp).resolve_left fun he => hne ?_
  rw [getCurrentPid_eq h, ← he]

theorem awaits_inState (hp : Awaits p sched) : InState sched p .ready :=
  List.mem_of_mem_tail hp

theorem awaits_ne_current (hp : Awaits p sched) (h : RingInvariant sched) :
    p ≠ getCurrentPid sched := by
  obtain ⟨l, -, hproc⟩ := processes_eq_cons h
  have hnodup := h.pids_nodup
  rw [pids, hproc, List.map_cons] at hnodup
  rw [Awaits, hproc, List.tail_cons] at hp
  rintro rfl
  refine (List.nodup_cons.mp hnodup).1 ?_
  rw [← getCurrentPid_eq h]
  exact List.mem_map_of_mem hp

theorem yield_forward (h : RingInvariant s.sched) (hy : s.yield = some t)
    (hp : Awaits p s.sched) : getCurrentPid t.sched = p ∨
      (Awaits p t.sched ∧ ahead p t.sched + 1 ≤ ahead p s.sched) := by
  obtain ⟨sched, hs, rfl⟩ := Option.map_eq_some_iff.mp hy
  rw [Scheduler.yield, if_neg h.current_ne_null] at hs
  exact switch_forward h hs hp

theorem handler_awaits (h : RingInvariant s.sched) (hp : Awaits p s.sched) :
    Awaits p (timerTickHandlerC s).sched ∧
      ahead p (timerTickHandlerC s).sched = ahead p s.sched := by
  obtain ⟨-, hproc, -⟩ := timerTickHandlerC_spec h
  constructor
  · rw [Awaits, hproc, ← List.map_tail, List.mem_map]
    refine ⟨_, hp, ?_⟩
    unfold wakeAll
    split_ifs
    · rfl
    · rfl
  · rw [ahead, ahead, handler_pids h]

theorem sleep_eq (time : ℤ) (s : Clock) : sleep time s =
    (⟨changeProcessState (getCurrentPid s.sched) .sleeping s.sched,
      (addSleep (getCurrentPid s.sched) time s).listeners⟩ : Clock).yield := by
  have hsched : (addSleep (getCurrentPid s.sched) time s).sched = s.sched := by
    unfold addSleep
    split_ifs
    · rfl
    · rfl
  rw [sleep, hsched]

/-- The running process gets another state and gives the processor up. -/
theorem leave_forward (h : RingInvariant s.sched) {state : ProcessState} {l : List Listener}
    (hy : (⟨changeProcessState (getCurrentPid s.sched) state s.sched, l⟩ : Clock).yield = some t)
    (hp : Awaits p s.sched) :
    getCurrentPid t.sched = p ∨ (Awaits p t.sched ∧ ahead p t.sched ≤ ahead p s.sched) := by
  obtain ⟨hawaits, hahead⟩ := change_forward h state (awaits_ne_current hp h).symm hp
  have hring := (changeProcessState_spec h (getCurrentPid s.sched) state).1
  exact (yield_forward hring hy hawaits).imp_right fun hf => ⟨hf.1, by
    have := hf.2
    dsimp only at this
    omega⟩

/-- Each step of another process gives the processor to `p`, or costs it no place but for a new
process; each tick brings it forward. -/
theorem step_forward (h : SleepInvariant s) {a : Action} (hstep : step s a = some t)
    (ha : a ≠ .removeProcess p) (hp : Awaits p s.sched) : getCurrentPid t.sched = p ∨
      (Awaits p t.sched ∧ ahead p t.sched + a.ticks ≤ ahead p s.sched + a.creations) := by
  cases a with
  | sleep time =>
    simp only [step] at hstep
    split_ifs at hstep with hcur
    rw [sleep_eq] at hstep
    exact leave_forward h.ring hstep hp
  | tick =>
    obtain ⟨hawaits, hahead⟩ := handler_awaits h.ring hp
    have hforward := yield_forward (timerTickHandlerC_spec h.ring).2.2.1 hstep hawaits
    rw [hahead] at hforward
    exact hforward
  | switch => exact (yield_forward h.ring hstep hp).imp_right fun hf => ⟨hf.1, by
      have := hf.2
      simp only [Action.ticks, Action.creations]
      omega⟩
  | createProcess page =>
    simp only [step] at hstep
    split_ifs at hstep with hpage
    obtain rfl := Option.some.inj hstep
    exact Or.inr (creation_forward h.ring hpage hp)
  | removeProcess pid =>
    obtain ⟨sched, hs, rfl⟩ := Option.map_eq_some_iff.mp hstep
    exact removal_forward h.ring hs (fun he => ha (he ▸ rfl)) hp
  | block =>
    simp only [step] at hstep
    split_ifs at hstep with hcur
    exact leave_forward h.ring hstep hp
  | wake pid =>
    simp only [step] at hstep
    split_ifs at hstep with hblocked
    obtain rfl := Option.some.inj hstep
    have hne : pid ≠ p := by
      rintro rfl
      have := (awaits_inState hp).unique h.ring hblocked
      simp at this
    obtain ⟨hawaits, hahead⟩ := change_forward h.ring .ready hne hp
    exact Or.inr ⟨hawaits, hahead.le⟩

/-! ### The number of processes -/

theorem yield_count (h : RingInvariant s.sched) (hinit : InitRuns s.sched)
    (hy : s.yield = some t) : t.sched.pid = s.sched.pid :=
  (yield_spec h hinit hy).2.2.2.2.2.2

/-- Each creation takes the next number. -/
theorem step_count (h : SleepInvariant s) {a : Action} (hstep : step s a = some t) :
    t.sched.pid = s.sched.pid + a.creations := by
  have hleave : ∀ {state : ProcessState} {l : List Listener}, getCurrentPid s.sched ≠ initPid →
      (⟨changeProcessState (getCurrentPid s.sched) state s.sched, l⟩ : Clock).yield = some t →
        t.sched.pid = s.sched.pid + 0 := by
    intro state l hcur hy
    rw [yield_count (changeProcessState_spec h.ring _ _).1
      (h.init.changeProcessState h.ring hcur _) hy, add_zero]
    exact pid_changeProcessState h.ring _ _
  cases a with
  | sleep time =>
    simp only [step] at hstep
    split_ifs at hstep with hcur
    rw [sleep_eq] at hstep
    exact hleave hcur hstep
  | tick =>
    obtain ⟨-, -, hring, hcount, -⟩ := timerTickHandlerC_spec h.ring
    rw [yield_count hring (handler_init h.ring h.init) hstep, hcount]
    exact (add_zero _).symm
  | switch =>
    rw [yield_count h.ring h.init hstep]
    exact (add_zero _).symm
  | createProcess page =>
    simp only [step] at hstep
    split_ifs at hstep with hpage
    obtain rfl := Option.some.inj hstep
    exact pid_createProcess h.ring hpage
  | removeProcess pid =>
    obtain ⟨sched, hs, rfl⟩ := Option.map_eq_some_iff.mp hstep
    show sched.pid = s.sched.pid + 0
    rw [add_zero]
    by_cases hpid : pid = 0
    · rw [Scheduler.removeProcess, if_pos hpid, Scheduler.yield,
        if_neg h.ring.current_ne_null] at hs
      exact (h.ring.schedule hs).2.1
    · rcases h.ring.removeProcess hpid hs with ⟨-, rfl⟩ | ⟨-, -, hcount, -⟩ | ⟨-, -, hcount, -⟩
      · rfl
      · exact hcount
      · exact hcount
  | block =>
    simp only [step] at hstep
    split_ifs at hstep with hcur
    exact hleave hcur hstep
  | wake pid =>
    simp only [step] at hstep
    split_ifs at hstep with hblocked
    obtain rfl := Option.some.inj hstep
    show (changeProcessState pid .ready s.sched).pid = s.sched.pid + 0
    rw [pid_changeProcessState h.ring, add_zero]

/-! ### Runs -/

/-- The steps that do not remove process `p`. -/
abbrev keepingSystem (p : ℤ) : System Clock Action :=
  clockSystem.restrict fun _ a => a ≠ .removeProcess p

theorem path_keeps (h : SleepInvariant s) (hpath : (keepingSystem p).Path s as t) :
    SleepInvariant t ∧ t.sched.pid = s.sched.pid + total Action.creations as := by
  induction hpath with
  | nil s => exact ⟨h, by simp⟩
  | cons hstep _ ih =>
    obtain ⟨hinv, hcount⟩ := ih (step_sleepInvariant h hstep.2)
    refine ⟨hinv, ?_⟩
    rw [hcount, step_count h hstep.2, total_cons, Nat.cast_add, add_assoc]

/-- A process that waits in the ring gets the processor. -/
theorem awaits_served (h : SleepInvariant s) (hp : Awaits p s.sched)
    (hpath : (keepingSystem p).Path s as t)
    (hlong : BuddyAllocator.numberOfPages ≤ as.count .tick) :
    System.Path.Passes (keepingSystem p) (fun v => getCurrentPid v.sched = p) s as t := by
  have hstep : ∀ v a w, (SleepInvariant v ∧ Awaits p v.sched) → True →
      (keepingSystem p).step v a w → getCurrentPid w.sched = p ∨
        ((SleepInvariant w ∧ Awaits p w.sched) ∧
          ahead p w.sched + a.ticks ≤ ahead p v.sched + a.creations) := by
    rintro v a w ⟨hv, hawaits⟩ - ⟨ha, hrun⟩
    have hforward := step_forward hv hrun ha hawaits
    exact hforward.imp_right fun hf => ⟨⟨step_sleepInvariant hv hrun, hf.1⟩, hf.2⟩
  refine (hpath.passes_or_rank hstep ⟨h, hp⟩ fun _ _ => trivial).resolve_right fun hrank => ?_
  -- there are not as many processes as ticks
  obtain ⟨ht, hcount⟩ := path_keeps h hpath
  have hlt := ahead_lt (s := ⟨s.sched, []⟩) h.ring hp
  have hle := ht.ring.pid_le
  rw [total_ticks] at hrank
  dsimp only at hlt
  omega

/-- A process that calls `sleep` does not run before its alarm, whatever the others do, and it runs
again after as many further ticks as there are pages for processes at the latest, unless it is
removed. -/
theorem sleep_latency {time : ℤ} (hs : clockSystem.Reachable s)
    (hroom : s.listeners.length < maxListeners) (htime : 1 ≤ MachineInt.int32 time)
    (hstep : step s (.sleep time) = some t)
    (hpath : (keepingSystem (getCurrentPid s.sched)).Path t as u) :
    (as.count .tick < (MachineInt.int32 time).toNat →
      getCurrentPid u.sched ≠ getCurrentPid s.sched) ∧
    ((MachineInt.int32 time).toNat + BuddyAllocator.numberOfPages ≤ as.count .tick →
      System.Path.Passes (keepingSystem (getCurrentPid s.sched))
        (fun v => getCurrentPid v.sched = getCurrentPid s.sched) t as u) := by
  have hinv := reachable_sleepInvariant hs
  simp only [step] at hstep
  split_ifs at hstep with hcur
  obtain ⟨ht, hasleep, -⟩ := sleep_spec hinv hcur hstep
  rw [if_neg (by omega)] at hasleep
  have hmax := (MachineInt.int32_range time).2
  generalize MachineInt.int32 time = interval at *
  set p := getCurrentPid s.sched
  constructor
  · intro hearly
    obtain ⟨hu, hcount⟩ := path_counts ht le_rfl hmax hasleep hpath (by omega)
    exact (hcount.ne_current hu).symm
  · intro hlate
    obtain ⟨as₁, as₂, rfl, hcount⟩ := exists_split_count
      (show interval.toNat - 1 < as.count Action.tick by omega)
    obtain ⟨v, hfirst, hrest⟩ := hpath.split
    obtain ⟨hv, hsleeps⟩ := path_counts ht le_rfl hmax hasleep hfirst (by omega)
    cases hrest with
    | @cons _ w _ _ _ htick hlast =>
      -- the alarm
      have hready := handler_state hv.ring hsleeps.state
      have hadvance : Listener.advance ⟨p, 0 + as₁.count Action.tick, interval⟩ =
          ⟨p, interval, interval⟩ := by
        rw [advance_eq (by omega) (by omega)]
        congr 1
        omega
      rw [if_neg] at hready
      swap
      · rw [List.perm_singleton.mp hsleeps.entries, expiring, List.map_singleton, hadvance]
        simp [Listener.expired]
      obtain ⟨-, -, hring, -, hsame⟩ := timerTickHandlerC_spec hv.ring
      have hawaits := awaits_of_ready hring hready (hsame ▸ hsleeps.ne_current hv)
      have hw := step_sleepInvariant hv htick.2
      have hone : (keepingSystem p).Path v [.tick] w := .cons htick (.nil w)
      rcases yield_forward hring htick.2 hawaits with hserved | ⟨hwaits, -⟩
      · exact ⟨as₁ ++ [.tick], as₂, w, by simp, hfirst.append hone, hlast, hserved⟩
      · have hlong : BuddyAllocator.numberOfPages ≤ as₂.count .tick := by
          rw [List.count_append, List.count_cons_self, hcount] at hlate
          omega
        have hpasses := (awaits_served hw hwaits hlast hlong).prepend hone
        exact hpasses.prepend hfirst

/-- The timer can always tick. -/
theorem path_ticks (h : SleepInvariant s) (p : ℤ) (n : ℕ) :
    ∃ t, (keepingSystem p).Path s (List.replicate n .tick) t := by
  induction n generalizing s with
  | zero => exact ⟨s, .nil s⟩
  | succ n ih =>
    obtain ⟨u, hu⟩ := yield_total (timerTickHandlerC_spec h.ring).2.2.1 (handler_init h.ring h.init)
    obtain ⟨t, hpath⟩ := ih (tick_spec h hu).1
    exact ⟨t, .cons ⟨by simp, hu⟩ hpath⟩

end

/-- Process 2 sleeps already, process 1 goes to sleep for two ticks: it does not run at the first
one, and some time later it runs. -/
theorem sleep_latency_two : ∃ s t u v, clockSystem.Reachable s ∧ getCurrentPid s.sched = 1 ∧
    step s (.sleep 2) = some t ∧
    (keepingSystem 1).Path t [.tick] u ∧ getCurrentPid u.sched ≠ 1 ∧
    System.Path.Passes (keepingSystem 1) (fun w => getCurrentPid w.sched = 1) t
      (List.replicate (2 + BuddyAllocator.numberOfPages) .tick) v := by
  obtain ⟨s, hs, hview⟩ := exists_path_of_execute IsStart
    (show (execute step booted (processesStarted 2 ++ [.sleep 7])).map (callSleep 2) =
      some (1, 1, some false) by decide +kernel)
  obtain ⟨hcur, hrest⟩ := Prod.mk.inj hview
  obtain ⟨hlen, hstep⟩ := Prod.mk.inj hrest
  obtain ⟨t, ht, -⟩ := Option.map_eq_some_iff.mp hstep
  have hreach : clockSystem.Reachable s := hs.reachable (.start isStart_booted)
  have hinv := step_sleepInvariant (reachable_sleepInvariant hreach) ht
  have hroom : s.listeners.length < maxListeners := by
    rw [hlen]
    decide
  have hlatency := fun as u (hpath : (keepingSystem (getCurrentPid s.sched)).Path t as u) =>
    sleep_latency hreach hroom (by decide) ht hpath
  rw [hcur] at hlatency
  obtain ⟨u, hu⟩ := path_ticks hinv 1 1
  obtain ⟨v, hv⟩ := path_ticks hinv 1 (2 + BuddyAllocator.numberOfPages)
  refine ⟨s, t, u, v, hreach, hcur, ht, hu, (hlatency _ u hu).1 (by decide), ?_⟩
  refine (hlatency _ v hv).2 ?_
  rw [List.count_replicate_self]
  exact le_rfl

end GatOS.Sleep
