import GatOS.Sleep

/-!
# When sleeping processes are woken

An entry of the table counts the ticks since the call of `sleep`, wherever the handler moves it.
The call is lost when the table is full, and a counter never comes back to an alarm of 0.
-/
namespace GatOS.Sleep
open Scheduler Transition

section

variable {s t : Clock}

/-! ### The invariant -/

/-- Every entry of the table belongs to a process that sleeps or was removed. -/
structure SleepInvariant (s : Clock) : Prop where
  ring : RingInvariant s.sched
  init : InitRuns s.sched
  awake : ¬ InState s.sched (getCurrentPid s.sched) .sleeping
  asleep : ∀ l ∈ s.listeners, l.pid ∈ pids s.sched → InState s.sched l.pid .sleeping
  nodup : (s.listeners.map Listener.pid).Nodup
  range : ∀ l ∈ s.listeners, l.pid < s.sched.pid

/-- The entries of process `p`. -/
def entries (p : ℤ) (s : Clock) : List Listener := s.listeners.filter fun l => l.pid = p

/-- `_yield` takes nobody to sleep and wakes nobody. -/
theorem yield_spec (hring : RingInvariant s.sched) (hinit : InitRuns s.sched)
    (hy : s.yield = some t) :
    t.listeners = s.listeners ∧ RingInvariant t.sched ∧ InitRuns t.sched ∧
      ¬ InState t.sched (getCurrentPid t.sched) .sleeping ∧
      (∀ p, InState t.sched p .sleeping ↔ InState s.sched p .sleeping) ∧
      (∀ p, p ∈ pids t.sched ↔ p ∈ pids s.sched) ∧ t.sched.pid = s.sched.pid := by
  obtain ⟨sched, hs, rfl⟩ := Option.map_eq_some_iff.mp hy
  rw [Scheduler.yield, if_neg hring.current_ne_null] at hs
  obtain ⟨t', ht', -, hinit', hperm⟩ := hring.schedule_total hinit
  obtain rfl : t' = sched := Option.some.inj (ht'.symm.trans hs)
  obtain ⟨hring', hpid, c, rest, -, hdisp⟩ := hring.schedule hs
  refine ⟨rfl, hring', hinit', fun hsleep => ?_, fun p => ?_, fun p => hperm.mem_iff, hpid⟩
  · have := hsleep.unique hring' (hdisp.current_running hring')
    simp at this
  · exact inState_schedule hring hs p (by simp) (by simp)

theorem yield_total (hring : RingInvariant s.sched) (hinit : InitRuns s.sched) :
    ∃ t, s.yield = some t := by
  obtain ⟨t, ht, -⟩ := hring.schedule_total hinit
  refine ⟨{ s with sched := t }, ?_⟩
  rw [Clock.yield, Scheduler.yield, if_neg hring.current_ne_null, ht]
  rfl

/-- The invariant without the condition on the running process, before a switch. -/
theorem SleepInvariant.of_yield (hring : RingInvariant s.sched) (hinit : InitRuns s.sched)
    (hasleep : ∀ l ∈ s.listeners, l.pid ∈ pids s.sched → InState s.sched l.pid .sleeping)
    (hnodup : (s.listeners.map Listener.pid).Nodup)
    (hrange : ∀ l ∈ s.listeners, l.pid < s.sched.pid) (hy : s.yield = some t) :
    SleepInvariant t ∧ (∀ p, entries p t = entries p s) ∧
      ∀ p, InState t.sched p .sleeping ↔ InState s.sched p .sleeping := by
  obtain ⟨hlist, hring', hinit', hawake, hstate, hpids, hpid⟩ := yield_spec hring hinit hy
  refine ⟨⟨hring', hinit', hawake, fun l hl hin => ?_, by rwa [hlist], fun l hl => ?_⟩,
    fun p => by rw [entries, hlist, entries], hstate⟩
  · rw [hlist] at hl
    exact (hstate _).mpr (hasleep l hl ((hpids _).mp hin))
  · rw [hlist] at hl
    rw [hpid]
    exact hrange l hl

/-- The running process has no entry. -/
theorem SleepInvariant.current_ne (h : SleepInvariant s) {l : Listener} (hl : l ∈ s.listeners) :
    l.pid ≠ getCurrentPid s.sched := fun he =>
  h.awake (he ▸ h.asleep l hl (he ▸ getCurrentPid_mem h.ring))

/-- The running process waits for something. -/
theorem SleepInvariant.asleep_ne (h : SleepInvariant s) {pid : ℤ} (state : ProcessState)
    (hne : ∀ l ∈ s.listeners, l.pid ≠ pid) {l : Listener} (hl : l ∈ s.listeners)
    (hin : l.pid ∈ pids (changeProcessState pid state s.sched)) :
    InState (changeProcessState pid state s.sched) l.pid .sleeping := by
  rw [pids_changeProcessState h.ring] at hin
  exact (inState_changeProcessState_ne h.ring pid state (hne l hl) .sleeping).mpr
    (h.asleep l hl hin)

/-! ### Single steps -/

/-- A sleeping process with its entries in the table. -/
structure Asleep (p : ℤ) (view : List Listener) (s : Clock) : Prop where
  state : InState s.sched p .sleeping
  entries : (entries p s).Perm view

theorem Asleep.ne_current {p : ℤ} {view : List Listener} (h : Asleep p view s)
    (hinv : SleepInvariant s) : p ≠ getCurrentPid s.sched := fun he =>
  hinv.awake (he ▸ h.state)

theorem sleep_spec (h : SleepInvariant s) (hcur : getCurrentPid s.sched ≠ initPid) {time : ℤ}
    (hs : sleep time s = some t) :
    SleepInvariant t ∧
      Asleep (getCurrentPid s.sched) (if s.listeners.length ≥ maxListeners then []
        else [⟨getCurrentPid s.sched, 0, time⟩]) t ∧
      ∀ p view, Asleep p view s → Asleep p view t := by
  set pid := getCurrentPid s.sched with hpid
  set u : Clock := { (addSleep pid time s) with
    sched := changeProcessState pid .sleeping s.sched } with hu
  have haddSched : (addSleep pid time s).sched = s.sched := by
    unfold addSleep
    split_ifs <;> rfl
  have hy : u.yield = some t := by
    rw [← hs, sleep, haddSched]
  have hin : pid ∈ pids s.sched := getCurrentPid_mem h.ring
  have hself : InState u.sched pid .sleeping := inState_changeProcessState_self h.ring _ _ hin
  have hnone : entries pid s = [] := by
    rw [entries, List.filter_eq_nil_iff]
    exact fun l hl he => h.current_ne hl (by simpa using he)
  have hlist : u.listeners = s.listeners ++ (if s.listeners.length ≥ maxListeners then []
      else [⟨pid, 0, time⟩]) := by
    show (addSleep pid time s).listeners = _
    unfold addSleep
    split_ifs
    · exact (List.append_nil _).symm
    · rfl
  have hnew : ∀ l ∈ (if s.listeners.length ≥ maxListeners then []
      else [⟨pid, 0, time⟩] : List Listener), l.pid = pid := fun l hl => by
    split_ifs at hl with hfull
    · simp at hl
    · rw [List.mem_singleton.mp hl]
  obtain ⟨hinv, hentries, hstate⟩ := SleepInvariant.of_yield (s := u)
    (changeProcessState_spec h.ring _ _).1 (h.init.changeProcessState h.ring hcur _)
    (fun l hl hl' => by
      rw [hlist, List.mem_append] at hl
      rcases hl with hl | hl
      · exact h.asleep_ne .sleeping (fun l hl => h.current_ne hl) hl hl'
      · rw [hnew l hl]
        exact hself)
    (by
      rw [hlist, List.map_append, List.nodup_append]
      refine ⟨h.nodup, ?_, fun a ha b hb => ?_⟩
      · split_ifs <;> simp
      · obtain ⟨l, hl, rfl⟩ := List.mem_map.mp ha
        obtain ⟨l', hl', rfl⟩ := List.mem_map.mp hb
        rw [hnew l' hl']
        exact h.current_ne hl)
    (fun l hl => by
      show l.pid < (changeProcessState pid .sleeping s.sched).pid
      rw [pid_changeProcessState h.ring]
      rw [hlist, List.mem_append] at hl
      rcases hl with hl | hl
      · exact h.range l hl
      · rw [hnew l hl]
        exact (h.ring.pid_range _ hin).2) hy
  refine ⟨hinv, ⟨(hstate _).mpr hself, ?_⟩, fun p view hp => ⟨(hstate p).mpr ?_, ?_⟩⟩
  · rw [hentries, entries, hlist, List.filter_append]
    have hall : (s.listeners.filter fun l => l.pid = pid) = [] := hnone
    rw [hall, List.nil_append, List.filter_eq_self.mpr fun l hl => by simpa using hnew l hl]
  · exact (inState_changeProcessState_ne h.ring _ _ (hp.ne_current h) _).mpr hp.state
  · have hother : ((if s.listeners.length ≥ maxListeners then []
        else [⟨pid, 0, time⟩] : List Listener).filter fun l => l.pid = p) = [] := by
      rw [List.filter_eq_nil_iff]
      intro l hl he
      exact hp.ne_current h ((by simpa using he : l.pid = p).symm.trans (hnew l hl))
    rw [hentries, entries, hlist, List.filter_append, hother, List.append_nil]
    exact hp.entries

/-! ### Ticks -/

theorem advance_pid (l : Listener) : l.advance.pid = l.pid := rfl

/-- The entries of one process are advanced on their own. -/
theorem filter_staying (p : ℤ) (l : List Listener) :
    (staying l).filter (fun l => l.pid = p) = staying (l.filter fun l => l.pid = p) := by
  unfold staying
  rw [List.filter_map, List.filter_map, List.filter_map, List.filter_filter, List.filter_filter]
  refine congrArg _ (List.filter_congr fun l _ => ?_)
  simp only [Function.comp_apply, advance_pid]
  exact Bool.and_comm _ _

theorem filter_expiring (p : ℤ) (l : List Listener) :
    (expiring l).filter (fun l => l.pid = p) = expiring (l.filter fun l => l.pid = p) := by
  unfold expiring
  rw [List.filter_map, List.filter_map, List.filter_map, List.filter_filter, List.filter_filter]
  refine congrArg _ (List.filter_congr fun l _ => ?_)
  simp only [Function.comp_apply, advance_pid]
  exact Bool.and_comm _ _

theorem mem_expiring_iff (p : ℤ) (s : Clock) :
    p ∈ (expiring s.listeners).map Listener.pid ↔ expiring (entries p s) ≠ [] := by
  rw [entries, ← filter_expiring, ne_eq, List.filter_eq_nil_iff, List.mem_map]
  simp only [decide_eq_true_eq, not_forall, not_not, exists_prop]

/-- The handler makes the processes ready whose entries expire, and leaves the others alone. -/
theorem handler_state (h : RingInvariant s.sched) {p : ℤ} {state : ProcessState}
    (hp : InState s.sched p state) : InState (timerTickHandlerC s).sched p
      (if expiring (entries p s) = [] then state else .ready) := by
  obtain ⟨-, hproc, -⟩ := timerTickHandlerC_spec h
  rw [InState, hproc, List.mem_map]
  refine ⟨_, hp, ?_⟩
  by_cases he : expiring (entries p s) = []
  · rw [if_pos he, wakeAll, if_neg fun hmem => (mem_expiring_iff p s).mp hmem he]
  · rw [if_neg he, wakeAll, if_pos ((mem_expiring_iff p s).mpr he)]

theorem handler_init (h : RingInvariant s.sched) (hinit : InitRuns s.sched) :
    InitRuns (timerTickHandlerC s).sched := by
  obtain ⟨-, -, -, -, hcur⟩ := timerTickHandlerC_spec h
  rcases hinit with hready | ⟨hinit, hrunning⟩
  · have := handler_state h (show InState s.sched initPid .ready from hready)
    rw [ite_self] at this
    exact Or.inl this
  · have := handler_state h (show InState s.sched initPid .running from hrunning)
    split_ifs at this
    · exact Or.inr ⟨hcur.trans hinit, this⟩
    · exact Or.inl this

theorem handler_pids (h : RingInvariant s.sched) :
    pids (timerTickHandlerC s).sched = pids s.sched := by
  obtain ⟨-, hproc, -⟩ := timerTickHandlerC_spec h
  rw [pids, hproc, pids, List.map_map]
  exact List.map_congr_left fun q _ => wakeAll_pid _ q

theorem staying_subset {l : Listener} (hl : l ∈ staying s.listeners) :
    ∃ l' ∈ s.listeners, l = l'.advance ∧ l.expired = false := by
  obtain ⟨hmem, hexpired⟩ := List.mem_filter.mp hl
  obtain ⟨l', hl', rfl⟩ := List.mem_map.mp hmem
  exact ⟨l', hl', rfl, by simpa using hexpired⟩

/-- Of two entries of one process one would be the other. -/
theorem SleepInvariant.expiring_nil (h : SleepInvariant s) {l : Listener} (hl : l ∈ s.listeners)
    (hstay : l.advance.expired = false) : expiring (entries l.pid s) = [] := by
  rw [expiring, List.filter_eq_nil_iff]
  intro x hx
  obtain ⟨l', hl', rfl⟩ := List.mem_map.mp hx
  obtain ⟨hmem, hpid⟩ := List.mem_filter.mp hl'
  have : l' = l := List.inj_on_of_nodup_map h.nodup hmem hl (by simpa using hpid)
  rw [this, hstay]
  simp

theorem tick_spec (h : SleepInvariant s) (hs : (timerTickHandlerC s).yield = some t) :
    SleepInvariant t ∧ ∀ p view, Asleep p view s → expiring view = [] →
      Asleep p (staying view) t := by
  obtain ⟨hperm, -, hring, hcount, -⟩ := timerTickHandlerC_spec h.ring
  obtain ⟨hinv, hentries, hstate⟩ := SleepInvariant.of_yield (s := timerTickHandlerC s) hring
    (handler_init h.ring h.init)
    (fun l hl hin => by
      obtain ⟨l', hl', rfl, hexpired⟩ := staying_subset (hperm.mem_iff.mp hl)
      rw [handler_pids h.ring] at hin
      have hstate := handler_state h.ring (h.asleep l' hl' hin)
      rwa [if_pos (h.expiring_nil hl' hexpired)] at hstate)
    (by
      refine (hperm.map _).nodup_iff.mpr ?_
      refine (List.Sublist.map _ (List.filter_sublist)).nodup ?_
      rw [List.map_map]
      exact h.nodup)
    (fun l hl => by
      obtain ⟨l', hl', rfl, -⟩ := staying_subset (hperm.mem_iff.mp hl)
      rw [hcount]
      exact h.range l' hl') hs
  refine ⟨hinv, fun p view hp hnone => ⟨(hstate p).mpr ?_, ?_⟩⟩
  · have hnil : expiring (entries p s) = [] := by
      have := ((hp.entries.map Listener.advance).filter Listener.expired)
      exact (this.trans (by rw [← expiring, hnone])).eq_nil
    have hkept := handler_state h.ring hp.state
    rwa [if_pos hnil] at hkept
  · rw [hentries]
    refine (hperm.filter _).trans ?_
    rw [filter_staying]
    exact (hp.entries.map _).filter _

/-! ### The other steps -/

theorem createProcess_sleep (h : SleepInvariant s) {page : ℕ} (hpage : FreshPage s.sched page) :
    let t : Clock := { s with sched := (Scheduler.createProcess page s.sched).2 }
    SleepInvariant t ∧ ∀ p view, Asleep p view s → Asleep p view t := by
  have hstate : ∀ p, InState (Scheduler.createProcess page s.sched).2 p .sleeping ↔
      InState s.sched p .sleeping := fun p => inState_createProcess h.ring hpage p (by simp)
  refine ⟨⟨(h.ring.createProcess hpage).1, h.init.createProcess h.ring hpage, ?_,
    fun l hl hin => (hstate _).mpr (h.asleep l hl ?_), h.nodup, fun l hl => ?_⟩,
    fun p view hp => ⟨(hstate p).mpr hp.state, hp.entries⟩⟩
  · rw [getCurrentPid_createProcess h.ring hpage, hstate]
    exact h.awake
  · -- the number of the new process is not in the table
    rcases List.mem_cons.mp ((pids_createProcess h.ring hpage).mem_iff.mp hin) with he | hin
    · exact absurd he (h.range l hl).ne
    · exact hin
  · show l.pid < (Scheduler.createProcess page s.sched).2.pid
    rw [pid_createProcess h.ring hpage]
    exact (h.range l hl).trans (lt_add_one _)

theorem removeProcess_sleep (h : SleepInvariant s) {pid : ℤ} {sched : State}
    (hs : Scheduler.removeProcess pid s.sched = some sched) :
    SleepInvariant { s with sched } ∧
      ∀ p view, p ≠ pid → Asleep p view s → Asleep p view { s with sched } := by
  by_cases hzero : pid = 0
  · have hy : s.yield = some { s with sched } := by
      rw [Scheduler.removeProcess, if_pos hzero] at hs
      rw [Clock.yield, hs]
      rfl
    obtain ⟨hinv, hentries, hstate⟩ := SleepInvariant.of_yield h.ring h.init h.asleep h.nodup
      h.range hy
    exact ⟨hinv, fun p view _ hp => ⟨(hstate p).mpr hp.state, (hentries p) ▸ hp.entries⟩⟩
  obtain ⟨t, ht, hring, hinit, hperm⟩ := h.ring.removeProcess_total h.init hzero
  obtain rfl : t = sched := Option.some.inj (ht.symm.trans hs)
  have hstate : ∀ p, InState t p .sleeping ↔ InState s.sched p .sleeping ∧ p ≠ pid := fun p =>
    inState_removeProcess h.ring hzero hs p (by simp) (by simp)
  have hview := h.ring.removeProcess hzero hs
  have hcount : t.pid = s.sched.pid := by
    rcases hview with ⟨-, rfl⟩ | ⟨-, -, hcount, -⟩ | ⟨-, -, hcount, -⟩
    · rfl
    · exact hcount
    · exact hcount
  refine ⟨⟨hring, hinit, fun hsleep => ?_, fun l hl hin => ?_, h.nodup, fun l hl => ?_⟩,
    fun p view hp hasleep => ⟨(hstate p).mpr ⟨hasleep.state, hp⟩, hasleep.entries⟩⟩
  · rcases hview with ⟨-, rfl⟩ | ⟨-, -, -, hcur, -⟩ | ⟨-, hring', -, c, rest, -, -, hdisp⟩
    · exact h.awake hsleep
    · dsimp only at hsleep
      rw [hcur] at hsleep
      exact h.awake ((hstate _).mp hsleep).1
    · have := hsleep.unique hring' (hdisp.current_running hring')
      simp at this
  · have hin' := hperm.mem_iff.mp hin
    rw [h.ring.pids_nodup.mem_erase_iff] at hin'
    exact (hstate _).mpr ⟨h.asleep l hl hin'.2, hin'.1⟩
  · show l.pid < t.pid
    rw [hcount]
    exact h.range l hl

/-- The running process is blocked. -/
theorem block_sleep (h : SleepInvariant s) (hcur : getCurrentPid s.sched ≠ initPid)
    (hs : ({ s with sched := changeProcessState (getCurrentPid s.sched) .blocked s.sched } :
      Clock).yield = some t) :
    SleepInvariant t ∧ ∀ p view, Asleep p view s → Asleep p view t := by
  obtain ⟨hinv, hentries, hstate⟩ := SleepInvariant.of_yield
    (s := { s with sched := changeProcessState (getCurrentPid s.sched) .blocked s.sched })
    (changeProcessState_spec h.ring _ _).1 (h.init.changeProcessState h.ring hcur _)
    (fun l hl hin => h.asleep_ne .blocked (fun l hl => h.current_ne hl) hl hin) h.nodup
    (fun l hl => by
      show l.pid < (changeProcessState _ _ s.sched).pid
      rw [pid_changeProcessState h.ring]
      exact h.range l hl) hs
  refine ⟨hinv, fun p view hp => ⟨(hstate p).mpr ?_, (hentries p) ▸ hp.entries⟩⟩
  exact (inState_changeProcessState_ne h.ring _ _ (hp.ne_current h) _).mpr hp.state

/-- A process that is blocked is woken; it is not one of those that sleep. -/
theorem wake_sleep (h : SleepInvariant s) {pid : ℤ} (hblocked : InState s.sched pid .blocked) :
    let t : Clock := { s with sched := changeProcessState pid .ready s.sched }
    SleepInvariant t ∧ ∀ p view, Asleep p view s → Asleep p view t := by
  have hne : ∀ p, InState s.sched p .sleeping → p ≠ pid := fun p hp he => by
    have := (he ▸ hp).unique h.ring hblocked
    simp at this
  have hinit : pid ≠ initPid := by
    rintro rfl
    rcases h.init with hready | ⟨-, hrunning⟩
    · have := hblocked.unique h.ring (show InState s.sched initPid .ready from hready)
      simp at this
    · have := hblocked.unique h.ring (show InState s.sched initPid .running from hrunning)
      simp at this
  obtain ⟨hring, -, hcur⟩ := changeProcessState_spec h.ring pid .ready
  refine ⟨⟨hring, h.init.changeProcessState h.ring hinit _, fun hsleep => ?_, fun l hl hin => ?_,
    h.nodup, fun l hl => ?_⟩, fun p view hp => ⟨?_, hp.entries⟩⟩
  · dsimp only at hsleep
    rw [hcur] at hsleep
    by_cases he : getCurrentPid s.sched = pid
    · rw [he] at hsleep
      have := hsleep.unique hring
        (inState_changeProcessState_self h.ring pid .ready hblocked.mem_pids)
      simp at this
    · exact h.awake ((inState_changeProcessState_ne h.ring _ _ he _).mp hsleep)
  · have hin' : l.pid ∈ pids s.sched := by
      rwa [pids_changeProcessState h.ring] at hin
    have hasleep := h.asleep l hl hin'
    exact (inState_changeProcessState_ne h.ring _ _ (hne _ hasleep) _).mpr hasleep
  · show l.pid < (changeProcessState _ _ s.sched).pid
    rw [pid_changeProcessState h.ring]
    exact h.range l hl
  · exact (inState_changeProcessState_ne h.ring _ _ (hne _ hp.state) _).mpr hp.state

/-- Nothing but a tick and its own removal concerns a process that sleeps. -/
theorem step_spec {a : Action} (h : SleepInvariant s) (hstep : step s a = some t)
    (ha : a ≠ .tick) :
    SleepInvariant t ∧ ∀ p view, a ≠ .removeProcess p → Asleep p view s → Asleep p view t := by
  cases a with
  | sleep time =>
    simp only [step] at hstep
    split_ifs at hstep with hcur
    obtain ⟨hinv, -, hkeep⟩ := sleep_spec h hcur hstep
    exact ⟨hinv, fun p view _ => hkeep p view⟩
  | tick => exact absurd rfl ha
  | switch =>
    obtain ⟨hinv, hentries, hstate⟩ := SleepInvariant.of_yield h.ring h.init h.asleep h.nodup
      h.range hstep
    exact ⟨hinv, fun p view _ hp => ⟨(hstate p).mpr hp.state, (hentries p) ▸ hp.entries⟩⟩
  | createProcess page =>
    simp only [step] at hstep
    split_ifs at hstep with hpage
    obtain rfl := Option.some.inj hstep
    obtain ⟨hinv, hkeep⟩ := createProcess_sleep h hpage
    exact ⟨hinv, fun p view _ => hkeep p view⟩
  | removeProcess pid =>
    obtain ⟨sched, hs, rfl⟩ := Option.map_eq_some_iff.mp hstep
    obtain ⟨hinv, hkeep⟩ := removeProcess_sleep h hs
    exact ⟨hinv, fun p view hp => hkeep p view fun he => hp (he ▸ rfl)⟩
  | block =>
    simp only [step] at hstep
    split_ifs at hstep with hcur
    obtain ⟨hinv, hkeep⟩ := block_sleep h hcur hstep
    exact ⟨hinv, fun p view _ => hkeep p view⟩
  | wake pid =>
    simp only [step] at hstep
    split_ifs at hstep with hblocked
    obtain rfl := Option.some.inj hstep
    obtain ⟨hinv, hkeep⟩ := wake_sleep h hblocked
    exact ⟨hinv, fun p view _ => hkeep p view⟩

/-! ### Runs -/

theorem IsStart.sleepInvariant (h : IsStart s) : SleepInvariant s := by
  obtain ⟨slot, page, hpage, rfl⟩ := h
  have hstart : HistoryInvariant ⟨(Scheduler.createProcess page (boot slot)).2, [initPid]⟩ :=
    historyInvariant_start ⟨slot, page, hpage, rfl⟩
  refine ⟨hstart.ring, hstart.initRuns, fun hsleep => ?_, ?_, by simp, ?_⟩
  · have hcur : getCurrentPid (Scheduler.createProcess page (boot slot)).2 = initPid := by
      have hmem := hstart.alive.mem_iff.mp (getCurrentPid_mem hstart.ring)
      simpa using hmem
    dsimp only at hsleep
    rw [hcur] at hsleep
    rcases hstart.initRuns with hready | ⟨-, hrunning⟩
    · have := hsleep.unique hstart.ring (show InState _ initPid .ready from hready)
      simp at this
    · have := hsleep.unique hstart.ring (show InState _ initPid .running from hrunning)
      simp at this
  · exact fun l hl => absurd hl (by simp)
  · exact fun l hl => absurd hl (by simp)

theorem step_sleepInvariant {a : Action} (h : SleepInvariant s) (hstep : step s a = some t) :
    SleepInvariant t := by
  by_cases ha : a = .tick
  · subst ha
    exact (tick_spec h hstep).1
  · exact (step_spec h hstep ha).1

theorem reachable_sleepInvariant (h : clockSystem.Reachable s) : SleepInvariant s :=
  h.invariant (I := SleepInvariant) (fun _ hs => IsStart.sleepInvariant hs)
    fun _ _ _ hs hstep => step_sleepInvariant hs hstep

theorem advance_eq {p c alarm : ℤ} (hc : 0 ≤ c) (hlt : c < MachineInt.intMax) :
    Listener.advance ⟨p, c, alarm⟩ = ⟨p, c + 1, alarm⟩ := by
  have hmin : MachineInt.intMin ≤ c := by
    unfold MachineInt.intMin
    omega
  exact advance_counter hmin hlt

/-- The counter of a sleeping process counts the ticks. -/
theorem path_counts {p c alarm : ℤ} {as : List Action} (h : SleepInvariant s) (hc : 0 ≤ c)
    (halarm : alarm ≤ MachineInt.intMax) (hp : Asleep p [⟨p, c, alarm⟩] s)
    (hpath : (clockSystem.restrict fun _ a => a ≠ .removeProcess p).Path s as t)
    (hlt : c + as.count .tick < alarm) :
    SleepInvariant t ∧ Asleep p [⟨p, c + as.count .tick, alarm⟩] t := by
  induction hpath generalizing c with
  | nil => exact ⟨h, by simpa using hp⟩
  | @cons s u t a as hstep _ ih =>
    by_cases ha : a = .tick
    · subst ha
      rw [List.count_cons_self] at hlt ⊢
      push_cast at hlt ⊢
      have hadvance : Listener.advance ⟨p, c, alarm⟩ = ⟨p, c + 1, alarm⟩ :=
        advance_eq hc (by omega)
      obtain ⟨hinv, hkeep⟩ := tick_spec h hstep.2
      have hnot : Listener.expired ⟨p, c + 1, alarm⟩ = false := by
        simp only [Listener.expired, decide_eq_false_iff_not]
        omega
      have hstay : Asleep p [⟨p, c + 1, alarm⟩] u := by
        have := hkeep p _ hp (by simp [expiring, hadvance, hnot])
        simpa [staying, hadvance, hnot] using this
      have := ih hinv (by omega) hstay (by omega)
      rwa [show c + (as.count Action.tick + 1 : ℤ) = c + 1 + as.count Action.tick by omega]
    · rw [List.count_cons_of_ne (by simpa using ha)] at hlt ⊢
      obtain ⟨hinv, hkeep⟩ := step_spec h hstep.2 ha
      exact ih hinv hc (hkeep p _ hstep.1 hp) hlt

/-- The timer can always tick, and a process without an entry sleeps on. -/
theorem exists_ticks {p : ℤ} (h : SleepInvariant s) (hp : Asleep p [] s) (n : ℕ) :
    ∃ t, (clockSystem.restrict fun _ a => a ≠ .removeProcess p).Path s (List.replicate n .tick) t ∧
      SleepInvariant t ∧ Asleep p [] t := by
  induction n generalizing s with
  | zero => exact ⟨s, .nil s, h, hp⟩
  | succ n ih =>
    obtain ⟨u, hu⟩ := yield_total (timerTickHandlerC_spec h.ring).2.2.1 (handler_init h.ring h.init)
    obtain ⟨hinv, hkeep⟩ := tick_spec h hu
    obtain ⟨t, hpath, ht⟩ := ih hinv (hkeep p [] hp rfl)
    exact ⟨t, .cons ⟨by simp, hu⟩ hpath, ht⟩

/-- A process that calls `sleep(time)` is woken in time if and only if there is room in the table
and the time is positive. -/
theorem sleep_on_time {time : ℤ} (hs : clockSystem.Reachable s)
    (htime : 0 ≤ MachineInt.int32 time) (hstep : step s (.sleep time) = some t) :
    WokenAt (getCurrentPid s.sched) (max (MachineInt.int32 time) 1).toNat t ↔
      s.listeners.length < maxListeners ∧ 1 ≤ MachineInt.int32 time := by
  have hinv := reachable_sleepInvariant hs
  simp only [step] at hstep
  split_ifs at hstep with hcur
  obtain ⟨ht, hasleep, -⟩ := sleep_spec hinv hcur hstep
  have hmax := (MachineInt.int32_range time).2
  generalize MachineInt.int32 time = interval at *
  set p := getCurrentPid s.sched
  constructor
  · intro hwoken
    by_contra hcond
    rw [not_and_or, not_lt, not_le] at hcond
    by_cases hfull : maxListeners ≤ s.listeners.length
    · rw [if_pos hfull] at hasleep
      obtain ⟨u, hpath, hu, hlost⟩ := exists_ticks ht hasleep ((max interval 1).toNat - 1)
      have hpos : 1 ≤ (max interval 1).toNat := by omega
      have hready := (hwoken _ u hpath (by rw [List.count_replicate_self]; omega)).2
        (by rw [List.count_replicate_self]; omega)
      have hsleep := handler_state hu.ring hlost.state
      rw [if_pos (by rw [hlost.entries.eq_nil]; rfl)] at hsleep
      have := hready.unique (timerTickHandlerC_spec hu.ring).2.2.1 hsleep
      simp at this
    · have hzero : interval = 0 := by omega
      subst hzero
      rw [if_neg hfull] at hasleep
      have hready := (hwoken [] t (.nil t) (by simp)).2 (by simp)
      have hsleep := handler_state ht.ring hasleep.state
      have hnot : expiring [⟨p, 0, 0⟩] = [] := by
        rw [expiring, List.map_singleton, advance_eq (le_refl 0) (by decide)]
        rfl
      rw [if_pos (by rw [List.perm_singleton.mp hasleep.entries, hnot])] at hsleep
      have := hready.unique (timerTickHandlerC_spec ht.ring).2.2.1 hsleep
      simp at this
  · rintro ⟨hroom, hpos⟩ as u hpath hlt
    rw [if_neg (by omega)] at hasleep
    obtain ⟨hu, hcount⟩ := path_counts ht (le_refl 0) hmax hasleep hpath (by omega)
    refine ⟨hcount.state, fun hlast => ?_⟩
    have hready := handler_state hu.ring hcount.state
    have hadvance : Listener.advance ⟨p, 0 + as.count Action.tick, interval⟩ =
        ⟨p, interval, interval⟩ := by
      rw [advance_eq (by omega) (by omega)]
      congr 1
      omega
    rwa [if_neg] at hready
    rw [List.perm_singleton.mp hcount.entries, expiring, List.map_singleton, hadvance]
    simp [Listener.expired]

end

/-! ### Examples of runs -/

def booted : Clock := ⟨(Scheduler.createProcess (pageAt 0) (boot emptySlots)).2, []⟩

theorem isStart_booted : IsStart booted := ⟨emptySlots, pageAt 0, by decide, rfl⟩

/-- The processes 1 to `n` are created; they run in the order from `n` down to 1. -/
def processesStarted (n : ℕ) : List Action :=
  (List.range n).map (fun i => .createProcess (pageAt (i + 1))) ++ [.switch]

/-- What a call of `sleep` finds and whether the process is ready at the next tick. -/
def callSleep (time : ℤ) (s : Clock) : ℤ × ℕ × Option Bool :=
  let pid := getCurrentPid s.sched
  (pid, s.listeners.length, (step s (.sleep time)).map fun t =>
    decide (⟨pid, .ready⟩ ∈ processes (timerTickHandlerC t).sched))

/-- A process that is not ready after the first tick is not woken at the first tick. -/
theorem not_wokenAt_one (as : List Action) {time p : ℤ} {n : ℕ}
    (h : (execute step booted as).map (callSleep time) = some (p, n, some false)) :
    ∃ s t, clockSystem.Reachable s ∧ getCurrentPid s.sched = p ∧ s.listeners.length = n ∧
      step s (.sleep time) = some t ∧ ¬ WokenAt p 1 t := by
  obtain ⟨s, hs, hview⟩ := exists_path_of_execute IsStart h
  obtain ⟨rfl, hrest⟩ := Prod.mk.inj hview
  obtain ⟨rfl, hstep⟩ := Prod.mk.inj hrest
  obtain ⟨t, ht, hnot⟩ := Option.map_eq_some_iff.mp hstep
  refine ⟨s, t, hs.reachable (.start isStart_booted), rfl, rfl, ht, fun hwoken => ?_⟩
  exact of_decide_eq_false hnot ((hwoken [] t (.nil t) (by simp)).2 (by simp))

/-- A process that sleeps for no time at all, and the fifty-first sleeper. -/
theorem sleeper_forgotten :
    (∃ s t, clockSystem.Reachable s ∧ getCurrentPid s.sched = 1 ∧ s.listeners.length = 0 ∧
      step s (.sleep 0) = some t ∧ ¬ WokenAt 1 1 t) ∧
    ∃ s t, clockSystem.Reachable s ∧ getCurrentPid s.sched = 1 ∧ s.listeners.length = 50 ∧
      step s (.sleep 1) = some t ∧ ¬ WokenAt 1 1 t :=
  ⟨not_wokenAt_one (processesStarted 1) (by decide +kernel),
    not_wokenAt_one (processesStarted 51 ++ List.replicate 50 (.sleep 1000))
      (by decide +kernel)⟩

/-- Process 2 sleeps already, process 1 goes to sleep for two ticks. -/
theorem sleep_on_time_two : ∃ s t, clockSystem.Reachable s ∧ step s (.sleep 2) = some t ∧
    getCurrentPid s.sched = 1 ∧ s.listeners.length = 1 ∧ WokenAt 1 2 t := by
  obtain ⟨s, hs, hview⟩ := exists_path_of_execute IsStart
    (show (execute step booted (processesStarted 2 ++ [.sleep 7])).map (callSleep 2) =
      some (1, 1, some false) by decide +kernel)
  obtain ⟨hcur, hrest⟩ := Prod.mk.inj hview
  obtain ⟨hlen, hstep⟩ := Prod.mk.inj hrest
  obtain ⟨t, ht, -⟩ := Option.map_eq_some_iff.mp hstep
  have hreach : clockSystem.Reachable s := hs.reachable (.start isStart_booted)
  refine ⟨s, t, hreach, ht, hcur, hlen, ?_⟩
  rw [← hcur]
  exact (sleep_on_time hreach (by decide) ht).mpr ⟨by rw [hlen]; decide, by decide⟩

end GatOS.Sleep
