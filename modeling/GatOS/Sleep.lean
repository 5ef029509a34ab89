import GatOS.ProcessRing

/-!
# Sleeping processes

The table of the processes that sleep, the handler of the timer, and `sleep`. The timer switches
to another process behind the handler.
-/
namespace GatOS.Sleep
open Scheduler Transition

def maxListeners : ℕ := 50

/-- An entry of `sleepPIDS`, `sleepCounter` and `alarmSleep`. -/
structure Listener where
  pid : ℤ
  counter : ℤ
  alarm : ℤ
  deriving DecidableEq

/-- The first `sleepListeners` entries of the table are in use. -/
structure Clock where
  sched : State
  listeners : List Listener

/-- The last entry takes the place of the one that is deleted. -/
def deleteSleep (index : ℕ) (s : Clock) : Clock :=
  match s.listeners.getLast? with
  | none => s
  | some last =>
    if index ≥ s.listeners.length then s
    else { s with listeners := (s.listeners.set index last).dropLast }

def addSleep (pid interval : ℤ) (s : Clock) : Clock :=
  if s.listeners.length ≥ maxListeners then s
  else { s with listeners := s.listeners ++ [⟨pid, 0, interval⟩] }

/-- `pid` is the one of the entry. -/
def doneSleeping (index : ℕ) (pid : ℤ) (s : Clock) : Clock :=
  deleteSleep index { s with sched := changeProcessState pid .ready s.sched }

def Listener.advance (l : Listener) : Listener :=
  { l with counter := MachineInt.int32 (l.counter + 1) }

def Listener.expired (l : Listener) : Bool := l.counter = l.alarm

/-- The loop over the entries; the entry that takes the place of a deleted one comes next. -/
def timerLoop : ℕ → ℕ → Clock → Clock
  | 0, _, s => s
  | fuel + 1, auxj, s =>
    match s.listeners[auxj]? with
    | none => s
    | some l =>
      let s := { s with listeners := s.listeners.set auxj l.advance }
      if l.advance.expired then timerLoop fuel auxj (doneSleeping auxj l.pid s)
      else timerLoop fuel (auxj + 1) s

def timerTickHandlerC (s : Clock) : Clock := timerLoop s.listeners.length 0 s

/-- The same loop with the entries that it increments, as they were before. `none` when it has not
ended in the rounds that it was given. -/
def timerRounds : ℕ → ℕ → Clock → Option (List Listener × Clock)
  | 0, _, _ => none
  | fuel + 1, auxj, s =>
    match s.listeners[auxj]? with
    | none => some ([], s)
    | some l =>
      let s := { s with listeners := s.listeners.set auxj l.advance }
      (if l.advance.expired then timerRounds fuel auxj (doneSleeping auxj l.pid s)
        else timerRounds fuel (auxj + 1) s).map fun r => (l :: r.1, r.2)

def Clock.yield (s : Clock) : Option Clock :=
  (Scheduler.yield s.sched).map fun sched => { s with sched }

def sleep (time : ℤ) (s : Clock) : Option Clock :=
  let myPid := getCurrentPid s.sched
  let s := addSleep myPid time s
  { s with sched := changeProcessState myPid .sleeping s.sched }.yield

/-- `block` and `wake` are what the calls on mutexes, semaphores and pipes do to the processes. -/
inductive Action
  | sleep (time : ℤ)
  | tick
  | switch
  | createProcess (page : ℕ)
  | removeProcess (pid : ℤ)
  | block
  | wake (pid : ℤ)
  deriving DecidableEq

/-- The init process never waits; only a process that is blocked is woken by another one. -/
def step (s : Clock) : Action → Option Clock
  | .sleep time =>
    if getCurrentPid s.sched ≠ initPid then sleep (MachineInt.int32 time) s else none
  | .tick => (timerTickHandlerC s).yield
  | .switch => s.yield
  | .createProcess page =>
    if FreshPage s.sched page then
      some { s with sched := (Scheduler.createProcess page s.sched).2 }
    else none
  | .removeProcess pid =>
    (Scheduler.removeProcess pid s.sched).map fun sched => { s with sched }
  | .block =>
    let pid := getCurrentPid s.sched
    if pid ≠ initPid then
      { s with sched := changeProcessState pid .blocked s.sched }.yield
    else none
  | .wake pid =>
    if ⟨pid, .blocked⟩ ∈ processes s.sched then
      some { s with sched := changeProcessState pid .ready s.sched }
    else none

/-- `main` has created the init process. -/
def IsStart (s : Clock) : Prop :=
  ∃ slot page, IsPage page ∧ s = ⟨(Scheduler.createProcess page (boot slot)).2, []⟩

def clockSystem : System Clock Action := ofStep IsStart step

/-- The process sleeps until the `n`-th tick, which makes it ready, unless it is removed. -/
def WokenAt (p : ℤ) (n : ℕ) (s : Clock) : Prop :=
  ∀ as t, (clockSystem.restrict fun _ a => a ≠ .removeProcess p).Path s as t →
    as.count .tick < n → InState t.sched p .sleeping ∧
      (as.count .tick + 1 = n → InState (timerTickHandlerC t).sched p .ready)

/-! ### The handler -/

/-- The processes with the given numbers are made ready. -/
def wakeAll (l : List ℤ) (q : Process) : Process :=
  if q.pid ∈ l then { q with state := .ready } else q

@[simp] theorem wakeAll_pid (l : List ℤ) (q : Process) : (wakeAll l q).pid = q.pid := by
  unfold wakeAll
  split_ifs <;> rfl

theorem wakeAll_withState {l m : List ℤ} {p : ℤ} (h : ∀ r, r ∈ m ↔ r = p ∨ r ∈ l) (q : Process) :
    wakeAll l (withState p .ready q) = wakeAll m q := by
  unfold wakeAll
  rw [withState_pid]
  by_cases hp : q.pid = p
  · rw [if_pos ((h _).mpr (Or.inl hp)), withState, if_pos hp]
    split_ifs <;> rfl
  · rw [withState, if_neg hp]
    by_cases hl : q.pid ∈ l
    · rw [if_pos hl, if_pos ((h _).mpr (Or.inr hl))]
    · rw [if_neg hl, if_neg fun hm => ((h _).mp hm).elim hp hl]

section

variable {s t : Clock}

theorem deleteSleep_sched (index : ℕ) (s : Clock) : (deleteSleep index s).sched = s.sched := by
  unfold deleteSleep
  split
  · rfl
  · split_ifs <;> rfl

/-- The entries behind the deleted one stay, in another order. -/
theorem deleteSleep_listeners {seen rest : List Listener} {l : Listener}
    (h : s.listeners = seen ++ l :: rest) :
    ∃ rest', (deleteSleep seen.length s).listeners = seen ++ rest' ∧ rest'.Perm rest := by
  have hlt : ¬ seen.length ≥ s.listeners.length := by
    rw [h, List.length_append, List.length_cons]
    omega
  have hset : ∀ x, s.listeners.set seen.length x = seen ++ x :: rest := fun x => by
    rw [h, List.set_append_right _ _ (Nat.le_refl _), Nat.sub_self, List.set_cons_zero]
  rcases List.eq_nil_or_concat rest with rfl | ⟨mid, last, rfl⟩
  · refine ⟨[], ?_, List.Perm.refl _⟩
    have hlast : s.listeners.getLast? = some l := by simp [h]
    simp only [deleteSleep, hlast, if_neg hlt, hset]
    simp
  · rw [List.concat_eq_append] at h hset ⊢
    have hsplit : ∀ x : Listener, seen ++ x :: (mid ++ [last]) = (seen ++ x :: mid) ++ [last] :=
      fun x => by simp
    refine ⟨last :: mid, ?_, (List.perm_append_singleton last mid).symm⟩
    have hlast : s.listeners.getLast? = some last := by
      rw [h, hsplit, List.getLast?_concat]
    simp only [deleteSleep, hlast, if_neg hlt, hset, hsplit, List.dropLast_concat]

/-- The entries that expire at the next tick, and those that stay. -/
def expiring (l : List Listener) : List Listener := (l.map Listener.advance).filter Listener.expired

def staying (l : List Listener) : List Listener :=
  (l.map Listener.advance).filter fun l => !l.expired

/-- The calls of `changeProcessState` that the handler makes, one after the other. -/
def readyAll (pids : List ℤ) (sched : State) : State :=
  pids.foldl (fun sched pid => changeProcessState pid .ready sched) sched

theorem readyAll_processes {sched : State} (h : WellFormedRing sched) (l : List ℤ) :
    processes (readyAll l sched) = (processes sched).map (wakeAll l) := by
  induction l generalizing sched with
  | nil =>
    have hid : wakeAll [] = id := by
      funext q
      simp [wakeAll]
    rw [hid, List.map_id]
    rfl
  | cons pid l ih =>
    obtain ⟨hwell, hproc⟩ := h.changeProcessState pid .ready
    show processes (readyAll l (changeProcessState pid .ready sched)) = _
    rw [ih hwell, hproc, List.map_map]
    exact List.map_congr_left fun q _ => wakeAll_withState (fun r => List.mem_cons) q

theorem readyAll_ring {sched : State} (h : RingInvariant sched) (l : List ℤ) :
    RingInvariant (readyAll l sched) ∧ (readyAll l sched).pid = sched.pid ∧
      getCurrentPid (readyAll l sched) = getCurrentPid sched := by
  induction l generalizing sched with
  | nil => exact ⟨h, rfl, rfl⟩
  | cons pid l ih =>
    obtain ⟨hring, -, hcur⟩ := changeProcessState_spec h pid .ready
    obtain ⟨hring', hpid, hcur'⟩ := ih hring
    exact ⟨hring', hpid.trans (pid_changeProcessState h _ _), hcur'.trans hcur⟩

/-- Every entry behind the seen ones is incremented exactly once, also when entries change places. -/
theorem timerRounds_spec (seen : List Listener) {rest : List Listener}
    (h : s.listeners = seen ++ rest) :
    ∃ log t, (∀ fuel, rest.length < fuel → timerRounds fuel seen.length s = some (log, t)) ∧
      log.Perm rest ∧ t.listeners.Perm (seen ++ staying rest) ∧
      t.sched = readyAll ((expiring log).map Listener.pid) s.sched := by
  generalize hlen : rest.length = n
  induction n generalizing s seen rest with
  | zero =>
    obtain rfl := List.eq_nil_of_length_eq_zero hlen
    have hget : s.listeners[seen.length]? = none := by simp [h]
    refine ⟨[], s, fun fuel hfuel => ?_, List.Perm.refl _, by simp [h, staying], rfl⟩
    obtain ⟨fuel, rfl⟩ := Nat.exists_eq_succ_of_ne_zero hfuel.ne'
    simp [timerRounds, hget]
  | succ n ih =>
    obtain ⟨l, rest, rfl⟩ := List.exists_cons_of_length_eq_add_one hlen
    have hrest : rest.length = n := by simpa using hlen
    have hget : s.listeners[seen.length]? = some l := by simp [h]
    set s' : Clock := { s with listeners := s.listeners.set seen.length l.advance } with hs'
    have hadvanced : s'.listeners = seen ++ l.advance :: rest := by
      rw [hs']
      show s.listeners.set seen.length l.advance = _
      rw [h, List.set_append_right _ _ (Nat.le_refl _), Nat.sub_self, List.set_cons_zero]
    by_cases hexpired : l.advance.expired
    · -- the entry is deleted, and the loop goes on at the same place
      set u : Clock := { s' with sched := changeProcessState l.pid .ready s.sched } with hu
      obtain ⟨rest', hdel, hperm⟩ := @deleteSleep_listeners u seen rest l.advance hadvanced
      obtain ⟨log, t, hrun, hlog, hlist, hsched⟩ :=
        @ih (deleteSleep seen.length u) seen rest' hdel (hperm.length_eq.trans hrest)
      have hstay : (staying rest').Perm (staying (l :: rest)) := by
        unfold staying
        rw [List.map_cons, List.filter_cons_of_neg (by simp [hexpired])]
        exact (hperm.map _).filter _
      refine ⟨l :: log, t, fun fuel hfuel => ?_, (hlog.trans hperm).cons l,
        hlist.trans (hstay.append_left seen), ?_⟩
      · obtain ⟨fuel, rfl⟩ := Nat.exists_eq_succ_of_ne_zero (Nat.ne_zero_of_lt hfuel)
        rw [timerRounds]
        simp only [hget, hexpired, if_true]
        exact congrArg _ (hrun fuel (by omega))
      · rw [hsched, deleteSleep_sched]
        unfold expiring
        rw [List.map_cons, List.filter_cons_of_pos hexpired]
        rfl
    · obtain ⟨log, t, hrun, hlog, hlist, hsched⟩ :=
        @ih s' (seen ++ [l.advance]) rest (by rw [hadvanced]; simp) hrest
      rw [List.length_append, List.length_singleton] at hrun
      refine ⟨l :: log, t, fun fuel hfuel => ?_, hlog.cons l, ?_, ?_⟩
      · obtain ⟨fuel, rfl⟩ := Nat.exists_eq_succ_of_ne_zero (Nat.ne_zero_of_lt hfuel)
        rw [timerRounds]
        simp only [hget, hexpired]
        exact congrArg _ (hrun fuel (by omega))
      · rw [List.append_assoc] at hlist
        unfold staying at hlist ⊢
        rw [List.map_cons, List.filter_cons_of_pos (by simp [hexpired])]
        exact hlist
      · rw [hsched]
        unfold expiring
        rw [List.map_cons, List.filter_cons_of_neg hexpired]

/-- The last round only looks at the bound. -/
theorem timerLoop_eq {fuel auxj : ℕ} {log : List Listener}
    (h : timerRounds (fuel + 1) auxj s = some (log, t)) : timerLoop fuel auxj s = t := by
  induction fuel generalizing s auxj log with
  | zero =>
    rw [timerRounds] at h
    split at h
    · exact (Prod.mk.inj (Option.some.inj h)).2
    · split_ifs at h <;> cases h
  | succ fuel ih =>
    cases hget : s.listeners[auxj]? with
    | none =>
      simp only [timerRounds, hget] at h
      simp only [timerLoop, hget]
      exact (Prod.mk.inj (Option.some.inj h)).2
    | some l =>
      rw [timerRounds] at h
      simp only [hget] at h
      simp only [timerLoop, hget]
      obtain ⟨⟨log', t'⟩, hrun, heq⟩ := Option.map_eq_some_iff.mp h
      obtain ⟨-, rfl⟩ := Prod.mk.inj heq
      split_ifs at hrun ⊢ with hexpired
      · exact ih hrun
      · exact ih hrun

/-- The loop ends. It increments the counter of each entry once, makes those processes ready whose
counter has reached the alarm, and removes just their entries. -/
theorem timerTickHandlerC_rounds (s : Clock) :
    ∃ log, (∀ fuel, s.listeners.length < fuel →
        timerRounds fuel 0 s = some (log, timerTickHandlerC s)) ∧
      log.Perm s.listeners ∧ (timerTickHandlerC s).listeners.Perm (staying s.listeners) ∧
      (timerTickHandlerC s).sched = readyAll ((expiring log).map Listener.pid) s.sched := by
  obtain ⟨log, t, hrun, hlog, hlist, hsched⟩ := timerRounds_spec (s := s) [] rfl
  obtain rfl : timerTickHandlerC s = t := timerLoop_eq (hrun _ (Nat.lt_succ_self _))
  exact ⟨log, hrun, hlog, hlist, hsched⟩

theorem wakeAll_perm {l m : List ℤ} (h : l.Perm m) : wakeAll l = wakeAll m := by
  funext q
  simp only [wakeAll, h.mem_iff]

theorem expiring_perm {l m : List Listener} (h : l.Perm m) :
    ((expiring l).map Listener.pid).Perm ((expiring m).map Listener.pid) :=
  ((h.map Listener.advance).filter Listener.expired).map Listener.pid

theorem timerTickHandlerC_processes (h : WellFormedRing s.sched) :
    processes (timerTickHandlerC s).sched =
      (processes s.sched).map (wakeAll ((expiring s.listeners).map Listener.pid)) := by
  obtain ⟨log, -, hlog, -, hsched⟩ := timerTickHandlerC_rounds s
  rw [hsched, readyAll_processes h, wakeAll_perm (expiring_perm hlog)]

theorem timerTickHandlerC_spec (hring : RingInvariant s.sched) :
    let t := timerTickHandlerC s
    t.listeners.Perm (staying s.listeners) ∧
      processes t.sched =
        (processes s.sched).map (wakeAll ((expiring s.listeners).map Listener.pid)) ∧
      RingInvariant t.sched ∧ t.sched.pid = s.sched.pid ∧
      getCurrentPid t.sched = getCurrentPid s.sched := by
  obtain ⟨log, -, -, hlist, hsched⟩ := timerTickHandlerC_rounds s
  have hring' := readyAll_ring hring ((expiring log).map Listener.pid)
  rw [← hsched] at hring'
  exact ⟨hlist, timerTickHandlerC_processes hring.wellFormedRing, hring'⟩

theorem advance_counter {l : Listener} (hmin : MachineInt.intMin ≤ l.counter)
    (hmax : l.counter < MachineInt.intMax) : l.advance = { l with counter := l.counter + 1 } := by
  have hnext : MachineInt.int32 (l.counter + 1) = l.counter + 1 :=
    MachineInt.int32_eq (by omega) (by omega)
  rw [Listener.advance, hnext]

/-- One tick over any table. The loop ends and increments the counter of each entry once. The
entries whose counter has reached the alarm are removed and their processes made ready, and the
others are kept. -/
theorem timer_tick (s : Clock) :
    ∃ log, (∀ fuel, s.listeners.length < fuel →
        timerRounds fuel 0 s = some (log, timerTickHandlerC s)) ∧
      log.Perm s.listeners ∧
      (∀ l ∈ log, MachineInt.intMin ≤ l.counter → l.counter < MachineInt.intMax →
        l.advance = { l with counter := l.counter + 1 }) ∧
      (timerTickHandlerC s).listeners.Perm (staying s.listeners) ∧
      (timerTickHandlerC s).sched = readyAll ((expiring log).map Listener.pid) s.sched ∧
      (WellFormedRing s.sched → processes (timerTickHandlerC s).sched =
        (processes s.sched).map (wakeAll ((expiring s.listeners).map Listener.pid))) := by
  obtain ⟨log, hrun, hlog, hlist, hsched⟩ := timerTickHandlerC_rounds s
  exact ⟨log, hrun, hlog, fun l _ => advance_counter, hlist, hsched, timerTickHandlerC_processes⟩

/-- Three of four entries expire, the last ones of the table and the first one among them. -/
theorem timer_tick_four : ∃ sched : State, ∃ t : Clock,
    timerTickHandlerC ⟨sched, [⟨1, 0, 1⟩, ⟨5, 3, 9⟩, ⟨2, 4, 5⟩, ⟨7, 1, 2⟩]⟩ = t ∧
      processes sched = [⟨0, .ready⟩, ⟨2, .sleeping⟩, ⟨1, .sleeping⟩] ∧
      processes t.sched = [⟨0, .ready⟩, ⟨2, .ready⟩, ⟨1, .ready⟩] ∧
      t.listeners.Perm [⟨5, 4, 9⟩] := by
  obtain ⟨s, hs, hproc⟩ := reachable_restrict_of_execute Scheduler.IsStart
    (show Scheduler.IsStart started from ⟨emptySlots, pageAt 0, by decide, rfl⟩)
    (show (execute (guarded (fun s r => Request.Admissible s r) historyStep) started
      [.createProcess (pageAt 1), .createProcess (pageAt 2), .changeProcessState 1 .sleeping,
        .changeProcessState 2 .sleeping]).map (fun s : History => processes s.state) =
      some [⟨0, .ready⟩, ⟨2, .sleeping⟩, ⟨1, .sleeping⟩] by decide +kernel)
  have hwell := (reachable_historyInvariant hs).ring.wellFormedRing
  obtain ⟨-, -, -, -, hlist, -, hready⟩ :=
    timer_tick ⟨s.state, [⟨1, 0, 1⟩, ⟨5, 3, 9⟩, ⟨2, 4, 5⟩, ⟨7, 1, 2⟩]⟩
  refine ⟨s.state, _, rfl, hproc, ?_, hlist⟩
  rw [hready hwell, hproc]
  show List.map (wakeAll ((expiring [⟨1, 0, 1⟩, ⟨5, 3, 9⟩, ⟨2, 4, 5⟩, ⟨7, 1, 2⟩]).map
    Listener.pid)) _ = _
  decide

end

end GatOS.Sleep
