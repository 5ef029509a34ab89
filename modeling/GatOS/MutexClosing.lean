import GatOS.CondCallsRuns
import GatOS.FreeMutexes
import GatOS.NamedObjects

/-!
# Closing a mutex or a condition variable

`mutex_close` and `cond_close` take every process out of the queue. Of the queue of a mutex only
the process that comes out last is made ready.
-/
namespace GatOS.MutexClosing
open Cond QueuedMutex Scheduler Transition

/-! ### Runs -/

inductive Event
  | call (e : CondCalls.Event)
  | other (a : Cond.Action)

/-- The calls of `condVariable.c` statement by statement, and whole calls. -/
def step (s : CondCalls.State) : Event → Option CondCalls.State
  | .call e => CondCalls.step s e
  | .other a => (Cond.step s.conds a).map fun c => { s with conds := c }

def IsStart (s : CondCalls.State) : Prop :=
  Cond.IsStart s.conds ∧ (∀ p, s.calls p = none) ∧ s.finished = []

def system : System CondCalls.State Event := ofStep IsStart step

/-! ### What a close is for -/

inductive Object
  | mutex (key : ℤ)
  | cond (key : ℤ)

namespace Object

def isOpen (s : Conds) : Object → Bool
  | .mutex key => QueuedMutex.isOpen key s.machine
  | .cond key => condIsOpen key s

/-- The processes in the queue. -/
def waiting (s : Conds) : Object → List ℕ
  | .mutex key => s.machine.waiting key
  | .cond key => ((s.openConds key).processQueue.map QueuedMutex.Queue.elems).getD []

/-- `node` is what `allocPage` returns. `garbage` is what `mutex_close` reads when it takes nobody
out of a queue. -/
def close (node : ℕ) (garbage : ℤ) (s : Conds) : Object → Option Conds
  | .mutex key => (mutexClose key garbage s.machine).map fun (_, m) => s.withMachine m
  | .cond key => (condClose key node garbage s).map Prod.snd

/-- Nobody holds the mutex that `cond_close` locks. -/
def AtOnce (s : Conds) : Object → Prop
  | .mutex _ => True
  | .cond key => QueuedMutex.isOpen (s.openConds key).lockQueue s.machine →
      (s.machine.openMutexes (s.openConds key).lockQueue).locked ≠ locked

end Object

def pidsOf (s : State) (l : List ℕ) : List ℤ := l.map fun p => (s.processOf p).pid

/-- The processes with these numbers become `READY`, the others stay as they are. -/
def wake (l : List ℤ) (p : Process) : Process := if p.pid ∈ l then { p with state := .ready } else p

structure WakesEverybody (o : Object) (s t : Conds) : Prop where
  woken : processes t.machine.sched =
    (processes s.machine.sched).map (wake (pidsOf s.machine.sched (o.waiting s)))
  emptied : o.waiting t = []
  closed : o.isOpen t = false

/-- The process that comes out last is the only one in the queue that has to be woken. Where
nobody comes out, the garbage is the number of a process that need not be woken. -/
def OthersAwake (garbage : ℤ) (s : Conds) : Object → Prop
  | .mutex key =>
    match (s.machine.waiting key).getLast? with
    | some p => ∀ q ∈ processes s.machine.sched,
        q.pid ∈ pidsOf s.machine.sched (s.machine.waiting key) →
          q.pid ≠ (s.machine.sched.processOf p).pid → q.state = .ready
    | none => ∀ q ∈ processes s.machine.sched, q.pid = garbage → q.state = .ready
  | .cond key => QueuedMutex.isOpen (s.openConds key).lockQueue s.machine →
      ¬ Dead s.machine null ∧ ∀ q ∈ processes s.machine.sched, q.pid = garbage →
        q.pid ∈ pidsOf s.machine.sched ((Object.cond key).waiting s) ∨ q.state = .ready

instance (garbage : ℤ) (s : Conds) (o : Object) : Decidable (OthersAwake garbage s o) := by
  unfold OthersAwake Dead
  split
  · split <;> infer_instance
  · infer_instance

/-! ### Waking -/

section

variable {l l' : List ℤ} {p : Process} {ps : List Process}

theorem wake_eq_iff : wake l p = wake l' p ↔ (p.state ≠ .ready → (p.pid ∈ l ↔ p.pid ∈ l')) := by
  obtain ⟨pid, state⟩ := p
  by_cases h : pid ∈ l
  · by_cases h' : pid ∈ l'
    · simp [wake, h, h']
    · simp [wake, h, h', eq_comm]
  · by_cases h' : pid ∈ l'
    · simp [wake, h, h']
    · simp [wake, h, h']

theorem map_wake_iff : ps.map (wake l) = ps.map (wake l') ↔
    ∀ q ∈ ps, q.state ≠ .ready → (q.pid ∈ l ↔ q.pid ∈ l') := by
  rw [List.map_inj_left]
  exact forall₂_congr fun q _ => wake_eq_iff

theorem withState_eq_wake (pid : ℤ) : withState pid .ready = wake [pid] := by
  funext p
  simp [withState, wake]

theorem wake_wake (l l' : List ℤ) (p : Process) : wake l' (wake l p) = wake (l ++ l') p := by
  by_cases h : p.pid ∈ l
  · by_cases h' : p.pid ∈ l' <;> simp [wake, h, h']
  · simp [wake, h]

theorem wake_nil : wake [] = id := by
  funext p
  simp [wake]

end

section

variable {s : State} {m : Machine}

theorem changeProcessState_processOf (h : WellFormedRing s) (pid : ℤ) (state : ProcessState) :
    (changeProcessState pid state s).processOf null = s.processOf null ∧
      ∀ l, pidsOf (changeProcessState pid state s) l = pidsOf s l := by
  rcases changeProcessState_cases h.isRing pid state with ⟨x, hx, -, ht⟩ | ⟨-, ht⟩
  · rw [ht]
    have hnull : null ≠ x := fun he => h.null_notMem (he ▸ hx)
    exact ⟨setState_processOf_ne s state hnull, fun l => by simp [pidsOf]⟩
  · rw [ht]
    exact ⟨rfl, fun _ => rfl⟩

/-- Every process that `cond_broadcast` takes out of the queue is woken. -/
theorem wakeAll_spec (h : WellFormedRing m.sched) (l : List ℕ) :
    processes (wakeAll l m).sched = (processes m.sched).map (wake (pidsOf m.sched l)) ∧
      WellFormedRing (wakeAll l m).sched ∧
      (wakeAll l m).sched.processOf null = m.sched.processOf null ∧
      wakeAll l m = { m with sched := (wakeAll l m).sched } := by
  induction l generalizing m with
  | nil => exact ⟨by simp [wakeAll, pidsOf, wake_nil], h, rfl, rfl⟩
  | cons p ps ih =>
    obtain ⟨hring, hproc⟩ := h.changeProcessState (m.sched.processOf p).pid .ready
    obtain ⟨hnull, hpids⟩ := changeProcessState_processOf h (m.sched.processOf p).pid .ready
    obtain ⟨hrest, hwell, hnull', hframe⟩ := ih (m := m.changeProcessState p .ready) hring
    refine ⟨?_, hwell, hnull'.trans hnull, hframe⟩
    have hpids' : pidsOf (m.changeProcessState p .ready).sched ps = pidsOf m.sched ps := hpids ps
    have hproc' : processes (m.changeProcessState p .ready).sched =
        (processes m.sched).map (wake [(m.sched.processOf p).pid]) := by
      rw [← withState_eq_wake]
      exact hproc
    rw [wakeAll, hrest, hpids', hproc', List.map_map]
    refine List.map_congr_left fun q _ => ?_
    exact wake_wake _ _ q

end

/-! ### The invariant -/

section

variable {s t : Conds} {key : ℤ} {node page : ℕ}

theorem orderly_lockAtOnce (h : Orderly s.machine) (ht : lockAtOnce key node s = some t) :
    Orderly t.machine := by
  unfold lockAtOnce at ht
  split_ifs at ht
  obtain ⟨r, hr, rfl⟩ := Option.map_eq_some_iff.mp ht
  exact h.step (a := .mutexLock key node) (congrArg (Option.map Prod.snd) hr)

theorem orderly_unlock (h : Orderly s.machine) (ht : unlock key s = some t) :
    Orderly t.machine := by
  obtain ⟨u, hu, rfl⟩ := Option.map_eq_some_iff.mp ht
  exact h.step (a := .mutexUnlock key) (congrArg (Option.map Unlock.after) hu)

theorem orderly_wakeAll (l : List ℕ) {m : Machine} (h : Orderly m) : Orderly (wakeAll l m) := by
  induction l generalizing m with
  | nil => exact h
  | cons p ps ih =>
    exact ih (h.step (a := .changeProcessState (m.sched.processOf p).pid .ready) rfl)

theorem orderly_condBroadcast {r : ℤ × Conds} (h : Orderly s.machine)
    (hr : condBroadcast key node s = some r) : Orderly r.2.machine := by
  unfold condBroadcast at hr
  split_ifs at hr
  · simp only [Option.bind_eq_bind, Option.bind_eq_some_iff] at hr
    obtain ⟨u, hu, t, ht, hr⟩ := hr
    obtain rfl := Option.some.inj hr
    exact orderly_unlock (orderly_wakeAll _ (orderly_lockAtOnce h hu)) ht
  · obtain rfl := Option.some.inj hr
    exact h

theorem orderly_condOpen {name : List ℤ} {queuePage : ℕ} {r : ℤ × Conds} (h : Orderly s.machine)
    (hr : condOpen name node page queuePage s = some r) : Orderly r.2.machine := by
  unfold condOpen at hr
  simp only [Option.bind_eq_bind, Option.bind_eq_some_iff] at hr
  obtain ⟨u, hu, hr⟩ := hr
  have hlocked := orderly_lockAtOnce h hu
  split at hr
  · obtain ⟨t, ht, hr⟩ := Option.bind_eq_some_iff.mp hr
    obtain rfl := Option.some.inj hr
    exact orderly_unlock hlocked ht
  · split_ifs at hr
    · obtain ⟨t, ht, hr⟩ := Option.bind_eq_some_iff.mp hr
      obtain rfl := Option.some.inj hr
      exact orderly_unlock hlocked ht
    · obtain ⟨v, hv, hr⟩ := Option.bind_eq_some_iff.mp hr
      obtain ⟨t, ht, hr⟩ := Option.bind_eq_some_iff.mp hr
      obtain rfl := Option.some.inj hr
      obtain ⟨⟨lockQueue, m⟩, hm, rfl⟩ := Option.map_eq_some_iff.mp hv
      exact orderly_unlock (hlocked.mutexOpen hm) ht

theorem orderly_condStep {a : Cond.Action} (h : Orderly s.machine)
    (ht : Cond.step s a = some t) : Orderly t.machine := by
  cases a with
  | initializeConds page =>
    obtain ⟨r, hr, rfl⟩ := Option.map_eq_some_iff.mp ht
    exact h.mutexOpen hr
  | condOpen name node page queuePage =>
    simp only [Cond.step] at ht
    split_ifs at ht
    obtain ⟨r, hr, rfl⟩ := Option.map_eq_some_iff.mp ht
    exact orderly_condOpen h hr
  | condBroadcast key node =>
    obtain ⟨r, hr, rfl⟩ := Option.map_eq_some_iff.mp ht
    exact orderly_condBroadcast h hr
  | condClose key node garbage =>
    obtain ⟨r, hr, rfl⟩ := Option.map_eq_some_iff.mp ht
    unfold condClose at hr
    split_ifs at hr
    · simp only [Option.bind_eq_bind, Option.bind_eq_some_iff] at hr
      obtain ⟨u, hu, v, hv, hr⟩ := hr
      obtain rfl := Option.some.inj hr
      have hbroadcast := orderly_condBroadcast h hu
      exact hbroadcast.step (a := .mutexClose _ garbage) (congrArg (Option.map Prod.snd) hv)
    · obtain rfl := Option.some.inj hr
      exact h
  | mutex a =>
    obtain ⟨m, hm, rfl⟩ := Option.map_eq_some_iff.mp ht
    exact h.step hm

end

section

variable {s t : CondCalls.State} {key lockKey : ℤ} {node : ℕ}

theorem orderly_mutexLock (h : Orderly s.machine) (ht : s.mutexLock key node = some t) :
    Orderly t.machine := by
  obtain ⟨r, hr, rfl⟩ := Option.map_eq_some_iff.mp ht
  exact h.step (a := .mutexLock key node) (congrArg (Option.map Prod.snd) hr)

theorem orderly_mutexUnlock (h : Orderly s.machine) (ht : s.mutexUnlock key = some t) :
    Orderly t.machine := by
  obtain ⟨u, hu, rfl⟩ := Option.map_eq_some_iff.mp ht
  exact h.step (a := .mutexUnlock key) (congrArg (Option.map Unlock.after) hu)

theorem orderly_changeProcessState (h : Orderly s.machine) (p : ℕ) (state : ProcessState) :
    Orderly (s.changeProcessState p state).machine :=
  h.step (a := .changeProcessState (s.machine.sched.processOf p).pid state) rfl

theorem orderly_enqueue (h : Orderly s.machine) (p : ℕ) :
    Orderly (s.enqueue key node p).machine := by
  unfold CondCalls.State.enqueue
  split
  · exact h
  · dsimp only
    split_ifs
    · exact h.storeNull p
    · exact h

theorem orderly_runWait {place : CondCalls.WaitPlace} (h : Orderly s.machine)
    (ht : s.runWait node key lockKey place = some t) : Orderly t.machine := by
  cases place with
  | unlockMutex => exact orderly_mutexUnlock (s := s.goto _) h ht
  | lockQueue => exact orderly_mutexLock (s := s.goto _) h ht
  | enqueue =>
    obtain rfl := Option.some.inj ht
    exact orderly_enqueue (s := s.goto _) h s.current
  | unlockQueue => exact orderly_mutexUnlock (s := s.goto _) h ht
  | block =>
    obtain rfl := Option.some.inj ht
    exact orderly_changeProcessState (s := s.goto _) h s.current .blocked
  | yield =>
    obtain ⟨m, hm, rfl⟩ := Option.map_eq_some_iff.mp ht
    exact h.step (a := .switch) hm
  | relock => exact orderly_mutexLock (s := s.goto _) h ht
  | ret =>
    obtain rfl := Option.some.inj ht
    exact h

theorem orderly_runSignal {place : CondCalls.WakePlace} {record : CondCalls.Record}
    (h : Orderly s.machine) (ht : s.runSignal node key record place = some t) :
    Orderly t.machine := by
  cases place with
  | lock => exact orderly_mutexLock (s := s.goto _) h ht
  | test | dequeue | ret =>
    obtain rfl := Option.some.inj ht
    exact h
  | unlock p => exact orderly_mutexUnlock (s := s.goto _) h ht
  | wake p =>
    simp only [CondCalls.State.runSignal] at ht
    split_ifs at ht
    · obtain rfl := Option.some.inj ht
      exact orderly_changeProcessState h p .ready
    · obtain rfl := Option.some.inj ht
      exact h

theorem orderly_runBroadcast {place : CondCalls.WakePlace} {record : CondCalls.Record}
    (h : Orderly s.machine) (ht : s.runBroadcast node key record place = some t) :
    Orderly t.machine := by
  cases place with
  | lock => exact orderly_mutexLock (s := s.goto _) h ht
  | test | dequeue | ret =>
    obtain rfl := Option.some.inj ht
    exact h
  | unlock p => exact orderly_mutexUnlock (s := s.goto _) h ht
  | wake p =>
    obtain rfl := Option.some.inj ht
    exact orderly_changeProcessState h p .ready

theorem orderly_begin {c : CondCalls.Call} (h : Orderly s.machine) (ht : s.begin key c = some t) :
    Orderly t.machine := by
  unfold CondCalls.State.begin at ht
  split_ifs at ht
  · obtain rfl := Option.some.inj ht
    exact h
  · obtain rfl := Option.some.inj ht
    exact h

theorem orderly_callStep {e : CondCalls.Event} (h : Orderly s.machine)
    (ht : CondCalls.step s e = some t) : Orderly t.machine := by
  cases e with
  | condWait key lockKey => exact orderly_begin h ht
  | condSignal key => exact orderly_begin h ht
  | condBroadcast key => exact orderly_begin h ht
  | mutexLock key node =>
    simp only [CondCalls.step] at ht
    split_ifs at ht
    exact orderly_mutexLock h ht
  | mutexUnlock key =>
    simp only [CondCalls.step] at ht
    split_ifs at ht
    exact orderly_mutexUnlock h ht
  | run node =>
    obtain ⟨c, -, hc⟩ := Option.bind_eq_some_iff.mp ht
    cases c with
    | wait key lockKey place => exact orderly_runWait h hc
    | wake kind key place record =>
      cases kind with
      | signal => exact orderly_runSignal h hc
      | broadcast => exact orderly_runBroadcast h hc
  | tick =>
    obtain ⟨m, hm, rfl⟩ := Option.map_eq_some_iff.mp ht
    exact h.step (a := .switch) hm
  | createProcess page =>
    simp only [CondCalls.step] at ht
    split_ifs at ht with hpage
    obtain rfl := Option.some.inj ht
    exact h.step (a := .createProcess page) (if_pos hpage)

theorem reachable_orderly (h : system.Reachable s) : Orderly s.machine := by
  refine h.invariant (I := fun s => Orderly s.machine)
    (fun s (hs : IsStart s) => orderly_start hs.1.1) fun s e t hs ht => ?_
  cases e with
  | call e => exact orderly_callStep hs ht
  | other a =>
    obtain ⟨c, hc, rfl⟩ := Option.map_eq_some_iff.mp ht
    exact orderly_condStep hs hc

end

/-! ### The result -/

section

variable {s : Conds} {key : ℤ} {node : ℕ} {garbage : ℤ}

theorem othersAwake_mutex_iff : OthersAwake garbage s (.mutex key) ↔
    ∀ q ∈ processes s.machine.sched, q.state ≠ .ready →
      (q.pid ∈ [lastPid key garbage s.machine] ↔
        q.pid ∈ pidsOf s.machine.sched (s.machine.waiting key)) := by
  unfold OthersAwake lastPid
  cases hlast : (s.machine.waiting key).getLast? with
  | none =>
    have hnobody : s.machine.waiting key = [] := List.getLast?_eq_none_iff.mp hlast
    simp only [hnobody, pidsOf, List.map_nil, List.not_mem_nil, iff_false, List.mem_singleton]
    exact forall₂_congr fun q _ => not_imp_not.symm
  | some p =>
    have hmem : (s.machine.sched.processOf p).pid ∈
        pidsOf s.machine.sched (s.machine.waiting key) :=
      List.mem_map_of_mem (List.mem_of_getLast? hlast)
    simp only [hlast, List.mem_singleton]
    refine forall₂_congr fun q _ => ?_
    constructor
    · intro h hready
      refine ⟨fun hpid => hpid ▸ hmem, fun hq => ?_⟩
      by_contra hne
      exact hready (h hq hne)
    · intro h hq hne
      by_contra hready
      exact hne ((h hready).mpr hq)

/-- A call that returns wakes everybody when the processes become ready that it is for. -/
theorem close_iff {o : Object} {t : Conds} {l : List ℤ}
    (hclose : o.close node garbage s = some t)
    (hproc : processes t.machine.sched = (processes s.machine.sched).map (wake l))
    (hempty : o.waiting t = []) (hclosed : o.isOpen t = false) :
    (∃ t, o.close node garbage s = some t ∧ WakesEverybody o s t) ↔
      ∀ q ∈ processes s.machine.sched, q.state ≠ .ready →
        (q.pid ∈ l ↔ q.pid ∈ pidsOf s.machine.sched (o.waiting s)) := by
  rw [← map_wake_iff, ← hproc]
  constructor
  · rintro ⟨t', ht', hwakes⟩
    obtain rfl := Option.some.inj (ht'.symm.trans hclose)
    exact hwakes.woken
  · intro hwoken
    exact ⟨t, hclose, hwoken, hempty, hclosed⟩

/-- `mutex_close` makes one process ready. -/
theorem close_mutex_iff (h : Orderly s.machine) (hopen : isOpen key s.machine) :
    (∃ t, (Object.mutex key).close node garbage s = some t ∧
      WakesEverybody (.mutex key) s t) ↔ OthersAwake garbage s (.mutex key) := by
  obtain ⟨m, hm, hsched, hw, hclosed, -, -⟩ := mutexClose_spec h.array hopen garbage
  have hclose : (Object.mutex key).close node garbage s = some (s.withMachine m) := by
    rw [Object.close, hm, Option.map_some]
  have hproc : processes m.sched =
      (processes s.machine.sched).map (wake [lastPid key garbage s.machine]) := by
    rw [hsched, ← withState_eq_wake]
    exact (h.queues.ring.wellFormedRing.changeProcessState _ .ready).2
  rw [othersAwake_mutex_iff]
  exact close_iff hclose hproc hw hclosed

/-! ### `cond_close` -/

/-- The machine in which `cond_broadcast` gives the mutex back. -/
theorem condBroadcast_eq (hopen : condIsOpen key s) {u : Conds}
    (hu : lockAtOnce (s.openConds key).lockQueue node s = some u) :
    condBroadcast key node s =
      (unlock (s.openConds key).lockQueue
        ((u.withMachine (wakeAll ((Object.cond key).waiting s) u.machine)).setCond key
          (emptied (s.openConds key)))).map fun t => (1, t) := by
  rw [condBroadcast, if_pos hopen]
  simp only [Option.bind_eq_bind, hu, Option.bind_some]
  exact Option.map_eq_bind.symm

theorem condClose_eq (hopen : condIsOpen key s) {t : Conds} {m : Machine} {r : ℤ}
    (ht : condBroadcast key node s = some (1, t))
    (hkey : t.openConds key = emptied (s.openConds key))
    (hm : mutexClose (s.openConds key).lockQueue garbage t.machine = some (r, m)) :
    ∃ t', (Object.cond key).close node garbage s = some t' ∧ t'.machine = m ∧
      (Object.cond key).waiting t' = [] ∧ (Object.cond key).isOpen t' = false := by
  have hlock : (emptied (t.openConds key)).lockQueue = (s.openConds key).lockQueue := by
    rw [hkey]
    rfl
  refine ⟨(t.withMachine m).setCond key { emptied (t.openConds key) with state := closed }, ?_,
    rfl, ?_, ?_⟩
  · rw [Object.close, condClose, if_pos hopen]
    simp only [Option.bind_eq_bind, ht, Option.bind_some, hlock, hm]
    rfl
  · simp only [Object.waiting, Conds.setCond, Function.update_self, emptied, Option.map_map]
    cases (t.openConds key).processQueue <;> rfl
  · simp [Object.isOpen, condIsOpen, Conds.setCond, closed, QueuedMutex.opened]

/-- When the mutex of the variable is closed, nobody but the waiting processes is woken. -/
theorem close_cond_unlocked (h : Orderly s.machine) (hopen : condIsOpen key s)
    (hlock : ¬ isOpen (s.openConds key).lockQueue s.machine) :
    ∃ t, (Object.cond key).close node garbage s = some t ∧
      processes t.machine.sched = (processes s.machine.sched).map
        (wake (pidsOf s.machine.sched ((Object.cond key).waiting s))) ∧
      (Object.cond key).waiting t = [] ∧ (Object.cond key).isOpen t = false := by
  set l := (Object.cond key).waiting s with hl
  obtain ⟨hproc, -, -, hframe⟩ := wakeAll_spec h.queues.ring.wellFormedRing l
  have hlock' : ¬ isOpen (s.openConds key).lockQueue (wakeAll l s.machine) := by
    rw [hframe]
    exact hlock
  have hfirst : lockAtOnce (s.openConds key).lockQueue node s = some s := by
    rw [lockAtOnce, if_neg fun hand => hlock hand.1, mutexLock, if_neg hlock]
    rfl
  have hunlock : unlock (s.openConds key).lockQueue ((s.withMachine (wakeAll l s.machine)).setCond
      key (emptied (s.openConds key))) = some ((s.withMachine (wakeAll l s.machine)).setCond key
        (emptied (s.openConds key))) := by
    have hnone : mutexUnlock (s.openConds key).lockQueue (wakeAll l s.machine) =
        some ⟨[], notOpenError, wakeAll l s.machine⟩ := if_neg hlock'
    unfold unlock
    rw [show (Conds.setCond key (emptied (s.openConds key)) (s.withMachine
      (wakeAll l s.machine))).machine = wakeAll l s.machine from rfl, hnone]
    rfl
  have hbroadcast := condBroadcast_eq hopen hfirst
  rw [← hl, hunlock] at hbroadcast
  have harray := (orderly_wakeAll l h).array
  obtain ⟨t, ht, hm, hw, hclosed⟩ := condClose_eq hopen hbroadcast (Function.update_self ..)
    (mutexClose_closed harray hlock' garbage)
  exact ⟨t, ht, by rw [hm, hproc], hw, hclosed⟩

/-- The machine `m` in which `cond_broadcast` gives the mutex back. -/
theorem condBroadcast_wakes (h : Orderly s.machine) (hopen : condIsOpen key s)
    (hlock : isOpen (s.openConds key).lockQueue s.machine)
    (hfree : (s.machine.openMutexes (s.openConds key).lockQueue).locked ≠ locked) (node : ℕ) :
    ∃ m, Orderly m ∧ isOpen (s.openConds key).lockQueue m ∧
      m.waiting (s.openConds key).lockQueue = [] ∧ (Dead m null ↔ Dead s.machine null) ∧
      processes m.sched = (processes s.machine.sched).map
        (wake (pidsOf s.machine.sched ((Object.cond key).waiting s))) ∧
      condBroadcast key node s = (mutexUnlock (s.openConds key).lockQueue m).map fun u =>
        (1, (s.setCond key (emptied (s.openConds key))).withMachine u.after) := by
  set l := (Object.cond key).waiting s with hl
  obtain ⟨m, hm, hsched, hrelocked⟩ := mutexLock_enter hlock hfree node
  have hfirst : lockAtOnce (s.openConds key).lockQueue node s = some (s.withMachine m) := by
    rw [lockAtOnce, if_neg fun hand => hfree hand.2, hm]
    rfl
  obtain ⟨hproc, -, hnull, hframe⟩ :=
    wakeAll_spec (m := m) (hsched ▸ h.queues.ring.wellFormedRing) l
  have hlocked := h.step (a := .mutexLock _ node) (congrArg (Option.map Prod.snd) hm)
  refine ⟨wakeAll l m, orderly_wakeAll l hlocked, ?_, ?_, ?_, ?_, ?_⟩
  · rw [hframe]
    exact (hrelocked.isOpen_eq _).trans hlock
  · rw [hframe]
    exact hrelocked.waiting.trans (h.free _ hlock hfree)
  · rw [Dead, Dead, hnull, hsched]
  · rw [hproc, hsched]
  · rw [condBroadcast_eq hopen hfirst, ← hl]
    unfold unlock
    rw [Option.map_map]
    rfl

/-- `mutex_unlock` looks for a process in the empty queue of the mutex. -/
theorem close_cond_forever (h : Orderly s.machine) (hopen : condIsOpen key s)
    (hlock : isOpen (s.openConds key).lockQueue s.machine)
    (hfree : (s.machine.openMutexes (s.openConds key).lockQueue).locked ≠ locked)
    (hdead : Dead s.machine null) : (Object.cond key).close node garbage s = none := by
  obtain ⟨m, -, hopen', hw, hnull, -, hbroadcast⟩ := condBroadcast_wakes h hopen hlock hfree node
  have hunlock : mutexUnlock (s.openConds key).lockQueue m = none := by
    rw [mutexUnlock_eq hopen', dequeueProcess_nil (s := setSuperlock m) hw]
    dsimp only
    rw [skipDead_forever (s := setSuperlock m) hw (hnull.mpr hdead), Option.map_none]
  rw [hunlock, Option.map_none] at hbroadcast
  rw [Object.close, condClose, if_pos hopen]
  simp only [Option.bind_eq_bind, hbroadcast, Option.bind_none, Option.map_none]

/-- `mutex_close` finds nobody in the queue of the mutex. -/
theorem close_cond_free (h : Orderly s.machine) (hopen : condIsOpen key s)
    (hlock : isOpen (s.openConds key).lockQueue s.machine)
    (hfree : (s.machine.openMutexes (s.openConds key).lockQueue).locked ≠ locked)
    (hdead : ¬ Dead s.machine null) :
    ∃ t, (Object.cond key).close node garbage s = some t ∧
      processes t.machine.sched = (processes s.machine.sched).map
        (wake (pidsOf s.machine.sched ((Object.cond key).waiting s) ++ [garbage])) ∧
      (Object.cond key).waiting t = [] ∧ (Object.cond key).isOpen t = false := by
  obtain ⟨m, horderly, hopen', hw, hnull, hproc, hbroadcast⟩ :=
    condBroadcast_wakes h hopen hlock hfree node
  have hdead' : ¬ Dead m null := fun hd => hdead (hnull.mp hd)
  obtain ⟨u, hu⟩ := Option.isSome_iff_exists.mp (mutexUnlock_nobody_isSome hopen' hw hdead')
  rw [hu, Option.map_some] at hbroadcast
  obtain ⟨hsched, hunlocked⟩ := mutexUnlock_nobody hopen' hw hu
  have hafter : Orderly u.after :=
    horderly.step (a := .mutexUnlock _) (congrArg (Option.map Unlock.after) hu)
  obtain ⟨m', hm', hsched', -⟩ :=
    mutexClose_spec hafter.array ((hunlocked.isOpen_eq _).trans hopen') garbage
  have hgarbage : lastPid (s.openConds key).lockQueue garbage u.after = garbage := by
    rw [lastPid, hunlocked.waiting]
    rfl
  obtain ⟨t, ht, htm, hempty, hclosed⟩ := condClose_eq hopen hbroadcast
    (Function.update_self ..) hm'
  refine ⟨t, ht, ?_, hempty, hclosed⟩
  have hring := hafter.queues.ring.wellFormedRing
  rw [htm, hsched', hgarbage, (hring.changeProcessState garbage .ready).2, hsched, hproc,
    withState_eq_wake, List.map_map]
  exact List.map_congr_left fun q _ => wake_wake _ _ q

theorem close_cond_iff (h : Orderly s.machine) (hopen : condIsOpen key s)
    (honce : (Object.cond key).AtOnce s) :
    (∃ t, (Object.cond key).close node garbage s = some t ∧
      WakesEverybody (.cond key) s t) ↔ OthersAwake garbage s (.cond key) := by
  by_cases hlock : isOpen (s.openConds key).lockQueue s.machine
  · have hfree := honce hlock
    by_cases hdead : Dead s.machine null
    · rw [close_cond_forever h hopen hlock hfree hdead]
      constructor
      · rintro ⟨t, ht, -⟩
        exact absurd ht (by simp)
      · intro hall
        exact absurd hdead (hall hlock).1
    · obtain ⟨t, ht, hproc, hempty, hclosed⟩ := close_cond_free h hopen hlock hfree hdead
      rw [close_iff ht hproc hempty hclosed]
      constructor
      · intro hall
        refine fun _ => ⟨hdead, fun q hq hpid => ?_⟩
        by_contra hnot
        obtain ⟨hmem, hready⟩ := not_or.mp hnot
        exact hmem ((hall q hq hready).mp (by simp [hpid]))
      · intro hall q hq hready
        rw [List.mem_append, List.mem_singleton, or_iff_left_iff_imp]
        intro hpid
        exact ((hall hlock).2 q hq hpid).resolve_right hready
  · obtain ⟨t, ht, hproc, hempty, hclosed⟩ := close_cond_unlocked h hopen hlock
    rw [close_iff ht hproc hempty hclosed]
    exact ⟨fun _ hno => absurd hno hlock, fun _ _ _ _ => Iff.rfl⟩

/-- An object that is closed wakes everybody when nobody else in its queue has to be woken. -/
theorem close_wakesEverybody_iff {s : CondCalls.State} (h : system.Reachable s) {o : Object}
    (hopen : o.isOpen s.conds) (honce : o.AtOnce s.conds) (node : ℕ) (garbage : ℤ) :
    (∃ t, o.close node garbage s.conds = some t ∧ WakesEverybody o s.conds t) ↔
      OthersAwake garbage s.conds o := by
  have horderly := reachable_orderly h
  cases o with
  | mutex key => exact close_mutex_iff horderly hopen
  | cond key => exact close_cond_iff horderly hopen honce

end

/-! ### Concrete runs -/

def started : CondCalls.State := ⟨NamedObjects.startedConds, fun _ => none, []⟩

theorem isStart_started : IsStart started :=
  ⟨NamedObjects.isStart_startedConds, fun _ => rfl, rfl⟩

/-- Process 3 holds the mutex 0, and the processes 2 and 1 wait for it. -/
def twoWait : List Event :=
  [.createProcess (pageAt 1), .createProcess (pageAt 2), .createProcess (pageAt 3),
    .mutexOpen [109] (pageAt 4), .switch, .mutexLock 0 (pageAt 5), .switch,
    .mutexLock 0 (pageAt 6), .mutexLock 0 (pageAt 7), .switch].map fun a => .other (.mutex a)

/-- Process 3 gives the mutex to process 2 and closes it, and process 1 is woken. -/
theorem close_wakesEverybody_iff_one : ∃ s, system.Reachable s ∧
    (Object.mutex 0).waiting s.conds = [pageAt 1] ∧
    ((∃ t, (Object.mutex 0).close 0 7 s.conds = some t ∧
      WakesEverybody (.mutex 0) s.conds t) ↔ OthersAwake 7 s.conds (.mutex 0)) ∧
    OthersAwake 7 s.conds (.mutex 0) := by
  obtain ⟨s, hpath, hview⟩ := exists_path_of_execute IsStart
    (show (execute step started (twoWait ++ [.other (.mutex (.mutexUnlock 0))])).map (fun s =>
      ((Object.mutex 0).isOpen s.conds, (Object.mutex 0).waiting s.conds,
        decide (OthersAwake 7 s.conds (.mutex 0)))) = some (true, [pageAt 1], true) by
      decide +kernel)
  simp only [Prod.mk.injEq, decide_eq_true_eq] at hview
  obtain ⟨hopen, hw, hawake⟩ := hview
  have hs := hpath.reachable (System.Reachable.start isStart_started)
  exact ⟨s, hs, hw, close_wakesEverybody_iff hs hopen trivial 0 7, hawake⟩

/-- Process 3 closes the mutex, and process 2 is blocked for ever. -/
theorem close_forgets_waiting : ∃ s t, system.Reachable s ∧ (Object.mutex 0).isOpen s.conds ∧
    (Object.mutex 0).waiting s.conds = [pageAt 2, pageAt 1] ∧
    (Object.mutex 0).close 0 7 s.conds = some t ∧
    ⟨2, .blocked⟩ ∈ processes t.machine.sched ∧ (Object.mutex 0).waiting t = [] ∧
    ¬ WakesEverybody (.mutex 0) s.conds t := by
  obtain ⟨s, hpath, hview⟩ := exists_path_of_execute IsStart
    (show (execute step started twoWait).map (fun s =>
      ((Object.mutex 0).isOpen s.conds, (Object.mutex 0).waiting s.conds,
        pidsOf s.conds.machine.sched [pageAt 2, pageAt 1],
        ((Object.mutex 0).close 0 7 s.conds).any fun t =>
          ⟨2, .blocked⟩ ∈ processes t.machine.sched ∧ (Object.mutex 0).waiting t = [])) =
        some (true, [pageAt 2, pageAt 1], [2, 1], true) by decide +kernel)
  simp only [Prod.mk.injEq] at hview
  obtain ⟨hopen, hw, hpids, hclose⟩ := hview
  obtain ⟨t, ht, hview⟩ := (Option.any_eq_true _ _).mp hclose
  obtain ⟨hblocked, hempty⟩ := of_decide_eq_true hview
  refine ⟨s, t, hpath.reachable (System.Reachable.start isStart_started), hopen, hw, ht, hblocked,
    hempty, fun hwakes => ?_⟩
  have hmem := hblocked
  rw [hwakes.woken, hw, hpids] at hmem
  obtain ⟨q, -, hq⟩ := List.mem_map.mp hmem
  unfold wake at hq
  split_ifs at hq with hpid
  · exact absurd (congrArg Process.state hq) (by simp)
  · refine hpid ?_
    rw [hq]
    decide

end GatOS.MutexClosing
