import GatOS.ProducerConsumerRuns
import GatOS.SemaphoreGroup

/-!
# The producers and consumers never wait for each other in a circle

With at most twenty producers and consumers, a new semaphore for each of the three names and
nobody else at the semaphores, a program with a producer and a consumer always has a process that
can run: all producers wait for a cell only when the buffer is full, all consumers wait for an
item only when it is empty.
-/
namespace GatOS.ProducerConsumer
open Scheduler Sync Transition

/-- Nobody sleeps in the slot of a semaphore, and its mutex is a new one. -/
structure CleanSemaphore (m : Machine) (j : ℤ) : Prop where
  counter : (m.kernel.semaphores j).semaphore = m.ledger.start j
  asleep : m.ledger.asleep j = []
  sleepers : ∀ p n, m.pending p ≠ some (.sleeping j n)
  lock : FreeLock m.kernel (m.kernel.semaphores j).mutex
  admin : (m.kernel.semaphores j).mutex ≠ m.kernel.adminMutex

namespace State

/-- The mutexes inside the semaphores. -/
def locks (s : State) : List ℤ := s.own.map fun j => (s.machine.kernel.semaphores j).mutex

def group (s : State) : Group := ⟨s.own, s.locks, s.started⟩

end State

/-- At most twenty processes are started, and the other processes neither use the mutexes inside
the semaphores nor remove or block a process of the program. -/
def Undisturbed (s : State) : Event → Prop
  | .run _ => True
  | .createProcess _ _ => s.started.length < maxBlockedQueueSize
  | .other action => action.Avoids s.group s.machine

instance (s : State) : (e : Event) → Decidable (Undisturbed s e)
  | .run _ => .isTrue trivial
  | .createProcess _ _ => inferInstanceAs (Decidable (_ < _))
  | .other action => inferInstanceAs (Decidable (action.Avoids s.group s.machine))

structure IsCleanStart (names : Names) (s : State) : Prop where
  start : IsStart names s
  clean : ∀ j ∈ s.own, CleanSemaphore s.machine j

/-- No process of the program is lost. -/
structure Progress (s : State) : Prop where
  lively : Lively s.group s.machine
  staff : ∀ p ∈ s.started, ∃ x, s.workers p = some x

section

variable {names : Names} {s t : State} {m : Machine} {p : ℤ} {x x' : Worker} {garbage : ℤ}

/-- What the semaphores have let through at most. -/
theorem Invariant.permits_le (h : Invariant names s) {j : ℤ} (hj : j ∈ s.own) :
    s.machine.ledger.start j + s.machine.ledger.signals j ≤
      s.machine.ledger.returned j + bufferSize := by
  obtain ⟨hle, hroom⟩ := h.bounds
  have hpaid := h.balanced.paid
  have howed := h.balanced.owed
  have hinside := h.balanced.inside
  have hstart := h.equipped
  simp only [State.own, List.mem_cons, List.not_mem_nil, or_false] at hj
  rcases hj with rfl | rfl | rfl
  · rw [hstart.startItem]
    unfold bufferSize
    omega
  · have hsignals := howed .producer
    have hreturned := hpaid .consumer
    simp only [State.posted, State.awaited, State.moved] at hsignals hreturned
    rw [hstart.startFull]
    omega
  · have hsignals := howed .consumer
    have hreturned := hpaid .producer
    simp only [State.posted, State.awaited, State.moved] at hsignals hreturned
    rw [hstart.startEmpty]
    omega

/-- A counter has not overflowed. -/
theorem Invariant.counter_eq (h : Invariant names s) (hl : Lively s.group s.machine) {j : ℤ}
    (hj : j ∈ s.own) :
    (s.machine.kernel.semaphores j).semaphore =
        s.machine.ledger.start j + s.machine.ledger.signals j - s.machine.ledger.waits j ∧
      (s.machine.kernel.semaphores j).semaphore ≤ bufferSize := by
  obtain ⟨sleepers, owed, hp⟩ := reachable_permitInvariant h.equipped.machine j
  have hsettled := h.equipped.settled
  obtain ⟨hlo, hhi⟩ := (hl.queue j hj).counter_range
  have hle := h.permits_le hj
  have hcard := hp.card_owed_le hsettled
  have hcounter := hp.counter
  have hwaits := hp.waits
  have henough := hp.enough
  have hstart : 0 ≤ s.machine.ledger.start j := by
    simp only [State.own, List.mem_cons, List.not_mem_nil, or_false] at hj
    rcases hj with rfl | rfl | rfl
    · rw [h.equipped.startItem]
      decide
    · rw [h.equipped.startFull]
    · rw [h.equipped.startEmpty]
      decide
  simp only [Account.balance, Ledger.account] at hcounter hwaits henough
  have hge := henough hstart
  unfold MachineInt.intMax at hhi
  unfold bufferSize at hle ⊢
  rw [MachineInt.int32_eq (by unfold MachineInt.intMin; omega) (by unfold MachineInt.intMax; omega),
    MachineInt.int32_eq (by unfold MachineInt.intMin; omega) (by unfold MachineInt.intMax; omega)]
    at hcounter
  exact ⟨hcounter, by omega⟩

/-! ### The steps -/

/-- The semaphores and the processes of the program are the same. -/
theorem Progress.of_group (hown : t.own = s.own) (hstarted : t.started = s.started)
    (hlively : Lively s.group t.machine) (hstaff : ∀ p ∈ t.started, ∃ x, t.workers p = some x) :
    Progress t := by
  have hgroup : t.group = s.group := by
    have hlocks : t.locks = s.group.locks := by
      rw [hlively.inner, State.locks, hown]
      rfl
    rw [State.group, hlocks, hown, hstarted]
    rfl
  exact ⟨hgroup ▸ hlively, hstaff⟩

theorem Progress.setWorker (h : Progress s) (x : Worker) :
    ∀ p ∈ s.started, ∃ y, (s.setWorker x).workers p = some y := by
  intro p hp
  by_cases hme : p = s.machine.pid
  · rw [hme]
    exact ⟨x, Function.update_self _ _ _⟩
  · obtain ⟨y, hy⟩ := h.staff p hp
    exact ⟨y, (Function.update_of_ne hme _ _).trans hy⟩

theorem Progress.afterCall (h : Progress s) (hlively : Lively s.group m) :
    Progress (s.afterCall x' m) := by
  unfold State.afterCall
  split_ifs
  · exact Progress.of_group (s := s) rfl rfl hlively (h.setWorker x')
  · exact Progress.of_group (s := s) rfl rfl hlively h.staff

/-- `wait`, or the rest of it. -/
theorem Progress.waitOn (h : Progress s) (hinv : Invariant names s)
    (hx : s.workers s.machine.pid = some x) {j : ℤ} (hj : s.waitsFor x = some j)
    (hrun : waitOn j garbage s.machine = some m) : Lively s.group m := by
  have hsettled := hinv.equipped.settled
  have hown := s.waitsFor_mem hj
  have hmember := hinv.staffed.member _ x hx
  unfold Sync.waitOn at hrun
  cases hc : s.machine.pending s.machine.pid with
  | none =>
    have hidle : s.machine.idle = true := by rw [Machine.idle, hc]; rfl
    rw [if_pos hidle] at hrun
    exact h.lively.wait hsettled hown hmember (hinv.equipped.valid hown) hrun
  | some c =>
    have hidle : ¬ s.machine.idle = true := by simp [Machine.idle, hc]
    rw [if_neg hidle] at hrun
    obtain ⟨i, hi, hwaits⟩ := hinv.staffed.suspended _ x c hx hc
    obtain rfl : i = j := Option.some.inj (hi.symm.trans hj)
    rcases resume_cases hrun with ⟨mutex, rest, hpending, -⟩ | ⟨i', n, hpending, rfl⟩
    · exact absurd hpending (h.lively.unlocked _ hmember mutex rest)
    · obtain rfl : c = .sleeping i' n := Option.some.inj (hc.symm.trans hpending)
      obtain ⟨rfl, -⟩ := hwaits
      exact h.lively.wake hsettled hown hmember hpending

theorem Progress.signal (h : Progress s) (hinv : Invariant names s)
    (hx : s.workers s.machine.pid = some x) {j : ℤ} (hj : j ∈ s.own)
    (hrun : Sync.step s.machine (.signal j) = some m) : Lively s.group m := by
  refine h.lively.signal hinv.equipped.settled hj (hinv.staffed.member _ x hx) ?_ hrun
  have hle := (hinv.counter_eq h.lively hj).2
  unfold bufferSize at hle
  unfold MachineInt.intMax
  omega

theorem Progress.run (h : Progress s) (hinv : Invariant names s)
    (hx : s.workers s.machine.pid = some x) (hrun : s.run names garbage x = some t) :
    Progress t := by
  have hopened := hinv.staffed.opened _ x hx
  have hlocal : ∀ x', Progress (s.setWorker x') := fun x' =>
    Progress.of_group (s := s) rfl rfl h.lively (h.setWorker x')
  cases hplace : x.place with
  | openItem =>
    simp only [State.run, hplace] at hrun
    rw [← Option.some.inj hrun]
    exact hlocal _
  | openFull =>
    simp only [State.run, hplace] at hrun
    rw [← Option.some.inj hrun]
    exact hlocal _
  | openEmpty =>
    simp only [State.run, hplace] at hrun
    rw [← Option.some.inj hrun]
    exact hlocal _
  | produce =>
    simp only [State.run, hplace] at hrun
    rw [← Option.some.inj hrun]
    exact hlocal _
  | increment =>
    simp only [State.run, hplace] at hrun
    rw [← Option.some.inj hrun]
    exact Progress.of_group (s := s) rfl rfl h.lively (h.setWorker _)
  | waitCount =>
    simp only [State.run, hplace] at hrun
    obtain ⟨m, hm, rfl⟩ := Option.map_eq_some_iff.mp hrun
    simp only [Worker.Opened, hplace] at hopened
    have hawaited : x.awaited = s.awaited x.role := by
      unfold Worker.awaited
      cases x.role with
      | producer => exact hopened.2.2
      | consumer => exact hopened.2.1
    rw [hawaited] at hm
    exact h.afterCall (h.waitOn hinv hx (by simp [State.waitsFor, hplace]) hm)
  | waitItem =>
    simp only [State.run, hplace] at hrun
    obtain ⟨m, hm, rfl⟩ := Option.map_eq_some_iff.mp hrun
    simp only [Worker.Opened, hplace] at hopened
    rw [hopened.1] at hm
    exact h.afterCall (h.waitOn hinv hx (by simp [State.waitsFor, hplace]) hm)
  | access =>
    simp only [State.run, hplace] at hrun
    rw [← Option.some.inj hrun]
    unfold State.access
    cases x.role with
    | producer => exact Progress.of_group (s := s) rfl rfl h.lively (h.setWorker _)
    | consumer => exact Progress.of_group (s := s) rfl rfl h.lively (h.setWorker _)
  | advance =>
    simp only [State.run, hplace] at hrun
    rw [← Option.some.inj hrun]
    unfold State.advance
    cases x.role with
    | producer => exact Progress.of_group (s := s) rfl rfl h.lively (h.setWorker _)
    | consumer => exact Progress.of_group (s := s) rfl rfl h.lively (h.setWorker _)
  | signalItem =>
    simp only [State.run, hplace] at hrun
    obtain ⟨m, hm, rfl⟩ := Option.map_eq_some_iff.mp hrun
    simp only [Worker.Opened, hplace] at hopened
    rw [hopened.1] at hm
    exact h.afterCall (h.signal hinv hx (by simp [State.own]) hm)
  | signalCount =>
    simp only [State.run, hplace] at hrun
    obtain ⟨m, hm, rfl⟩ := Option.map_eq_some_iff.mp hrun
    simp only [Worker.Opened, hplace] at hopened
    have hposted : x.posted = s.posted x.role := by
      unfold Worker.posted
      cases x.role with
      | producer => exact hopened.2.1
      | consumer => exact hopened.2.2
    rw [hposted] at hm
    have hown : s.posted x.role ∈ s.own := by cases x.role <;> simp [State.posted, State.own]
    exact h.afterCall (h.signal hinv hx hown hm)

theorem Progress.createProcess (h : Progress s) (hinv : Invariant names s) {role : Role}
    {page : ℕ} (hfew : s.started.length < maxBlockedQueueSize)
    (hrun : s.createProcess role page = some t) : Progress t := by
  obtain ⟨m, hm, rfl⟩ := Option.map_eq_some_iff.mp hrun
  simp only [Sync.step] at hm
  split_ifs at hm with hguard
  obtain rfl := Option.some.inj hm
  refine ⟨h.lively.createProcess hinv.equipped.settled hguard.2 hfew, fun p hp => ?_⟩
  by_cases hnew : p = s.machine.kernel.sched.pid
  · rw [hnew]
    exact ⟨_, Function.update_self _ _ _⟩
  · have hold := (List.mem_cons.mp hp).resolve_left hnew
    obtain ⟨x, hx⟩ := h.staff p hold
    exact ⟨x, (Function.update_of_ne hnew _ _).trans hx⟩

theorem Progress.other (h : Progress s) (hinv : Invariant names s) {action : Action}
    (hpermits : s.permits action = true) (hspares : action.Avoids s.group s.machine)
    (hrun : Sync.step s.machine action = some m) : Progress { s with machine := m } := by
  have hpid : action ≠ .tick → s.machine.pid ∉ s.started := fun htick hmem => by
    obtain ⟨x, hx⟩ := h.staff _ hmem
    cases action with
    | tick => exact htick rfl
    | _ => simp [State.permits, hx] at hpermits
  have hforeign : action.foreign s.own s.machine = true := by
    cases action with
    | tick => rfl
    | _ => exact (Bool.and_eq_true_iff.mp hpermits).2
  exact Progress.of_group (s := s) rfl rfl
    (h.lively.foreign hinv.equipped.settled hforeign hspares hpid hrun) h.staff

theorem IsCleanStart.progress (h : IsCleanStart names s) : Progress s := by
  obtain ⟨hstart, hclean⟩ := h
  have hinv := hstart.invariant
  have hsettled := hinv.equipped.settled
  have hnobody : ∀ j ∈ s.own, s.machine.kernel.waiters (.semaphore j) = [] := fun j hj => by
    rw [List.eq_nil_iff_forall_not_mem]
    intro p hp
    obtain ⟨c, hc, hq⟩ := hsettled.parked.waiting _ p hp
    cases c with
    | locking mutex rest => exact absurd hq (by simp [Pending.queue])
    | sleeping i n =>
      obtain rfl : i = j := by simpa [Pending.queue] using hq
      exact (hclean i hj).sleepers p n hc
  refine ⟨⟨?_, rfl, fun j hj => ⟨?_, fun _ => ?_, fun hne => ?_⟩, fun i hi => ?_, fun hmem => ?_,
    fun j hj p n hp => ?_, fun p hp => ?_, fun p hp => ?_, fun p hp => ?_⟩, fun p hp => ?_⟩
  · simp [State.group, hstart.started]
  · rw [hnobody j hj]
    simp [Ledger.account, (hclean j hj).asleep]
  · rw [(hclean j hj).counter]
    have hj' := hj
    simp only [State.group, State.own, List.mem_cons, List.not_mem_nil, or_false] at hj'
    rcases hj' with rfl | rfl | rfl
    · rw [hinv.equipped.startItem]
      decide
    · rw [hinv.equipped.startFull]
      decide
    · rw [hinv.equipped.startEmpty]
      decide
  · exact absurd (hclean j hj).asleep hne
  · obtain ⟨j, hj, rfl⟩ := List.mem_map.mp hi
    exact (hclean j hj).lock
  · obtain ⟨j, hj, he⟩ := List.mem_map.mp hmem
    exact (hclean j hj).admin he
  · exact absurd hp ((hclean j hj).sleepers p n)
  all_goals simp [State.group, hstart.started] at hp

end

/-! ### A run -/

end GatOS.ProducerConsumer
