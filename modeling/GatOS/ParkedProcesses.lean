import GatOS.Operations
import GatOS.WaiterQueues

/-!
# Parked processes

A process in a waiter queue is suspended in a call on that queue and blocked. Each process is in
at most one queue, and in at most one slot of it.
-/
namespace GatOS.Sync
open Scheduler Transition

inductive QueueId
  | mutex (i : ℤ)
  | semaphore (j : ℤ)
  deriving DecidableEq

/-- The queue that a suspended call waits in. -/
def Pending.queue : Pending → QueueId
  | .locking mutex _ => .mutex mutex
  | .sleeping j _ => .semaphore j

namespace Kernel

def waiters (k : Kernel) : QueueId → List ℤ
  | .mutex i => waitersOf (k.mutexes i).queue
  | .semaphore j => waitersOf (k.semaphores j).queue

def cardinal (k : Kernel) : QueueId → ℕ
  | .mutex i => (k.mutexes i).cardinalBlocked
  | .semaphore j => (k.semaphores j).cardinalBlocked

variable {k : Kernel} {q : QueueId} {i : ℤ}

@[simp] theorem waiters_setMutex_self (m : Mutex) :
    (k.setMutex i m).waiters (.mutex i) = waitersOf m.queue := by
  simp [waiters]

@[simp] theorem cardinal_setMutex_self (m : Mutex) :
    (k.setMutex i m).cardinal (.mutex i) = m.cardinalBlocked := by
  simp [cardinal]

theorem setMutex_other (m : Mutex) (h : q ≠ .mutex i) :
    (k.setMutex i m).waiters q = k.waiters q ∧ (k.setMutex i m).cardinal q = k.cardinal q := by
  cases q with
  | mutex j =>
    have hne : j ≠ i := fun he => h (by rw [he])
    simp only [waiters, cardinal, setMutex_ne k m hne, and_self]
  | semaphore j => exact ⟨rfl, rfl⟩

@[simp] theorem waiters_setSemaphore_self (sem : Semaphore) :
    (k.setSemaphore i sem).waiters (.semaphore i) = waitersOf sem.queue := by
  simp [waiters]

@[simp] theorem cardinal_setSemaphore_self (sem : Semaphore) :
    (k.setSemaphore i sem).cardinal (.semaphore i) = sem.cardinalBlocked := by
  simp [cardinal]

theorem setSemaphore_other (sem : Semaphore) (h : q ≠ .semaphore i) :
    (k.setSemaphore i sem).waiters q = k.waiters q ∧
      (k.setSemaphore i sem).cardinal q = k.cardinal q := by
  cases q with
  | mutex j => exact ⟨rfl, rfl⟩
  | semaphore j =>
    have hne : j ≠ i := fun he => h (by rw [he])
    simp only [waiters, cardinal, setSemaphore_ne k sem hne, and_self]

/-- A record with the same queue has the same waiters. -/
theorem waiters_setMutex {m : Mutex} (hqueue : m.queue = (k.mutexes i).queue) (q : QueueId) :
    (k.setMutex i m).waiters q = k.waiters q := by
  by_cases hq : q = .mutex i
  · rw [hq, waiters_setMutex_self, hqueue]
    rfl
  · exact (setMutex_other m hq).1

theorem waiters_setSemaphore {sem : Semaphore} (hqueue : sem.queue = (k.semaphores i).queue)
    (q : QueueId) : (k.setSemaphore i sem).waiters q = k.waiters q := by
  by_cases hq : q = .semaphore i
  · rw [hq, waiters_setSemaphore_self, hqueue]
    rfl
  · exact (setSemaphore_other sem hq).1

end Kernel

structure Parked (k : Kernel) (pending : ℤ → Option Pending) : Prop where
  ring : RingInvariant k.sched
  range : ∀ p c, pending p = some c → 0 ≤ p ∧ p < k.sched.pid
  waiting : ∀ q, ∀ p ∈ k.waiters q, ∃ c, pending p = some c ∧ c.queue = q
  blocked : ∀ q, ∀ p ∈ k.waiters q, p ∈ pids k.sched → Blocked k.sched p
  nodup : ∀ q, (k.waiters q).Nodup
  cardinal : ∀ q, k.cardinal q = (k.waiters q).length

section

variable {k k' : Kernel} {pending : ℤ → Option Pending} {q : QueueId} {p : ℤ}

theorem Parked.not_mem_of_none (h : Parked k pending) (hnone : pending p = none) :
    p ∉ k.waiters q := fun hmem => by
  obtain ⟨c, hc, -⟩ := h.waiting q p hmem
  simp [hnone] at hc

/-- Being in one queue excludes the others. -/
theorem Parked.queue_eq (h : Parked k pending) {q' : QueueId} (hp : p ∈ k.waiters q)
    (hp' : p ∈ k.waiters q') : q = q' := by
  obtain ⟨c, hc, hq⟩ := h.waiting q p hp
  obtain ⟨c', hc', hq'⟩ := h.waiting q' p hp'
  rw [hc, Option.some.injEq] at hc'
  rw [← hq, ← hq', hc']

theorem Parked.current_range (h : Parked k pending) : 0 ≤ k.pid ∧ k.pid < k.sched.pid :=
  h.ring.pid_range _ (getCurrentPid_mem h.ring)

theorem Parked.mutex_cardinal (h : Parked k pending) (i : ℤ) :
    (k.mutexes i).cardinalBlocked = (waitersOf (k.mutexes i).queue).length :=
  h.cardinal (.mutex i)

theorem Parked.semaphore_cardinal (h : Parked k pending) (j : ℤ) :
    (k.semaphores j).cardinalBlocked = (waitersOf (k.semaphores j).queue).length :=
  h.cardinal (.semaphore j)

/-- The queues stay as they are and no parked process is woken. -/
theorem Parked.of_queues (h : Parked k pending) (hring : RingInvariant k'.sched)
    (hpid : k.sched.pid ≤ k'.sched.pid) (hwait : ∀ q, k'.waiters q = k.waiters q)
    (hcard : ∀ q, k'.cardinal q = k.cardinal q)
    (hblocked : ∀ q, ∀ p ∈ k.waiters q, p ∈ pids k'.sched → Blocked k'.sched p) :
    Parked k' pending := by
  refine ⟨hring, fun p c hc => ?_, fun q p hp => ?_, fun q p hp => ?_, fun q => ?_, fun q => ?_⟩
  · obtain ⟨h0, hlt⟩ := h.range p c hc
    exact ⟨h0, hlt.trans_le hpid⟩
  · exact h.waiting q p (hwait q ▸ hp)
  · exact hblocked q p (hwait q ▸ hp)
  · rw [hwait]
    exact h.nodup q
  · rw [hcard, hwait]
    exact h.cardinal q

/-- A change of the tables that leaves the queues and the processes as they are. -/
theorem Parked.of_tables (h : Parked k pending) (hsched : k'.sched = k.sched)
    (hwait : ∀ q, k'.waiters q = k.waiters q) (hcard : ∀ q, k'.cardinal q = k.cardinal q) :
    Parked k' pending := by
  refine h.of_queues (by rw [hsched]; exact h.ring) (by rw [hsched]) hwait hcard
    fun q p hp hmem => ?_
  rw [hsched] at hmem ⊢
  exact h.blocked q p hp hmem

/-- The current process, which is in no queue, joins queue `q`. -/
theorem Parked.join (h : Parked k pending) {c : Pending} (hc : c.queue = q)
    (hnone : pending k.pid = none) (hsched : k'.sched = changeProcessState k.pid .blocked k.sched)
    (hwait : (k'.waiters q).Perm (k.pid :: k.waiters q))
    (hcard : k'.cardinal q = k.cardinal q + 1)
    (hother : ∀ q', q' ≠ q → k'.waiters q' = k.waiters q' ∧ k'.cardinal q' = k.cardinal q') :
    Parked k' (assign pending k.pid (some c)) := by
  have hcur := getCurrentPid_mem h.ring
  have hmem : ∀ q' p, p ∈ k'.waiters q' → (p = k.pid ∧ q' = q) ∨
      (p ≠ k.pid ∧ p ∈ k.waiters q') := fun q' p hp => by
    have hsub : p ∈ k.waiters q' → p ≠ k.pid := fun hp' he =>
      h.not_mem_of_none hnone (he ▸ hp')
    by_cases hq : q' = q
    · subst hq
      rcases List.mem_cons.mp (hwait.mem_iff.mp hp) with rfl | hp
      · exact Or.inl ⟨rfl, rfl⟩
      · exact Or.inr ⟨hsub hp, hp⟩
    · rw [(hother q' hq).1] at hp
      exact Or.inr ⟨hsub hp, hp⟩
  refine ⟨?_, fun p d hd => ?_, fun q' p hp => ?_, fun q' p hp hin => ?_, fun q' => ?_,
    fun q' => ?_⟩
  · rw [hsched]
    exact (changeProcessState_spec h.ring _ _).1
  · rw [hsched, pid_changeProcessState h.ring]
    by_cases hp : p = k.pid
    · rw [hp]
      exact h.current_range
    · rw [assign_ne _ _ hp] at hd
      exact h.range p d hd
  · rcases hmem q' p hp with ⟨rfl, rfl⟩ | ⟨hne, hp⟩
    · exact ⟨c, assign_self _ _ _, hc⟩
    · rw [assign_ne _ _ hne]
      exact h.waiting q' p hp
  · rw [hsched] at hin ⊢
    rw [pids_changeProcessState h.ring] at hin
    rcases hmem q' p hp with ⟨rfl, -⟩ | ⟨hne, hp⟩
    · exact blocked_changeProcessState_self h.ring hcur
    · exact blocked_changeProcessState_of h.ring _ (h.blocked q' p hp hin)
  · by_cases hq : q' = q
    · subst hq
      exact hwait.nodup_iff.mpr (List.nodup_cons.mpr ⟨h.not_mem_of_none hnone, h.nodup q'⟩)
    · rw [(hother q' hq).1]
      exact h.nodup q'
  · by_cases hq : q' = q
    · subst hq
      rw [hcard, hwait.length_eq, List.length_cons, h.cardinal]
    · rw [(hother q' hq).1, (hother q' hq).2]
      exact h.cardinal q'

/-- The first waiter of queue `q` is woken. -/
theorem Parked.leave (h : Parked k pending)
    (hsched : k'.sched = changeProcessState p .ready k.sched)
    (hwait : k.waiters q = p :: k'.waiters q) (hcard : k'.cardinal q = k.cardinal q - 1)
    (hother : ∀ q', q' ≠ q → k'.waiters q' = k.waiters q' ∧ k'.cardinal q' = k.cardinal q') :
    Parked k' pending := by
  have hnodup := h.nodup q
  rw [hwait] at hnodup
  have hp : p ∈ k.waiters q := by rw [hwait]; exact List.mem_cons_self
  have hmem : ∀ q' r, r ∈ k'.waiters q' → r ∈ k.waiters q' ∧ r ≠ p := fun q' r hr => by
    by_cases hq : q' = q
    · subst hq
      refine ⟨by rw [hwait]; exact List.mem_cons_of_mem _ hr, ?_⟩
      rintro rfl
      exact (List.nodup_cons.mp hnodup).1 hr
    · rw [(hother q' hq).1] at hr
      exact ⟨hr, fun he => hq (h.queue_eq (he ▸ hr) hp)⟩
  refine ⟨?_, fun r c hc => ?_, fun q' r hr => h.waiting q' r (hmem q' r hr).1,
    fun q' r hr hin => ?_, fun q' => ?_, fun q' => ?_⟩
  · rw [hsched]
    exact (changeProcessState_spec h.ring _ _).1
  · rw [hsched, pid_changeProcessState h.ring]
    exact h.range r c hc
  · obtain ⟨hr, hne⟩ := hmem q' r hr
    rw [hsched] at hin ⊢
    rw [pids_changeProcessState h.ring] at hin
    exact (blocked_changeProcessState_ne h.ring _ _ hne).mpr (h.blocked q' r hr hin)
  · by_cases hq : q' = q
    · subst hq
      exact (List.nodup_cons.mp hnodup).2
    · rw [(hother q' hq).1]
      exact h.nodup q'
  · by_cases hq : q' = q
    · subst hq
      rw [hcard, h.cardinal, hwait, List.length_cons, Nat.add_sub_cancel]
    · rw [(hother q' hq).1, (hother q' hq).2]
      exact h.cardinal q'

/-- What is pending for a process that is in no queue can change. -/
theorem Parked.assign_pending (h : Parked k pending) (hfree : ∀ q, p ∉ k.waiters q)
    {c : Option Pending} (hrange : 0 ≤ p ∧ p < k.sched.pid) :
    Parked k (assign pending p c) := by
  refine ⟨h.ring, fun r d hd => ?_, fun q r hr => ?_, h.blocked, h.nodup, h.cardinal⟩
  · by_cases hr : r = p
    · rw [hr]
      exact hrange
    · rw [assign_ne _ _ hr] at hd
      exact h.range r d hd
  · rw [assign_ne _ _ fun he : r = p => hfree q (he ▸ hr)]
    exact h.waiting q r hr

/-- A mutex gets another record with the same queue. -/
theorem Parked.setMutex (h : Parked k pending) {i : ℤ} {m : Mutex}
    (hqueue : m.queue = (k.mutexes i).queue)
    (hcard : m.cardinalBlocked = (k.mutexes i).cardinalBlocked) :
    Parked (k.setMutex i m) pending := by
  refine h.of_tables rfl (Kernel.waiters_setMutex hqueue) fun q => ?_
  by_cases hq : q = .mutex i
  · rw [hq, Kernel.cardinal_setMutex_self, hcard]
    rfl
  · exact (Kernel.setMutex_other m hq).2

theorem Parked.setSemaphore (h : Parked k pending) {i : ℤ} {sem : Semaphore}
    (hqueue : sem.queue = (k.semaphores i).queue)
    (hcard : sem.cardinalBlocked = (k.semaphores i).cardinalBlocked) :
    Parked (k.setSemaphore i sem) pending := by
  refine h.of_tables rfl (Kernel.waiters_setSemaphore hqueue) fun q => ?_
  by_cases hq : q = .semaphore i
  · rw [hq, Kernel.cardinal_setSemaphore_self, hcard]
    rfl
  · exact (Kernel.setSemaphore_other sem hq).2

end

/-! ### What the calls do to the processes -/

/-- Nobody but waiters of queue `q` is woken, and nobody is blocked. -/
structure Wakes (k k' : Kernel) (q : QueueId) : Prop where
  pids : pids k'.sched = pids k.sched
  count : k'.sched.pid = k.sched.pid
  current : k'.pid = k.pid
  blocked : ∀ p, Blocked k'.sched p → Blocked k.sched p
  still : ∀ p, Blocked k.sched p → p ∉ k.waiters q → Blocked k'.sched p

theorem Wakes.refl (k : Kernel) (q : QueueId) : Wakes k k q :=
  ⟨rfl, rfl, rfl, fun _ h => h, fun _ h _ => h⟩

theorem Wakes.of_sched {k k' : Kernel} {q : QueueId} (h : k'.sched = k.sched) : Wakes k k' q := by
  refine ⟨by rw [h], by rw [h], congrArg getCurrentPid h, fun p hb => ?_, fun p hb _ => ?_⟩
  · rwa [h] at hb
  · rwa [h]

theorem wakes_ready {k k' : Kernel} {q : QueueId} {p : ℤ} (h : RingInvariant k.sched)
    (hsched : k'.sched = changeProcessState p .ready k.sched) (hp : p ∈ k.waiters q) :
    Wakes k k' q := by
  obtain ⟨-, -, hcur⟩ := changeProcessState_spec h p .ready
  refine ⟨?_, ?_, ?_, fun r hb => ?_, fun r hb hr => ?_⟩
  · rw [hsched, pids_changeProcessState h]
  · rw [hsched, pid_changeProcessState h]
  · rw [Kernel.pid, hsched, hcur]
    rfl
  · rw [hsched] at hb
    exact hb.of_changeProcessState h p .ready (by simp)
  · rw [hsched]
    exact (blocked_changeProcessState_ne h _ _ fun he : r = p => hr (he ▸ hp)).mpr hb

section

variable {k k' : Kernel} {pending : ℤ → Option Pending}

theorem Parked.setMutex_leave (h : Parked k pending) {i p : ℤ} {queue : Queue}
    (hwait : waitersOf (k.mutexes i).queue = p :: waitersOf queue) :
    Parked ((k.setState p .ready).setMutex i
      { k.mutexes i with
        queue := queue
        cardinalBlocked := (k.mutexes i).cardinalBlocked - 1 }) pending := by
  refine h.leave (q := .mutex i) rfl ?_ ?_ fun q hq => Kernel.setMutex_other _ hq
  · rw [Kernel.waiters_setMutex_self]
    exact hwait
  · rw [Kernel.cardinal_setMutex_self]
    rfl

theorem Parked.freeMutex (h : Parked k pending) {mutex : ℤ} (hf : freeMutex mutex k = some k') :
    Parked k' pending ∧ k'.semaphores = k.semaphores ∧ Wakes k k' (.mutex mutex) := by
  rcases freeMutex_cases (h.mutex_cardinal mutex) hf with
    ⟨-, rfl⟩ | ⟨-, p, queue, hwait, rfl⟩ | ⟨-, -, rfl⟩
  · exact ⟨h, rfl, Wakes.refl _ _⟩
  · refine ⟨h.setMutex_leave hwait, rfl, wakes_ready h.ring rfl ?_⟩
    show p ∈ waitersOf (k.mutexes mutex).queue
    rw [hwait]
    exact List.mem_cons_self
  · exact ⟨h.setMutex rfl rfl, rfl, Wakes.of_sched rfl⟩

theorem Parked.signal (h : Parked k pending) {j : ℤ} (hs : signal j k = some k') :
    Parked k' pending ∧ k'.mutexes = k.mutexes ∧ Wakes k k' (.semaphore j) := by
  rcases signal_cases (h.semaphore_cardinal j) hs with
    ⟨-, rfl⟩ | ⟨-, p, queue, hwait, -, rfl⟩ | ⟨-, -, -, rfl⟩
  · exact ⟨h, rfl, Wakes.refl _ _⟩
  · refine ⟨?_, rfl, wakes_ready h.ring rfl ?_⟩
    · refine h.leave (q := .semaphore j) rfl ?_ ?_ fun q hq => Kernel.setSemaphore_other _ hq
      · rw [Kernel.waiters_setSemaphore_self]
        exact hwait
      · rw [Kernel.cardinal_setSemaphore_self]
        rfl
    · show p ∈ waitersOf (k.semaphores j).queue
      rw [hwait]
      exact List.mem_cons_self
  · exact ⟨h.setSemaphore rfl rfl, rfl, Wakes.of_sched rfl⟩

/-- After `_yield` another process runs, and it is not blocked. -/
theorem Parked.yield (h : Parked k pending) (hy : k.yield = some k') :
    Parked k' pending ∧ (∀ p, Blocked k'.sched p ↔ Blocked k.sched p) ∧
      ¬ Blocked k'.sched k'.pid ∧ (Scheduler.pids k'.sched).Perm (Scheduler.pids k.sched) ∧
      k'.sched.pid = k.sched.pid ∧ k' = { k with sched := k'.sched } := by
  obtain ⟨sched, hs, rfl⟩ := Option.map_eq_some_iff.mp hy
  rw [Scheduler.yield, if_neg h.ring.current_ne_null] at hs
  obtain ⟨hring, hperm, hpid, hblocked, hcur⟩ := schedule_view h.ring hs
  refine ⟨h.of_queues hring hpid.ge (fun q => ?_) (fun q => ?_) fun q p hp hin => ?_,
    hblocked, hcur, hperm, hpid, rfl⟩
  · cases q <;> rfl
  · cases q <;> rfl
  · exact (hblocked p).mpr (h.blocked q p hp (hperm.mem_iff.mp hin))

end

/-- In the ring only as a blocked process. -/
def Held (k : Kernel) (p : ℤ) : Prop := p ∈ Scheduler.pids k.sched → Blocked k.sched p

/-- What a part of a call of process `me` leaves: only `me` joins a queue, nobody leaves the
ring, who joins it is new, and a blocked process is woken only out of the queue of a mutex. -/
structure Frame (k k' : Kernel) (me : ℤ) : Prop where
  joins : ∀ q, ∀ p ∈ k'.waiters q, p ∈ k.waiters q ∨ p = me
  ring : ∀ p ∈ Scheduler.pids k.sched, p ∈ Scheduler.pids k'.sched
  fresh : ∀ p ∈ Scheduler.pids k'.sched, p ∈ Scheduler.pids k.sched ∨ k.sched.pid ≤ p
  count : k.sched.pid ≤ k'.sched.pid
  held : ∀ p, p ≠ me → p < k.sched.pid → (∀ i, p ∉ k.waiters (.mutex i)) → Held k p → Held k' p

section

variable {k k' k'' : Kernel} {pending : ℤ → Option Pending} {me : ℤ}

theorem Frame.refl (k : Kernel) (me : ℤ) : Frame k k me :=
  ⟨fun _ _ h => Or.inl h, fun _ h => h, fun _ h => Or.inl h, le_rfl, fun _ _ _ _ h => h⟩

theorem Frame.trans (h : Frame k k' me) (g : Frame k' k'' me) : Frame k k'' me := by
  refine ⟨fun q p hp => ?_, fun p hp => g.ring p (h.ring p hp), fun p hp => ?_,
    h.count.trans g.count, fun p hne hlt hout hheld => ?_⟩
  · rcases g.joins q p hp with hp | rfl
    · exact h.joins q p hp
    · exact Or.inr rfl
  · rcases g.fresh p hp with hp | hle
    · exact h.fresh p hp
    · exact Or.inr (h.count.trans hle)
  · refine g.held p hne (hlt.trans_le h.count) (fun i hp => ?_) (h.held p hne hlt hout hheld)
    exact (h.joins _ p hp).elim (hout i) hne

/-- The tables change, but not the queues. -/
theorem Frame.of_tables (hsched : k'.sched = k.sched) (hwait : ∀ q, k'.waiters q = k.waiters q)
    (me : ℤ) : Frame k k' me := by
  refine ⟨fun q p hp => Or.inl (hwait q ▸ hp), ?_, ?_, ?_, fun p _ _ _ hheld => ?_⟩
  · rw [hsched]
    exact fun _ h => h
  · rw [hsched]
    exact fun _ h => Or.inl h
  · rw [hsched]
  · rw [Held, hsched]
    exact hheld

theorem Frame.setMutex (k : Kernel) (i : ℤ) (m : Mutex) (hqueue : m.queue = (k.mutexes i).queue)
    (me : ℤ) : Frame k (k.setMutex i m) me :=
  @Frame.of_tables k (k.setMutex i m) rfl (Kernel.waiters_setMutex hqueue) me

theorem Frame.setSemaphore (k : Kernel) (i : ℤ) (sem : Semaphore)
    (hqueue : sem.queue = (k.semaphores i).queue) (me : ℤ) :
    Frame k (k.setSemaphore i sem) me :=
  @Frame.of_tables k (k.setSemaphore i sem) rfl (Kernel.waiters_setSemaphore hqueue) me

theorem Parked.frame_freeMutex (h : Parked k pending) {mutex : ℤ}
    (hf : Sync.freeMutex mutex k = some k') (me : ℤ) : Frame k k' me := by
  have hwakes := (h.freeMutex hf).2.2
  refine ⟨fun q p hp => Or.inl ?_, fun p hp => by rwa [hwakes.pids],
    fun p hp => Or.inl (by rwa [← hwakes.pids]), hwakes.count.ge, fun p _ _ hout hheld hin => ?_⟩
  · rcases freeMutex_cases (h.mutex_cardinal mutex) hf with
      ⟨-, rfl⟩ | ⟨-, r, queue, hwait, rfl⟩ | ⟨-, -, rfl⟩
    · exact hp
    · by_cases hq : q = .mutex mutex
      · subst hq
        rw [Kernel.waiters_setMutex_self] at hp
        show p ∈ waitersOf (k.mutexes mutex).queue
        rw [hwait]
        exact List.mem_cons_of_mem _ hp
      · exact (Kernel.setMutex_other (k := k.setState r .ready) _ hq).1 ▸ hp
    · by_cases hq : q = .mutex mutex
      · subst hq
        rwa [Kernel.waiters_setMutex_self] at hp
      · exact (Kernel.setMutex_other _ hq).1 ▸ hp
  · rw [hwakes.pids] at hin
    exact hwakes.still p (hheld hin) (hout mutex)

theorem Parked.frame_yield (h : Parked k pending) (hy : k.yield = some k') (me : ℤ) :
    Frame k k' me := by
  obtain ⟨-, hblocked, -, hperm, hpid, heq⟩ := h.yield hy
  refine ⟨fun q p hp => Or.inl ?_, fun p hp => hperm.mem_iff.mpr hp,
    fun p hp => Or.inl (hperm.mem_iff.mp hp), hpid.ge,
    fun p _ _ _ hheld hin => (hblocked p).mpr (hheld (hperm.mem_iff.mp hin))⟩
  rw [heq] at hp
  cases q <;> exact hp

/-- A change of a state to `BLOCKED`. -/
theorem Frame.block (h : RingInvariant k.sched) (pid me : ℤ) :
    Frame k (k.setState pid .blocked) me := by
  refine ⟨fun q p hp => Or.inl (by cases q <;> exact hp), fun p hp => ?_, fun p hp => ?_, ?_,
    fun p _ _ _ hheld hin => ?_⟩
  · rw [Kernel.setState_sched, pids_changeProcessState h]
    exact hp
  · rw [Kernel.setState_sched, pids_changeProcessState h] at hp
    exact Or.inl hp
  · rw [Kernel.setState_sched, pid_changeProcessState h]
  · rw [Kernel.setState_sched, pids_changeProcessState h] at hin
    exact blocked_changeProcessState_of h _ (hheld hin)

/-- Blocking somebody wakes no parked process. -/
theorem Parked.block (h : Parked k pending) (pid : ℤ) :
    Parked (k.setState pid .blocked) pending := by
  refine h.of_queues (changeProcessState_spec h.ring _ _).1 ?_ (fun q => ?_) (fun q => ?_)
    fun q p hp hin => ?_
  · rw [Kernel.setState_sched, pid_changeProcessState h.ring]
  · cases q <;> rfl
  · cases q <;> rfl
  · rw [Kernel.setState_sched, pids_changeProcessState h.ring] at hin
    exact blocked_changeProcessState_of h.ring _ (h.blocked q p hp hin)

theorem Frame.join {q : QueueId} (hsched : k'.sched = k.sched)
    (hwait : (k'.waiters q).Perm (me :: k.waiters q))
    (hother : ∀ q', q' ≠ q → k'.waiters q' = k.waiters q' ∧ k'.cardinal q' = k.cardinal q') :
    Frame k k' me := by
  refine ⟨fun q' p hp => ?_, ?_, ?_, ?_, fun p _ _ _ hheld => ?_⟩
  · by_cases hq : q' = q
    · subst hq
      exact (List.mem_cons.mp (hwait.mem_iff.mp hp)).symm
    · rw [(hother q' hq).1] at hp
      exact Or.inl hp
  · rw [hsched]
    exact fun _ h => h
  · rw [hsched]
    exact fun _ h => Or.inl h
  · rw [hsched]
  · rw [Held, hsched]
    exact hheld

end

/-! ### The operations of the machine -/

/-- Between the operations the parked processes are parked and the current one is not. -/
structure Settled (s : Machine) : Prop where
  parked : Parked s.kernel s.pending
  current : ¬ Blocked s.kernel.sched s.pid

section

variable {s t : Machine}

theorem Machine.pending_of_idle (h : s.idle = true) : s.pending s.pid = none := by
  simpa [Machine.idle] using h

theorem Settled.current_held (h : Settled s) : ¬ Held s.kernel s.pid := fun hheld =>
  h.current (hheld (getCurrentPid_mem h.parked.ring))

/-- The current process is in no queue. -/
theorem Settled.current_free (h : Settled s) (q : QueueId) : s.pid ∉ s.kernel.waiters q :=
  fun hp => h.current (h.parked.blocked q _ hp (getCurrentPid_mem h.parked.ring))

/-- A suspended call: the process has been parked, or blocks somebody else, and another process
runs. -/
theorem Settled.lock (h : Settled s) (hidle : s.idle = true) {mutex garbage : ℤ} {rest : Rest}
    {returned : Bool} (hlock : s.lock mutex garbage rest = some (returned, t)) :
    Settled t ∧ Frame s.kernel t.kernel s.pid := by
  have hnone := Machine.pending_of_idle hidle
  have hcur := h.parked.current_range
  obtain ⟨⟨b, k'⟩, hk, hpair⟩ := Option.map_eq_some_iff.mp hlock
  rcases lockMutex_cases hcur.1 (h.parked.mutex_cardinal mutex) hk with
    ⟨-, rfl, rfl⟩ | ⟨-, -, -, rfl, rfl⟩ | ⟨-, -, -, rfl, queue, hperm, hy⟩ | ⟨-, -, -, rfl, hy⟩
  · obtain ⟨-, rfl⟩ := Prod.mk.inj hpair
    exact ⟨⟨h.parked, h.current⟩, Frame.refl _ _⟩
  · obtain ⟨-, rfl⟩ := Prod.mk.inj hpair
    exact ⟨⟨h.parked.setMutex rfl rfl, h.current⟩,
      Frame.setMutex s.kernel mutex { s.kernel.mutexes mutex with mutex := 1 } rfl _⟩
  · obtain ⟨-, rfl⟩ := Prod.mk.inj hpair
    set k₁ := s.kernel.setMutex mutex { s.kernel.mutexes mutex with
      queue := queue
      cardinalBlocked := (s.kernel.mutexes mutex).cardinalBlocked + 1 } with hk₁
    have hwait : (k₁.waiters (.mutex mutex)).Perm
        (s.kernel.pid :: s.kernel.waiters (.mutex mutex)) := by
      rw [hk₁, Kernel.waiters_setMutex_self]
      exact hperm
    have hother := fun (q : QueueId) (hq : q ≠ .mutex mutex) =>
      Kernel.setMutex_other (k := s.kernel) { s.kernel.mutexes mutex with
        queue := queue
        cardinalBlocked := (s.kernel.mutexes mutex).cardinalBlocked + 1 } hq
    have hjoin : Parked (k₁.setState s.kernel.pid .blocked)
        (assign s.pending s.pid (some (.locking mutex rest))) := by
      refine h.parked.join (q := .mutex mutex) rfl hnone rfl hwait ?_ hother
      rw [hk₁]
      exact Kernel.cardinal_setMutex_self _
    have hframe : Frame s.kernel k₁ s.pid := Frame.join rfl hwait hother
    obtain ⟨hparked, -, hcurrent, -⟩ := hjoin.yield hy
    exact ⟨⟨hparked, hcurrent⟩,
      (hframe.trans (Frame.block (k := k₁) h.parked.ring _ _)).trans (hjoin.frame_yield hy _)⟩
  · obtain ⟨-, rfl⟩ := Prod.mk.inj hpair
    have hblock : Parked (s.kernel.setState garbage .blocked)
        (assign s.pending s.pid (some (.locking mutex rest))) :=
      (h.parked.assign_pending h.current_free hcur).block garbage
    obtain ⟨hparked, -, hcurrent, -⟩ := hblock.yield hy
    exact ⟨⟨hparked, hcurrent⟩,
      (Frame.block h.parked.ring _ _).trans (hblock.frame_yield hy _)⟩

/-- Waking others leaves the current process as it is. -/
theorem Wakes.current_not_blocked {k k' : Kernel} {q : QueueId} (h : Wakes k k' q)
    (hcur : ¬ Blocked k.sched k.pid) : ¬ Blocked k'.sched k'.pid := fun hb => by
  rw [h.current] at hb
  exact hcur (h.blocked _ hb)

theorem Settled.freeMutex {k k' : Kernel} {pending : ℤ → Option Pending} (h : Parked k pending)
    (hcur : ¬ Blocked k.sched k.pid) {mutex : ℤ} (hf : freeMutex mutex k = some k') (me : ℤ) :
    Parked k' pending ∧ ¬ Blocked k'.sched k'.pid ∧ Frame k k' me :=
  ⟨(h.freeMutex hf).1, (h.freeMutex hf).2.2.current_not_blocked hcur, h.frame_freeMutex hf me⟩

/-- A parked process frees a mutex and gives up the processor. -/
theorem Parked.free_yield {k k₁ k' : Kernel} {pending : ℤ → Option Pending} (h : Parked k pending)
    {mutex : ℤ} (hf : Sync.freeMutex mutex k = some k₁) (hy : k₁.yield = some k') (me : ℤ) :
    Parked k' pending ∧ ¬ Blocked k'.sched k'.pid ∧ Frame k k' me := by
  have hfree := (h.freeMutex hf).1
  obtain ⟨hparked, -, hcur, -⟩ := hfree.yield hy
  exact ⟨hparked, hcur, (h.frame_freeMutex hf me).trans (hfree.frame_yield hy me)⟩

/-- It stays blocked until somebody takes it out of a queue. -/
theorem Parked.held_free_yield {k k₁ k' : Kernel} {pending : ℤ → Option Pending} {pid : ℤ}
    (h : Parked (k.setState pid .blocked) pending) (hring : RingInvariant k.sched)
    (hin : pid ∈ pids k.sched) (hout : ∀ i, pid ∉ k.waiters (.mutex i)) {mutex : ℤ}
    (hf : Sync.freeMutex mutex (k.setState pid .blocked) = some k₁) (hy : k₁.yield = some k') :
    Held k' pid := by
  have hframe := (h.free_yield hf hy (pid + 1)).2.2
  have hlt : pid < (k.setState pid .blocked).sched.pid := by
    rw [Kernel.setState_sched, pid_changeProcessState hring]
    exact (hring.pid_range _ hin).2
  exact hframe.held pid (by omega) hlt hout fun _ => blocked_changeProcessState_self hring hin

theorem frame_decrement (j : ℤ) (k : Kernel) (me : ℤ) : Frame k (decrement j k) me := by
  exact Frame.setSemaphore k j _ (by rfl) me

theorem Settled.waitEnd (h : Settled s) (hidle : s.idle = true) {j : ℤ}
    (hwait : s.waitEnd j = some t) : Settled t ∧ Frame s.kernel t.kernel s.pid ∧
      (t.pending s.pid ≠ none → Held t.kernel s.pid) := by
  have hnone := Machine.pending_of_idle hidle
  have hcur := h.parked.current_range
  have hin := getCurrentPid_mem h.parked.ring
  have hdec : Parked (decrement j s.kernel) s.pending := h.parked.setSemaphore rfl rfl
  have hfdec : Frame s.kernel (decrement j s.kernel) s.pid := frame_decrement _ _ _
  obtain ⟨⟨b, k'⟩, hk, rfl⟩ := Option.map_eq_some_iff.mp hwait
  rcases waitRest_cases hcur.1 hk with
    ⟨-, rfl, hf⟩ | ⟨-, -, rfl, queue, k₁, hperm, hf, hy⟩ | ⟨-, -, rfl, k₁, hf, hy⟩
  · obtain ⟨hparked, hcurrent, hframe⟩ := Settled.freeMutex hdec h.current hf s.pid
    exact ⟨⟨hparked, hcurrent⟩, hfdec.trans hframe, fun hne => absurd hnone hne⟩
  · set sem : Semaphore := { s.kernel.semaphores j with
      queue := queue
      cardinalBlocked := (s.kernel.semaphores j).cardinalBlocked + 1
      semaphore := MachineInt.int32 ((s.kernel.semaphores j).semaphore - 1) } with hsem
    have hwaiters : ((s.kernel.setSemaphore j sem).waiters (.semaphore j)).Perm
        (s.kernel.pid :: s.kernel.waiters (.semaphore j)) := by
      rw [Kernel.waiters_setSemaphore_self]
      exact hperm
    have hother := fun (q : QueueId) (hq : q ≠ .semaphore j) =>
      Kernel.setSemaphore_other (k := s.kernel) sem hq
    have hjoin : Parked ((s.kernel.setSemaphore j sem).setState s.kernel.pid .blocked)
        (assign s.pending s.pid (some (.sleeping j (s.ledger.generation j)))) :=
      h.parked.join (q := .semaphore j) rfl hnone rfl hwaiters
        (Kernel.cardinal_setSemaphore_self _) hother
    have hframe : Frame s.kernel (s.kernel.setSemaphore j sem) s.pid :=
      Frame.join rfl hwaiters hother
    obtain ⟨hparked, hcurrent, hframe'⟩ := hjoin.free_yield hf hy s.pid
    have hheld := hjoin.held_free_yield h.parked.ring hin (fun i => h.current_free (.mutex i)) hf hy
    exact ⟨⟨hparked, hcurrent⟩, (hframe.trans
      (@Frame.block (s.kernel.setSemaphore j sem) h.parked.ring _ _)).trans hframe', fun _ => hheld⟩
  · have hblock : Parked ((decrement j s.kernel).setState s.kernel.pid .blocked)
        (assign s.pending s.pid (some (.sleeping j (s.ledger.generation j)))) := by
      have hfree : ∀ q, s.pid ∉ (decrement j s.kernel).waiters q := fun q =>
        hdec.not_mem_of_none hnone
      exact (hdec.assign_pending hfree hcur).block s.kernel.pid
    obtain ⟨hparked, hcurrent, hframe⟩ := hblock.free_yield hf hy s.pid
    have hheld := hblock.held_free_yield h.parked.ring hin (fun i => h.current_free (.mutex i)) hf hy
    exact ⟨⟨hparked, hcurrent⟩,
      (hfdec.trans (@Frame.block (decrement j s.kernel) h.parked.ring _ _)).trans hframe,
      fun _ => hheld⟩

/-- `getMutex` behind `lockMutex`: a slot may be taken into use, then `adminMutex` is freed. -/
theorem getMutexRest_cases {k k' : Kernel} {name : ℕ} {i : ℤ}
    (h : getMutexRest name k = some (i, k')) :
    (getIndex name k = some i ∧ Sync.freeMutex k.adminMutex k = some k') ∨
    (getIndex name k = none ∧ getFreeSpot k = none ∧ i = error ∧
      Sync.freeMutex k.adminMutex k = some k') ∨
    (getIndex name k = none ∧ getFreeSpot k = some i ∧
      Sync.freeMutex k.adminMutex (k.setMutex i
        { k.mutexes i with used := true, name := name, pidCreator := k.pid }) = some k') := by
  obtain ⟨k₁, hf, hpair⟩ := Option.map_eq_some_iff.mp h
  cases hindex : getIndex name k with
  | some index =>
    simp only [hindex] at hf hpair
    obtain ⟨rfl, rfl⟩ := Prod.mk.inj hpair
    exact Or.inl ⟨rfl, hf⟩
  | none =>
    right
    simp only [hindex, createMutex] at hf hpair
    cases hspot : getFreeSpot k with
    | none =>
      simp only [hspot] at hf hpair
      obtain ⟨rfl, rfl⟩ := Prod.mk.inj hpair
      exact Or.inl ⟨rfl, rfl, rfl, hf⟩
    | some index =>
      simp only [hspot] at hf hpair
      obtain ⟨rfl, rfl⟩ := Prod.mk.inj hpair
      exact Or.inr ⟨rfl, rfl, hf⟩

theorem Settled.getMutexRest {k k' : Kernel} {pending : ℤ → Option Pending} (h : Parked k pending)
    (hcur : ¬ Blocked k.sched k.pid) {name : ℕ} {i : ℤ}
    (hrun : getMutexRest name k = some (i, k')) (me : ℤ) :
    Parked k' pending ∧ ¬ Blocked k'.sched k'.pid ∧ Frame k k' me := by
  rcases getMutexRest_cases hrun with ⟨-, hf⟩ | ⟨-, -, -, hf⟩ | ⟨-, -, hf⟩
  · exact Settled.freeMutex h hcur hf me
  · exact Settled.freeMutex h hcur hf me
  · have hset : Parked (k.setMutex i
        { k.mutexes i with used := true, name := name, pidCreator := k.pid }) pending :=
      h.setMutex rfl rfl
    obtain ⟨hparked, hcur', hframe⟩ := Settled.freeMutex hset hcur hf me
    exact ⟨hparked, hcur', (Frame.setMutex k i _ (by rfl) me).trans hframe⟩

theorem Settled.getMutexEnd (h : Settled s) {name : ℕ} (hrun : s.getMutexEnd name = some t) :
    Settled t ∧ Frame s.kernel t.kernel s.pid := by
  obtain ⟨⟨i, k'⟩, hk, rfl⟩ := Option.map_eq_some_iff.mp hrun
  obtain ⟨hparked, hcur, hframe⟩ := Settled.getMutexRest h.parked h.current hk s.pid
  exact ⟨⟨hparked, hcur⟩, hframe⟩

theorem Settled.createSemaphoreEnd (h : Settled s) {index : ℤ} {name : ℕ} {start pid : ℤ}
    (hrun : s.createSemaphoreEnd index name start pid = some t) :
    Settled t ∧ Frame s.kernel t.kernel s.pid := by
  obtain ⟨k', hk, rfl⟩ := Option.map_eq_some_iff.mp hrun
  obtain ⟨⟨i, k₁⟩, hget, hf⟩ := Option.bind_eq_some_iff.mp hk
  obtain ⟨hparked, hcur, hframe⟩ := Settled.getMutexRest h.parked h.current hget s.pid
  have hset : Parked (Sync.createSemaphoreEnd index i start pid k₁) s.pending :=
    hparked.setSemaphore rfl rfl
  have hframe' : Frame k₁ (Sync.createSemaphoreEnd index i start pid k₁) s.pid :=
    Frame.setSemaphore k₁ index _ (by rfl) _
  obtain ⟨hparked', hcur', hframe''⟩ := Settled.freeMutex hset hcur hf s.pid
  exact ⟨⟨hparked', hcur'⟩, (hframe.trans hframe').trans hframe''⟩

theorem Settled.free (h : Settled s) {mutex : ℤ} (hrun : s.free mutex = some t) :
    Settled t ∧ Frame s.kernel t.kernel s.pid := by
  obtain ⟨k', hk, rfl⟩ := Option.map_eq_some_iff.mp hrun
  obtain ⟨hparked, hcur, hframe⟩ := Settled.freeMutex h.parked h.current hk s.pid
  exact ⟨⟨hparked, hcur⟩, hframe⟩

theorem Settled.reserve (h : Settled s) (index : ℤ) (name : ℕ) :
    Settled (s.reserve index name) ∧ Frame s.kernel (s.reserve index name).kernel s.pid := by
  exact ⟨⟨h.parked.setSemaphore rfl rfl, h.current⟩, Frame.setSemaphore s.kernel index _ (by rfl) _⟩

theorem closeMutex_cases {k k' : Kernel} {mutex : ℤ} (h : closeMutex mutex k = some k') :
    k' = k ∨ (isValidMutex mutex k = true ∧ k.pid = (k.mutexes mutex).pidCreator ∧
      k' = k.setMutex mutex { k.mutexes mutex with used := false }) := by
  unfold closeMutex at h
  dsimp only at h
  split_ifs at h with hneg hvalid hcreator
  · exact Or.inr ⟨hvalid, hcreator, (Option.some.inj h).symm⟩
  · exact Or.inl (Option.some.inj h).symm
  · exact Or.inl (Option.some.inj h).symm

theorem semClose_cases {k k' : Kernel} {j : ℤ} (h : semClose j k = some k') :
    k' = k ∨ (isValidSemaphore j k = true ∧ k.pid = (k.semaphores j).pidCreator ∧
      k' = k.setSemaphore j { k.semaphores j with used := false }) := by
  unfold semClose at h
  dsimp only at h
  split_ifs at h with hneg hvalid hcreator
  · exact Or.inr ⟨hvalid, hcreator, (Option.some.inj h).symm⟩
  · exact Or.inl (Option.some.inj h).symm
  · exact Or.inl (Option.some.inj h).symm

theorem Settled.close (h : Settled s) {mutex : ℤ} (hrun : s.close mutex = some t) :
    Settled t ∧ Frame s.kernel t.kernel s.pid := by
  obtain ⟨k', hk, rfl⟩ := Option.map_eq_some_iff.mp hrun
  rcases closeMutex_cases hk with rfl | ⟨-, -, rfl⟩
  · exact ⟨⟨h.parked, h.current⟩, Frame.refl _ _⟩
  · exact ⟨⟨h.parked.setMutex rfl rfl, h.current⟩, Frame.setMutex s.kernel mutex _ (by rfl) _⟩

theorem Settled.closeSemaphore (h : Settled s) {j : ℤ} (hrun : s.closeSemaphore j = some t) :
    Settled t ∧ Frame s.kernel t.kernel s.pid := by
  obtain ⟨k', hk, rfl⟩ := Option.map_eq_some_iff.mp hrun
  rcases semClose_cases hk with rfl | ⟨-, -, rfl⟩
  · exact ⟨⟨h.parked, h.current⟩, Frame.refl _ _⟩
  · exact ⟨⟨h.parked.setSemaphore rfl rfl, h.current⟩, Frame.setSemaphore s.kernel j _ (by rfl) _⟩

theorem Settled.switch (h : Settled s) (hrun : s.switch = some t) :
    Settled t ∧ Frame s.kernel t.kernel s.pid := by
  obtain ⟨k', hk, rfl⟩ := Option.map_eq_some_iff.mp hrun
  obtain ⟨hparked, -, hcur, -⟩ := h.parked.yield hk
  exact ⟨⟨hparked, hcur⟩, h.parked.frame_yield hk _⟩

theorem Settled.store (h : Settled s) (strings : ℕ → List ℤ) :
    Settled { s with kernel := { s.kernel with strings } } ∧
      Frame s.kernel { s.kernel with strings } s.pid := by
  have hwait : ∀ q, Kernel.waiters { s.kernel with strings } q = s.kernel.waiters q := fun q => by
    cases q <;> rfl
  exact ⟨⟨h.parked.of_tables rfl hwait fun q => by cases q <;> rfl, h.current⟩,
    @Frame.of_tables s.kernel { s.kernel with strings } rfl hwait _⟩

theorem Settled.createProcess (h : Settled s) {page : ℕ} (hpage : FreshPage s.kernel.sched page) :
    Settled (s.createProcess page) ∧ Frame s.kernel (s.createProcess page).kernel s.pid := by
  have hring := h.parked.ring
  have hperm := pids_createProcess hring hpage
  have hcount := pid_createProcess hring hpage
  have hheld : ∀ p < s.kernel.sched.pid, Held s.kernel p → Held (s.createProcess page).kernel p :=
    fun p hlt hp hin => by
      refine (blocked_createProcess hring hpage p).mpr (hp ?_)
      exact (List.mem_cons.mp (hperm.mem_iff.mp hin)).resolve_left hlt.ne
  refine ⟨⟨h.parked.of_queues (hring.createProcess hpage).1 ?_ (fun q => ?_) (fun q => ?_)
    fun q p hp => hheld p ?_ (h.parked.blocked q p hp), ?_⟩, fun q p hp => ?_, fun p hp => ?_,
    fun p hp => ?_, ?_, fun p _ hlt _ => hheld p hlt⟩
  · show s.kernel.sched.pid ≤ (Scheduler.createProcess page s.kernel.sched).2.pid
    omega
  · cases q <;> rfl
  · cases q <;> rfl
  · obtain ⟨c, hc, -⟩ := h.parked.waiting q p hp
    exact (h.parked.range p c hc).2
  · intro hb
    refine h.current ?_
    have hpid : (s.createProcess page).pid = s.pid := getCurrentPid_createProcess hring hpage
    rw [hpid] at hb
    exact (blocked_createProcess hring hpage _).mp hb
  · cases q <;> exact Or.inl hp
  · exact hperm.mem_iff.mpr (List.mem_cons_of_mem _ hp)
  · exact (List.mem_cons.mp (hperm.mem_iff.mp hp)).symm.imp_right fun he => he.ge
  · show s.kernel.sched.pid ≤ (Scheduler.createProcess page s.kernel.sched).2.pid
    omega

/-- A removed process leaves the ring, but not the queues. -/
theorem Settled.removeProcess (h : Settled s) {pid : ℤ} (hrun : s.removeProcess pid = some t) :
    Settled t ∧ t.kernel.sched.pid = s.kernel.sched.pid ∧
      (∀ q, t.kernel.waiters q = s.kernel.waiters q) ∧
      (∀ p, p ∈ pids t.kernel.sched ↔ p ∈ pids s.kernel.sched ∧ (p ≠ pid ∨ pid = 0)) ∧
      ∀ p, Held s.kernel p → Held t.kernel p := by
  obtain ⟨sched, hs, rfl⟩ := Option.map_eq_some_iff.mp hrun
  have hwait : ∀ q, Kernel.waiters { s.kernel with sched := sched } q = s.kernel.waiters q :=
    fun q => by cases q <;> rfl
  have hring := h.parked.ring
  by_cases hpid : pid = 0
  · rw [Scheduler.removeProcess, if_pos hpid, Scheduler.yield,
      if_neg hring.current_ne_null] at hs
    obtain ⟨hring', hperm, hcount, hblocked, hcur⟩ := schedule_view hring hs
    have hheld : ∀ p, Held s.kernel p → Held { s.kernel with sched := sched } p :=
      fun p hp hin => (hblocked p).mpr (hp (hperm.mem_iff.mp hin))
    exact ⟨⟨h.parked.of_queues hring' hcount.ge hwait (fun q => by cases q <;> rfl)
      fun q p hp => hheld p (h.parked.blocked q p hp), hcur⟩, hcount, hwait,
      fun p => ⟨fun hp => ⟨hperm.mem_iff.mp hp, Or.inr hpid⟩, fun hp => hperm.mem_iff.mpr hp.1⟩,
      hheld⟩
  · obtain ⟨hring', hpids, hcount, hblocked, hcur⟩ :=
      removeProcess_view hring hpid hs h.current
    have hheld : ∀ p, Held s.kernel p → Held { s.kernel with sched := sched } p :=
      fun p hp hin => by
        obtain ⟨hin, hne⟩ := (hpids p).mp hin
        exact (hblocked p).mpr ⟨hp hin, hne⟩
    refine ⟨⟨h.parked.of_queues hring' hcount.ge hwait (fun q => by cases q <;> rfl)
      fun q p hp => hheld p (h.parked.blocked q p hp), hcur⟩, hcount, hwait, fun p => ?_, hheld⟩
    rw [hpids]
    simp [hpid]

theorem Settled.signal (h : Settled s) {j : ℤ} (hrun : s.signal j = some t) :
    Settled t ∧ Wakes s.kernel t.kernel (.semaphore j) ∧
      ∀ q, ∀ p ∈ t.kernel.waiters q, p ∈ s.kernel.waiters q := by
  obtain ⟨k', hk, rfl⟩ := Option.map_eq_some_iff.mp hrun
  obtain ⟨hparked, -, hwakes⟩ := h.parked.signal hk
  refine ⟨⟨hparked, hwakes.current_not_blocked h.current⟩, hwakes, fun q p hp => ?_⟩
  rcases signal_cases (h.parked.semaphore_cardinal j) hk with
    ⟨-, rfl⟩ | ⟨-, r, queue, hwait, -, rfl⟩ | ⟨-, -, -, rfl⟩
  · exact hp
  · by_cases hq : q = .semaphore j
    · subst hq
      dsimp only at hp
      rw [Kernel.waiters_setSemaphore_self] at hp
      show p ∈ waitersOf (s.kernel.semaphores j).queue
      rw [hwait]
      exact List.mem_cons_of_mem _ hp
    · exact (Kernel.setSemaphore_other (k := s.kernel.setState r .ready) _ hq).1 ▸ hp
  · by_cases hq : q = .semaphore j
    · subst hq
      dsimp only at hp
      rwa [Kernel.waiters_setSemaphore_self] at hp
    · exact (Kernel.setSemaphore_other _ hq).1 ▸ hp

theorem wake_pending (s : Machine) : s.wake.pending = assign s.pending s.pid none := by
  unfold Machine.wake
  dsimp only
  split <;> rfl

theorem Settled.wake (h : Settled s) : Settled s.wake := by
  refine ⟨?_, ?_⟩
  · rw [wake_kernel, wake_pending]
    exact h.parked.assign_pending h.current_free h.parked.current_range
  · rw [Machine.pid, wake_kernel]
    exact h.current

/-- Every operation keeps the parked processes parked; only the current process joins a queue,
and only `removeProcess` takes a process out of the ring. -/
theorem op_settled {op : Op} (h : Settled s) (henabled : op.Enabled s)
    (hrun : op.perform s = some t) :
    Settled t ∧ (∀ q, ∀ p ∈ t.kernel.waiters q, p ∈ s.kernel.waiters q ∨ p = s.pid) ∧
      ((∀ pid, op ≠ .removeProcess pid) →
        ∀ p ∈ pids s.kernel.sched, p ∈ pids t.kernel.sched) := by
  have hframe : Settled t ∧ Frame s.kernel t.kernel s.pid →
      Settled t ∧ (∀ q, ∀ p ∈ t.kernel.waiters q, p ∈ s.kernel.waiters q ∨ p = s.pid) ∧
        ((∀ pid, op ≠ .removeProcess pid) →
          ∀ p ∈ pids s.kernel.sched, p ∈ pids t.kernel.sched) :=
    fun hf => ⟨hf.1, hf.2.joins, fun _ => hf.2.ring⟩
  cases op with
  | switch => exact hframe (h.switch hrun)
  | createProcess page =>
    obtain rfl := Option.some.inj hrun
    exact hframe (h.createProcess henabled)
  | removeProcess pid =>
    obtain ⟨hsettled, -, hwait, -, -⟩ := h.removeProcess hrun
    exact ⟨hsettled, fun q p hp => Or.inl (hwait q ▸ hp), fun hne => absurd rfl (hne pid)⟩
  | lock mutex garbage rest =>
    obtain ⟨⟨returned, u⟩, hlock, rfl⟩ := Option.map_eq_some_iff.mp hrun
    exact hframe (h.lock henabled hlock)
  | free mutex => exact hframe (h.free hrun)
  | getMutexEnd name => exact hframe (h.getMutexEnd hrun)
  | close mutex => exact hframe (h.close hrun)
  | reserve index name =>
    obtain rfl := Option.some.inj hrun
    exact hframe (h.reserve index name)
  | createSemaphoreEnd index name start pid => exact hframe (h.createSemaphoreEnd hrun)
  | closeSemaphore j => exact hframe (h.closeSemaphore hrun)
  | waitEnd j =>
    obtain ⟨hsettled, hf, -⟩ := h.waitEnd henabled hrun
    exact hframe ⟨hsettled, hf⟩
  | signal j =>
    obtain ⟨hsettled, hwakes, hwait⟩ := h.signal hrun
    refine ⟨hsettled, fun q p hp => Or.inl (hwait q p hp), fun _ p hp => ?_⟩
    rw [hwakes.pids]
    exact hp
  | wake =>
    obtain rfl := Option.some.inj hrun
    refine ⟨h.wake, fun q p hp => Or.inl ?_, fun _ p hp => ?_⟩
    · rwa [wake_kernel] at hp
    · rwa [wake_kernel]
  | store strings =>
    obtain rfl := Option.some.inj hrun
    exact hframe (h.store strings)

end

end GatOS.Sync
