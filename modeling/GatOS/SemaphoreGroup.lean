import GatOS.SemaphoreQueue
import GatOS.Undisturbed

/-!
# A group of processes with its own semaphores

At most twenty processes share some semaphores that nobody else uses. Each member of the group is
running or ready, unless it waits in the queue of one of the semaphores: no other state, no lock
and no other queue keeps it from running.
-/
namespace GatOS.Sync
open Scheduler Transition

/-- The mutex is in use, it is not locked and nobody waits for it. -/
structure FreeLock (k : Kernel) (m : ℤ) : Prop where
  used : (k.mutexes m).used = true
  word : (k.mutexes m).mutex = 0
  cardinal : (k.mutexes m).cardinalBlocked = 0

/-- No member of the group is lost. -/
structure Lively (g : Group) (s : Machine) : Prop where
  few : g.members.length ≤ maxBlockedQueueSize
  inner : g.locks = g.semaphores.map fun j => (s.kernel.semaphores j).mutex
  queue : ∀ j ∈ g.semaphores, QueueInvariant s j
  free : ∀ m ∈ g.locks, FreeLock s.kernel m
  admin : s.kernel.adminMutex ∉ g.locks
  sleepers : ∀ j ∈ g.semaphores, ∀ p n, s.pending p = some (.sleeping j n) → p ∈ g.members
  unlocked : ∀ p ∈ g.members, ∀ m rest, s.pending p ≠ some (.locking m rest)
  ring : ∀ p ∈ g.members, p ∈ pids s.kernel.sched
  waits : ∀ p ∈ g.members, ∀ state, state ≠ .ready → state ≠ .running →
    InState s.kernel.sched p state →
      state = .blocked ∧ ∃ j ∈ g.semaphores, p ∈ s.kernel.waiters (.semaphore j)

section

variable {g : Group} {s t u : Machine} {j garbage : ℤ}

/-- A member runs, is ready or waits at a semaphore of the group. -/
theorem Lively.cases (h : Lively g s) {p : ℤ} (hp : p ∈ g.members) :
    InState s.kernel.sched p .ready ∨ InState s.kernel.sched p .running ∨
      ∃ j ∈ g.semaphores, p ∈ s.kernel.waiters (.semaphore j) := by
  obtain ⟨q, hq, rfl⟩ := List.mem_map.mp (h.ring p hp)
  have hin : InState s.kernel.sched q.pid q.state := hq
  by_cases hready : q.state = .ready
  · exact Or.inl (hready ▸ hin)
  · by_cases hrunning : q.state = .running
    · exact Or.inr (Or.inl (hrunning ▸ hin))
    · exact Or.inr (Or.inr (h.waits q.pid hp q.state hready hrunning hin).2)

theorem Lively.guards (h : Lively g s) : s.kernel.Guards g :=
  ⟨h.admin, fun m hm => (h.free m hm).used⟩

theorem Lively.lock_mem (h : Lively g s) (hj : j ∈ g.semaphores) :
    (s.kernel.semaphores j).mutex ∈ g.locks := by
  rw [h.inner]
  exact List.mem_map_of_mem hj

/-- The other waiters of a semaphore are members of the group, so there is a free slot. -/
theorem Lively.room (h : Lively g s) (hs : Settled s) (hj : j ∈ g.semaphores)
    (hpid : s.pid ∈ g.members) :
    (s.kernel.waiters (.semaphore j)).length < maxBlockedQueueSize := by
  have hsub : s.kernel.waiters (.semaphore j) ⊆ g.members.erase s.pid := by
    intro p hp
    obtain ⟨c, hc, hq⟩ := hs.parked.waiting _ p hp
    have hne : p ≠ s.pid := by
      rintro rfl
      exact hs.current_free _ hp
    rw [List.mem_erase_of_ne hne]
    cases c with
    | locking m rest => exact absurd hq (by simp [Pending.queue])
    | sleeping i n =>
      obtain rfl : i = j := by simpa [Pending.queue] using hq
      exact h.sleepers i hj p n hc
  have hle := ((hs.parked.nodup (.semaphore j)).subperm hsub).length_le
  have herase := List.length_erase_of_mem hpid
  have hpos := List.length_pos_of_mem hpid
  have hfew := h.few
  omega

/-! ### Steps of others -/

/-- A step that leaves the group alone. -/
theorem Lively.of_spares (h : Lively g s) (hspares : Spares g s t)
    (hnames : SameNames s.kernel t.kernel)
    (hpending : ∀ p ∈ g.members, ∀ m rest, t.pending p ≠ some (.locking m rest)) :
    Lively g t := by
  obtain ⟨huntouched, hleaves⟩ := hspares
  refine ⟨h.few, ?_, fun j hj => ?_, fun m hm => ?_, ?_, fun j hj p n hp => ?_, hpending,
    fun p hp => ?_, fun p hp state hready hrunning hin => ?_⟩
  · rw [h.inner]
    exact List.map_congr_left fun j _ => (hnames.mutex j).symm
  · exact (h.queue j hj).of_untouched (huntouched j hj)
  · obtain ⟨hused, hword, hcardinal⟩ := h.free m hm
    rw [← hleaves.locks m hm] at hused hword hcardinal
    exact ⟨hused, hword, hcardinal⟩
  · rw [hleaves.admin]
    exact h.admin
  · exact h.sleepers j hj p n (((huntouched j hj).pending p n).mp hp)
  · exact hleaves.ring p hp (h.ring p hp)
  · have hold := hleaves.awake p hp state hready hrunning hin
    obtain ⟨hblocked, j, hj, hwaits⟩ := h.waits p hp state hready hrunning hold
    refine ⟨hblocked, j, hj, ?_⟩
    rw [(huntouched j hj).waiters]
    exact hwaits

/-- A step of somebody else, or of the clock. -/
theorem Lively.foreign (h : Lively g s) (hs : Settled s) {a : Action}
    (hforeign : a.foreign g.semaphores s = true) (hspares : a.Avoids g s)
    (hpid : a ≠ .tick → s.pid ∉ g.members) (hstep : step s a = some t) : Lively g t := by
  have hsteady := step_steady hs hforeign hstep
  refine h.of_spares (step_sparesGroup hs h.guards hpid hspares hstep) hsteady.names ?_
  intro p hp m rest
  have hold := h.unlocked p hp m rest
  by_cases htick : a = .tick
  · subst htick
    simp only [step] at hstep
    split_ifs at hstep
    obtain ⟨k', -, rfl⟩ := Option.map_eq_some_iff.mp hstep
    exact hold
  · have hne : p ≠ s.pid := by
      rintro rfl
      exact hpid htick hp
    rw [hsteady.pending p hne]
    exact hold

/-- A new process joins the group. -/
theorem Lively.createProcess (h : Lively g s) (hs : Settled s) {page : ℕ}
    (hpage : FreshPage s.kernel.sched page) (hfew : g.members.length < maxBlockedQueueSize) :
    Lively { g with members := s.kernel.sched.pid :: g.members } (s.createProcess page) := by
  have hring := hs.parked.ring
  have hleaves : Leaves g s.kernel (s.createProcess page).kernel :=
    Leaves.createProcess hring hpage
  have hnew : ∀ state, ¬ InState s.kernel.sched s.kernel.sched.pid state := fun state hin => by
    have := (hring.pid_range _ hin.mem_pids).2
    omega
  refine ⟨hfew, h.inner, fun j hj => ?_, fun m hm => ?_, h.admin, fun j hj p n hp => ?_,
    fun p hp m rest => ?_, fun p hp => ?_, fun p hp state hready hrunning hin => ?_⟩
  · exact (h.queue j hj).of_untouched (.of_semaphores rfl rfl rfl)
  · exact ⟨(h.free m hm).used, (h.free m hm).word, (h.free m hm).cardinal⟩
  · exact List.mem_cons_of_mem _ (h.sleepers j hj p n hp)
  · rcases List.mem_cons.mp hp with rfl | hp
    · intro hpending
      have := (hs.parked.range _ _ hpending).2
      omega
    · exact h.unlocked p hp m rest
  · rcases List.mem_cons.mp hp with rfl | hp
    · exact (pids_createProcess hring hpage).mem_iff.mpr List.mem_cons_self
    · exact hleaves.ring p hp (h.ring p hp)
  · have hold := (inState_createProcess hring hpage p hready).mp hin
    rcases List.mem_cons.mp hp with rfl | hp
    · exact absurd hold (hnew state)
    · exact h.waits p hp state hready hrunning hold

/-! ### Calls of the members -/

/-- The group without the process that makes a call, and without the lock that it uses. -/
def Group.without (g : Group) (m p : ℤ) : Group :=
  ⟨[], g.locks.filter (· ≠ m), g.members.filter (· ≠ p)⟩

theorem Group.not_mem_locks_without (g : Group) (m p : ℤ) : m ∉ (g.without m p).locks := by
  simp [Group.without]

theorem Group.not_mem_members_without (g : Group) (m p : ℤ) : p ∉ (g.without m p).members := by
  simp [Group.without]

/-- A call of a member that leaves the others alone. A process that leaves a queue is no longer
blocked. -/
theorem Lively.of_member (h : Lively g s) {m : ℤ} (hpid : s.pid ∈ g.members)
    (hleaves : Leaves (g.without m s.pid) s.kernel t.kernel)
    (hnames : SameNames s.kernel t.kernel) (hfree : FreeLock t.kernel m)
    (hqueue : ∀ j ∈ g.semaphores, QueueInvariant t j)
    (hpending : ∀ p ≠ s.pid, t.pending p = s.pending p)
    (hme : ∀ i rest, t.pending s.pid ≠ some (.locking i rest))
    (hring : s.pid ∈ pids t.kernel.sched)
    (hwaits : ∀ p ∈ g.members, ∀ j ∈ g.semaphores, p ∈ s.kernel.waiters (.semaphore j) →
      Blocked t.kernel.sched p → p ∈ t.kernel.waiters (.semaphore j))
    (hcur : ∀ state, state ≠ .ready → state ≠ .running → InState t.kernel.sched s.pid state →
      state = .blocked ∧ ∃ j ∈ g.semaphores, s.pid ∈ t.kernel.waiters (.semaphore j)) :
    Lively g t := by
  have hother : ∀ p ∈ g.members, p ≠ s.pid → p ∈ (g.without m s.pid).members := by
    intro p hp hne
    simpa [Group.without] using And.intro hp hne
  refine ⟨h.few, ?_, hqueue, fun i hi => ?_, ?_, fun j hj p n hp => ?_, fun p hp i rest => ?_,
    fun p hp => ?_, fun p hp state hready hrunning hin => ?_⟩
  · rw [h.inner]
    exact List.map_congr_left fun j _ => (hnames.mutex j).symm
  · by_cases him : i = m
    · rwa [him]
    · obtain ⟨hused, hword, hcardinal⟩ := h.free i hi
      have hmem : i ∈ (g.without m s.pid).locks := by
        simpa [Group.without] using And.intro hi him
      rw [← hleaves.locks i hmem] at hused hword hcardinal
      exact ⟨hused, hword, hcardinal⟩
  · rw [hleaves.admin]
    exact h.admin
  · by_cases hne : p = s.pid
    · rwa [hne]
    · rw [hpending p hne] at hp
      exact h.sleepers j hj p n hp
  · by_cases hne : p = s.pid
    · rw [hne]
      exact hme i rest
    · rw [hpending p hne]
      exact h.unlocked p hp i rest
  · by_cases hne : p = s.pid
    · rwa [hne]
    · exact hleaves.ring p (hother p hp hne) (h.ring p hp)
  · by_cases hne : p = s.pid
    · subst hne
      exact hcur state hready hrunning hin
    · have hold := hleaves.awake p (hother p hp hne) state hready hrunning hin
      obtain ⟨rfl, j, hj, hw⟩ := h.waits p hp state hready hrunning hold
      exact ⟨rfl, j, hj, hwaits p hp j hj hw hin⟩

/-! ### `wait` -/

/-- The lock of a semaphore while its `wait` goes on. -/
structure TakenLock (k : Kernel) (m : ℤ) : Prop where
  used : (k.mutexes m).used = true
  waiters : waitersOf (k.mutexes m).queue = []
  cardinal : (k.mutexes m).cardinalBlocked = 0
  word : isValidMutex m k = false → (k.mutexes m).mutex = 0

theorem TakenLock.of_mutexes {k k' : Kernel} {m : ℤ} (h : TakenLock k m)
    (hmutexes : k'.mutexes = k.mutexes) : TakenLock k' m := by
  obtain ⟨hused, hwaiters, hcardinal, hword⟩ := h
  rw [isValidMutex, ← hmutexes] at hword
  rw [← hmutexes] at hused hwaiters hcardinal
  exact ⟨hused, hwaiters, hcardinal, hword⟩

theorem freeMutex_unlocks {k k' : Kernel} {m : ℤ} (h : TakenLock k m)
    (hf : freeMutex m k = some k') : FreeLock k' m ∧ k'.sched = k.sched := by
  have hcard : (k.mutexes m).cardinalBlocked = (waitersOf (k.mutexes m).queue).length := by
    rw [h.waiters, h.cardinal]
    rfl
  rcases freeMutex_cases hcard hf with ⟨hvalid, rfl⟩ | ⟨-, p, queue, hwait, -⟩ | ⟨-, -, rfl⟩
  · exact ⟨⟨h.used, h.word hvalid, h.cardinal⟩, rfl⟩
  · rw [h.waiters] at hwait
    exact absurd hwait (by simp)
  · refine ⟨⟨?_, ?_, ?_⟩, rfl⟩
    · rw [Kernel.setMutex_self]
      exact h.used
    · rw [Kernel.setMutex_self]
    · rw [Kernel.setMutex_self]
      exact h.cardinal

/-- `wait` frees the lock, and a process that need not wait goes on in the same state. -/
theorem waitRest_unlocks {k k' : Kernel} {returned : Bool} (hpid : 0 ≤ k.pid)
    (h : TakenLock k (k.semaphores j).mutex) (hrun : waitRest j k = some (returned, k')) :
    FreeLock k' (k.semaphores j).mutex ∧ (returned = true → k'.sched = k.sched) := by
  rcases waitRest_cases hpid hrun with
    ⟨-, rfl, hf⟩ | ⟨-, -, rfl, queue, k₁, -, hf, hy⟩ | ⟨-, -, rfl, k₁, hf, hy⟩
  · obtain ⟨hfree, hsched⟩ := freeMutex_unlocks (k := decrement j k) (h.of_mutexes rfl) hf
    exact ⟨hfree, fun _ => hsched⟩
  · have hfree := (freeMutex_unlocks (h.of_mutexes (by rfl)) hf).1
    obtain ⟨-, hmutexes, -⟩ := yield_tables hy
    obtain ⟨hused, hword, hcardinal⟩ := hfree
    rw [← hmutexes] at hused hword hcardinal
    exact ⟨⟨hused, hword, hcardinal⟩, fun he => absurd he (by simp)⟩
  · have hfree := (freeMutex_unlocks (h.of_mutexes (by rfl)) hf).1
    obtain ⟨-, hmutexes, -⟩ := yield_tables hy
    obtain ⟨hused, hword, hcardinal⟩ := hfree
    rw [← hmutexes] at hused hword hcardinal
    exact ⟨⟨hused, hword, hcardinal⟩, fun he => absurd he (by simp)⟩

/-- A free lock is taken at once. -/
theorem lock_taken (h : Settled s) {m : ℤ} {rest : Rest} {returned : Bool}
    (hfree : FreeLock s.kernel m) (hlock : s.lock m garbage rest = some (returned, u)) :
    returned = true ∧ TakenLock u.kernel m ∧
      ∀ (g : Group) (p : ℤ), Leaves (g.without m p) s.kernel u.kernel := by
  have hcard := h.parked.mutex_cardinal m
  have hwaiters : waitersOf (s.kernel.mutexes m).queue = [] := by
    rw [hfree.cardinal] at hcard
    exact List.eq_nil_of_length_eq_zero hcard.symm
  obtain ⟨⟨b, k'⟩, hk, hpair⟩ := Option.map_eq_some_iff.mp hlock
  rcases lockMutex_cases h.parked.current_range.1 hcard hk with
    ⟨hvalid, rfl, rfl⟩ | ⟨hvalid, -, -, rfl, rfl⟩ | ⟨-, hlocked, -⟩ | ⟨-, hlocked, -⟩
  · obtain ⟨rfl, rfl⟩ := Prod.mk.inj hpair
    exact ⟨rfl, ⟨hfree.used, hwaiters, hfree.cardinal, fun _ => hfree.word⟩,
      fun g p => Leaves.refl _ _⟩
  · obtain ⟨rfl, rfl⟩ := Prod.mk.inj hpair
    refine ⟨rfl, ⟨?_, ?_, ?_, fun hinvalid => ?_⟩, fun g p => ?_⟩
    · rw [Kernel.setMutex_self]
      exact hfree.used
    · rw [Kernel.setMutex_self]
      exact hwaiters
    · rw [Kernel.setMutex_self]
      exact hfree.cardinal
    · have hslots := SameSlots.setMutex s.kernel (i := m)
        (x := { s.kernel.mutexes m with mutex := 1 }) rfl
      rw [hslots.valid, hvalid] at hinvalid
      exact absurd hinvalid (by simp)
    · exact Leaves.setMutex _ _ (g.not_mem_locks_without m p)
  · exact absurd ⟨hfree.word, hwaiters⟩ hlocked
  · exact absurd ⟨hfree.word, hwaiters⟩ hlocked

/-- The running process is not blocked. -/
theorem Lively.current (h : Lively g s) (hs : Settled s) (hpid : s.pid ∈ g.members)
    {state : ProcessState} (hready : state ≠ .ready) (hrunning : state ≠ .running) :
    ¬ InState s.kernel.sched s.pid state := fun hin => by
  obtain ⟨rfl, -⟩ := h.waits s.pid hpid state hready hrunning hin
  exact hs.current hin

/-- `wait` at a semaphore of the group. -/
theorem Lively.wait (h : Lively g s) (hs : Settled s) (hj : j ∈ g.semaphores)
    (hpid : s.pid ∈ g.members) (hvalid : isValidSemaphore j s.kernel = true)
    (hstep : step s (.wait j garbage) = some t) : Lively g t := by
  obtain ⟨hidle, hrun⟩ := step_call hstep
  simp only [Machine.call, Machine.wait, hvalid, not_true, if_false] at hrun
  split_ifs at hrun
  set m := (s.kernel.semaphores j).mutex with hm
  have hfree := h.free m (h.lock_mem hj)
  rcases lockThen_cases hrun with hlock | ⟨u, hlock, hend⟩
  · exact absurd (lock_taken hs hfree hlock).1 (by simp)
  obtain ⟨-, htaken, hleaves⟩ := lock_taken hs hfree hlock
  obtain ⟨hu, hframe⟩ := hs.lock hidle hlock
  obtain ⟨hsched, hsem, hpending⟩ := lock_returned hlock
  have hupid : u.pid = s.pid := congrArg getCurrentPid hsched
  have huidle := idle_of_sched hsched hpending hidle
  have hlockRun : (Op.lock m garbage (.wait j)).perform s = some u := by
    rw [Op.perform, hlock, Option.map_some]
  have hum : (u.kernel.semaphores j).mutex = m := by rw [hsem]
  obtain ⟨ht, hframe', hheld⟩ := hu.waitEnd huidle hend
  obtain ⟨-, huntouched, hcases⟩ := waitEnd_spec hu huidle hend
  have hroom : (u.kernel.waiters (.semaphore j)).length < maxBlockedQueueSize := by
    rw [Kernel.waiters, hsem]
    exact h.room hs hj hpid
  have hqueueu : ∀ i ∈ g.semaphores, QueueInvariant u i := fun i hi =>
    (h.queue i hi).of_untouched (.lock hidle hlock)
  obtain ⟨⟨returned, k'⟩, hk, hkt⟩ := Option.map_eq_some_iff.mp hend
  have hkernel : t.kernel = k' := by
    cases returned with
    | true => rw [← hkt]; rfl
    | false => rw [← hkt]; rfl
  have hwaiters : ∀ p, p ∈ s.kernel.waiters (.semaphore j) ↔
      p ∈ u.kernel.waiters (.semaphore j) := fun p => by
    rw [Kernel.waiters, Kernel.waiters, hsem]
  rw [← hum] at htaken
  obtain ⟨hunlocked, hreturned⟩ := waitRest_unlocks hu.parked.current_range.1 htaken hk
  rw [hum] at hunlocked
  refine h.of_member (m := m) hpid ?_ ?_ (hkernel ▸ hunlocked) (fun i hi => ?_) (fun p hp => ?_)
    (fun i rest => ?_) ?_ (fun p hp i hi hw _ => ?_) fun state hready hrunning hin => ?_
  · refine (hleaves g s.pid).trans (Leaves.waitEnd hu ⟨?_, ?_, ?_⟩ hend)
    · simp [Group.without]
    · rw [hum]
      exact g.not_mem_locks_without m s.pid
    · rw [hupid]
      exact g.not_mem_members_without m s.pid
  · have hnames := op_names (show (Op.lock m garbage (.wait j)).KeepsNames from trivial) hlockRun
    exact hnames.trans (op_names (show (Op.waitEnd j).KeepsNames from trivial) hend)
  · by_cases hij : i = j
    · subst hij
      exact (hqueueu i hi).waitEnd hu huidle (Or.inr hroom) hend
    · exact (hqueueu i hi).of_untouched (huntouched i hij)
  · rw [← hupid] at hp
    have hendRun : (Op.waitEnd j).perform u = some t := hend
    rw [op_pending hendRun hp, hpending]
  · rcases hcases with ⟨-, hpend, -⟩ | ⟨-, hpend, -⟩
    · rw [hpend, hpending, Machine.pending_of_idle hidle]
      simp
    · rw [hpend, ← hupid, assign_self]
      simp
  · exact hframe'.ring _ (hframe.ring _ (h.ring _ hpid))
  · by_cases hij : i = j
    · subst hij
      rcases hcases with ⟨-, -, hsame, -⟩ | ⟨-, -, -, ⟨-, hperm⟩ | ⟨-, hsame⟩⟩
      · rw [hsame]
        exact (hwaiters p).mp hw
      · exact hperm.mem_iff.mpr (List.mem_cons_of_mem _ ((hwaiters p).mp hw))
      · rw [hsame]
        exact (hwaiters p).mp hw
    · rw [(huntouched i hij).waiters, Kernel.waiters, hsem]
      exact hw
  · rcases hcases with ⟨-, hpend, -⟩ | ⟨hneg, hpend, -, hjoin⟩
    · -- the call has returned, and the process runs on
      have hsame : t.kernel.sched = s.kernel.sched := by
        cases returned with
        | true => rw [hkernel, hreturned rfl, hsched]
        | false =>
          rw [← hkt] at hpend
          have := congrFun hpend u.pid
          simp [Machine.suspend, Machine.pending_of_idle huidle] at this
      rw [hsame] at hin
      exact absurd hin (h.current hs hpid hready hrunning)
    · have hblocked : Blocked t.kernel.sched s.pid := by
        rw [← hupid] at hin ⊢
        refine hheld ?_ hin.mem_pids
        rw [hpend, assign_self]
        simp
      refine ⟨InState.unique ht.parked.ring hin hblocked, j, hj, ?_⟩
      rcases hjoin with ⟨-, hperm⟩ | ⟨hfull, -⟩
      · rw [← hupid]
        exact hperm.mem_iff.mpr List.mem_cons_self
      · omega

/-- A member that was woken comes out of `wait`. -/
theorem Lively.wake (h : Lively g s) (hs : Settled s) (hj : j ∈ g.semaphores)
    (hpid : s.pid ∈ g.members) {n : ℕ} (hpending : s.pending s.pid = some (.sleeping j n)) :
    Lively g s.wake := by
  refine h.of_member (m := (s.kernel.semaphores j).mutex) hpid ?_ ?_ ?_ (fun i hi => ?_)
    (fun p hp => ?_) (fun i rest => ?_) ?_ (fun p hp i hi hw _ => ?_)
    fun state hready hrunning hin => ?_
  · rw [wake_kernel]
    exact Leaves.refl _ _
  · rw [wake_kernel]
    exact SameNames.refl _
  · rw [wake_kernel]
    exact h.free _ (h.lock_mem hj)
  · by_cases hij : i = j
    · subst hij
      exact (h.queue i hi).wake hpending
    · refine (h.queue i hi).of_untouched (.wake fun n' he => hij ?_)
      rw [hpending] at he
      exact (Pending.sleeping.inj (Option.some.inj he)).1.symm
  · rw [wake_pending, assign_ne _ _ hp]
  · rw [wake_pending, assign_self]
    simp
  · rw [wake_kernel]
    exact h.ring _ hpid
  · rwa [wake_kernel]
  · rw [wake_kernel] at hin
    exact absurd hin (h.current hs hpid hready hrunning)

/-- `signal` at a semaphore of the group. -/
theorem Lively.signal (h : Lively g s) (hs : Settled s) (hj : j ∈ g.semaphores)
    (hpid : s.pid ∈ g.members) (hmax : (s.kernel.semaphores j).semaphore ≠ MachineInt.intMax)
    (hstep : step s (.signal j) = some t) : Lively g t := by
  obtain ⟨hidle, hrun⟩ := step_call hstep
  obtain ⟨ht, hwakes, -⟩ := hs.signal hrun
  obtain ⟨hpending, huntouched, hcases⟩ := signal_spec hs hrun
  obtain ⟨k', hk, hkt⟩ := Option.map_eq_some_iff.mp hrun
  have hleaves : ∀ g', Leaves g' s.kernel t.kernel := fun g' => by
    rw [← hkt]
    exact Leaves.signal hs.parked.ring (hs.parked.semaphore_cardinal j) hk
  refine h.of_member (m := (s.kernel.semaphores j).mutex) hpid (hleaves _) ?_ ?_ (fun i hi => ?_)
    (fun p _ => by rw [hpending]) (fun i rest => ?_) ?_ (fun p hp i hi hw hblocked => ?_)
    fun state hready hrunning hin => ?_
  · exact op_names (show (Op.signal j).KeepsNames from trivial) hrun
  · obtain ⟨hused, hword, hcardinal⟩ := h.free _ (h.lock_mem hj)
    rw [← (hleaves g).locks _ (h.lock_mem hj)] at hused hword hcardinal
    exact ⟨hused, hword, hcardinal⟩
  · by_cases hij : i = j
    · subst hij
      exact (h.queue i hi).signal hs (fun _ => hmax) hrun
    · exact (h.queue i hi).of_untouched (huntouched i hij)
  · rw [hpending, Machine.pending_of_idle hidle]
    simp
  · rw [hwakes.pids]
    exact h.ring _ hpid
  · by_cases hij : i = j
    · subst hij
      rcases hcases with rfl | ⟨-, -, ⟨q, hwait, hawake, -⟩ | ⟨hwait, -⟩⟩
      · exact hw
      · rw [hwait] at hw
        rcases List.mem_cons.mp hw with rfl | hw
        · exact absurd hblocked hawake
        · exact hw
      · rw [hwait] at hw
        exact absurd hw List.not_mem_nil
    · rw [(huntouched i hij).waiters]
      exact hw
  · have hold := (hleaves g).awake s.pid hpid state hready hrunning hin
    exact absurd hold (h.current hs hpid hready hrunning)

end

end GatOS.Sync
