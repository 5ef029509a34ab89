import GatOS.MutexFrame

/-!
# The order of the waiters

Waiters leave a queue at the front. A process that joins takes the first free slot, which is
behind all the waiters only if no slot before them has become free.
-/
namespace GatOS.Sync
open Scheduler Transition

def Kernel.queue (k : Kernel) : QueueId → Queue
  | .mutex i => (k.mutexes i).queue
  | .semaphore j => (k.semaphores j).queue

/-- The mutex may put the process that locks it in queue `q`. -/
def LocksInto (q : QueueId) (mutex : ℤ) (k : Kernel) : Prop :=
  q = .mutex mutex ∧ isValidMutex mutex k = true

/-- The rest of a call may put the process in queue `q`. -/
def Rest.Joins (q : QueueId) (k : Kernel) : Rest → Prop
  | .wait j => q = .semaphore j ∧ MachineInt.int32 ((k.semaphores j).semaphore - 1) < 0
  | .semCreate name _ => getSemIndex name k = none ∧
      (getFreePositionSemaphores k).isSome = true ∧ LocksInto q k.adminMutex k
  | _ => False

def Pending.Joins (q : QueueId) (k : Kernel) : Pending → Prop
  | .locking _ rest => rest.Joins q k
  | .sleeping _ _ => False

def Joins (q : QueueId) (s : Machine) : Action → Prop
  | .lockMutex mutex _ => LocksInto q mutex s.kernel
  | .getMutex _ _ => LocksInto q s.kernel.adminMutex s.kernel
  | .semCreate name start _ => LocksInto q s.kernel.semaphoreMutex s.kernel ∨
      passes s.kernel.semaphoreMutex s.kernel = true ∧ (Rest.semCreate name start).Joins q s.kernel
  | .wait j _ => isValidSemaphore j s.kernel = true ∧
      (LocksInto q (s.kernel.semaphores j).mutex s.kernel ∨
        passes (s.kernel.semaphores j).mutex s.kernel = true ∧ (Rest.wait j).Joins q s.kernel)
  | .resume _ => ∃ c ∈ s.pending s.pid, c.Joins q s.kernel
  | _ => False

/-- A process that joins queue `q` finds no free slot before an occupied one. -/
def JoinsBehind (q : QueueId) (s : Machine) (a : Action) : Prop :=
  Joins q s a → (s.kernel.queue q).Packed noBlockedQueueValue

instance (q : QueueId) (mutex : ℤ) (k : Kernel) : Decidable (LocksInto q mutex k) :=
  inferInstanceAs (Decidable (_ ∧ _))

instance (q : QueueId) (k : Kernel) : (rest : Rest) → Decidable (rest.Joins q k)
  | .wait _ => inferInstanceAs (Decidable (_ ∧ _))
  | .semCreate _ _ => inferInstanceAs (Decidable (_ ∧ _ ∧ _))
  | .lockMutex | .getMutex _ | .createSemaphore _ _ _ _ => .isFalse id

instance (q : QueueId) (k : Kernel) : (c : Pending) → Decidable (c.Joins q k)
  | .locking _ rest => inferInstanceAs (Decidable (rest.Joins q k))
  | .sleeping _ _ => .isFalse id

instance (q : QueueId) (s : Machine) : (a : Action) → Decidable (Joins q s a)
  | .lockMutex _ _ => inferInstanceAs (Decidable (LocksInto _ _ _))
  | .getMutex _ _ => inferInstanceAs (Decidable (LocksInto _ _ _))
  | .semCreate _ _ _ => inferInstanceAs (Decidable (_ ∨ _ ∧ _))
  | .wait _ _ => inferInstanceAs (Decidable (_ ∧ (_ ∨ _ ∧ _)))
  | .resume _ => inferInstanceAs (Decidable (∃ c ∈ s.pending s.pid, c.Joins q s.kernel))
  | .tick | .createProcess _ | .removeProcess _ | .freeMutex _ | .closeMutex _ | .semClose _
  | .signal _ | .store _ => .isFalse id

instance (q : QueueId) (s : Machine) (a : Action) : Decidable (JoinsBehind q s a) :=
  inferInstanceAs (Decidable (_ → _))

/-- Waiters leave queue `q` at the front, and nobody but process `me` joins, at the end. -/
def Serves (q : QueueId) (me : ℤ) (k k' : Kernel) : Prop :=
  ∃ n new, k'.waiters q = (k.waiters q).drop n ++ new ∧ ∀ p ∈ new, p = me

section

variable {q : QueueId} {me : ℤ} {k k' k'' : Kernel}

theorem Serves.of_waiters (h : k'.waiters q = k.waiters q) : Serves q me k k' :=
  ⟨0, [], by simp [h], by simp⟩

theorem Serves.trans (h : Serves q me k k') (g : Serves q me k' k'') : Serves q me k k'' := by
  obtain ⟨n, new, hk, hnew⟩ := h
  obtain ⟨n', new', hk', hnew'⟩ := g
  refine ⟨n + n', new.drop (n' - ((k.waiters q).drop n).length) ++ new', ?_, fun p hp => ?_⟩
  · rw [hk', hk, List.drop_append, List.drop_drop, List.append_assoc]
  · rcases List.mem_append.mp hp with hp | hp
    · exact hnew p (List.mem_of_mem_drop hp)
    · exact hnew' p hp

theorem Serves.setMutex {i : ℤ} {m : Mutex} (hqueue : m.queue = (k.mutexes i).queue) :
    Serves q me k (k.setMutex i m) := .of_waiters (Kernel.waiters_setMutex hqueue q)

theorem Serves.setSemaphore {i : ℤ} {sem : Semaphore}
    (hqueue : sem.queue = (k.semaphores i).queue) : Serves q me k (k.setSemaphore i sem) :=
  .of_waiters (Kernel.waiters_setSemaphore hqueue q)

theorem Serves.setState (pid : ℤ) (state : ProcessState) :
    Serves q me k (k.setState pid state) := .of_waiters (by cases q <;> rfl)

theorem Serves.yield (h : k.yield = some k') : Serves q me k k' := by
  obtain ⟨hsem, hmutexes, -⟩ := yield_tables h
  refine .of_waiters ?_
  cases q with
  | mutex i => simp only [Kernel.waiters, hmutexes]
  | semaphore j => simp only [Kernel.waiters, hsem]

/-! ### Leaving -/

/-- Taking out the first waiter. -/
theorem Serves.unblockProcess (mutex : ℤ) : Serves q me k (unblockProcess mutex k) := by
  unfold Sync.unblockProcess
  dsimp only
  split
  · exact .of_waiters rfl
  · rename_i i pid htaken
    have hvalues := SlotArray.values_of_firstTaken htaken
    by_cases hq : q = .mutex mutex
    · subst hq
      refine ⟨1, [], ?_, by simp⟩
      rw [Kernel.waiters_setMutex_self]
      simp [Kernel.waiters, waitersOf, hvalues]
    · exact .of_waiters (Kernel.setMutex_other (k := k.setState pid .ready) _ hq).1

theorem Serves.unblockProcessSemaphore (j : ℤ) :
    Serves q me k (unblockProcessSemaphore j k) := by
  unfold Sync.unblockProcessSemaphore
  dsimp only
  split
  · exact .of_waiters rfl
  · rename_i i pid htaken
    have hvalues := SlotArray.values_of_firstTaken htaken
    by_cases hq : q = .semaphore j
    · subst hq
      refine ⟨1, [], ?_, by simp⟩
      rw [Kernel.waiters_setSemaphore_self]
      simp [Kernel.waiters, waitersOf, hvalues]
    · exact .of_waiters (Kernel.setSemaphore_other (k := k.setState pid .ready) _ hq).1

theorem Serves.freeMutex {mutex : ℤ} (h : freeMutex mutex k = some k') : Serves q me k k' := by
  unfold Sync.freeMutex at h
  split_ifs at h
  · rw [← Option.some.inj h]
    exact (Serves.unblockProcess mutex).trans (.setMutex rfl)
  · rw [← Option.some.inj h]
    exact .setMutex rfl
  · rw [← Option.some.inj h]
    exact .of_waiters rfl

theorem Serves.signal {j : ℤ} (h : signal j k = some k') : Serves q me k k' := by
  unfold Sync.signal at h
  split_ifs at h
  · set woken := Sync.unblockProcessSemaphore j k
    have hwoken : Serves q me k (woken.setSemaphore j { woken.semaphores j with
        cardinalBlocked := (woken.semaphores j).cardinalBlocked - 1 }) :=
      (Serves.unblockProcessSemaphore j).trans (.setSemaphore rfl)
    rw [← Option.some.inj h]
    exact hwoken.trans (.setSemaphore rfl)
  · rw [← Option.some.inj h]
    exact .setSemaphore rfl
  · rw [← Option.some.inj h]
    exact .of_waiters rfl

/-! ### Joining -/

theorem Serves.addToBlocked {mutex pid : ℤ} (hpid : 0 ≤ pid)
    (hpacked : q = .mutex mutex → (k.queue q).Packed noBlockedQueueValue) :
    Serves q pid k (addToBlocked mutex pid k) := by
  unfold Sync.addToBlocked
  dsimp only
  split
  · exact .of_waiters rfl
  · rename_i i hspot
    by_cases hq : q = .mutex mutex
    · refine ⟨0, [pid], ?_, by simp⟩
      subst hq
      rw [Kernel.waiters_setMutex_self]
      exact SlotArray.values_set_of_packed (hpacked rfl) hspot (by unfold noBlockedQueueValue; omega)
    · exact .of_waiters (Kernel.setMutex_other _ hq).1

theorem Serves.addToSemBlocked {j pid : ℤ} (hpid : 0 ≤ pid)
    (hpacked : q = .semaphore j → (k.queue q).Packed noBlockedQueueValue) :
    Serves q pid k (addToSemBlocked j pid k) := by
  unfold Sync.addToSemBlocked
  dsimp only
  split
  · exact .of_waiters rfl
  · rename_i i hspot
    by_cases hq : q = .semaphore j
    · refine ⟨0, [pid], ?_, by simp⟩
      subst hq
      rw [Kernel.waiters_setSemaphore_self]
      exact SlotArray.values_set_of_packed (hpacked rfl) hspot (by unfold noBlockedQueueValue; omega)
    · exact .of_waiters (Kernel.setSemaphore_other _ hq).1

theorem testAndSet_fields (m : Mutex) :
    (testAndSet m).2.queue = m.queue ∧ (testAndSet m).2.used = m.used := by
  unfold testAndSet
  split_ifs <;> exact ⟨rfl, rfl⟩

theorem Kernel.queue_setMutex {i : ℤ} {m : Mutex} (hqueue : m.queue = (k.mutexes i).queue) :
    (k.setMutex i m).queue q = k.queue q := by
  cases q with
  | mutex j =>
    by_cases hj : j = i
    · subst hj
      simpa [Kernel.queue] using hqueue
    · simp only [Kernel.queue, Kernel.setMutex_ne k m hj]
  | semaphore j => rfl

theorem Serves.lockMutex {mutex garbage : ℤ} {returned : Bool} (hpid : 0 ≤ k.pid)
    (hpacked : LocksInto q mutex k → (k.queue q).Packed noBlockedQueueValue)
    (h : lockMutex mutex garbage k = some (returned, k')) : Serves q k.pid k k' := by
  obtain ⟨hqueue, -⟩ := testAndSet_fields (k.mutexes mutex)
  set x := (testAndSet (k.mutexes mutex)).2 with hx
  have htest : Serves q k.pid k (k.setMutex mutex x) := .setMutex hqueue
  unfold Sync.lockMutex at h
  split_ifs at h with hneg hvalid
  · dsimp only at h
    rw [← hx] at h
    split_ifs at h with hlock hfull
    · obtain ⟨-, rfl⟩ := Prod.mk.inj (Option.some.inj h)
      exact htest
    · obtain ⟨k₁, hy, hpair⟩ := Option.map_eq_some_iff.mp h
      obtain ⟨-, rfl⟩ := Prod.mk.inj hpair
      exact (htest.trans (.setState _ _)).trans (.yield hy)
    · obtain ⟨k₁, hy, hpair⟩ := Option.map_eq_some_iff.mp h
      obtain ⟨-, rfl⟩ := Prod.mk.inj hpair
      have hjoin : Serves q k.pid (k.setMutex mutex x)
          (Sync.addToBlocked mutex k.pid (k.setMutex mutex x)) := by
        refine .addToBlocked hpid fun hq => ?_
        rw [Kernel.queue_setMutex hqueue]
        exact hpacked ⟨hq, hvalid⟩
      exact ((htest.trans hjoin).trans (.setState _ _)).trans (.yield hy)
  · obtain ⟨-, rfl⟩ := Prod.mk.inj (Option.some.inj h)
    exact .of_waiters rfl

theorem Serves.waitRest {j : ℤ} {returned : Bool} (hpid : 0 ≤ k.pid)
    (hpacked : (Rest.wait j).Joins q k → (k.queue q).Packed noBlockedQueueValue)
    (h : waitRest j k = some (returned, k')) : Serves q k.pid k k' := by
  have hdec : Serves q k.pid k (decrement j k) := .setSemaphore rfl
  have hcounter : ((decrement j k).semaphores j).semaphore =
      MachineInt.int32 ((k.semaphores j).semaphore - 1) := by
    simp only [decrement, Kernel.setSemaphore_self]
  unfold Sync.waitRest at h
  dsimp only at h
  split_ifs at h with hpos
  · obtain ⟨k₁, hf, hpair⟩ := Option.map_eq_some_iff.mp h
    obtain ⟨-, rfl⟩ := Prod.mk.inj hpair
    exact hdec.trans (.freeMutex hf)
  · obtain ⟨k₁, hf, hrun⟩ := Option.bind_eq_some_iff.mp h
    obtain ⟨k₂, hy, hpair⟩ := Option.map_eq_some_iff.mp hrun
    obtain ⟨-, rfl⟩ := Prod.mk.inj hpair
    have hjoin : Serves q k.pid (decrement j k)
        (Sync.addToSemBlocked j k.pid (decrement j k)) := by
      refine .addToSemBlocked hpid fun hq => ?_
      have hqueue : (decrement j k).queue q = k.queue q := by
        subst hq
        simp only [Kernel.queue, decrement, Kernel.setSemaphore_self]
      rw [hqueue]
      exact hpacked ⟨hq, by rw [hcounter] at hpos; omega⟩
    exact (((hdec.trans hjoin).trans (.setState _ _)).trans (.freeMutex hf)).trans (.yield hy)

theorem Serves.getMutexRest {name : ℕ} {i : ℤ} (h : getMutexRest name k = some (i, k')) :
    Serves q me k k' := by
  rcases getMutexRest_cases h with ⟨-, hf⟩ | ⟨-, -, -, hf⟩ | ⟨-, -, hf⟩
  · exact .freeMutex hf
  · exact .freeMutex hf
  · have hused : Serves q me k (k.setMutex i
        { k.mutexes i with used := true, name := name, pidCreator := k.pid }) := .setMutex rfl
    exact hused.trans (.freeMutex hf)

theorem Serves.createSemaphoreRest {index : ℤ} {name : ℕ} {start pid : ℤ}
    (h : createSemaphoreRest index name start pid k = some k') : Serves q me k k' := by
  obtain ⟨⟨i, k₁⟩, hget, hf⟩ := Option.bind_eq_some_iff.mp h
  have hget : Serves q me k k₁ := .getMutexRest hget
  have hend : Serves q me k₁ (createSemaphoreEnd index i start pid k₁) := .setSemaphore rfl
  exact (hget.trans hend).trans (.freeMutex hf)

end

/-! ### The calls -/

section

variable {q : QueueId} {s t : Machine} {mutex garbage : ℤ} {rest : Rest}

theorem Serves.lock {returned : Bool} (hpid : 0 ≤ s.pid)
    (hpacked : LocksInto q mutex s.kernel → (s.kernel.queue q).Packed noBlockedQueueValue)
    (h : s.lock mutex garbage rest = some (returned, t)) : Serves q s.pid s.kernel t.kernel := by
  obtain ⟨⟨b, k'⟩, hk, hpair⟩ := Option.map_eq_some_iff.mp h
  have hserves : Serves q s.pid s.kernel k' := .lockMutex hpid hpacked hk
  cases b with
  | true =>
    obtain ⟨-, rfl⟩ := Prod.mk.inj hpair
    exact hserves
  | false =>
    obtain ⟨-, rfl⟩ := Prod.mk.inj hpair
    exact hserves

/-- When `lockMutex` returns at once the queues are as before, and so is who joins them. -/
theorem joins_of_lock (h : s.lock mutex garbage rest = some (true, t)) :
    t.kernel.queue q = s.kernel.queue q ∧
      ∀ rest' : Rest, rest'.Joins q t.kernel → rest'.Joins q s.kernel := by
  obtain ⟨hqueue, hused⟩ := testAndSet_fields (s.kernel.mutexes mutex)
  have hkernel : t.kernel = s.kernel ∨
      t.kernel = s.kernel.setMutex mutex (testAndSet (s.kernel.mutexes mutex)).2 := by
    obtain ⟨⟨b, k'⟩, hk, hpair⟩ := Option.map_eq_some_iff.mp h
    cases b with
    | false => exact absurd (Prod.mk.inj hpair).1 (by simp)
    | true =>
      obtain ⟨-, rfl⟩ := Prod.mk.inj hpair
      unfold lockMutex at hk
      split_ifs at hk
      · dsimp only at hk
        split_ifs at hk
        · exact Or.inr (Prod.mk.inj (Option.some.inj hk)).2.symm
        · obtain ⟨k₁, -, hpair⟩ := Option.map_eq_some_iff.mp hk
          exact absurd (Prod.mk.inj hpair).1 (by simp)
        · obtain ⟨k₁, -, hpair⟩ := Option.map_eq_some_iff.mp hk
          exact absurd (Prod.mk.inj hpair).1 (by simp)
      · exact Or.inl (Prod.mk.inj (Option.some.inj hk)).2.symm
  rcases hkernel with hk | hk
  · rw [hk]
    exact ⟨rfl, fun _ h => h⟩
  · rw [hk]
    refine ⟨Kernel.queue_setMutex hqueue, fun rest' hjoins => ?_⟩
    cases rest' with
    | semCreate name start =>
      obtain ⟨hnew, hfree, hq, hvalid⟩ := hjoins
      exact ⟨hnew, hfree, hq, by rwa [(SameSlots.setMutex s.kernel hused).valid] at hvalid⟩
    | _ => exact hjoins

theorem Serves.semCreateEnd {name : ℕ} {start : ℤ} (hpid : 0 ≤ s.pid)
    (hpacked : (Rest.semCreate name start).Joins q s.kernel →
      (s.kernel.queue q).Packed noBlockedQueueValue)
    (h : s.semCreateEnd name start garbage = some t) : Serves q s.pid s.kernel t.kernel := by
  unfold Machine.semCreateEnd at h
  split at h
  · rw [← Option.some.inj h]
    exact .of_waiters rfl
  rename_i hnew
  split at h
  · obtain ⟨k', hf, rfl⟩ := Option.map_eq_some_iff.mp h
    exact .freeMutex hf
  rename_i index hindex
  dsimp only at h
  obtain ⟨⟨returned, u⟩, hlock, hrest⟩ := Option.bind_eq_some_iff.mp h
  have hreserve : Serves q s.pid s.kernel (s.reserve index name).kernel := .setSemaphore rfl
  have hlock' : Serves q s.pid (s.reserve index name).kernel u.kernel := by
    refine Serves.lock (s := s.reserve index name) hpid (fun hjoins => ?_) hlock
    have hmutex : (s.kernel.queue q).Packed noBlockedQueueValue :=
      hpacked ⟨hnew, by simp [hindex], hjoins⟩
    rwa [hjoins.1] at hmutex ⊢
  cases returned with
  | true =>
    obtain ⟨k', hend, rfl⟩ := Option.map_eq_some_iff.mp hrest
    exact (hreserve.trans hlock').trans (.createSemaphoreRest hend)
  | false =>
    obtain rfl : u = t := Option.some.inj hrest
    exact hreserve.trans hlock'

theorem Serves.proceed (hpid : 0 ≤ s.pid)
    (hpacked : rest.Joins q s.kernel → (s.kernel.queue q).Packed noBlockedQueueValue)
    (h : s.proceed garbage rest = some t) : Serves q s.pid s.kernel t.kernel := by
  cases rest with
  | lockMutex =>
    rw [← Option.some.inj h]
    exact .of_waiters rfl
  | getMutex name =>
    obtain ⟨⟨i, k'⟩, hk, rfl⟩ := Option.map_eq_some_iff.mp h
    exact .getMutexRest hk
  | semCreate name start => exact .semCreateEnd hpid hpacked h
  | createSemaphore index name start pid =>
    obtain ⟨k', hk, rfl⟩ := Option.map_eq_some_iff.mp h
    exact .createSemaphoreRest hk
  | wait j =>
    obtain ⟨⟨returned, k'⟩, hk, rfl⟩ := Option.map_eq_some_iff.mp h
    have hserves : Serves q s.pid s.kernel k' := .waitRest hpid hpacked hk
    cases returned with
    | true => exact hserves
    | false => exact hserves

theorem Serves.lockThen (hpid : 0 ≤ s.pid)
    (hpacked : LocksInto q mutex s.kernel ∨
        passes mutex s.kernel = true ∧ rest.Joins q s.kernel →
      (s.kernel.queue q).Packed noBlockedQueueValue)
    (h : s.lockThen mutex garbage rest = some t) : Serves q s.pid s.kernel t.kernel := by
  rcases lockThen_cases h with hlock | ⟨u, hlock, hrest⟩
  · exact .lock hpid (fun hjoins => hpacked (Or.inl hjoins)) hlock
  · have hserves : Serves q s.pid s.kernel u.kernel :=
      .lock hpid (fun hjoins => hpacked (Or.inl hjoins)) hlock
    obtain ⟨hqueue, hjoins⟩ := joins_of_lock (q := q) hlock
    have hupid : u.pid = s.pid := congrArg getCurrentPid (lock_returned hlock).1
    have hrest' : Serves q u.pid u.kernel t.kernel := by
      refine .proceed (by rw [hupid]; exact hpid) (fun hj => ?_) hrest
      rw [hqueue]
      exact hpacked (Or.inr ⟨passes_of_lock hlock, hjoins rest hj⟩)
    rw [hupid] at hrest'
    exact hserves.trans hrest'

theorem Serves.resume (hpid : 0 ≤ s.pid) (hpacked : JoinsBehind q s (.resume garbage))
    (h : s.resume garbage = some t) : Serves q s.pid s.kernel t.kernel := by
  rcases resume_cases h with ⟨m, rest, hpending, hrest⟩ | ⟨j, g, hpending, rfl⟩
  · have hserves : Serves q s.wake.pid s.wake.kernel t.kernel := by
      refine .proceed (by rw [wake_pid]; exact hpid) (fun hj => ?_) hrest
      rw [wake_kernel] at hj ⊢
      exact hpacked ⟨_, hpending, hj⟩
    rwa [wake_pid, wake_kernel] at hserves
  · rw [wake_kernel]
    exact .of_waiters rfl

theorem Serves.step {a : Action} (hpid : 0 ≤ s.pid) (hpacked : JoinsBehind q s a)
    (h : step s a = some t) : Serves q s.pid s.kernel t.kernel := by
  cases a with
  | resume garbage => exact .resume hpid hpacked h
  | tick =>
    simp only [Sync.step] at h
    split_ifs at h
    obtain ⟨k', hk, rfl⟩ := Option.map_eq_some_iff.mp h
    exact .yield hk
  | createProcess page =>
    simp only [Sync.step] at h
    split_ifs at h
    rw [← Option.some.inj h]
    exact .of_waiters (by cases q <;> rfl)
  | removeProcess pid =>
    simp only [Sync.step] at h
    split_ifs at h
    obtain ⟨sched, -, rfl⟩ := Option.map_eq_some_iff.mp h
    exact .of_waiters (by cases q <;> rfl)
  | store strings =>
    simp only [Sync.step] at h
    split_ifs at h
    rw [← Option.some.inj h]
    exact .of_waiters (by cases q <;> rfl)
  | lockMutex mutex garbage =>
    refine .lockThen hpid (fun hjoins => hpacked ?_) (step_call h).2
    exact hjoins.resolve_right fun hrest => hrest.2
  | getMutex name garbage =>
    refine .lockThen hpid (fun hjoins => hpacked ?_) (step_call h).2
    exact hjoins.resolve_right fun hrest => hrest.2
  | semCreate name start garbage => exact .lockThen hpid hpacked (step_call h).2
  | freeMutex mutex =>
    obtain ⟨k', hk, rfl⟩ := Option.map_eq_some_iff.mp (step_call h).2
    exact .freeMutex hk
  | closeMutex mutex =>
    obtain ⟨k', hk, rfl⟩ := Option.map_eq_some_iff.mp (step_call h).2
    rcases closeMutex_cases hk with rfl | ⟨-, -, rfl⟩
    · exact .of_waiters rfl
    · exact .setMutex rfl
  | semClose j =>
    obtain ⟨k', hk, rfl⟩ := Option.map_eq_some_iff.mp (step_call h).2
    rcases semClose_cases hk with rfl | ⟨-, -, rfl⟩
    · exact .of_waiters rfl
    · exact .setSemaphore rfl
  | wait j garbage =>
    have hrun := (step_call h).2
    simp only [Machine.call, Machine.wait] at hrun
    split_ifs at hrun with hneg hvalid
    · exact .lockThen hpid (fun hjoins => hpacked ⟨hvalid, hjoins⟩) hrun
    · rw [← Option.some.inj hrun]
      exact .of_waiters rfl
  | signal j =>
    obtain ⟨k', hk, rfl⟩ := Option.map_eq_some_iff.mp (step_call h).2
    exact .signal hk

/-! ### The order -/

/-- `a` is in the list, and `b` is not before it. -/
def Ahead (a b : ℤ) (l : List ℤ) : Prop := ∃ l₁ l₂, l = l₁ ++ a :: l₂ ∧ b ∉ l₁

variable {a b : ℤ}

theorem ahead_of_not_mem {l : List ℤ} (ha : a ∈ l) (hb : b ∉ l) : Ahead a b l := by
  obtain ⟨l₁, l₂, rfl⟩ := List.append_of_mem ha
  exact ⟨l₁, l₂, rfl, fun h => hb (List.mem_append_left _ h)⟩

/-- As long as `a` waits it stays ahead, and `b` is not woken. -/
theorem Ahead.serves (h : Ahead a b (s.kernel.waiters q)) (hs : Settled s)
    (hserves : Serves q s.pid s.kernel t.kernel) (ha : a ∈ t.kernel.waiters q) :
    Ahead a b (t.kernel.waiters q) ∧ (b ∈ s.kernel.waiters q → b ∈ t.kernel.waiters q) := by
  obtain ⟨l₁, l₂, hl, hb⟩ := h
  obtain ⟨n, new, hw, hnew⟩ := hserves
  have hmem : a ∈ (s.kernel.waiters q).drop n := by
    rw [hw, List.mem_append] at ha
    refine ha.resolve_right fun hin => ?_
    refine hs.current_free q ?_
    rw [← hnew a hin, hl]
    simp
  -- nobody behind `a` has left
  have hle : n ≤ l₁.length := by
    by_contra hlt
    obtain ⟨m, rfl⟩ := Nat.exists_eq_add_of_lt (not_le.mp hlt)
    rw [hl, List.drop_append, List.drop_eq_nil_of_le (by omega), List.nil_append,
      show l₁.length + m + 1 - l₁.length = m + 1 by omega, List.drop_succ_cons] at hmem
    have hnodup := hs.parked.nodup q
    rw [hl] at hnodup
    exact (List.nodup_cons.mp (List.nodup_append.mp hnodup).2.1).1 (List.mem_of_mem_drop hmem)
  have hdrop : t.kernel.waiters q = l₁.drop n ++ a :: (l₂ ++ new) := by
    rw [hw, hl, List.drop_append_of_le_length hle]
    simp
  refine ⟨⟨l₁.drop n, l₂ ++ new, hdrop, fun hin => hb (List.mem_of_mem_drop hin)⟩, fun hin => ?_⟩
  rw [hl] at hin
  rw [hdrop]
  rcases List.mem_append.mp hin with hin | hin
  · exact absurd hin hb
  · rcases List.mem_cons.mp hin with rfl | hin
    · simp
    · simp [hin]

/-- While `a` waits, processes join queue `q` behind the others. -/
def WaitsInOrder (a : ℤ) (q : QueueId) (s : Machine) (act : Action) : Prop :=
  a ∈ s.kernel.waiters q ∧ JoinsBehind q s act

instance (a : ℤ) (q : QueueId) (s : Machine) (act : Action) : Decidable (WaitsInOrder a q s act) :=
  inferInstanceAs (Decidable (_ ∧ _))

theorem Ahead.path {u : Machine} {as : List Action} (hu : machineSystem.Reachable u)
    (hpath : (machineSystem.restrict (WaitsInOrder a q)).Path u as s)
    (hb : Ahead a b (u.kernel.waiters q)) (ha : a ∈ s.kernel.waiters q) :
    Ahead a b (s.kernel.waiters q) := by
  induction hpath with
  | nil => exact hb
  | @cons u v w act as hstep hrest ih =>
    have hv : a ∈ v.kernel.waiters q := by
      cases hrest with
      | nil => exact ha
      | cons hnext => exact hnext.1.1
    have hs := reachable_settled hu
    have hserves := Serves.step hs.parked.current_range.1 hstep.1.2 hstep.2
    exact ih (hu.next hstep.2) (hb.serves hs hserves hv).1 ha

/-- `b` has joined the queue while `a` was waiting in it. No call wakes `b` before `a`. -/
theorem served_in_order {u : Machine} {as : List Action} {act : Action}
    (hu : machineSystem.Reachable u) (hb : b ∉ u.kernel.waiters q)
    (hpath : (machineSystem.restrict (WaitsInOrder a q)).Path u as s)
    (hstep : (machineSystem.restrict (WaitsInOrder a q)).step s act t)
    (hwaits : b ∈ s.kernel.waiters q) (ha : a ∈ t.kernel.waiters q) :
    b ∈ t.kernel.waiters q := by
  have hau : a ∈ u.kernel.waiters q := by
    cases hpath with
    | nil => exact hstep.1.1
    | cons hnext => exact hnext.1.1
  have hs := reachable_settled (hpath.of_restrict.reachable hu)
  have hahead := (ahead_of_not_mem hau hb).path hu hpath hstep.1.1
  have hserves := Serves.step hs.parked.current_range.1 hstep.1.2 hstep.2
  exact (hahead.serves hs hserves ha).2 hwaits

end

/-! ### Runs -/

/-- Process 4 holds mutex 2. The processes 3 and 2 wait for it in this order, process 1 runs. -/
def twoWaiting : List Action :=
  createProcesses 3 ++ [.tick, .getMutex 2 0, .lockMutex 2 0, .tick, .lockMutex 2 0, .lockMutex 2 0]

/-- The waiters for mutex 2 before and after some steps that meet a condition, and one more. -/
def arrivals (ok : Machine → Action → Prop) [∀ s a, Decidable (ok s a)] (as : List Action)
    (act : Action) (u : Machine) : List ℤ × Option (List ℤ × Option (List ℤ)) :=
  let waiters := fun s : Machine => s.kernel.waiters (.mutex 2)
  (waiters u, (execute (guarded ok step) u as).map fun s =>
    (waiters s, (guarded ok step s act).map waiters))

theorem arrivals_spec {ok : Machine → Action → Prop} [∀ s a, Decidable (ok s a)]
    {as : List Action} {act : Action} {u : Machine} {l l' l'' : List ℤ}
    (h : arrivals ok as act u = (l, some (l', some l''))) :
    u.kernel.waiters (.mutex 2) = l ∧ ∃ s t, (machineSystem.restrict ok).Path u as s ∧
      (machineSystem.restrict ok).step s act t ∧ s.kernel.waiters (.mutex 2) = l' ∧
      t.kernel.waiters (.mutex 2) = l'' := by
  obtain ⟨hu, hrun⟩ := Prod.mk.inj h
  obtain ⟨s, hs, hview⟩ := Option.map_eq_some_iff.mp hrun
  obtain ⟨hl', hlast⟩ := Prod.mk.inj hview
  obtain ⟨t, ht, hl''⟩ := Option.map_eq_some_iff.mp hlast
  exact ⟨hu, s, t, path_restrict_of_execute IsBoot hs, step_of_guarded IsBoot ht, hl', hl''⟩

/-- Process 1 joins behind process 2 and is still waiting when process 3 is woken. -/
theorem served_in_order_three : ∃ s t, (machineSystem.restrict (WaitsInOrder 2 (.mutex 2))).step s
      (.freeMutex 2) t ∧ s.kernel.waiters (.mutex 2) = [3, 2, 1] ∧
    t.kernel.waiters (.mutex 2) = [2, 1] ∧ 1 ∈ t.kernel.waiters (.mutex 2) := by
  obtain ⟨u, hu, hf⟩ := reachable_replay
    (show (execute step bootedMachine twoWaiting).map (arrivals (WaitsInOrder 2 (.mutex 2))
      [.lockMutex 2 0, .tick] (.freeMutex 2)) = some ([3, 2], some ([3, 2, 1], some [2, 1])) by
        decide +kernel)
  obtain ⟨hl, s, t, hpath, hstep, hs, ht⟩ := arrivals_spec hf
  exact ⟨s, t, hstep, hs, ht, served_in_order hu (b := 1) (by rw [hl]; decide) hpath hstep
    (by rw [hs]; decide) (by rw [ht]; decide)⟩

/-- Process 3 is woken, and process 1 takes its slot in front of process 2. The mutex is handed
over to process 1, which came after process 2. -/
theorem later_waiter_first : ∃ u s t as, machineSystem.Reachable u ∧
    2 ∈ u.kernel.waiters (.mutex 2) ∧ 1 ∉ u.kernel.waiters (.mutex 2) ∧
    (machineSystem.restrict fun v _ => 2 ∈ v.kernel.waiters (.mutex 2)).Path u as s ∧
    step s (.freeMutex 2) = some t ∧ 1 ∈ s.kernel.waiters (.mutex 2) ∧
    1 ∉ t.kernel.waiters (.mutex 2) ∧ 2 ∈ t.kernel.waiters (.mutex 2) := by
  obtain ⟨u, hu, hf⟩ := reachable_replay
    (show (execute step bootedMachine (twoWaiting ++ [.tick, .tick, .freeMutex 2, .tick, .resume 0,
      .tick])).map (arrivals (fun v _ => 2 ∈ v.kernel.waiters (.mutex 2))
        [.lockMutex 2 0, .tick, .tick] (.freeMutex 2)) = some ([2], some ([1, 2], some [2])) by
          decide +kernel)
  obtain ⟨hl, s, t, hpath, hstep, hs, ht⟩ := arrivals_spec hf
  exact ⟨u, s, t, _, hu, by rw [hl]; decide, by rw [hl]; decide, hpath, hstep.2, by rw [hs]; decide,
    by rw [ht]; decide, by rw [ht]; decide⟩

end GatOS.Sync
