import GatOS.Boot

/-!
# What the operations do to one semaphore

Only `wait`, `signal`, the end of `semCreate` and the end of a suspended `wait` change the
counter, the queue or the account of a semaphore.
-/
namespace GatOS.Sync
open Scheduler Transition

/-- The entries of the ledger for one semaphore. -/
structure Account where
  asleep : List ℤ
  generation : ℕ
  start : ℤ
  signals : ℕ
  waits : ℕ
  returned : ℕ

def Ledger.account (l : Ledger) (j : ℤ) : Account :=
  ⟨l.asleep j, l.generation j, l.start j, l.signals j, l.waits j, l.returned j⟩

/-- The semaphore, its account and the calls suspended on it are as before. -/
structure Untouched (j : ℤ) (s t : Machine) : Prop where
  counter : (t.kernel.semaphores j).semaphore = (s.kernel.semaphores j).semaphore
  waiters : t.kernel.waiters (.semaphore j) = s.kernel.waiters (.semaphore j)
  account : t.ledger.account j = s.ledger.account j
  pending : ∀ p g, t.pending p = some (.sleeping j g) ↔ s.pending p = some (.sleeping j g)

/-- The operations that change semaphore `j` or its account. -/
def Op.Touches (j : ℤ) (s : Machine) : Op → Prop
  | .createSemaphoreEnd index _ _ _ => index = j
  | .waitEnd i => i = j
  | .signal i => i = j
  | .wake => ∃ g, s.pending s.pid = some (.sleeping j g)
  | _ => False

section

variable {k k' : Kernel} {s t : Machine} {j : ℤ}

/-! ### The tables -/

theorem yield_tables (h : k.yield = some k') :
    k'.semaphores = k.semaphores ∧ k'.mutexes = k.mutexes ∧
      k'.adminMutex = k.adminMutex ∧ k'.semaphoreMutex = k.semaphoreMutex := by
  obtain ⟨sched, -, rfl⟩ := Option.map_eq_some_iff.mp h
  exact ⟨rfl, rfl, rfl, rfl⟩

theorem freeMutex_semaphores {mutex : ℤ} (h : freeMutex mutex k = some k') :
    k'.semaphores = k.semaphores := by
  unfold freeMutex at h
  split_ifs at h
  · rw [← Option.some.inj h]
    unfold unblockProcess
    dsimp only
    split <;> rfl
  · rw [← Option.some.inj h]
    rfl
  · rw [← Option.some.inj h]

theorem addToBlocked_semaphores (mutex pid : ℤ) (k : Kernel) :
    (addToBlocked mutex pid k).semaphores = k.semaphores := by
  unfold addToBlocked
  dsimp only
  split <;> rfl

theorem lockMutex_semaphores {mutex garbage : ℤ} {returned : Bool}
    (h : lockMutex mutex garbage k = some (returned, k')) : k'.semaphores = k.semaphores := by
  unfold lockMutex at h
  split_ifs at h
  · dsimp only at h
    split_ifs at h
    · obtain ⟨-, rfl⟩ := Prod.mk.inj (Option.some.inj h)
      rfl
    · obtain ⟨k₁, hy, hpair⟩ := Option.map_eq_some_iff.mp h
      obtain ⟨-, rfl⟩ := Prod.mk.inj hpair
      rw [(yield_tables hy).1]
      rfl
    · obtain ⟨k₁, hy, hpair⟩ := Option.map_eq_some_iff.mp h
      obtain ⟨-, rfl⟩ := Prod.mk.inj hpair
      rw [(yield_tables hy).1, Kernel.setState_semaphores, addToBlocked_semaphores]
      rfl
  · obtain ⟨-, rfl⟩ := Prod.mk.inj (Option.some.inj h)
    rfl

theorem getMutexRest_semaphores {name : ℕ} {i : ℤ} (h : getMutexRest name k = some (i, k')) :
    k'.semaphores = k.semaphores := by
  rcases getMutexRest_cases h with ⟨-, hf⟩ | ⟨-, -, -, hf⟩ | ⟨-, -, hf⟩
  · exact freeMutex_semaphores hf
  · exact freeMutex_semaphores hf
  · rw [freeMutex_semaphores hf]
    rfl

/-! ### Untouched semaphores -/

/-- The rest of the machine may change. -/
theorem Untouched.of_semaphore
    (hcounter : (t.kernel.semaphores j).semaphore = (s.kernel.semaphores j).semaphore)
    (hqueue : (t.kernel.semaphores j).queue = (s.kernel.semaphores j).queue)
    (haccount : t.ledger.account j = s.ledger.account j) (hpending : t.pending = s.pending) :
    Untouched j s t := by
  refine ⟨hcounter, ?_, haccount, fun p g => by rw [hpending]⟩
  rw [Kernel.waiters, hqueue]
  rfl

theorem Untouched.of_semaphores (hsem : t.kernel.semaphores = s.kernel.semaphores)
    (haccount : t.ledger.account j = s.ledger.account j) (hpending : t.pending = s.pending) :
    Untouched j s t :=
  .of_semaphore (by rw [hsem]) (by rw [hsem]) haccount hpending

/-- A change of the other fields of some semaphore. -/
theorem setSemaphore_fields (k : Kernel) {i : ℤ} {sem : Semaphore}
    (hcounter : sem.semaphore = (k.semaphores i).semaphore)
    (hqueue : sem.queue = (k.semaphores i).queue) (j : ℤ) :
    ((k.setSemaphore i sem).semaphores j).semaphore = (k.semaphores j).semaphore ∧
      ((k.setSemaphore i sem).semaphores j).queue = (k.semaphores j).queue := by
  by_cases hj : j = i
  · rw [hj, Kernel.setSemaphore_self]
    exact ⟨hcounter, hqueue⟩
  · rw [Kernel.setSemaphore_ne k sem hj]
    exact ⟨rfl, rfl⟩

/-- A call that was not suspended is suspended somewhere else. -/
theorem pending_assign_iff {p q : ℤ} {g : ℕ} {c : Pending} (hnone : s.pending p = none)
    (hc : ∀ g, c ≠ .sleeping j g) :
    assign s.pending p (some c) q = some (.sleeping j g) ↔
      s.pending q = some (.sleeping j g) := by
  by_cases hq : q = p
  · subst hq
    simp [hnone, hc g]
  · rw [assign_ne _ _ hq]

theorem Untouched.lock (hidle : s.idle = true) {mutex garbage : ℤ} {rest : Rest} {returned : Bool}
    (h : s.lock mutex garbage rest = some (returned, t)) : Untouched j s t := by
  have hnone := Machine.pending_of_idle hidle
  obtain ⟨⟨b, k'⟩, hk, hpair⟩ := Option.map_eq_some_iff.mp h
  have hsem := lockMutex_semaphores hk
  cases b with
  | true =>
    obtain ⟨-, rfl⟩ := Prod.mk.inj hpair
    refine .of_semaphores hsem ?_ rfl
    dsimp only
    split_ifs <;> rfl
  | false =>
    obtain ⟨-, rfl⟩ := Prod.mk.inj hpair
    refine ⟨?_, ?_, rfl, fun p g => pending_assign_iff hnone fun g => by simp⟩
    · show (k'.semaphores j).semaphore = _
      rw [hsem]
    · show waitersOf (k'.semaphores j).queue = _
      rw [hsem]
      rfl

theorem Untouched.getMutexEnd {name : ℕ} (h : s.getMutexEnd name = some t) :
    Untouched j s t := by
  obtain ⟨⟨i, k'⟩, hk, rfl⟩ := Option.map_eq_some_iff.mp h
  exact .of_semaphores (getMutexRest_semaphores hk) rfl rfl

theorem Untouched.free {mutex : ℤ} (h : s.free mutex = some t) : Untouched j s t := by
  obtain ⟨k', hk, rfl⟩ := Option.map_eq_some_iff.mp h
  exact .of_semaphores (freeMutex_semaphores hk) rfl rfl

theorem Untouched.close {mutex : ℤ} (h : s.close mutex = some t) : Untouched j s t := by
  obtain ⟨k', hk, rfl⟩ := Option.map_eq_some_iff.mp h
  rcases closeMutex_cases hk with rfl | ⟨-, -, rfl⟩
  · exact .of_semaphores rfl rfl rfl
  · exact .of_semaphores rfl rfl rfl

theorem Untouched.reserve (index : ℤ) (name : ℕ) : Untouched j s (s.reserve index name) := by
  obtain ⟨hcounter, hqueue⟩ := @setSemaphore_fields s.kernel index
    { s.kernel.semaphores index with used := true, name := name } rfl rfl j
  exact .of_semaphore hcounter hqueue rfl rfl

theorem Untouched.closeSemaphore {i : ℤ} (h : s.closeSemaphore i = some t) :
    Untouched j s t := by
  obtain ⟨k', hk, rfl⟩ := Option.map_eq_some_iff.mp h
  rcases semClose_cases hk with rfl | ⟨-, -, rfl⟩
  · exact .of_semaphores rfl rfl rfl
  · obtain ⟨hcounter, hqueue⟩ := @setSemaphore_fields s.kernel i
      { s.kernel.semaphores i with used := false } rfl rfl j
    exact .of_semaphore hcounter hqueue rfl rfl

/-! ### The operations that touch a semaphore -/

theorem account_release (l : Ledger) (mutex pid : ℤ) :
    (l.release mutex pid).account j = l.account j := rfl

theorem account_newSemaphore_ne (l : Ledger) {i : ℤ} (start : ℤ) (h : j ≠ i) :
    (l.newSemaphore i start).account j = l.account j := by
  simp [Ledger.account, Ledger.newSemaphore, assign_ne _ _ h]

theorem account_waited_ne (l : Ledger) {i : ℤ} (h : j ≠ i) :
    (l.waited i).account j = l.account j := by
  simp [Ledger.account, Ledger.waited, assign_ne _ _ h]

theorem account_complete_ne (l : Ledger) {i : ℤ} (h : j ≠ i) :
    (l.complete i).account j = l.account j := by
  simp [Ledger.account, Ledger.complete, assign_ne _ _ h]

theorem account_sleep_ne (l : Ledger) {i : ℤ} (pid : ℤ) (h : j ≠ i) :
    (l.sleep i pid).account j = l.account j := by
  simp [Ledger.account, Ledger.sleep, assign_ne _ _ h]

theorem account_signal_ne (l : Ledger) {i : ℤ} (woken : Option ℤ) (h : j ≠ i) :
    (l.signal i woken).account j = l.account j := by
  simp [Ledger.account, Ledger.signal, assign_ne _ _ h]

/-- A new semaphore starts with an empty account; the queue is the one of the slot. -/
theorem createSemaphoreEnd_spec {index : ℤ} {name : ℕ} {start pid : ℤ}
    (h : s.createSemaphoreEnd index name start pid = some t) :
    (t.kernel.semaphores index).semaphore = start ∧
      t.kernel.waiters (.semaphore index) = s.kernel.waiters (.semaphore index) ∧
      t.ledger.account index = ⟨[], s.ledger.generation index + 1, start, 0, 0, 0⟩ ∧
      t.pending = s.pending ∧ ∀ j ≠ index, Untouched j s t := by
  obtain ⟨k', hk, rfl⟩ := Option.map_eq_some_iff.mp h
  obtain ⟨⟨i, k₁⟩, hget, hf⟩ := Option.bind_eq_some_iff.mp hk
  have hsem : k'.semaphores = (Sync.createSemaphoreEnd index i start pid k₁).semaphores :=
    freeMutex_semaphores hf
  have hsem₁ := getMutexRest_semaphores hget
  refine ⟨?_, ?_, ?_, rfl, fun j hj => .of_semaphore ?_ ?_ ?_ rfl⟩
  · show (k'.semaphores index).semaphore = start
    rw [hsem, Sync.createSemaphoreEnd, Kernel.setSemaphore_self]
  · show waitersOf (k'.semaphores index).queue = _
    rw [hsem, Sync.createSemaphoreEnd, Kernel.setSemaphore_self, hsem₁]
    rfl
  · simp [Ledger.account, Ledger.newSemaphore, Ledger.release]
  · show (k'.semaphores j).semaphore = _
    rw [hsem, Sync.createSemaphoreEnd, Kernel.setSemaphore_ne _ _ hj, hsem₁]
  · show (k'.semaphores j).queue = _
    rw [hsem, Sync.createSemaphoreEnd, Kernel.setSemaphore_ne _ _ hj, hsem₁]
  · exact account_newSemaphore_ne _ start hj

/-- `wait` behind `lockMutex`: the counter was positive, or the process sleeps, in the queue if
there is a free slot. -/
theorem waitRest_semaphores {returned : Bool} (hpid : 0 ≤ k.pid)
    (h : waitRest j k = some (returned, k')) :
    ∃ sem, k'.semaphores = (k.setSemaphore j sem).semaphores ∧
      sem.semaphore = MachineInt.int32 ((k.semaphores j).semaphore - 1) ∧
      ((0 ≤ sem.semaphore ∧ returned = true ∧ sem.queue = (k.semaphores j).queue) ∨
        (sem.semaphore < 0 ∧ returned = false ∧
          (((waitersOf (k.semaphores j).queue).length < maxBlockedQueueSize ∧
              (waitersOf sem.queue).Perm (k.pid :: waitersOf (k.semaphores j).queue)) ∨
            (maxBlockedQueueSize ≤ (waitersOf (k.semaphores j).queue).length ∧
              sem.queue = (k.semaphores j).queue)))) := by
  rcases waitRest_cases hpid h with
    ⟨hpos, rfl, hf⟩ | ⟨hneg, hroom, rfl, queue, k₁, hperm, hf, hy⟩ | ⟨hneg, hfull, rfl, k₁, hf, hy⟩
  · exact ⟨_, freeMutex_semaphores hf, rfl, Or.inl ⟨hpos, rfl, rfl⟩⟩
  · refine ⟨{ k.semaphores j with
      queue := queue
      cardinalBlocked := (k.semaphores j).cardinalBlocked + 1
      semaphore := MachineInt.int32 ((k.semaphores j).semaphore - 1) }, ?_, rfl,
      Or.inr ⟨hneg, rfl, Or.inl ⟨hroom, hperm⟩⟩⟩
    rw [(yield_tables hy).1, freeMutex_semaphores hf]
    rfl
  · refine ⟨{ k.semaphores j with
      semaphore := MachineInt.int32 ((k.semaphores j).semaphore - 1) }, ?_, rfl,
      Or.inr ⟨hneg, rfl, Or.inr ⟨hfull, rfl⟩⟩⟩
    rw [(yield_tables hy).1, freeMutex_semaphores hf]
    rfl

theorem waitEnd_spec {i : ℤ} (h : Settled s) (hidle : s.idle = true) (hw : s.waitEnd i = some t) :
    (t.kernel.semaphores i).semaphore =
        MachineInt.int32 ((s.kernel.semaphores i).semaphore - 1) ∧
      (∀ j ≠ i, Untouched j s t) ∧
      ((0 ≤ (t.kernel.semaphores i).semaphore ∧ t.pending = s.pending ∧
          t.kernel.waiters (.semaphore i) = s.kernel.waiters (.semaphore i) ∧
          t.ledger.account i = { s.ledger.account i with
            waits := s.ledger.waits i + 1
            returned := s.ledger.returned i + 1 }) ∨
        ((t.kernel.semaphores i).semaphore < 0 ∧
          t.pending = assign s.pending s.pid (some (.sleeping i (s.ledger.generation i))) ∧
          t.ledger.account i = { s.ledger.account i with
            waits := s.ledger.waits i + 1
            asleep := s.pid :: s.ledger.asleep i } ∧
          (((s.kernel.waiters (.semaphore i)).length < maxBlockedQueueSize ∧
              (t.kernel.waiters (.semaphore i)).Perm
                (s.pid :: s.kernel.waiters (.semaphore i))) ∨
            (maxBlockedQueueSize ≤ (s.kernel.waiters (.semaphore i)).length ∧
              t.kernel.waiters (.semaphore i) = s.kernel.waiters (.semaphore i))))) := by
  have hnone := Machine.pending_of_idle hidle
  obtain ⟨⟨returned, k'⟩, hk, ht⟩ := Option.map_eq_some_iff.mp hw
  obtain ⟨sem, hsem, hcounter, hcases⟩ := waitRest_semaphores h.parked.current_range.1 hk
  have hself : k'.semaphores i = sem := by rw [hsem, Kernel.setSemaphore_self]
  have hne : ∀ j ≠ i, k'.semaphores j = s.kernel.semaphores j := fun j hj => by
    rw [hsem, Kernel.setSemaphore_ne _ _ hj]
  rcases hcases with ⟨hpos, rfl, hqueue⟩ | ⟨hneg, rfl, hqueue⟩
  · simp only [if_true] at ht
    subst ht
    refine ⟨by rw [hself, hcounter], fun j hj => .of_semaphore ?_ ?_ ?_ rfl,
      Or.inl ⟨by rw [hself]; exact hpos, rfl, ?_, ?_⟩⟩
    · rw [hne j hj]
    · rw [hne j hj]
    · rw [account_complete_ne _ hj, account_release, account_waited_ne _ hj]
    · simp only [Kernel.waiters, hself, hqueue]
    · simp [Ledger.account, Ledger.complete, Ledger.release, Ledger.waited]
  · simp only [Bool.false_eq_true, if_false] at ht
    subst ht
    refine ⟨by rw [Machine.suspend, hself, hcounter], fun j hj => ⟨?_, ?_, ?_, fun p g => ?_⟩,
      Or.inr ⟨by rw [Machine.suspend, hself]; exact hneg, rfl, ?_, ?_⟩⟩
    · rw [Machine.suspend, hne j hj]
    · simp only [Machine.suspend, Kernel.waiters, hne j hj]
    · rw [Machine.suspend, account_sleep_ne _ _ hj, account_release, account_waited_ne _ hj]
    · exact pending_assign_iff hnone fun g => by simp [Ne.symm hj]
    · simp [Machine.suspend, Ledger.account, Ledger.sleep, Ledger.release, Ledger.waited]
    · simp only [Machine.suspend, Kernel.waiters, hself]
      rcases hqueue with ⟨hroom, hperm⟩ | ⟨hfull, hqueue⟩
      · exact Or.inl ⟨hroom, hperm⟩
      · exact Or.inr ⟨hfull, by rw [hqueue]⟩

theorem signal_spec {i : ℤ} (h : Settled s) (hs : s.signal i = some t) :
    t.pending = s.pending ∧ (∀ j ≠ i, Untouched j s t) ∧
      (t = s ∨
        (isValidSemaphore i s.kernel = true ∧
          (t.kernel.semaphores i).semaphore =
            MachineInt.int32 ((s.kernel.semaphores i).semaphore + 1) ∧
          ((∃ p, s.kernel.waiters (.semaphore i) = p :: t.kernel.waiters (.semaphore i) ∧
              ¬ Blocked t.kernel.sched p ∧ t.ledger.account i = { s.ledger.account i with
                signals := s.ledger.signals i + 1
                asleep := (s.ledger.asleep i).erase p }) ∨
            (s.kernel.waiters (.semaphore i) = [] ∧ t.kernel.waiters (.semaphore i) = [] ∧
              t.ledger.account i = { s.ledger.account i with
                signals := s.ledger.signals i + 1 })))) := by
  obtain ⟨k', hk, rfl⟩ := Option.map_eq_some_iff.mp hs
  rcases signal_cases (h.parked.semaphore_cardinal i) hk with
    ⟨hvalid, rfl⟩ | ⟨hvalid, p, queue, hwait, hnext, rfl⟩ | ⟨hvalid, hwait, hnext, rfl⟩
  · rw [if_neg (by simp [hvalid])]
    exact ⟨rfl, fun j _ => .of_semaphores rfl rfl rfl, Or.inl rfl⟩
  · rw [if_pos hvalid, hnext]
    refine ⟨rfl, fun j hj => .of_semaphore ?_ ?_ (account_signal_ne s.ledger (some p) hj) rfl,
      Or.inr ⟨hvalid, ?_, Or.inl ⟨p, ?_, ?_, ?_⟩⟩⟩
    · rw [Kernel.setSemaphore_ne _ _ hj, Kernel.setState_semaphores]
    · rw [Kernel.setSemaphore_ne _ _ hj, Kernel.setState_semaphores]
    · rw [Kernel.setSemaphore_self]
    · rw [Kernel.waiters_setSemaphore_self]
      exact hwait
    · exact not_blocked_changeProcessState_self h.parked.ring _ p (by simp)
    · simp [Ledger.account, Ledger.signal]
  · rw [if_pos hvalid, hnext]
    refine ⟨rfl, fun j hj => .of_semaphore ?_ ?_ (account_signal_ne s.ledger none hj) rfl,
      Or.inr ⟨hvalid, ?_, Or.inr ⟨hwait, ?_, ?_⟩⟩⟩
    · rw [Kernel.setSemaphore_ne _ _ hj]
    · rw [Kernel.setSemaphore_ne _ _ hj]
    · rw [Kernel.setSemaphore_self]
    · rw [Kernel.waiters_setSemaphore_self]
      exact hwait
    · simp [Ledger.account, Ledger.signal]

/-- A process that slept in `wait` and was woken returns from it. -/
theorem wake_spec {i : ℤ} {g : ℕ} (hpending : s.pending s.pid = some (.sleeping i g)) :
    s.wake.kernel.waiters (.semaphore i) = s.kernel.waiters (.semaphore i) ∧
      (s.wake.kernel.semaphores i).semaphore = (s.kernel.semaphores i).semaphore ∧
      s.wake.ledger.account i = { s.ledger.account i with
        returned := if g = s.ledger.generation i then s.ledger.returned i + 1
          else s.ledger.returned i } := by
  have hledger : s.wake.ledger =
      if g = s.ledger.generation i then s.ledger.complete i else s.ledger := by
    simp only [Machine.wake, hpending]
  rw [wake_kernel, hledger]
  refine ⟨rfl, rfl, ?_⟩
  split_ifs
  · simp [Ledger.account, Ledger.complete]
  · rfl

theorem Untouched.wake (hj : ∀ g, s.pending s.pid ≠ some (.sleeping j g)) :
    Untouched j s s.wake := by
  refine ⟨by rw [wake_kernel], by rw [wake_kernel], ?_, fun p g => ?_⟩
  · unfold Machine.wake
    dsimp only
    split
    · rfl
    · rfl
    · rename_i i g hpending
      have hne : j ≠ i := fun he => hj g (he ▸ hpending)
      split_ifs
      · exact account_complete_ne _ hne
      · rfl
  · rw [wake_pending]
    by_cases hp : p = s.pid
    · rw [hp, assign_self]
      simp [hj g]
    · rw [assign_ne _ _ hp]

theorem op_untouched {op : Op} (h : Settled s) (henabled : op.Enabled s)
    (htouch : ¬ op.Touches j s) (hrun : op.perform s = some t) : Untouched j s t := by
  cases op with
  | switch =>
    obtain ⟨k', hk, rfl⟩ := Option.map_eq_some_iff.mp hrun
    exact .of_semaphores (yield_tables hk).1 rfl rfl
  | createProcess page =>
    obtain rfl := Option.some.inj hrun
    exact .of_semaphores rfl rfl rfl
  | removeProcess pid =>
    obtain ⟨sched, -, rfl⟩ := Option.map_eq_some_iff.mp hrun
    exact .of_semaphores rfl rfl rfl
  | lock mutex garbage rest =>
    obtain ⟨⟨returned, u⟩, hlock, rfl⟩ := Option.map_eq_some_iff.mp hrun
    exact .lock henabled hlock
  | free mutex => exact .free hrun
  | getMutexEnd name => exact .getMutexEnd hrun
  | close mutex => exact .close hrun
  | reserve index name =>
    obtain rfl := Option.some.inj hrun
    exact .reserve index name
  | createSemaphoreEnd index name start pid =>
    exact (createSemaphoreEnd_spec hrun).2.2.2.2 j (Ne.symm htouch)
  | closeSemaphore i => exact .closeSemaphore hrun
  | waitEnd i => exact (waitEnd_spec h henabled hrun).2.1 j (Ne.symm htouch)
  | signal i => exact (signal_spec h hrun).2.1 j (Ne.symm htouch)
  | wake =>
    obtain rfl := Option.some.inj hrun
    exact .wake fun g hg => htouch ⟨g, hg⟩
  | store strings =>
    obtain rfl := Option.some.inj hrun
    exact .of_semaphores rfl rfl rfl

end

end GatOS.Sync
