import GatOS.SystemCalls

/-!
# The waiter queues

What the functions on mutexes and semaphores do to the tables, stated once for each function.
The field `cardinalBlocked` counts the occupied slots of the queue.
-/
namespace GatOS.Sync
open Scheduler

namespace Kernel

@[simp] theorem setMutex_sched (k : Kernel) (i : ℤ) (m : Mutex) :
    (k.setMutex i m).sched = k.sched := rfl

@[simp] theorem setMutex_semaphores (k : Kernel) (i : ℤ) (m : Mutex) :
    (k.setMutex i m).semaphores = k.semaphores := rfl

@[simp] theorem setMutex_self (k : Kernel) (i : ℤ) (m : Mutex) :
    (k.setMutex i m).mutexes i = m := if_pos rfl

theorem setMutex_ne (k : Kernel) {i j : ℤ} (m : Mutex) (h : j ≠ i) :
    (k.setMutex i m).mutexes j = k.mutexes j := if_neg h

@[simp] theorem setMutex_setMutex (k : Kernel) (i : ℤ) (m m' : Mutex) :
    (k.setMutex i m).setMutex i m' = k.setMutex i m' := by
  unfold setMutex
  congr 1
  funext j
  dsimp only
  split_ifs <;> rfl

theorem setMutex_eta (k : Kernel) (i : ℤ) : k.setMutex i (k.mutexes i) = k := by
  have : (fun j => if j = i then k.mutexes i else k.mutexes j) = k.mutexes := by
    funext j
    split_ifs with h
    · rw [h]
    · rfl
  rw [setMutex, this]

@[simp] theorem setSemaphore_sched (k : Kernel) (i : ℤ) (sem : Semaphore) :
    (k.setSemaphore i sem).sched = k.sched := rfl

@[simp] theorem setSemaphore_mutexes (k : Kernel) (i : ℤ) (sem : Semaphore) :
    (k.setSemaphore i sem).mutexes = k.mutexes := rfl

@[simp] theorem setSemaphore_self (k : Kernel) (i : ℤ) (sem : Semaphore) :
    (k.setSemaphore i sem).semaphores i = sem := if_pos rfl

theorem setSemaphore_ne (k : Kernel) {i j : ℤ} (sem : Semaphore) (h : j ≠ i) :
    (k.setSemaphore i sem).semaphores j = k.semaphores j := if_neg h

@[simp] theorem setSemaphore_setSemaphore (k : Kernel) (i : ℤ) (sem sem' : Semaphore) :
    (k.setSemaphore i sem).setSemaphore i sem' = k.setSemaphore i sem' := by
  unfold setSemaphore
  congr 1
  funext j
  dsimp only
  split_ifs <;> rfl

@[simp] theorem setState_mutexes (k : Kernel) (pid : ℤ) (state : ProcessState) :
    (k.setState pid state).mutexes = k.mutexes := rfl

@[simp] theorem setState_semaphores (k : Kernel) (pid : ℤ) (state : ProcessState) :
    (k.setState pid state).semaphores = k.semaphores := rfl

@[simp] theorem setState_sched (k : Kernel) (pid : ℤ) (state : ProcessState) :
    (k.setState pid state).sched = changeProcessState pid state k.sched := rfl

end Kernel

/-- The occupied slots of a queue. -/
def waitersOf (q : Queue) : List ℤ := q.values noBlockedQueueValue

/-! ### Joining a queue -/

/-- A waiter is stored in a free slot. -/
theorem exists_join (q : Queue) {pid : ℤ} (hpid : 0 ≤ pid)
    (hroom : (waitersOf q).length < maxBlockedQueueSize) :
    ∃ i, getFreeSpotInBlockedQueue q = some i ∧
      (waitersOf (q.set i pid)).Perm (pid :: waitersOf q) := by
  obtain ⟨i, hi⟩ := SlotArray.firstFree_isSome hroom
  refine ⟨i, hi, SlotArray.values_set_firstFree hi ?_⟩
  unfold noBlockedQueueValue
  omega

theorem addToBlocked_room {k : Kernel} {mutex pid : ℤ} (hpid : 0 ≤ pid)
    (hroom : (waitersOf (k.mutexes mutex).queue).length < maxBlockedQueueSize) :
    ∃ queue, (waitersOf queue).Perm (pid :: waitersOf (k.mutexes mutex).queue) ∧
      addToBlocked mutex pid k = k.setMutex mutex
        { k.mutexes mutex with
          queue := queue
          cardinalBlocked := (k.mutexes mutex).cardinalBlocked + 1 } := by
  obtain ⟨i, hi, hperm⟩ := exists_join (k.mutexes mutex).queue hpid hroom
  refine ⟨_, hperm, ?_⟩
  simp only [addToBlocked, hi]

theorem addToSemBlocked_room {k : Kernel} {j pid : ℤ} (hpid : 0 ≤ pid)
    (hroom : (waitersOf (k.semaphores j).queue).length < maxBlockedQueueSize) :
    ∃ queue, (waitersOf queue).Perm (pid :: waitersOf (k.semaphores j).queue) ∧
      addToSemBlocked j pid k = k.setSemaphore j
        { k.semaphores j with
          queue := queue
          cardinalBlocked := (k.semaphores j).cardinalBlocked + 1 } := by
  obtain ⟨i, hi, hperm⟩ := exists_join (k.semaphores j).queue hpid hroom
  refine ⟨_, hperm, ?_⟩
  simp only [addToSemBlocked, hi]

/-- In a full queue there is no free slot. -/
theorem addToSemBlocked_full {k : Kernel} {j : ℤ} (pid : ℤ)
    (hfull : maxBlockedQueueSize ≤ (waitersOf (k.semaphores j).queue).length) :
    addToSemBlocked j pid k = k := by
  have hnone : getFreeSpotInBlockedQueue (k.semaphores j).queue = none := by
    cases hf : getFreeSpotInBlockedQueue (k.semaphores j).queue with
    | none => rfl
    | some i =>
      -- a free slot leaves at most nineteen waiters
      have hperm := SlotArray.values_set_firstFree hf (show (0 : ℤ) ≠ noBlockedQueueValue by decide)
      have hle := SlotArray.values_length_le noBlockedQueueValue
        ((k.semaphores j).queue.set i 0)
      rw [hperm.length_eq, List.length_cons] at hle
      unfold waitersOf at hfull
      omega
  simp only [addToSemBlocked, hnone]

/-! ### Leaving a queue -/

/-- The first waiter is taken out. -/
theorem firstTaken_of_cons {q : Queue} {p : ℤ} {l : List ℤ} (h : waitersOf q = p :: l) :
    ∃ i, q.firstTaken noBlockedQueueValue = some (i, p) ∧
      waitersOf (q.set i noBlockedQueueValue) = l := by
  cases hf : q.firstTaken noBlockedQueueValue with
  | none =>
    have := SlotArray.values_of_firstTaken_eq_none hf
    rw [waitersOf, this] at h
    exact absurd h (by simp)
  | some r =>
    obtain ⟨i, v⟩ := r
    have hv := SlotArray.values_of_firstTaken hf
    obtain ⟨rfl, rfl⟩ := List.cons.inj (h.symm.trans hv)
    exact ⟨i, rfl, rfl⟩

/-- `freeMutex`: the index is not in use, the first waiter is woken, or nobody waits. -/
theorem freeMutex_cases {k k' : Kernel} {mutex : ℤ}
    (hcard : (k.mutexes mutex).cardinalBlocked = (waitersOf (k.mutexes mutex).queue).length)
    (h : freeMutex mutex k = some k') :
    (isValidMutex mutex k = false ∧ k' = k) ∨
    (isValidMutex mutex k = true ∧ ∃ p queue,
      waitersOf (k.mutexes mutex).queue = p :: waitersOf queue ∧
      k' = (k.setState p .ready).setMutex mutex
        { k.mutexes mutex with
          queue := queue
          cardinalBlocked := (k.mutexes mutex).cardinalBlocked - 1 }) ∨
    (isValidMutex mutex k = true ∧ waitersOf (k.mutexes mutex).queue = [] ∧
      k' = k.setMutex mutex { k.mutexes mutex with mutex := 0 }) := by
  unfold freeMutex at h
  split_ifs at h with hneg hvalid hpos
  · right
    left
    refine ⟨by simpa using hvalid, ?_⟩
    cases hw : waitersOf (k.mutexes mutex).queue with
    | nil => simp [hcard, hw] at hpos
    | cons p l =>
      obtain ⟨i, hi, hl⟩ := firstTaken_of_cons hw
      refine ⟨p, (k.mutexes mutex).queue.set i noBlockedQueueValue, by rw [hl], ?_⟩
      rw [← Option.some.inj h]
      simp only [unblockProcess, hi, Kernel.setMutex_self, Kernel.setMutex_setMutex]
  · right
    right
    refine ⟨by simpa using hvalid, ?_, (Option.some.inj h).symm⟩
    rw [hcard] at hpos
    exact List.eq_nil_of_length_eq_zero (by omega)
  · exact Or.inl ⟨by simpa using hvalid, (Option.some.inj h).symm⟩

/-- `signal`: the index is not in use, the first waiter is woken, or nobody waits. -/
theorem signal_cases {k k' : Kernel} {j : ℤ}
    (hcard : (k.semaphores j).cardinalBlocked = (waitersOf (k.semaphores j).queue).length)
    (h : signal j k = some k') :
    (isValidSemaphore j k = false ∧ k' = k) ∨
    (isValidSemaphore j k = true ∧ ∃ p queue,
      waitersOf (k.semaphores j).queue = p :: waitersOf queue ∧
      Machine.nextWoken j k = some p ∧
      k' = (k.setState p .ready).setSemaphore j
        { k.semaphores j with
          queue := queue
          cardinalBlocked := (k.semaphores j).cardinalBlocked - 1
          semaphore := MachineInt.int32 ((k.semaphores j).semaphore + 1) }) ∨
    (isValidSemaphore j k = true ∧ waitersOf (k.semaphores j).queue = [] ∧
      Machine.nextWoken j k = none ∧
      k' = k.setSemaphore j { k.semaphores j with
        semaphore := MachineInt.int32 ((k.semaphores j).semaphore + 1) }) := by
  unfold signal at h
  split_ifs at h with hneg hvalid hpos
  · right
    left
    refine ⟨by simpa using hvalid, ?_⟩
    cases hw : waitersOf (k.semaphores j).queue with
    | nil => simp [hcard, hw] at hpos
    | cons p l =>
      obtain ⟨i, hi, hl⟩ := firstTaken_of_cons hw
      refine ⟨p, (k.semaphores j).queue.set i noBlockedQueueValue, by rw [hl], ?_, ?_⟩
      · rw [Machine.nextWoken, if_pos hpos, hi]
        rfl
      · rw [← Option.some.inj h]
        simp only [unblockProcessSemaphore, hi, Kernel.setSemaphore_self,
          Kernel.setSemaphore_setSemaphore]
  · right
    right
    refine ⟨by simpa using hvalid, ?_, if_neg hpos, (Option.some.inj h).symm⟩
    rw [hcard] at hpos
    exact List.eq_nil_of_length_eq_zero (by omega)
  · exact Or.inl ⟨by simpa using hvalid, (Option.some.inj h).symm⟩

/-! ### Locking and waiting -/

/-- `lockMutex`: the index is not in use, the mutex is acquired, the process joins the queue, or
the queue is full and the process that `garbage` names is blocked instead. -/
theorem lockMutex_cases {k k' : Kernel} {mutex garbage : ℤ} {returned : Bool} (hpid : 0 ≤ k.pid)
    (hcard : (k.mutexes mutex).cardinalBlocked = (waitersOf (k.mutexes mutex).queue).length)
    (h : lockMutex mutex garbage k = some (returned, k')) :
    (isValidMutex mutex k = false ∧ returned = true ∧ k' = k) ∨
    (isValidMutex mutex k = true ∧ (k.mutexes mutex).mutex = 0 ∧
      waitersOf (k.mutexes mutex).queue = [] ∧ returned = true ∧
      k' = k.setMutex mutex { k.mutexes mutex with mutex := 1 }) ∨
    (isValidMutex mutex k = true ∧
      ¬ ((k.mutexes mutex).mutex = 0 ∧ waitersOf (k.mutexes mutex).queue = []) ∧
      (waitersOf (k.mutexes mutex).queue).length < maxBlockedQueueSize ∧ returned = false ∧
      ∃ queue, (waitersOf queue).Perm (k.pid :: waitersOf (k.mutexes mutex).queue) ∧
        ((k.setMutex mutex
          { k.mutexes mutex with
            queue := queue
            cardinalBlocked := (k.mutexes mutex).cardinalBlocked + 1 }).setState k.pid
              .blocked).yield = some k') ∨
    (isValidMutex mutex k = true ∧
      ¬ ((k.mutexes mutex).mutex = 0 ∧ waitersOf (k.mutexes mutex).queue = []) ∧
      maxBlockedQueueSize ≤ (waitersOf (k.mutexes mutex).queue).length ∧ returned = false ∧
      (k.setState garbage .blocked).yield = some k') := by
  have hempty : (k.mutexes mutex).cardinalBlocked = 0 ↔ waitersOf (k.mutexes mutex).queue = [] := by
    rw [hcard, List.length_eq_zero_iff]
  unfold lockMutex at h
  split_ifs at h with hneg hvalid
  swap
  · obtain ⟨rfl, rfl⟩ := Prod.mk.inj (Option.some.inj h)
    exact Or.inl ⟨by simpa using hvalid, rfl, rfl⟩
  right
  by_cases hfree : (k.mutexes mutex).mutex = 0 ∧ (k.mutexes mutex).cardinalBlocked = 0
  · left
    have htest : testAndSet (k.mutexes mutex) =
        (true, { k.mutexes mutex with mutex := 1, cardinalBlocked := 0 }) := if_pos hfree
    simp only [htest, if_true, Option.some.injEq, Prod.mk.injEq] at h
    obtain ⟨rfl, rfl⟩ := h
    refine ⟨hvalid, hfree.1, hempty.mp hfree.2, rfl, ?_⟩
    dsimp only
    rw [hfree.2]
  right
  have htest : testAndSet (k.mutexes mutex) = (false, k.mutexes mutex) := if_neg hfree
  have hlocked : ¬ ((k.mutexes mutex).mutex = 0 ∧ waitersOf (k.mutexes mutex).queue = []) :=
    fun hf => hfree ⟨hf.1, hempty.mpr hf.2⟩
  simp only [htest, Bool.false_eq_true, if_false, Kernel.setMutex_eta] at h
  split_ifs at h with hfull
  · right
    obtain ⟨k₁, hk, hpair⟩ := Option.map_eq_some_iff.mp h
    obtain ⟨rfl, rfl⟩ := Prod.mk.inj hpair
    refine ⟨hvalid, hlocked, ?_, rfl, hk⟩
    rw [← hcard]
    simpa [isQueueFull] using hfull
  · left
    obtain ⟨k₁, hk, hpair⟩ := Option.map_eq_some_iff.mp h
    obtain ⟨rfl, rfl⟩ := Prod.mk.inj hpair
    have hroom : (waitersOf (k.mutexes mutex).queue).length < maxBlockedQueueSize := by
      rw [← hcard]
      simpa [isQueueFull] using hfull
    obtain ⟨queue, hperm, hadd⟩ := addToBlocked_room hpid hroom
    rw [hadd] at hk
    exact ⟨hvalid, hlocked, hroom, rfl, queue, hperm, hk⟩

/-- `wait` behind `lockMutex`: the counter was positive, or the process is blocked and joins the
queue if there is a free slot. -/
theorem waitRest_cases {k k' : Kernel} {j : ℤ} {returned : Bool} (hpid : 0 ≤ k.pid)
    (h : waitRest j k = some (returned, k')) :
    (0 ≤ MachineInt.int32 ((k.semaphores j).semaphore - 1) ∧ returned = true ∧
      freeMutex (k.semaphores j).mutex (decrement j k) = some k') ∨
    (MachineInt.int32 ((k.semaphores j).semaphore - 1) < 0 ∧
      (waitersOf (k.semaphores j).queue).length < maxBlockedQueueSize ∧ returned = false ∧
      ∃ queue k₁, (waitersOf queue).Perm (k.pid :: waitersOf (k.semaphores j).queue) ∧
        freeMutex (k.semaphores j).mutex ((k.setSemaphore j
          { k.semaphores j with
            queue := queue
            cardinalBlocked := (k.semaphores j).cardinalBlocked + 1
            semaphore := MachineInt.int32 ((k.semaphores j).semaphore - 1) }).setState k.pid
              .blocked) = some k₁ ∧
        k₁.yield = some k') ∨
    (MachineInt.int32 ((k.semaphores j).semaphore - 1) < 0 ∧
      maxBlockedQueueSize ≤ (waitersOf (k.semaphores j).queue).length ∧ returned = false ∧
      ∃ k₁, freeMutex (k.semaphores j).mutex ((decrement j k).setState k.pid .blocked) = some k₁ ∧
        k₁.yield = some k') := by
  have hsem : (decrement j k).semaphores j =
      { k.semaphores j with
        semaphore := MachineInt.int32 ((k.semaphores j).semaphore - 1) } :=
    Kernel.setSemaphore_self k j _
  simp only [waitRest, hsem] at h
  split_ifs at h with hpos
  · obtain ⟨k₁, hk, hpair⟩ := Option.map_eq_some_iff.mp h
    obtain ⟨rfl, rfl⟩ := Prod.mk.inj hpair
    exact Or.inl ⟨hpos, rfl, hk⟩
  right
  obtain ⟨k₁, hk, hrun⟩ := Option.bind_eq_some_iff.mp h
  obtain ⟨k₂, hyield, hpair⟩ := Option.map_eq_some_iff.mp hrun
  obtain ⟨rfl, rfl⟩ := Prod.mk.inj hpair
  have hneg : MachineInt.int32 ((k.semaphores j).semaphore - 1) < 0 := by omega
  rcases Nat.lt_or_ge (waitersOf (k.semaphores j).queue).length maxBlockedQueueSize with
    hroom | hfull
  · left
    obtain ⟨queue, hperm, hadd⟩ := @addToSemBlocked_room (decrement j k) j k.pid hpid
      (by rw [hsem]; exact hroom)
    rw [hsem] at hperm hadd
    have hpid' : (decrement j k).pid = k.pid := rfl
    rw [hpid', hadd] at hk
    simp only [decrement, Kernel.setSemaphore_setSemaphore, Kernel.setState_semaphores,
      Kernel.setSemaphore_self] at hk
    exact ⟨hneg, hroom, rfl, queue, k₁, hperm, hk, hyield⟩
  · right
    rw [addToSemBlocked_full _ (by rw [hsem]; exact hfull)] at hk
    have hmutex : (((decrement j k).setState k.pid .blocked).semaphores j).mutex =
        (k.semaphores j).mutex := by
      rw [Kernel.setState_semaphores, hsem]
    have hpid' : (decrement j k).pid = k.pid := rfl
    rw [hpid', hmutex] at hk
    exact ⟨hneg, hfull, rfl, k₁, hk, hyield⟩

end GatOS.Sync
