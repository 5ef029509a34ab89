import GatOS.SemaphoreFrame

/-!
# The waiters of a semaphore

Every process that `wait` has blocked and `signal` has not woken has its own slot of the queue,
as long as no process waits when the queue is full, the counter does not overflow, and a
semaphore is created only in a slot in which nobody waits any more.
-/
namespace GatOS.Sync
open Scheduler Transition

/-- The counter is positive or there is a free slot in the queue. -/
def HasRoom (j : ℤ) (k : Kernel) : Prop :=
  0 < (k.semaphores j).semaphore ∨ (k.waiters (.semaphore j)).length < maxBlockedQueueSize

def NobodyWaits (j : ℤ) (k : Kernel) : Prop := k.waiters (.semaphore j) = []

/-- The condition on the rest of a call after its `lockMutex` has returned. -/
def Rest.KeepsWaiters (k : Kernel) : Rest → Prop
  | .wait j => HasRoom j k
  | .semCreate _ _ => ∀ index ∈ getFreePositionSemaphores k, NobodyWaits index k
  | .createSemaphore index _ _ _ => NobodyWaits index k
  | _ => True

def Pending.KeepsWaiters (k : Kernel) : Pending → Prop
  | .locking _ rest => rest.KeepsWaiters k
  | .sleeping _ _ => True

def KeepsWaiters (s : Machine) : Action → Prop
  | .wait j _ => isValidSemaphore j s.kernel = true →
      passes (s.kernel.semaphores j).mutex s.kernel = true → (Rest.wait j).KeepsWaiters s.kernel
  | .semCreate name start _ => passes s.kernel.semaphoreMutex s.kernel = true →
      (Rest.semCreate name start).KeepsWaiters s.kernel
  | .resume _ => ∀ c ∈ s.pending s.pid, c.KeepsWaiters s.kernel
  | .signal j => isValidSemaphore j s.kernel = true →
      (s.kernel.semaphores j).semaphore ≠ MachineInt.intMax
  | _ => True

/-- Every process that sleeps has its own slot, and a negative counter counts them. -/
structure NoWaiterLost (s : Machine) (j : ℤ) : Prop where
  blocked : ∀ p ∈ s.ledger.asleep j, Held s.kernel p
  nodup : (s.ledger.asleep j).Nodup
  queue : (s.kernel.waiters (.semaphore j)).Perm (s.ledger.asleep j)
  cardinal : (s.kernel.semaphores j).cardinalBlocked = (s.ledger.asleep j).length
  counter : (s.kernel.semaphores j).semaphore < 0 →
    -(s.kernel.semaphores j).semaphore = (s.ledger.asleep j).length

instance (j : ℤ) (k : Kernel) : Decidable (HasRoom j k) := inferInstanceAs (Decidable (_ ∨ _))

instance (j : ℤ) (k : Kernel) : Decidable (NobodyWaits j k) :=
  inferInstanceAs (Decidable (_ = _))

instance (k : Kernel) : (rest : Rest) → Decidable (rest.KeepsWaiters k)
  | .wait j => inferInstanceAs (Decidable (HasRoom j k))
  | .semCreate _ _ =>
    inferInstanceAs (Decidable (∀ index ∈ getFreePositionSemaphores k, NobodyWaits index k))
  | .createSemaphore index _ _ _ => inferInstanceAs (Decidable (NobodyWaits index k))
  | .lockMutex | .getMutex _ => .isTrue trivial

instance (k : Kernel) : (c : Pending) → Decidable (c.KeepsWaiters k)
  | .locking _ rest => inferInstanceAs (Decidable (rest.KeepsWaiters k))
  | .sleeping _ _ => .isTrue trivial

instance (s : Machine) : (a : Action) → Decidable (KeepsWaiters s a)
  | .wait _ _ => inferInstanceAs (Decidable (_ → _ → _))
  | .semCreate _ _ _ => inferInstanceAs (Decidable (_ → _))
  | .resume _ => inferInstanceAs (Decidable (∀ c ∈ s.pending s.pid, c.KeepsWaiters s.kernel))
  | .signal _ => inferInstanceAs (Decidable (_ → _))
  | .tick | .createProcess _ | .removeProcess _ | .lockMutex _ _ | .freeMutex _ | .getMutex _ _
  | .closeMutex _ | .semClose _ | .store _ => .isTrue trivial

/-- The condition on the operations of a step. -/
def Op.KeepsWaiters (s : Machine) : Op → Prop
  | .waitEnd j => HasRoom j s.kernel
  | .createSemaphoreEnd index _ _ _ => NobodyWaits index s.kernel
  | .signal j => isValidSemaphore j s.kernel = true →
      (s.kernel.semaphores j).semaphore ≠ MachineInt.intMax
  | _ => True

structure QueueInvariant (s : Machine) (j : ℤ) : Prop where
  queue : (s.kernel.waiters (.semaphore j)).Perm (s.ledger.account j).asleep
  empty : (s.ledger.account j).asleep = [] →
    0 ≤ (s.kernel.semaphores j).semaphore ∧
      (s.kernel.semaphores j).semaphore ≤ MachineInt.intMax
  nonempty : (s.ledger.account j).asleep ≠ [] →
    (s.kernel.semaphores j).semaphore = -(s.ledger.account j).asleep.length

/-- The start value is an `int` that is not negative. -/
def ValidStart (s : Machine) (j : ℤ) : Prop :=
  0 ≤ s.ledger.start j ∧ s.ledger.start j ≤ MachineInt.intMax

section

variable {s t : Machine} {j : ℤ}

theorem Rest.KeepsWaiters.admitted {rest : Rest} (h : rest.KeepsWaiters s.kernel) :
    rest.Admitted Op.KeepsWaiters s := by
  have hnobody : ∀ index s' op, NobodyWaits index s.kernel → SameQueues s s' →
      Op.Creates index op → op.KeepsWaiters s' := fun index s' op hn hqueues hop => by
    cases op with
    | createSemaphoreEnd i name start pid =>
      obtain rfl : i = index := hop
      rw [Op.KeepsWaiters, NobodyWaits, Kernel.waiters, hqueues]
      exact hn
    | _ => trivial
  cases rest with
  | wait j =>
    intro s' hs'
    rw [Op.KeepsWaiters, HasRoom, Kernel.waiters, hs']
    exact h
  | semCreate name start => exact fun index hindex s' op => hnobody index s' op (h index hindex)
  | createSemaphore index name start pid => exact fun s' op => hnobody index s' op h
  | _ => trivial

theorem KeepsWaiters.admitted {a : Action} (h : KeepsWaiters s a) :
    a.Admitted Op.KeepsWaiters s := by
  cases a with
  | wait j garbage => exact fun hvalid hpass => Rest.KeepsWaiters.admitted (h hvalid hpass)
  | semCreate name start garbage => exact fun hpass => Rest.KeepsWaiters.admitted (h hpass)
  | resume garbage =>
    exact fun mutex rest hpending => Rest.KeepsWaiters.admitted (h (.locking mutex rest) hpending)
  | signal j => exact h
  | _ => trivial

theorem QueueInvariant.of_untouched (h : QueueInvariant s j) (hu : Untouched j s t) :
    QueueInvariant t j := by
  refine ⟨?_, ?_, ?_⟩
  · rw [hu.waiters, hu.account]
    exact h.queue
  · rw [hu.account, hu.counter]
    exact h.empty
  · rw [hu.account, hu.counter]
    exact h.nonempty

/-- A queue has at most twenty waiters. -/
theorem QueueInvariant.counter_range (h : QueueInvariant s j) :
    -20 ≤ (s.kernel.semaphores j).semaphore ∧
      (s.kernel.semaphores j).semaphore ≤ MachineInt.intMax := by
  have hlen : (s.kernel.waiters (.semaphore j)).length ≤ 20 :=
    SlotArray.values_length_le noBlockedQueueValue (s.kernel.semaphores j).queue
  rw [h.queue.length_eq] at hlen
  unfold MachineInt.intMax
  by_cases hempty : (s.ledger.account j).asleep = []
  · have := h.empty hempty
    unfold MachineInt.intMax at this
    omega
  · have := h.nonempty hempty
    omega

theorem QueueInvariant.waitEnd (h : QueueInvariant s j) (hs : Settled s) (hidle : s.idle = true)
    (hroom : HasRoom j s.kernel) (hrun : s.waitEnd j = some t) : QueueInvariant t j := by
  obtain ⟨hlo, hhi⟩ := h.counter_range
  obtain ⟨hcounter, -, hcases⟩ := waitEnd_spec hs hidle hrun
  rw [MachineInt.int32_eq (by unfold MachineInt.intMin; omega) (by omega)] at hcounter
  rcases hcases with ⟨hpos, -, hwait, haccount⟩ | ⟨hneg, -, haccount, hqueue⟩
  · refine ⟨?_, fun hempty => ?_, fun hne => ?_⟩
    · rw [hwait, haccount]
      exact h.queue
    · omega
    · -- nobody sleeps when the counter was positive
      rw [haccount] at hne
      have := h.nonempty hne
      omega
  · have hnonpos : (s.kernel.semaphores j).semaphore ≤ 0 := by omega
    have hlen : (s.kernel.semaphores j).semaphore = -(s.ledger.account j).asleep.length := by
      by_cases hempty : (s.ledger.account j).asleep = []
      · have := h.empty hempty
        rw [hempty, List.length_nil]
        omega
      · exact h.nonempty hempty
    have hjoin : (t.kernel.waiters (.semaphore j)).Perm
        (s.pid :: s.kernel.waiters (.semaphore j)) := by
      rcases hqueue with ⟨-, hperm⟩ | ⟨hfull, -⟩
      · exact hperm
      · rcases hroom with hpos | hlt
        · omega
        · omega
    refine ⟨?_, fun hempty => ?_, fun _ => ?_⟩
    · rw [haccount]
      exact hjoin.trans (h.queue.cons _)
    · rw [haccount] at hempty
      exact absurd hempty (by simp)
    · rw [haccount, hcounter, hlen]
      simp only [Ledger.account, List.length_cons]
      push_cast
      omega

theorem QueueInvariant.signal (h : QueueInvariant s j) (hs : Settled s)
    (hmax : isValidSemaphore j s.kernel = true →
      (s.kernel.semaphores j).semaphore ≠ MachineInt.intMax)
    (hrun : s.signal j = some t) : QueueInvariant t j := by
  obtain ⟨hlo, hhi⟩ := h.counter_range
  obtain ⟨-, -, hcases⟩ := signal_spec hs hrun
  rcases hcases with rfl | ⟨hvalid, hcounter, hcases⟩
  · exact h
  have hlt := lt_of_le_of_ne hhi (hmax hvalid)
  rw [MachineInt.int32_eq (by unfold MachineInt.intMin; omega) (by omega)] at hcounter
  rcases hcases with ⟨p, hwait, -, haccount⟩ | ⟨hwait, hwait', haccount⟩
  · have hperm := h.queue
    rw [hwait, List.cons_perm_iff_perm_erase] at hperm
    obtain ⟨hmem, hperm⟩ := hperm
    have hlen := List.length_erase_of_mem hmem
    have hpos := List.length_pos_of_mem hmem
    have hcount := h.nonempty (List.ne_nil_of_mem hmem)
    refine ⟨?_, fun hempty => ?_, fun _ => ?_⟩
    · rw [haccount]
      exact hperm
    · rw [haccount] at hempty
      have hnil : ((s.ledger.account j).asleep.erase p).length = 0 := by
        rw [show (s.ledger.account j).asleep.erase p = [] from hempty, List.length_nil]
      omega
    · rw [haccount]
      show _ = -(((s.ledger.account j).asleep.erase p).length : ℤ)
      omega
  · have hnil : (s.ledger.account j).asleep = [] := by
      have hperm := h.queue
      rw [hwait] at hperm
      exact hperm.nil_eq.symm
    have hcount := h.empty hnil
    refine ⟨?_, fun _ => by omega, fun hne => ?_⟩
    · rw [haccount, hwait', ← hwait]
      exact h.queue
    · rw [haccount] at hne
      exact absurd hnil hne

/-- A semaphore that is created in a slot where nobody waits starts with an empty queue. -/
theorem QueueInvariant.createSemaphoreEnd {name : ℕ} {start pid : ℤ}
    (hnobody : NobodyWaits j s.kernel)
    (hrun : s.createSemaphoreEnd j name start pid = some t) (hstart : ValidStart t j) :
    QueueInvariant t j := by
  obtain ⟨hcounter, hwait, haccount, -, -⟩ := createSemaphoreEnd_spec hrun
  have hvalue : t.ledger.start j = start := congrArg Account.start haccount
  refine ⟨?_, fun _ => ?_, fun hne => ?_⟩
  · rw [haccount, hwait, hnobody]
  · rw [hcounter, ← hvalue]
    exact hstart
  · rw [haccount] at hne
    exact absurd rfl hne

theorem QueueInvariant.wake (h : QueueInvariant s j) {g : ℕ}
    (hpending : s.pending s.pid = some (.sleeping j g)) : QueueInvariant s.wake j := by
  obtain ⟨hwait, hcounter, haccount⟩ := wake_spec hpending
  refine ⟨?_, ?_, ?_⟩
  · rw [hwait, haccount]
    exact h.queue
  · rw [haccount, hcounter]
    exact h.empty
  · rw [haccount, hcounter]
    exact h.nonempty

/-- Every operation that meets the condition keeps the queues of the semaphores whose start
value is not negative. -/
theorem op_queueInvariant {op : Op} (hs : Settled s)
    (h : ∀ j, ValidStart s j → QueueInvariant s j) (henabled : op.Enabled s)
    (hok : op.KeepsWaiters s) (hrun : op.perform s = some t) :
    ∀ j, ValidStart t j → QueueInvariant t j := by
  intro j hstart
  by_cases htouch : op.Touches j s
  · cases op with
    | createSemaphoreEnd index name start pid =>
      obtain rfl : index = j := htouch
      exact QueueInvariant.createSemaphoreEnd hok hrun hstart
    | waitEnd i =>
      obtain rfl : i = j := htouch
      have hvalue : t.ledger.start i = s.ledger.start i := by
        obtain ⟨-, -, ⟨-, -, -, ha⟩ | ⟨-, -, ha, -⟩⟩ := waitEnd_spec hs henabled hrun
        · exact congrArg Account.start ha
        · exact congrArg Account.start ha
      exact (h i (by rwa [ValidStart, ← hvalue])).waitEnd hs henabled hok hrun
    | signal i =>
      obtain rfl : i = j := htouch
      have hvalue : t.ledger.start i = s.ledger.start i := by
        obtain ⟨-, -, rfl | ⟨-, -, ⟨p, -, -, ha⟩ | ⟨-, -, ha⟩⟩⟩ := signal_spec hs hrun
        · rfl
        · exact congrArg Account.start ha
        · exact congrArg Account.start ha
      exact (h i (by rwa [ValidStart, ← hvalue])).signal hs hok hrun
    | wake =>
      obtain ⟨g, hg⟩ := htouch
      obtain rfl := Option.some.inj hrun
      have hvalue : s.wake.ledger.start j = s.ledger.start j :=
        congrArg Account.start (wake_spec hg).2.2
      exact (h j (by rwa [ValidStart, ← hvalue])).wake hg
    | _ => exact absurd htouch id
  · have hu := op_untouched hs henabled htouch hrun
    have hvalue : t.ledger.start j = s.ledger.start j := congrArg Account.start hu.account
    exact (h j (by rwa [ValidStart, ← hvalue])).of_untouched hu

theorem IsBoot.queueInvariant (h : IsBoot s) : QueueInvariant s j := by
  have hwait := h.booted.waiters (.semaphore j)
  have hcounter := (h.booted.semaphores j).2.2.2
  obtain ⟨-, -, -, -, -, -, -, -, -, -, -, hledger⟩ := h
  refine ⟨?_, fun _ => ?_, fun hne => ?_⟩
  · rw [hwait, hledger]
    exact List.Perm.refl _
  · rw [hcounter]
    exact ⟨le_rfl, by unfold MachineInt.intMax; omega⟩
  · rw [hledger] at hne
    exact absurd rfl hne

theorem reachable_queueInvariant (h : (machineSystem.restrict KeepsWaiters).Reachable s)
    (hstart : ValidStart s j) : QueueInvariant s j := by
  suffices hall : ∀ j, ValidStart s j → QueueInvariant s j from hall j hstart
  clear hstart
  induction h with
  | start hs => exact fun j _ => IsBoot.queueInvariant hs
  | @next s t a hs hstep ih =>
    have hops : Ops (fun s op => op.KeepsWaiters s) s t :=
      step_ops (fun s op hop => by cases op <;> first | exact absurd hop id | trivial)
        hstep.1.admitted hstep.2
    have hinv : Settled t ∧ ∀ j, ValidStart t j → QueueInvariant t j :=
      hops.invariant (P := fun s => Settled s ∧ ∀ j, ValidStart s j → QueueInvariant s j)
        (fun s op t hs he hok hrun =>
          ⟨(op_settled hs.1 he hrun).1, op_queueInvariant hs.1 hs.2 he hok hrun⟩)
        ⟨reachable_settled hs.of_restrict, ih⟩
    exact hinv.2

theorem QueueInvariant.noWaiterLost (h : QueueInvariant s j) (hs : Settled s) :
    NoWaiterLost s j := by
  refine ⟨fun p hp => hs.parked.blocked _ p (h.queue.mem_iff.mpr hp),
    h.queue.nodup_iff.mp (hs.parked.nodup _), h.queue, ?_, fun hneg => ?_⟩
  · rw [hs.parked.semaphore_cardinal]
    exact h.queue.length_eq
  · have hne : (s.ledger.account j).asleep ≠ [] := fun hempty => by
      have := h.empty hempty
      omega
    rw [h.nonempty hne, neg_neg]
    rfl

/-- `signal` wakes exactly one of the processes that sleep. -/
theorem QueueInvariant.signal_wakes (h : QueueInvariant s j) (hs : Settled s)
    (hrun : s.signal j = some t) (hvalid : isValidSemaphore j s.kernel = true)
    (hne : s.ledger.asleep j ≠ []) :
    ∃ p ∈ s.ledger.asleep j, t.ledger.asleep j = (s.ledger.asleep j).erase p ∧
      ¬ Blocked t.kernel.sched p ∧ ∀ q ∈ t.ledger.asleep j, Held t.kernel q := by
  obtain ⟨-, -, hcases⟩ := signal_spec hs hrun
  have hnonempty : s.kernel.waiters (.semaphore j) ≠ [] := fun hnil => by
    have hperm := h.queue
    rw [hnil] at hperm
    exact hne hperm.nil_eq.symm
  rcases hcases with rfl | ⟨-, -, ⟨p, hwait, hready, haccount⟩ | ⟨hwait, -, -⟩⟩
  · obtain ⟨k', hk, ht⟩ := Option.map_eq_some_iff.mp hrun
    have hsignals : t.ledger.signals j = t.ledger.signals j + 1 := by
      conv_lhs => rw [← ht]
      simp [hvalid, Ledger.signal]
    omega
  · have hperm := h.queue
    rw [hwait, List.cons_perm_iff_perm_erase] at hperm
    have hasleep : t.ledger.asleep j = (s.ledger.asleep j).erase p :=
      congrArg Account.asleep haccount
    refine ⟨p, hperm.1, hasleep, hready, fun q hq => ?_⟩
    rw [hasleep] at hq
    exact (hs.signal hrun).1.parked.blocked _ q (hperm.2.mem_iff.mpr hq)
  · exact absurd hwait hnonempty

end

/-- In a run that keeps the waiters no waiter is lost, and `signal` wakes exactly one. -/
theorem no_waiter_lost {s : Machine} {j : ℤ}
    (h : (machineSystem.restrict KeepsWaiters).Reachable s) (hstart : ValidStart s j) :
    NoWaiterLost s j ∧ ∀ t, step s (.signal j) = some t → isValidSemaphore j s.kernel = true →
      s.ledger.asleep j ≠ [] →
      ∃ p ∈ s.ledger.asleep j, t.ledger.asleep j = (s.ledger.asleep j).erase p ∧
        ¬ Blocked t.kernel.sched p ∧ ∀ q ∈ t.ledger.asleep j, Held t.kernel q := by
  have hs := reachable_settled h.of_restrict
  have hinv := reachable_queueInvariant h hstart
  refine ⟨hinv.noWaiterLost hs, fun t hstep hvalid hne => hinv.signal_wakes hs ?_ hvalid hne⟩
  simp only [step] at hstep
  split_ifs at hstep
  exact hstep

/-! ### Runs -/

/-- Three processes wait on a semaphore with start value 0, then one of them is woken. -/
theorem no_waiter_lost_three : ∃ s t, (machineSystem.restrict KeepsWaiters).Reachable s ∧
    step s (.signal 0) = some t ∧ s.ledger.asleep 0 = [1, 2, 3] ∧ NoWaiterLost s 0 ∧
    ∃ p ∈ s.ledger.asleep 0, t.ledger.asleep 0 = (s.ledger.asleep 0).erase p ∧
      ¬ Blocked t.kernel.sched p ∧ ∀ q ∈ t.ledger.asleep 0, Held t.kernel q := by
  obtain ⟨s, hs, hf⟩ := reachable_restrict_of_execute IsBoot isBoot_bootedMachine
    (show (execute (guarded KeepsWaiters step) bootedMachine
      (createProcesses 3 ++ [.tick, .semCreate 2 0 0, .tick, .wait 0 0, .wait 0 0, .wait 0 0,
        .tick])).map
          (fun s => (s.ledger.asleep 0, s.ledger.start 0, isValidSemaphore 0 s.kernel,
            (step s (.signal 0)).isSome)) = some ([1, 2, 3], 0, true, true) by decide +kernel)
  obtain ⟨hasleep, hf⟩ := Prod.mk.inj hf
  obtain ⟨hstart, hf⟩ := Prod.mk.inj hf
  obtain ⟨hvalid, hsome⟩ := Prod.mk.inj hf
  obtain ⟨t, ht⟩ := Option.isSome_iff_exists.mp hsome
  have hthm := no_waiter_lost hs (j := 0) (by rw [ValidStart, hstart]; decide)
  exact ⟨s, t, hs, ht, hasleep, hthm.1,
    hthm.2 t ht hvalid (by rw [hasleep]; decide)⟩

/-- The twenty-first process that waits is blocked without a slot: no `signal` wakes it. -/
theorem waiter_without_slot : ∃ s, machineSystem.Reachable s ∧ ValidStart s 0 ∧
    (s.ledger.asleep 0).length = 21 ∧ (s.kernel.semaphores 0).cardinalBlocked = 20 ∧
    (s.kernel.semaphores 0).semaphore = -21 ∧ 1 ∈ s.ledger.asleep 0 ∧
    1 ∉ s.kernel.waiters (.semaphore 0) ∧ ¬ NoWaiterLost s 0 := by
  obtain ⟨s, hs, hf⟩ := reachable_replay
    (show (execute step bootedMachine
      (createProcesses 20 ++ [.tick, .semCreate 2 0 0] ++ List.replicate 21 (.wait 0 0))).map
          (fun s => (s.ledger.start 0, s.ledger.asleep 0, s.kernel.waiters (.semaphore 0),
            (s.kernel.semaphores 0).cardinalBlocked, (s.kernel.semaphores 0).semaphore)) =
      some (0, (List.range 21).map (fun i : ℕ => (i : ℤ) + 1),
        (List.range 20).map (fun i : ℕ => 21 - (i : ℤ)), 20, -21) by decide +kernel)
  obtain ⟨hstart, hf⟩ := Prod.mk.inj hf
  obtain ⟨hasleep, hf⟩ := Prod.mk.inj hf
  obtain ⟨hwait, hf⟩ := Prod.mk.inj hf
  obtain ⟨hcard, hcounter⟩ := Prod.mk.inj hf
  have hlen : (s.ledger.asleep 0).length = 21 := by
    rw [hasleep]
    decide
  refine ⟨s, hs, by rw [ValidStart, hstart]; decide, hlen, hcard, hcounter, ?_, ?_, fun h => ?_⟩
  · rw [hasleep]
    decide
  · rw [hwait]
    decide
  · have := h.cardinal
    omega

end GatOS.Sync
