import Mathlib.Data.Finset.Card
import Mathlib.Order.Interval.Finset.Nat
import Mathlib.Data.Int.Interval
import GatOS.SemaphoreFrame

/-!
# Permits of a semaphore

The calls of `wait` on a semaphore that have returned are at most its start value plus the calls
of `signal`. Permits that the counter lacks are owed to processes that are still blocked.
-/
namespace GatOS.Sync
open Scheduler Transition

/-- The value that the counter would have if it were unbounded. -/
def Account.balance (a : Account) : ℤ := a.start + a.signals - a.waits

/-- `sleepers` are the processes that sleep in `wait`, `owed` those of them that have not been
woken. -/
structure Permits (s : Machine) (j : ℤ) (sleepers owed : Finset ℤ) : Prop where
  mem : ∀ p, p ∈ sleepers ↔ s.pending p = some (.sleeping j (s.ledger.account j).generation)
  subset : owed ⊆ sleepers
  held : ∀ p ∈ owed, Held s.kernel p
  counter : MachineInt.int32 (s.kernel.semaphores j).semaphore =
    MachineInt.int32 (s.ledger.account j).balance
  waits : (s.ledger.account j).returned + sleepers.card = (s.ledger.account j).waits
  enough : 0 ≤ (s.ledger.account j).start → 0 ≤ (s.ledger.account j).balance + owed.card
  generations : ∀ p g, s.pending p = some (.sleeping j g) → g ≤ (s.ledger.account j).generation

def PermitInvariant (s : Machine) : Prop := ∀ j, ∃ sleepers owed, Permits s j sleepers owed

theorem int32_step {x y : ℤ} (h : MachineInt.int32 x = MachineInt.int32 y) (d : ℤ) :
    MachineInt.int32 (MachineInt.int32 (x + d)) = MachineInt.int32 (y + d) := by
  rw [← MachineInt.int32_add_left x, h, MachineInt.int32_add_left]
  simpa using MachineInt.int32_add_left (y + d) 0

section

variable {s t : Machine} {j : ℤ} {sleepers owed : Finset ℤ}

/-- A process that sleeps in `wait` stays blocked, unless `signal` takes it out of the queue. -/
theorem op_held (op : Op) (h : Settled s) (henabled : op.Enabled s) (hrun : op.perform s = some t)
    {p : ℤ} {g : ℕ} (hp : s.pending p = some (.sleeping j g)) (hheld : Held s.kernel p)
    (hout : op = .signal j → p ∉ s.kernel.waiters (.semaphore j)) : Held t.kernel p := by
  have hne : p ≠ s.pid := fun he => h.current_held (he ▸ hheld)
  have hqueue : ∀ q ≠ QueueId.semaphore j, p ∉ s.kernel.waiters q := fun q hq hmem => by
    obtain ⟨c, hc, hcq⟩ := h.parked.waiting q p hmem
    rw [hp] at hc
    exact hq (hcq.symm.trans (congrArg Pending.queue (Option.some.inj hc)).symm)
  have hframe : Frame s.kernel t.kernel s.pid → Held t.kernel p := fun hf =>
    hf.held p hne (h.parked.range p _ hp).2 (fun i => hqueue _ (by simp)) hheld
  cases op with
  | switch => exact hframe (h.switch hrun).2
  | createProcess page =>
    obtain rfl := Option.some.inj hrun
    exact hframe (h.createProcess henabled).2
  | removeProcess pid => exact (h.removeProcess hrun).2.2.2.2 p hheld
  | lock mutex garbage rest =>
    obtain ⟨⟨returned, u⟩, hlock, rfl⟩ := Option.map_eq_some_iff.mp hrun
    exact hframe (h.lock henabled hlock).2
  | free mutex => exact hframe (h.free hrun).2
  | getMutexEnd name => exact hframe (h.getMutexEnd hrun).2
  | close mutex => exact hframe (h.close hrun).2
  | reserve index name =>
    obtain rfl := Option.some.inj hrun
    exact hframe (h.reserve index name).2
  | createSemaphoreEnd index name start pid => exact hframe (h.createSemaphoreEnd hrun).2
  | closeSemaphore i => exact hframe (h.closeSemaphore hrun).2
  | waitEnd i => exact hframe (h.waitEnd henabled hrun).2.1
  | signal i =>
    have hwakes := (h.signal hrun).2.1
    intro hin
    rw [hwakes.pids] at hin
    refine hwakes.still p (hheld hin) ?_
    by_cases hi : i = j
    · subst hi
      exact hout rfl
    · exact hqueue _ (by simp [hi])
  | wake =>
    obtain rfl := Option.some.inj hrun
    rwa [wake_kernel]
  | store strings =>
    obtain rfl := Option.some.inj hrun
    exact hframe (h.store strings).2

theorem Permits.of_untouched (h : Permits s j sleepers owed) (hu : Untouched j s t)
    (hheld : ∀ p ∈ owed, Held t.kernel p) : Permits t j sleepers owed := by
  obtain ⟨hmem, hsubset, -, hcounter, hwaits, henough, hgen⟩ := h
  refine ⟨fun p => ?_, hsubset, hheld, ?_, ?_, ?_, fun p g hp => ?_⟩
  · rw [hu.account, hu.pending]
    exact hmem p
  · rw [hu.account, hu.counter]
    exact hcounter
  · rw [hu.account]
    exact hwaits
  · rw [hu.account]
    exact henough
  · rw [hu.account]
    exact hgen p g ((hu.pending p g).mp hp)

/-- There are never more processes than pages. -/
theorem Permits.card_owed_le (h : Permits s j sleepers owed) (hs : Settled s) :
    owed.card ≤ 1024 := by
  have hsub : owed ⊆ Finset.Ico 0 1024 := fun p hp => by
    obtain ⟨h0, hlt⟩ := hs.parked.range p _ ((h.mem p).mp (h.subset hp))
    have hle : s.kernel.sched.pid ≤ 1024 := hs.parked.ring.pid_le
    exact Finset.mem_Ico.mpr ⟨h0, hlt.trans_le hle⟩
  simpa using Finset.card_le_card hsub

/-- `wait` returns only if there is a permit. -/
theorem Permits.balance_pos (h : Permits s j sleepers owed) (hs : Settled s)
    (hstart : 0 ≤ (s.ledger.account j).start)
    (hpos : 0 ≤ MachineInt.int32 ((s.kernel.semaphores j).semaphore - 1)) :
    0 < (s.ledger.account j).balance := by
  by_contra hneg
  have hcard := h.card_owed_le hs
  have henough := h.enough hstart
  rw [← MachineInt.int32_sub_left, h.counter, MachineInt.int32_sub_left,
    MachineInt.int32_eq (by unfold MachineInt.intMin; omega) (by unfold MachineInt.intMax; omega)]
    at hpos
  omega

/-! ### The operations -/

theorem Permits.createSemaphoreEnd (h : Permits s j sleepers owed) {name : ℕ} {start pid : ℤ}
    (hrun : s.createSemaphoreEnd j name start pid = some t) : Permits t j ∅ ∅ := by
  obtain ⟨hcounter, -, haccount, hpending, -⟩ := createSemaphoreEnd_spec hrun
  have hgen : ∀ p g, t.pending p = some (.sleeping j g) → g ≤ s.ledger.generation j :=
    fun p g hp => by
      rw [hpending] at hp
      exact h.generations p g hp
  refine ⟨fun p => ?_, Finset.empty_subset _, ?_, ?_, ?_, ?_, fun p g hp => ?_⟩
  · rw [haccount]
    refine ⟨fun hp => absurd hp (Finset.notMem_empty p), fun hp => ?_⟩
    exact absurd (hgen p _ hp) (Nat.not_succ_le_self _)
  · exact fun p hp => absurd hp (Finset.notMem_empty p)
  · rw [hcounter, haccount]
    simp [Account.balance]
  · rw [haccount]
    rfl
  · rw [haccount]
    simp [Account.balance]
  · rw [haccount]
    exact (hgen p g hp).trans (Nat.le_succ _)

theorem Permits.waitEnd (h : Permits s j sleepers owed) (hs : Settled s) (hidle : s.idle = true)
    (hrun : s.waitEnd j = some t) : ∃ sleepers owed, Permits t j sleepers owed := by
  have hnone := Machine.pending_of_idle hidle
  have hheld : ∀ p ∈ owed, Held t.kernel p := fun p hp =>
    op_held (.waitEnd j) hs hidle hrun ((h.mem p).mp (h.subset hp)) (h.held p hp)
      fun he => absurd he (by simp)
  obtain ⟨hcounter, -, hcases⟩ := waitEnd_spec hs hidle hrun
  have hstep : MachineInt.int32 (t.kernel.semaphores j).semaphore =
      MachineInt.int32 ((s.ledger.account j).balance - 1) := by
    rw [hcounter]
    exact int32_step h.counter (-1)
  obtain ⟨hmem, hsubset, -, -, hwaits, henough, hgen⟩ := id h
  rcases hcases with ⟨hpos, hpending, -, haccount⟩ | ⟨-, hpending, haccount, -⟩
  · refine ⟨sleepers, owed, fun p => ?_, hsubset, hheld, ?_, ?_, ?_, fun p g hp => ?_⟩
    · rw [hpending, haccount]
      exact hmem p
    · rw [hstep, haccount]
      congr 1
      simp only [Account.balance, Ledger.account]
      push_cast
      omega
    · rw [haccount]
      simp only [Ledger.account] at hwaits ⊢
      omega
    · rw [haccount]
      intro hstart
      have hbalance := h.balance_pos hs hstart (hcounter ▸ hpos)
      simp only [Account.balance, Ledger.account] at hbalance ⊢
      push_cast
      omega
    · rw [hpending] at hp
      rw [haccount]
      exact hgen p g hp
  · have hme : s.pid ∉ sleepers := fun hp => by simp [(hmem _).mp hp] at hnone
    refine ⟨insert s.pid sleepers, insert s.pid owed, fun p => ?_,
      Finset.insert_subset_insert _ hsubset, fun p hp => ?_, ?_, ?_, ?_, fun p g hp => ?_⟩
    · rw [hpending, haccount, Finset.mem_insert]
      by_cases hp : p = s.pid
      · rw [hp, assign_self]
        exact ⟨fun _ => rfl, fun _ => Or.inl rfl⟩
      · rw [assign_ne _ _ hp, hmem p]
        exact ⟨fun h => h.resolve_left hp, Or.inr⟩
    · rcases Finset.mem_insert.mp hp with rfl | hp
      · refine (hs.waitEnd hidle hrun).2.2 ?_
        rw [hpending, assign_self]
        simp
      · exact hheld p hp
    · rw [hstep, haccount]
      congr 1
      simp only [Account.balance, Ledger.account]
      push_cast
      omega
    · rw [haccount, Finset.card_insert_of_notMem hme]
      simp only [Ledger.account] at hwaits ⊢
      omega
    · rw [haccount, Finset.card_insert_of_notMem fun hp => hme (hsubset hp)]
      intro hstart
      have := henough hstart
      simp only [Account.balance, Ledger.account] at this ⊢
      push_cast
      omega
    · rw [haccount]
      rw [hpending] at hp
      by_cases hpid : p = s.pid
      · rw [hpid, assign_self, Option.some.injEq, Pending.sleeping.injEq] at hp
        exact hp.2.ge
      · rw [assign_ne _ _ hpid] at hp
        exact hgen p g hp

/-- `signal` wakes at most one sleeping process. -/
theorem Permits.signal (h : Permits s j sleepers owed) (hs : Settled s)
    (hrun : s.signal j = some t) : ∃ sleepers owed, Permits t j sleepers owed := by
  obtain ⟨hpending, -, hcases⟩ := signal_spec hs hrun
  rcases hcases with rfl | ⟨-, hcounter, hcases⟩
  · exact ⟨sleepers, owed, h⟩
  obtain ⟨hmem, hsubset, hheld, -, hwaits, henough, hgen⟩ := id h
  have hstep : MachineInt.int32 (t.kernel.semaphores j).semaphore =
      MachineInt.int32 ((s.ledger.account j).balance + 1) := by
    rw [hcounter]
    exact int32_step h.counter 1
  -- who is woken, if anybody is
  have hwoken : ∃ woken : Finset ℤ, woken.card ≤ 1 ∧
      ∀ p ∈ s.kernel.waiters (.semaphore j), p ∉ woken →
        p ∈ t.kernel.waiters (.semaphore j) := by
    rcases hcases with ⟨p, hwait, -⟩ | ⟨hwait, -, -⟩
    · refine ⟨{p}, by simp, fun q hq hne => ?_⟩
      rw [hwait] at hq
      exact (List.mem_cons.mp hq).resolve_left (by simpa using hne)
    · refine ⟨∅, by simp, fun q hq => ?_⟩
      rw [hwait] at hq
      exact absurd hq (by simp)
  obtain ⟨woken, hcard, hstay⟩ := hwoken
  have haccount : ∃ asleep, t.ledger.account j = { s.ledger.account j with
      signals := (s.ledger.account j).signals + 1
      asleep := asleep } := by
    rcases hcases with ⟨p, -, -, ha⟩ | ⟨-, -, ha⟩
    · exact ⟨_, ha⟩
    · exact ⟨_, ha⟩
  obtain ⟨asleep, haccount⟩ := haccount
  refine ⟨sleepers, owed \ woken, fun p => ?_, Finset.sdiff_subset.trans hsubset, fun p hp => ?_,
    ?_, ?_, ?_, fun p g hp => ?_⟩
  · rw [hpending, haccount]
    exact hmem p
  · obtain ⟨hp, hne⟩ := Finset.mem_sdiff.mp hp
    by_cases hin : p ∈ s.kernel.waiters (.semaphore j)
    · exact (hs.signal hrun).1.parked.blocked _ p (hstay p hin hne)
    · exact op_held (.signal j) hs trivial hrun ((hmem p).mp (hsubset hp)) (hheld p hp)
        fun _ => hin
  · rw [hstep, haccount]
    congr 1
    simp only [Account.balance]
    push_cast
    omega
  · rw [haccount]
    exact hwaits
  · rw [haccount]
    intro hstart
    have hbalance := henough hstart
    have hle := Finset.le_card_sdiff woken owed
    simp only [Account.balance] at hbalance ⊢
    push_cast
    omega
  · rw [hpending] at hp
    rw [haccount]
    exact hgen p g hp

/-- A process that goes on is no longer owed a permit. -/
theorem Permits.wake (h : Permits s j sleepers owed) (hs : Settled s) {g : ℕ}
    (hpending : s.pending s.pid = some (.sleeping j g)) :
    ∃ sleepers owed, Permits s.wake j sleepers owed := by
  obtain ⟨-, hcounter, haccount⟩ := wake_spec hpending
  obtain ⟨hmem, hsubset, hheld, hcount, hwaits, henough, hgen⟩ := id h
  have hme : s.pid ∉ owed := fun hp => hs.current_held (hheld _ hp)
  have hiff : s.pid ∈ sleepers ↔ g = s.ledger.generation j := by
    rw [hmem, hpending, Option.some.injEq, Pending.sleeping.injEq]
    exact ⟨fun he => he.2, fun he => ⟨rfl, he⟩⟩
  refine ⟨sleepers.erase s.pid, owed, fun p => ?_, fun p hp => ?_, fun p hp => ?_, ?_, ?_, ?_,
    fun p g' hp => ?_⟩
  · rw [wake_pending, haccount, Finset.mem_erase]
    by_cases hp : p = s.pid
    · rw [hp, assign_self]
      simp
    · rw [assign_ne _ _ hp, hmem p]
      exact ⟨fun h => h.2, fun h => ⟨hp, h⟩⟩
  · exact Finset.mem_erase.mpr ⟨fun he => hme (he ▸ hp), hsubset hp⟩
  · rw [wake_kernel]
    exact hheld p hp
  · rw [hcounter, haccount]
    exact hcount
  · rw [haccount]
    by_cases hg : g = s.ledger.generation j
    · rw [if_pos hg, Finset.card_erase_of_mem (hiff.mpr hg)]
      have := Finset.card_pos.mpr ⟨_, hiff.mpr hg⟩
      simp only [Ledger.account] at hwaits ⊢
      omega
    · rw [if_neg hg, Finset.erase_eq_of_notMem fun hp => hg (hiff.mp hp)]
      exact hwaits
  · rw [haccount]
    exact henough
  · rw [haccount]
    rw [wake_pending] at hp
    by_cases hpid : p = s.pid
    · rw [hpid, assign_self] at hp
      exact absurd hp (by simp)
    · rw [assign_ne _ _ hpid] at hp
      exact hgen p g' hp

/-- Every operation keeps the permits in balance. -/
theorem op_permits {op : Op} (hs : Settled s) (h : PermitInvariant s) (henabled : op.Enabled s)
    (hrun : op.perform s = some t) : PermitInvariant t := by
  intro j
  obtain ⟨sleepers, owed, hj⟩ := h j
  by_cases htouch : op.Touches j s
  · cases op with
    | createSemaphoreEnd index name start pid =>
      obtain rfl : index = j := htouch
      exact ⟨∅, ∅, hj.createSemaphoreEnd hrun⟩
    | waitEnd i =>
      obtain rfl : i = j := htouch
      exact hj.waitEnd hs henabled hrun
    | signal i =>
      obtain rfl : i = j := htouch
      exact hj.signal hs hrun
    | wake =>
      obtain ⟨g, hg⟩ := htouch
      obtain rfl := Option.some.inj hrun
      exact hj.wake hs hg
    | _ => exact absurd htouch id
  · have hu := op_untouched hs henabled htouch hrun
    refine ⟨sleepers, owed, hj.of_untouched hu fun p hp => ?_⟩
    refine op_held _ hs henabled hrun ((hj.mem p).mp (hj.subset hp)) (hj.held p hp) ?_
    rintro rfl
    exact absurd rfl htouch

theorem IsBoot.permitInvariant (h : IsBoot s) : PermitInvariant s := by
  have hsem := h.booted.semaphores
  obtain ⟨-, -, -, -, -, -, -, -, -, -, hpending, hledger⟩ := h
  refine fun j => ⟨∅, ∅, fun p => ?_, Finset.empty_subset _, ?_, ?_, ?_, ?_, fun p g hp => ?_⟩
  · simp [hpending]
  · exact fun p hp => absurd hp (Finset.notMem_empty p)
  · rw [(hsem j).2.2.2, hledger]
    rfl
  · rw [hledger]
    rfl
  · rw [hledger]
    exact fun _ => le_rfl
  · simp [hpending] at hp

theorem reachable_permitInvariant (h : machineSystem.Reachable s) : PermitInvariant s :=
  (reachable_of_ops (P := PermitInvariant) (fun _ hs => hs.permitInvariant)
    (fun _ _ _ hs hp he hrun => op_permits hs hp he hrun) h).2

/-- At every moment of every run the calls of `wait` that have returned are at most the start
value plus the calls of `signal`. -/
theorem returned_le_permits (h : machineSystem.Reachable s) (hstart : 0 ≤ s.ledger.start j) :
    (s.ledger.returned j : ℤ) ≤ s.ledger.start j + s.ledger.signals j := by
  obtain ⟨sleepers, owed, hj⟩ := reachable_permitInvariant h j
  have hle := Finset.card_le_card hj.subset
  have hwaits := hj.waits
  have henough := hj.enough hstart
  simp only [Account.balance, Ledger.account] at hwaits henough
  omega

/-- With start value 1 a first `wait` returns, a second one returns after a `signal`, and a third
one sleeps; its process is removed. -/
theorem returned_le_permits_run : ∃ s, machineSystem.Reachable s ∧ s.ledger.start 0 = 1 ∧
    s.ledger.waits 0 = 3 ∧ s.ledger.signals 0 = 1 ∧ s.ledger.returned 0 = 2 ∧
    (s.ledger.returned 0 : ℤ) ≤ s.ledger.start 0 + s.ledger.signals 0 := by
  obtain ⟨s, hs, hf⟩ := reachable_replay
    (show (execute step bootedMachine
      (createProcesses 2 ++ [.tick, .semCreate 2 1 0, .wait 0 0, .tick, .wait 0 0, .wait 0 0, .tick,
        .signal 0, .removeProcess 1, .tick, .resume 0])).map
          (fun s => (s.ledger.start 0, s.ledger.waits 0, s.ledger.signals 0, s.ledger.returned 0)) =
      some (1, 3, 1, 2) by decide +kernel)
  obtain ⟨hstart, hf⟩ := Prod.mk.inj hf
  obtain ⟨hwaits, hf⟩ := Prod.mk.inj hf
  obtain ⟨hsignals, hreturned⟩ := Prod.mk.inj hf
  exact ⟨s, hs, hstart, hwaits, hsignals, hreturned,
    returned_le_permits hs (by rw [hstart]; decide)⟩

end

end GatOS.Sync
