import GatOS.MutexExclusion
import GatOS.SemaphoreCalls

/-!
# Calls on one mutex

What a step of the machine does to one mutex: most calls leave it alone, and the calls of
`lockMutex` and `freeMutex` on it keep it exclusive.
-/
namespace GatOS.Sync
open Scheduler Transition

/-- The operations that do not touch mutex `m`, in a state where no semaphore has it. -/
def Op.Spares (m : ℤ) (s : Machine) : Op → Prop
  | .switch | .createProcess _ | .removeProcess _ | .signal _ => True
  | .lock i _ _ => i ≠ m
  | .free i => i ≠ m
  | .waitEnd j => (s.kernel.semaphores j).mutex ≠ m
  | .wake => ∀ rest, s.pending s.pid ≠ some (.locking m rest)
  | _ => False

/-- The rest of a call of `wait`. -/
def Rest.spares (m : ℤ) (k : Kernel) : Rest → Bool
  | .lockMutex => true
  | .wait j => (k.semaphores j).mutex ≠ m
  | _ => false

def Pending.spares (m : ℤ) (k : Kernel) : Pending → Bool
  | .locking i rest => i ≠ m ∧ rest.spares m k
  | .sleeping _ _ => true

/-- The steps that do not touch mutex `m`. -/
def Action.spares (m : ℤ) (s : Machine) : Action → Bool
  | .tick | .createProcess _ | .removeProcess _ | .signal _ => true
  | .lockMutex i _ => i ≠ m
  | .freeMutex i => i ≠ m
  | .wait j _ => 0 ≤ j → isValidSemaphore j s.kernel → (s.kernel.semaphores j).mutex ≠ m
  | .resume _ => (s.pending s.pid).all fun c => c.spares m s.kernel
  | _ => false

/-- `lockMutex`, or the rest of it when the process is suspended there. -/
def lockOn (mutex garbage : ℤ) (s : Machine) : Option Machine :=
  step s (if s.idle then .lockMutex mutex garbage else .resume garbage)

/-- What every step keeps of mutex `m` and of the processes other than `me`. -/
structure KeepsMutex (m me : ℤ) (s t : Machine) : Prop where
  settled : Settled t
  exclusive : Exclusive t m
  valid : isValidMutex m t.kernel = isValidMutex m s.kernel
  names : SameNames s.kernel t.kernel
  count : s.kernel.sched.pid ≤ t.kernel.sched.pid
  pending : ∀ p ≠ me, t.pending p = s.pending p

section

variable {m me j garbage : ℤ} {k k' : Kernel} {s t u : Machine}

theorem KeepsMutex.trans (h : KeepsMutex m me s t) (g : KeepsMutex m me t u) :
    KeepsMutex m me s u :=
  ⟨g.settled, g.exclusive, g.valid.trans h.valid, h.names.trans g.names, h.count.trans g.count,
    fun p hp => (g.pending p hp).trans (h.pending p hp)⟩

/-! ### The operations -/

theorem signal_mutexes (h : signal j k = some k') : k'.mutexes = k.mutexes := by
  unfold signal at h
  split_ifs at h
  · rw [← Option.some.inj h]
    unfold unblockProcessSemaphore
    dsimp only
    split <;> rfl
  · rw [← Option.some.inj h]
    rfl
  · rw [← Option.some.inj h]

/-- The end of `wait` frees the mutex of the semaphore. -/
theorem waitRest_mutexes {returned : Bool} (hpid : 0 ≤ k.pid)
    (hcard : (k.mutexes (k.semaphores j).mutex).cardinalBlocked =
      (waitersOf (k.mutexes (k.semaphores j).mutex).queue).length)
    (h : waitRest j k = some (returned, k')) :
    (∀ i, isValidMutex i k' = isValidMutex i k) ∧
      ∀ i ≠ (k.semaphores j).mutex, k'.mutexes i = k.mutexes i := by
  rcases waitRest_cases hpid h with
    ⟨-, -, hf⟩ | ⟨-, -, -, queue, k₁, -, hf, hy⟩ | ⟨-, -, -, k₁, hf, hy⟩
  · obtain ⟨hslots, hne⟩ := freeMutex_slots (k := decrement j k) hcard hf
    exact ⟨hslots.valid, hne⟩
  · obtain ⟨hslots, hne⟩ := freeMutex_slots (by exact hcard) hf
    refine ⟨fun i => ((yield_slots hy).valid i).trans (hslots.valid i), fun i hi => ?_⟩
    rw [(yield_tables hy).2.1, hne i hi]
    rfl
  · obtain ⟨hslots, hne⟩ := freeMutex_slots (by exact hcard) hf
    refine ⟨fun i => ((yield_slots hy).valid i).trans (hslots.valid i), fun i hi => ?_⟩
    rw [(yield_tables hy).2.1, hne i hi]
    rfl

theorem op_untouchedMutex {op : Op} (h : Settled s) (henabled : op.Enabled s)
    (hspares : op.Spares m s) (hrun : op.perform s = some t) :
    MutexUntouched m s t ∧ isValidMutex m t.kernel = isValidMutex m s.kernel := by
  cases op with
  | switch =>
    obtain ⟨k', hk, rfl⟩ := Option.map_eq_some_iff.mp hrun
    exact ⟨.of_slot (by rw [(yield_tables hk).2.1]) rfl rfl, (yield_slots hk).valid m⟩
  | createProcess page =>
    obtain rfl := Option.some.inj hrun
    exact ⟨.of_slot rfl rfl rfl, rfl⟩
  | removeProcess pid =>
    obtain ⟨sched, -, rfl⟩ := Option.map_eq_some_iff.mp hrun
    exact ⟨.of_slot rfl rfl rfl, rfl⟩
  | lock i garbage rest =>
    obtain ⟨⟨returned, u⟩, hlock, rfl⟩ := Option.map_eq_some_iff.mp hrun
    obtain ⟨hslots, hne, -⟩ := lock_spec h henabled hlock
    exact ⟨hne m (Ne.symm hspares), hslots.valid m⟩
  | free i =>
    obtain ⟨hslots, hne, -⟩ := free_spec h hrun
    exact ⟨hne m (Ne.symm hspares), hslots.valid m⟩
  | waitEnd i =>
    have hnone := Machine.pending_of_idle henabled
    obtain ⟨⟨returned, k'⟩, hk, ht⟩ := Option.map_eq_some_iff.mp hrun
    obtain ⟨hvalid, hne⟩ := waitRest_mutexes h.parked.current_range.1 (h.parked.mutex_cardinal _) hk
    have hslot := hne m (Ne.symm hspares)
    cases returned with
    | true =>
      simp only [if_true] at ht
      subst ht
      exact ⟨.of_slot hslot (release_ne _ _ (Ne.symm hspares)) rfl, hvalid m⟩
    | false =>
      simp only [Bool.false_eq_true, if_false] at ht
      subst ht
      refine ⟨⟨congrArg Mutex.mutex hslot, congrArg (fun x : Mutex => waitersOf x.queue) hslot,
        release_ne _ _ (Ne.symm hspares), fun p rest => ?_⟩, hvalid m⟩
      show assign s.pending s.pid _ p = _ ↔ _
      by_cases hp : p = s.pid
      · subst hp
        simp [hnone]
      · rw [assign_ne _ _ hp]
  | signal i =>
    obtain ⟨k', hk, rfl⟩ := Option.map_eq_some_iff.mp hrun
    have hmutexes := signal_mutexes hk
    refine ⟨.of_slot (by rw [hmutexes]) ?_ rfl, by simp only [isValidMutex, hmutexes]⟩
    dsimp only
    split_ifs <;> rfl
  | wake =>
    obtain rfl := Option.some.inj hrun
    refine ⟨⟨by rw [wake_kernel], by rw [wake_kernel], ?_, fun p rest => ?_⟩, by rw [wake_kernel]⟩
    · unfold Machine.wake
      dsimp only
      split
      · rfl
      · rename_i i rest hpending
        refine hold_ne _ _ ?_
        rintro rfl
        exact hspares rest hpending
      · split_ifs <;> rfl
    · rw [wake_pending]
      by_cases hp : p = s.pid
      · rw [hp, assign_self]
        simp [hspares rest]
      · rw [assign_ne _ _ hp]
  | _ => exact hspares.elim

theorem op_keepsMutex (op : Op) (h : Settled s) (hm : Exclusive s m) (henabled : op.Enabled s)
    (hspares : op.Spares m s) (hrun : op.perform s = some t) :
    KeepsMutex m s.pid s t ∧ t.ledger.holders m = s.ledger.holders m := by
  have hkeeps : op.KeepsNames := by
    cases op with
    | reserve index name => exact hspares.elim
    | createSemaphoreEnd index name start pid => exact hspares.elim
    | closeSemaphore i => exact hspares.elim
    | store strings => exact hspares.elim
    | _ => trivial
  obtain ⟨huntouched, hvalid⟩ := op_untouchedMutex h henabled hspares hrun
  exact ⟨⟨(op_settled h henabled hrun).1, hm.of_untouched huntouched, hvalid,
    op_names hkeeps hrun, op_count h henabled hrun, fun _ => op_pending hrun⟩, huntouched.holders⟩

/-! ### Steps on other objects -/

theorem lock_spares {mutex : ℤ} {rest : Rest} {returned : Bool} (h : Settled s)
    (hm : Exclusive s m) (hidle : s.idle = true) (hne : mutex ≠ m)
    (hlock : s.lock mutex garbage rest = some (returned, t)) :
    KeepsMutex m s.pid s t ∧ t.ledger.holders m = s.ledger.holders m := by
  refine op_keepsMutex (.lock mutex garbage rest) h hm hidle hne ?_
  rw [Op.perform, hlock, Option.map_some]

theorem proceed_spares {rest : Rest} (h : Settled s) (hm : Exclusive s m) (hidle : s.idle = true)
    (hrest : rest.spares m s.kernel = true) (hrun : s.proceed garbage rest = some t) :
    KeepsMutex m s.pid s t ∧ t.ledger.holders m = s.ledger.holders m := by
  cases rest with
  | lockMutex =>
    obtain rfl := Option.some.inj hrun
    exact ⟨⟨h, hm, rfl, SameNames.refl _, le_rfl, fun _ _ => rfl⟩, rfl⟩
  | wait i =>
    have hne : (s.kernel.semaphores i).mutex ≠ m := of_decide_eq_true hrest
    exact op_keepsMutex (.waitEnd i) h hm hidle hne hrun
  | _ => exact absurd hrest (by simp [Rest.spares])

theorem Rest.spares_congr {rest : Rest} (h : SameNames k k') :
    rest.spares m k' = rest.spares m k := by
  cases rest <;> simp [spares, h.mutex]

theorem Pending.spares_congr {c : Pending} (h : SameNames k k') :
    c.spares m k' = c.spares m k := by
  cases c <;> simp [spares, Rest.spares_congr h]

theorem lockThen_spares {mutex : ℤ} {rest : Rest} (h : Settled s) (hm : Exclusive s m)
    (hidle : s.idle = true) (hne : mutex ≠ m) (hrest : rest.spares m s.kernel = true)
    (hrun : s.lockThen mutex garbage rest = some t) :
    KeepsMutex m s.pid s t ∧ t.ledger.holders m = s.ledger.holders m := by
  rcases lockThen_cases hrun with hlock | ⟨u, hlock, hrun⟩
  · exact lock_spares h hm hidle hne hlock
  · obtain ⟨hkeeps, hholders⟩ := lock_spares h hm hidle hne hlock
    obtain ⟨hsched, -, hpending⟩ := lock_returned hlock
    have hpid : u.pid = s.pid := congrArg getCurrentPid hsched
    obtain ⟨hkeeps', hholders'⟩ := proceed_spares hkeeps.settled hkeeps.exclusive
      (idle_of_sched hsched hpending hidle) ((Rest.spares_congr hkeeps.names).trans hrest) hrun
    rw [hpid] at hkeeps'
    exact ⟨hkeeps.trans hkeeps', hholders'.trans hholders⟩

theorem step_spares {a : Action} (h : Settled s) (hm : Exclusive s m)
    (hspares : a.spares m s = true) (hstep : step s a = some t) :
    KeepsMutex m s.pid s t ∧ t.ledger.holders m = s.ledger.holders m := by
  cases a with
  | tick =>
    simp only [step] at hstep
    split_ifs at hstep
    exact op_keepsMutex .switch h hm trivial trivial hstep
  | createProcess page =>
    simp only [step] at hstep
    split_ifs at hstep with hc
    exact op_keepsMutex (.createProcess page) h hm hc.2 trivial hstep
  | removeProcess pid =>
    simp only [step] at hstep
    split_ifs at hstep
    exact op_keepsMutex (.removeProcess pid) h hm trivial trivial hstep
  | signal i =>
    obtain ⟨-, hrun⟩ := step_call hstep
    exact op_keepsMutex (.signal i) h hm trivial trivial hrun
  | lockMutex i garbage =>
    obtain ⟨hidle, hrun⟩ := step_call hstep
    exact lockThen_spares h hm hidle (of_decide_eq_true hspares) rfl hrun
  | freeMutex i =>
    obtain ⟨-, hrun⟩ := step_call hstep
    have hne : i ≠ m := of_decide_eq_true hspares
    exact op_keepsMutex (.free i) h hm trivial hne hrun
  | wait i garbage =>
    obtain ⟨hidle, hrun⟩ := step_call hstep
    simp only [Machine.call, Machine.wait] at hrun
    split_ifs at hrun with hneg hvalid
    · have hne : (s.kernel.semaphores i).mutex ≠ m := of_decide_eq_true hspares (by omega) hvalid
      have hrest : (Rest.wait i).spares m s.kernel = true := decide_eq_true hne
      exact lockThen_spares h hm hidle hne hrest hrun
    · rw [← Option.some.inj hrun]
      exact ⟨⟨h, hm, rfl, SameNames.refl _, le_rfl, fun _ _ => rfl⟩, rfl⟩
  | resume garbage =>
    rcases resume_cases hstep with ⟨mutex, rest, hpending, hrest⟩ | ⟨i, g, hpending, rfl⟩
    · rw [Action.spares, hpending] at hspares
      obtain ⟨hne, hrestSpares⟩ := of_decide_eq_true hspares
      obtain ⟨hkeeps, hholders⟩ := op_keepsMutex .wake h hm
        (by simp [Op.Enabled, Machine.idle, hpending])
        (fun rest' he => hne (Pending.locking.inj (Option.some.inj (hpending.symm.trans he))).1) rfl
      obtain ⟨hkeeps', hholders'⟩ := proceed_spares hkeeps.settled hkeeps.exclusive wake_idle
        ((Rest.spares_congr hkeeps.names).trans hrestSpares) hrest
      rw [wake_pid] at hkeeps'
      exact ⟨hkeeps.trans hkeeps', hholders'.trans hholders⟩
    · refine op_keepsMutex .wake h hm (by simp [Op.Enabled, Machine.idle, hpending])
        (fun rest he => ?_) rfl
      rw [hpending] at he
      exact absurd he (by simp)
  | _ => exact absurd hspares (by simp [Action.spares])

/-! ### Where a call is suspended -/

theorem waitEnd_pending (hidle : s.idle = true) (hrun : s.waitEnd j = some t) :
    t.pending s.pid = none ∨ ∃ g, t.pending s.pid = some (.sleeping j g) := by
  obtain ⟨⟨returned, k'⟩, -, rfl⟩ := Option.map_eq_some_iff.mp hrun
  cases returned with
  | true => exact Or.inl (Machine.pending_of_idle hidle)
  | false => exact Or.inr ⟨_, assign_self _ _ _⟩

theorem wait_pending (hspares : (Action.wait j garbage).spares m s = true)
    (hstep : step s (.wait j garbage) = some t) :
    ∀ c, t.pending s.pid = some c → c.spares m s.kernel = true := by
  intro c hc
  obtain ⟨hidle, hrun⟩ := step_call hstep
  simp only [Machine.call, Machine.wait] at hrun
  split_ifs at hrun with hneg hvalid
  · have hne : (s.kernel.semaphores j).mutex ≠ m := of_decide_eq_true hspares (by omega) hvalid
    rcases lockThen_cases hrun with hlock | ⟨u, hlock, hend⟩
    · rw [lock_pending hlock] at hc
      obtain rfl := Option.some.inj hc
      exact decide_eq_true ⟨hne, decide_eq_true hne⟩
    · obtain ⟨hsched, -, hpending⟩ := lock_returned hlock
      have hpid : u.pid = s.pid := congrArg getCurrentPid hsched
      have hcases := waitEnd_pending (idle_of_sched hsched hpending hidle) hend
      rw [hpid, hc] at hcases
      rcases hcases with hnone | ⟨g, hsleeping⟩
      · exact absurd hnone (by simp)
      · obtain rfl := Option.some.inj hsleeping
        rfl
  · rw [← Option.some.inj hrun, Machine.pending_of_idle hidle] at hc
    exact absurd hc (by simp)

theorem resume_pending {c : Pending} (hpending : s.pending s.pid = some c)
    (hspares : c.spares m s.kernel = true) (hstep : step s (.resume garbage) = some t) :
    ∀ c', t.pending s.pid = some c' → c'.spares m s.kernel = true := by
  intro c' hc'
  have hwake : s.wake.pending s.pid = none := by rw [wake_pending, assign_self]
  rcases resume_cases hstep with ⟨mutex, rest, hc, hrest⟩ | ⟨i, g, hc, rfl⟩
  · obtain rfl : c = .locking mutex rest := Option.some.inj (hpending.symm.trans hc)
    obtain ⟨-, hrestSpares⟩ := of_decide_eq_true hspares
    cases rest with
    | lockMutex =>
      obtain rfl := Option.some.inj hrest
      rw [hwake] at hc'
      exact absurd hc' (by simp)
    | wait j =>
      have hcases := waitEnd_pending wake_idle hrest
      rw [wake_pid, hc'] at hcases
      rcases hcases with hnone | ⟨g, hsleeping⟩
      · exact absurd hnone (by simp)
      · obtain rfl := Option.some.inj hsleeping
        rfl
    | _ => exact absurd hrestSpares (by simp [Rest.spares])
  · rw [hwake] at hc'
    exact absurd hc' (by simp)

/-! ### Locking and freeing the mutex -/

/-- `lockMutex` on `m` returns with the mutex, or the process is suspended. -/
theorem step_lock (h : Settled s) (hm : Exclusive s m) (hvalid : isValidMutex m s.kernel = true)
    (hroom : FindsRoom s (.lockMutex m garbage)) (hstep : step s (.lockMutex m garbage) = some t) :
    KeepsMutex m s.pid s t ∧
      ((t.pending s.pid = none ∧ t.ledger.holders m = s.pid :: s.ledger.holders m) ∨
        (t.pending s.pid = some (.locking m .lockMutex) ∧
          t.ledger.holders m = s.ledger.holders m)) := by
  obtain ⟨hidle, hrun⟩ := step_call hstep
  have hkeeps : ∀ returned u, s.lock m garbage .lockMutex = some (returned, u) →
      KeepsMutex m s.pid s u := fun returned u hlock => by
    have hop : (Op.lock m garbage .lockMutex).perform s = some u := by
      rw [Op.perform, hlock, Option.map_some]
    have henabled : (Op.lock m garbage .lockMutex).Enabled s := hidle
    have hnames : (Op.lock m garbage .lockMutex).KeepsNames := trivial
    exact ⟨(h.lock hidle hlock).1, hm.lock h hidle hroom hlock,
      (lock_spec h hidle hlock).1.valid m, op_names hnames hop, op_count h henabled hop,
      fun _ => op_pending hop⟩
  rcases lockThen_cases hrun with hlock | ⟨u, hlock, hrest⟩
  · refine ⟨hkeeps _ _ hlock, Or.inr ⟨lock_pending hlock, ?_⟩⟩
    obtain ⟨-, -, ⟨-, hreturned, -⟩ | ⟨-, hreturned, -⟩ | ⟨-, -, -, -, hholders, -⟩⟩ :=
      lock_spec h hidle hlock
    · exact absurd hreturned (by simp)
    · exact absurd hreturned (by simp)
    · exact hholders
  · obtain rfl : u = t := Option.some.inj hrest
    obtain ⟨-, -, ⟨hinvalid, -⟩ | ⟨-, -, -, -, -, -, hholders, hpending⟩ | ⟨-, hreturned, -⟩⟩ :=
      lock_spec h hidle hlock
    · rw [hvalid] at hinvalid
      exact absurd hinvalid (by simp)
    · refine ⟨hkeeps _ _ hlock, Or.inl ⟨?_, hholders⟩⟩
      rw [hpending]
      exact Machine.pending_of_idle hidle
    · exact absurd hreturned (by simp)

/-- The process that the mutex was granted to goes on. -/
theorem step_resume_lock (h : Settled s) (hm : Exclusive s m)
    (hpending : s.pending s.pid = some (.locking m .lockMutex))
    (hstep : step s (.resume garbage) = some t) :
    KeepsMutex m s.pid s t ∧ t.pending s.pid = none ∧
      t.ledger.holders m = s.pid :: s.ledger.holders m := by
  have ht : t = s.wake := by
    simp only [step, Machine.resume, hpending, Machine.proceed, Option.some.injEq] at hstep
    exact hstep.symm
  subst ht
  refine ⟨⟨h.wake, hm.wake h hpending, by rw [wake_kernel], by rw [wake_kernel]; exact .refl _,
    by rw [wake_kernel], fun p hp => by rw [wake_pending, assign_ne _ _ hp]⟩, ?_,
    (wake_locking hpending).2⟩
  rw [wake_pending, assign_self]

/-- The holder frees the mutex. -/
theorem step_free (h : Settled s) (hm : Exclusive s m) (hhold : s.pid ∈ s.ledger.holders m)
    (hstep : step s (.freeMutex m) = some t) :
    KeepsMutex m s.pid s t ∧ t.pending s.pid = none ∧
      t.ledger.holders m = (s.ledger.holders m).erase s.pid := by
  obtain ⟨hidle, hrun⟩ := step_call hstep
  have hop : (Op.free m).perform s = some t := hrun
  have hnames : (Op.free m).KeepsNames := trivial
  obtain ⟨hslots, -, hpending, hholders, -⟩ := free_spec h hrun
  refine ⟨⟨(h.free hrun).1, hm.free h hhold hrun, hslots.valid m, op_names hnames hop,
    (h.free hrun).2.count, fun _ => op_pending hop⟩, ?_, hholders⟩
  rw [hpending]
  exact Machine.pending_of_idle hidle

/-- The holders of an exclusive mutex. -/
theorem Exclusive.holder_unique (h : Exclusive s m) {p q : ℤ} (hp : p ∈ s.ledger.holders m)
    (hq : q ∈ s.ledger.holders m) : p = q := by
  rcases h.one with ⟨hnil, -⟩ | ⟨r, hr, -⟩
  · rw [hnil] at hp
    exact absurd hp List.not_mem_nil
  · rw [hr, List.mem_singleton] at hp hq
    exact hp.trans hq.symm

end

end GatOS.Sync
