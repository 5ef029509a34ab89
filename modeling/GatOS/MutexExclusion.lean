import GatOS.MutexFrame

/-!
# Mutual exclusion

A mutex is held by at most one process, as long as no process has to wait for it when its queue
is full. Ownership is handed over to a waiter: between the time it is woken and the time its
`lockMutex` returns nobody holds the mutex, but its word stays set.
-/
namespace GatOS.Sync
open Scheduler Transition

/-- The calls of `getMutex`, `lockMutex` and `freeMutex`; a process frees only what it holds. -/
def MutexCall (s : Machine) : Action → Prop
  | .lockMutex _ _ | .getMutex _ _ | .resume _ => True
  | .freeMutex mutex => s.pid ∈ s.ledger.holders mutex
  | .tick | .createProcess _ | .removeProcess _ | .store _ => True
  | .closeMutex _ | .semCreate _ _ _ | .semClose _ | .wait _ _ | .signal _ => False

/-- A process that cannot lock the mutex finds a free slot in its queue. -/
def FindsRoom (s : Machine) : Action → Prop
  | .lockMutex mutex _ => passes mutex s.kernel = true ∨ isQueueFull mutex s.kernel = false
  | .getMutex _ _ => passes s.kernel.adminMutex s.kernel = true ∨
      isQueueFull s.kernel.adminMutex s.kernel = false
  | _ => True

instance (s : Machine) : (a : Action) → Decidable (MutexCall s a)
  | .freeMutex _ => inferInstanceAs (Decidable (_ ∈ _))
  | .lockMutex _ _ | .getMutex _ _ | .resume _ => .isTrue trivial
  | .tick | .createProcess _ | .removeProcess _ | .store _ => .isTrue trivial
  | .closeMutex _ | .semCreate _ _ _ | .semClose _ | .wait _ _ | .signal _ => .isFalse id

instance (s : Machine) : (a : Action) → Decidable (FindsRoom s a)
  | .lockMutex _ _ => inferInstanceAs (Decidable (_ ∨ _))
  | .getMutex _ _ => inferInstanceAs (Decidable (_ ∨ _))
  | .tick | .createProcess _ | .removeProcess _ | .store _ | .freeMutex _ | .resume _
  | .closeMutex _ | .semCreate _ _ _ | .semClose _ | .wait _ _ | .signal _ => .isTrue trivial

/-- Process `p` has been woken, but its `lockMutex` has not returned yet. -/
def Granted (s : Machine) (m p : ℤ) : Prop :=
  (∃ rest, s.pending p = some (.locking m rest)) ∧ p ∉ s.kernel.waiters (.mutex m)

/-- When the word is zero the mutex is not in use at all; otherwise it belongs to at most one
process, which holds it or has been granted it. -/
structure Exclusive (s : Machine) (m : ℤ) : Prop where
  unlocked : (s.kernel.mutexes m).mutex = 0 →
    s.ledger.holders m = [] ∧ ∀ p rest, s.pending p ≠ some (.locking m rest)
  one : (s.ledger.holders m = [] ∧ ∀ p q, Granted s m p → Granted s m q → p = q) ∨
    ∃ p, s.ledger.holders m = [p] ∧ ∀ q, ¬ Granted s m q

structure MutexInvariant (s : Machine) : Prop where
  settled : Settled s
  exclusive : ∀ m, Exclusive s m
  admin : isValidMutex s.kernel.adminMutex s.kernel = true
  pending : ∀ p c, s.pending p = some c → (∃ m, c = .locking m .lockMutex) ∨
    ∃ name, c = .locking s.kernel.adminMutex (.getMutex name)

section

variable {s t : Machine} {m : ℤ}

theorem MutexUntouched.granted_iff (h : MutexUntouched m s t) (p : ℤ) :
    Granted t m p ↔ Granted s m p := by
  rw [Granted, Granted, h.waiters]
  exact and_congr_left fun _ => exists_congr fun rest => h.pending p rest

theorem Exclusive.of_untouched (h : Exclusive s m) (hu : MutexUntouched m s t) :
    Exclusive t m := by
  refine ⟨fun hword => ?_, ?_⟩
  · rw [hu.word] at hword
    obtain ⟨hholders, hpending⟩ := h.unlocked hword
    exact ⟨hu.holders.trans hholders, fun p rest hp => hpending p rest ((hu.pending p rest).mp hp)⟩
  · simp only [hu.holders, hu.granted_iff]
    exact h.one

/-- Nobody waits for a mutex whose word is zero. -/
theorem Exclusive.waiters_nil (h : Exclusive s m) (hs : Settled s)
    (hword : (s.kernel.mutexes m).mutex = 0) : s.kernel.waiters (.mutex m) = [] := by
  refine List.eq_nil_iff_forall_not_mem.mpr fun p hp => ?_
  obtain ⟨c, hc, hq⟩ := hs.parked.waiting _ p hp
  cases c with
  | locking i rest =>
    obtain rfl : i = m := by simpa [Pending.queue] using hq
    exact (h.unlocked hword).2 p rest hc
  | sleeping j g => simp [Pending.queue] at hq

theorem Exclusive.lock (h : Exclusive s m) (hs : Settled s) (hidle : s.idle = true)
    {garbage : ℤ} {rest : Rest} {returned : Bool}
    (hroom : passes m s.kernel = true ∨ isQueueFull m s.kernel = false)
    (hlock : s.lock m garbage rest = some (returned, t)) : Exclusive t m := by
  have hnone := Machine.pending_of_idle hidle
  obtain ⟨-, -, hcases⟩ := lock_spec hs hidle hlock
  rcases hcases with ⟨-, -, rfl⟩ | ⟨-, -, hword, -, hword', hwait', hholders, hpending⟩ |
    ⟨hvalid, -, hlocked, hword', hholders, hpending, hqueue⟩
  · exact h
  · obtain ⟨hfree, hnobody⟩ := h.unlocked hword
    refine ⟨fun h0 => absurd (hword'.symm.trans h0) (by decide), Or.inr ⟨s.pid, ?_, fun q hq => ?_⟩⟩
    · rw [hholders, hfree]
    · obtain ⟨⟨rest, hq⟩, -⟩ := hq
      rw [hpending] at hq
      exact hnobody q rest hq
  · have hset : (s.kernel.mutexes m).mutex ≠ 0 := fun h0 => hlocked ⟨h0, h.waiters_nil hs h0⟩
    have hjoin : (t.kernel.waiters (.mutex m)).Perm (s.pid :: s.kernel.waiters (.mutex m)) := by
      rcases hqueue with ⟨-, hperm⟩ | hfull
      · exact hperm
      · have hcard := hs.parked.mutex_cardinal m
        rcases hroom with hpass | hroom
        · simp only [passes, hvalid, testAndSet, Bool.not_true, Bool.false_or] at hpass
          split_ifs at hpass with hfree
          exact absurd hfree.1 hset
        · have hlt : ¬ (s.kernel.mutexes m).cardinalBlocked ≥ maxBlockedQueueSize := by
            simpa [isQueueFull] using hroom
          rw [hcard] at hlt
          exact absurd hfull hlt
    -- the process itself is in the queue, the others are granted as before
    have hgranted : ∀ p, Granted t m p → Granted s m p := by
      rintro p ⟨⟨rest', hp⟩, hout⟩
      have hne : p ≠ s.pid := by
        intro he
        apply hout
        rw [he, hjoin.mem_iff]
        exact List.mem_cons_self
      rw [hpending, assign_ne _ _ hne] at hp
      exact ⟨⟨rest', hp⟩, fun hin => hout (hjoin.mem_iff.mpr (List.mem_cons_of_mem _ hin))⟩
    refine ⟨fun h0 => absurd (hword'.symm.trans h0) hset, ?_⟩
    rcases h.one with ⟨hnil, hone⟩ | ⟨p, hp, hnobody⟩
    · exact Or.inl ⟨hholders.trans hnil, fun p q hp hq => hone p q (hgranted p hp) (hgranted q hq)⟩
    · exact Or.inr ⟨p, hholders.trans hp, fun q hq => hnobody q (hgranted q hq)⟩

/-- The holder frees the mutex: it is granted to the first waiter, or it becomes free. -/
theorem Exclusive.free (h : Exclusive s m) (hs : Settled s) (hhold : s.pid ∈ s.ledger.holders m)
    (hrun : s.free m = some t) : Exclusive t m := by
  obtain ⟨-, -, hpending, hholders, hcases⟩ := free_spec hs hrun
  have hset : (s.kernel.mutexes m).mutex ≠ 0 := fun h0 => by
    rw [(h.unlocked h0).1] at hhold
    exact absurd hhold (by simp)
  obtain ⟨hnil, hnobody⟩ : t.ledger.holders m = [] ∧ ∀ q, ¬ Granted s m q := by
    rcases h.one with ⟨hnil, -⟩ | ⟨p, hp, hnobody⟩
    · rw [hnil] at hhold
      exact absurd hhold (by simp)
    · rw [hp] at hhold
      rw [hholders, hp, ← List.mem_singleton.mp hhold]
      exact ⟨by simp, hnobody⟩
  rcases hcases with ⟨-, hkernel⟩ | ⟨-, hword, p, hwait⟩ | ⟨-, hword, hwait, -⟩
  · refine ⟨fun h0 => ?_, Or.inl ⟨hnil, fun p q hp => ?_⟩⟩
    · rw [hkernel] at h0
      exact absurd h0 hset
    · refine absurd ?_ (hnobody p)
      rwa [Granted, hpending, hkernel] at hp
  · refine ⟨fun h0 => absurd (hword.symm.trans h0) hset, Or.inl ⟨hnil, fun q r hq hr => ?_⟩⟩
    have hfirst : ∀ q, Granted t m q → q = p := fun q ⟨⟨rest, hq⟩, hout⟩ => by
      rw [hpending] at hq
      by_contra hne
      refine hnobody q ⟨⟨rest, hq⟩, fun hin => ?_⟩
      rw [hwait] at hin
      exact hout ((List.mem_cons.mp hin).resolve_left hne)
    rw [hfirst q hq, hfirst r hr]
  · have hnone : ∀ p rest, t.pending p ≠ some (.locking m rest) := fun p rest hp => by
      rw [hpending] at hp
      refine hnobody p ⟨⟨rest, hp⟩, ?_⟩
      rw [hwait]
      exact List.not_mem_nil
    refine ⟨fun _ => ⟨hnil, hnone⟩, Or.inl ⟨hnil, fun p q hp => ?_⟩⟩
    obtain ⟨rest, hp⟩ := hp.1
    exact absurd hp (hnone p rest)

/-- A process that goes on behind `lockMutex` is the one that the mutex was granted to. -/
theorem Exclusive.wake (h : Exclusive s m) (hs : Settled s) {rest : Rest}
    (hpending : s.pending s.pid = some (.locking m rest)) : Exclusive s.wake m := by
  have hgranted : Granted s m s.pid := ⟨⟨rest, hpending⟩, hs.current_free _⟩
  have hset : (s.kernel.mutexes m).mutex ≠ 0 := fun h0 => (h.unlocked h0).2 _ _ hpending
  have hholders := (wake_locking hpending).2
  rcases h.one with ⟨hnil, hone⟩ | ⟨p, -, hnobody⟩
  · refine ⟨fun h0 => ?_, Or.inr ⟨s.pid, by rw [hholders, hnil], fun q ⟨⟨rest', hq⟩, hout⟩ => ?_⟩⟩
    · rw [wake_kernel] at h0
      exact absurd h0 hset
    · rw [wake_pending] at hq
      rw [wake_kernel] at hout
      by_cases hqp : q = s.pid
      · rw [hqp, assign_self] at hq
        exact absurd hq (by simp)
      · rw [assign_ne _ _ hqp] at hq
        exact hqp (hone q s.pid ⟨⟨rest', hq⟩, hout⟩ hgranted)
  · exact absurd hgranted (hnobody _)

/-! ### The calls -/

/-- A change that touches no mutex. -/
theorem MutexInvariant.of_untouched (h : MutexInvariant s) (hs : Settled t)
    (hu : ∀ m, MutexUntouched m s t) (hslots : SameSlots s.kernel t.kernel)
    (hpending : t.pending = s.pending) : MutexInvariant t := by
  refine ⟨hs, fun m => (h.exclusive m).of_untouched (hu m), ?_, fun p c hc => ?_⟩
  · rw [hslots.admin, hslots.valid]
    exact h.admin
  · rw [hpending] at hc
    rw [hslots.admin]
    exact h.pending p c hc

theorem MutexInvariant.lock (h : MutexInvariant s) (hidle : s.idle = true) {garbage : ℤ}
    {rest : Rest} {returned : Bool}
    (hrest : rest = .lockMutex ∨ ∃ name, m = s.kernel.adminMutex ∧ rest = .getMutex name)
    (hroom : passes m s.kernel = true ∨ isQueueFull m s.kernel = false)
    (hlock : s.lock m garbage rest = some (returned, t)) :
    MutexInvariant t ∧ (returned = true → isValidMutex m s.kernel = true →
      t.pid ∈ t.ledger.holders m) := by
  have hs := h.settled
  obtain ⟨hslots, hne, hcases⟩ := lock_spec hs hidle hlock
  refine ⟨⟨(hs.lock hidle hlock).1, fun i => ?_, ?_, fun p c hc => ?_⟩, fun hret hvalid => ?_⟩
  · by_cases hi : i = m
    · subst hi
      exact (h.exclusive i).lock hs hidle hroom hlock
    · exact (h.exclusive i).of_untouched (hne i hi)
  · rw [hslots.admin, hslots.valid]
    exact h.admin
  · rw [hslots.admin]
    rcases hcases with ⟨-, -, rfl⟩ | ⟨-, -, -, -, -, -, -, hpending⟩ |
      ⟨-, -, -, -, -, hpending, -⟩
    · exact h.pending p c hc
    · rw [hpending] at hc
      exact h.pending p c hc
    · rw [hpending] at hc
      by_cases hp : p = s.pid
      · rw [hp, assign_self] at hc
        obtain rfl := Option.some.inj hc
        rcases hrest with rfl | ⟨name, rfl, rfl⟩
        · exact Or.inl ⟨m, rfl⟩
        · exact Or.inr ⟨name, rfl⟩
      · rw [assign_ne _ _ hp] at hc
        exact h.pending p c hc
  · subst hret
    have hpid : t.pid = s.pid := congrArg getCurrentPid (lock_returned hlock).1
    rcases hcases with ⟨hinvalid, -, -⟩ | ⟨-, -, -, -, -, -, hholders, -⟩ | ⟨-, hret, -⟩
    · simp [hvalid] at hinvalid
    · rw [hpid, hholders]
      exact List.mem_cons_self
    · exact absurd hret (by simp)

theorem MutexInvariant.free (h : MutexInvariant s) (hhold : s.pid ∈ s.ledger.holders m)
    (hrun : s.free m = some t) : MutexInvariant t := by
  obtain ⟨hslots, hne, hpending, -, -⟩ := free_spec h.settled hrun
  refine ⟨(h.settled.free hrun).1, fun i => ?_, ?_, fun p c hc => ?_⟩
  · by_cases hi : i = m
    · subst hi
      exact (h.exclusive i).free h.settled hhold hrun
    · exact (h.exclusive i).of_untouched (hne i hi)
  · rw [hslots.admin, hslots.valid]
    exact h.admin
  · rw [hpending] at hc
    rw [hslots.admin]
    exact h.pending p c hc

theorem isValidMutex_setMutex {k : Kernel} {i j : ℤ} {x : Mutex} (hx : x.used = true)
    (h : isValidMutex j k = true) : isValidMutex j (k.setMutex i x) = true := by
  unfold isValidMutex at h ⊢
  split_ifs at h ⊢
  by_cases hj : j = i
  · rw [hj, Kernel.setMutex_self]
    exact hx
  · rw [Kernel.setMutex_ne _ _ hj]
    exact h

/-- A free slot is taken into use. -/
theorem MutexInvariant.use (h : MutexInvariant s) (i : ℤ) (name : ℕ) (pid : ℤ) :
    MutexInvariant { s with kernel := s.kernel.setMutex i { s.kernel.mutexes i with
      used := true, name := name, pidCreator := pid } } := by
  have hs := h.settled
  refine ⟨⟨hs.parked.setMutex rfl rfl, hs.current⟩, fun m => (h.exclusive m).of_untouched
    ⟨?_, ?_, rfl, fun _ _ => Iff.rfl⟩, ?_, h.pending⟩
  · by_cases hm : m = i
    · rw [hm, Kernel.setMutex_self]
    · rw [Kernel.setMutex_ne _ _ hm]
  · by_cases hm : m = i
    · rw [hm, Kernel.waiters_setMutex_self]
      rfl
    · exact (Kernel.setMutex_other _ (by simp [hm])).1
  · exact isValidMutex_setMutex rfl h.admin

theorem MutexInvariant.getMutexEnd (h : MutexInvariant s)
    (hhold : s.pid ∈ s.ledger.holders s.kernel.adminMutex) {name : ℕ}
    (hrun : s.getMutexEnd name = some t) : MutexInvariant t := by
  obtain ⟨k, rfl | ⟨i, -, rfl⟩, hfree⟩ := getMutexEnd_spec hrun
  · exact h.free hhold hfree
  · exact (h.use i name s.pid).free hhold hfree

/-- The rest of a call. -/
theorem MutexInvariant.proceed (h : MutexInvariant s) {garbage : ℤ} {rest : Rest}
    (hrest : rest = .lockMutex ∨ ∃ name, rest = .getMutex name ∧
      s.pid ∈ s.ledger.holders s.kernel.adminMutex)
    (hrun : s.proceed garbage rest = some t) : MutexInvariant t := by
  rcases hrest with rfl | ⟨name, rfl, hhold⟩
  · obtain rfl : s = t := Option.some.inj hrun
    exact h
  · exact h.getMutexEnd hhold hrun

theorem MutexInvariant.lockThen (h : MutexInvariant s) (hidle : s.idle = true) {garbage : ℤ}
    {rest : Rest}
    (hrest : rest = .lockMutex ∨ ∃ name, m = s.kernel.adminMutex ∧ rest = .getMutex name)
    (hroom : passes m s.kernel = true ∨ isQueueFull m s.kernel = false)
    (hrun : s.lockThen m garbage rest = some t) : MutexInvariant t := by
  rcases lockThen_cases hrun with hlock | ⟨u, hlock, hproceed⟩
  · exact (h.lock hidle hrest hroom hlock).1
  · obtain ⟨hu, hhold⟩ := h.lock hidle hrest hroom hlock
    refine hu.proceed ?_ hproceed
    rcases hrest with rfl | ⟨name, rfl, rfl⟩
    · exact Or.inl rfl
    · refine Or.inr ⟨name, rfl, ?_⟩
      rw [(lock_spec h.settled hidle hlock).1.admin]
      exact hhold rfl h.admin

theorem MutexInvariant.resume (h : MutexInvariant s) {garbage : ℤ}
    (hrun : s.resume garbage = some t) : MutexInvariant t := by
  rcases resume_cases hrun with ⟨i, rest, hpending, hproceed⟩ | ⟨j, g, hpending, -⟩
  · obtain ⟨hne, hholders⟩ := wake_locking hpending
    have hwake : MutexInvariant s.wake := by
      refine ⟨h.settled.wake, fun m => ?_, ?_, fun p c hc => ?_⟩
      · by_cases hm : m = i
        · subst hm
          exact (h.exclusive m).wake h.settled hpending
        · exact (h.exclusive m).of_untouched (hne m hm)
      · rw [wake_kernel]
        exact h.admin
      · rw [wake_pending] at hc
        rw [wake_kernel]
        by_cases hp : p = s.pid
        · rw [hp, assign_self] at hc
          exact absurd hc (by simp)
        · rw [assign_ne _ _ hp] at hc
          exact h.pending p c hc
    refine hwake.proceed ?_ hproceed
    rcases h.pending _ _ hpending with ⟨m, hc⟩ | ⟨name, hc⟩
    · obtain ⟨-, rfl⟩ := Pending.locking.inj hc
      exact Or.inl rfl
    · obtain ⟨rfl, rfl⟩ := Pending.locking.inj hc
      refine Or.inr ⟨name, rfl, ?_⟩
      rw [wake_pid, wake_kernel, hholders]
      exact List.mem_cons_self
  · rcases h.pending _ _ hpending with ⟨m, hc⟩ | ⟨name, hc⟩
    · exact absurd hc (by simp)
    · exact absurd hc (by simp)

/-- Every call of the domain keeps the mutexes exclusive if nobody waits at a full queue. -/
theorem step_mutexInvariant {a : Action} (h : MutexInvariant s) (hcall : MutexCall s a)
    (hroom : FindsRoom s a) (hstep : step s a = some t) : MutexInvariant t := by
  cases a with
  | resume garbage => exact h.resume hstep
  | lockMutex mutex garbage =>
    obtain ⟨hidle, hrun⟩ := step_call hstep
    exact h.lockThen hidle (Or.inl rfl) hroom hrun
  | getMutex name garbage =>
    obtain ⟨hidle, hrun⟩ := step_call hstep
    exact h.lockThen hidle (Or.inr ⟨name, rfl, rfl⟩) hroom hrun
  | freeMutex mutex => exact h.free hcall (step_call hstep).2
  | tick =>
    simp only [step] at hstep
    split_ifs at hstep
    have hsettled := (h.settled.switch hstep).1
    obtain ⟨k', hk, rfl⟩ := Option.map_eq_some_iff.mp hstep
    exact h.of_untouched hsettled
      (fun m => .of_slot (by rw [(yield_tables hk).2.1]) rfl rfl) (yield_slots hk) rfl
  | createProcess page =>
    simp only [step] at hstep
    split_ifs at hstep with hc
    obtain rfl := Option.some.inj hstep
    exact h.of_untouched (h.settled.createProcess hc.2).1 (fun m => .of_slot rfl rfl rfl)
      ⟨fun _ => rfl, rfl, rfl⟩ rfl
  | removeProcess pid =>
    simp only [step] at hstep
    split_ifs at hstep
    have hsettled := (h.settled.removeProcess hstep).1
    obtain ⟨sched, -, rfl⟩ := Option.map_eq_some_iff.mp hstep
    exact h.of_untouched hsettled (fun m => .of_slot rfl rfl rfl) ⟨fun _ => rfl, rfl, rfl⟩ rfl
  | store strings =>
    simp only [step] at hstep
    split_ifs at hstep
    obtain rfl := Option.some.inj hstep
    exact h.of_untouched (h.settled.store strings).1 (fun m => .of_slot rfl rfl rfl)
      ⟨fun _ => rfl, rfl, rfl⟩ rfl
  | _ => exact absurd hcall id

theorem IsBoot.mutexInvariant (h : IsBoot s) : MutexInvariant s := by
  have hsettled := h.settled
  have hb := h.booted
  obtain ⟨-, -, -, -, -, -, -, -, -, -, hpending, hledger⟩ := h
  refine ⟨hsettled, fun m => ⟨fun _ => ⟨by rw [hledger]; rfl, by simp [hpending]⟩,
    Or.inl ⟨by rw [hledger]; rfl, fun p q hp => ?_⟩⟩, ?_, fun p c hc => ?_⟩
  · obtain ⟨⟨rest, hp⟩, -⟩ := hp
    simp [hpending] at hp
  · rw [hb.adminMutex, isValidMutex, if_neg (by decide)]
    exact (hb.used 0).mpr (Or.inl rfl)
  · simp [hpending] at hc

theorem reachable_mutexInvariant
    (h : (machineSystem.restrict fun s a => MutexCall s a ∧ FindsRoom s a).Reachable s) :
    MutexInvariant s := by
  induction h with
  | start hs => exact IsBoot.mutexInvariant hs
  | next _ hstep ih => exact step_mutexInvariant ih hstep.1.1 hstep.1.2 hstep.2

/-- At most one process has returned from `lockMutex` without having freed the mutex. -/
theorem mutual_exclusion
    (h : (machineSystem.restrict fun s a => MutexCall s a ∧ FindsRoom s a).Reachable s) (m : ℤ) :
    (s.ledger.holders m).length ≤ 1 := by
  rcases ((reachable_mutexInvariant h).exclusive m).one with ⟨hnil, -⟩ | ⟨p, hp, -⟩
  · rw [hnil]
    exact Nat.zero_le 1
  · rw [hp]
    exact Nat.le_refl 1

end

/-! ### Runs -/

/-- Process 3 frees mutex 2 while process 2 waits for it. -/
theorem mutual_exclusion_handOff :
    ∃ s, (machineSystem.restrict fun s a => MutexCall s a ∧ FindsRoom s a).Reachable s ∧
      s.ledger.holders 2 = [2] ∧ (s.ledger.holders 2).length ≤ 1 := by
  obtain ⟨s, hs, hholders⟩ := reachable_restrict_of_execute IsBoot isBoot_bootedMachine
    (show (execute (guarded (fun s a => MutexCall s a ∧ FindsRoom s a) step) bootedMachine
      (createProcesses 2 ++ [.tick, .getMutex 2 0, .lockMutex 2 0, .tick, .lockMutex 2 0, .tick,
        .tick, .freeMutex 2, .tick, .resume 0])).map (fun s => s.ledger.holders 2) =
      some [2] by decide +kernel)
  exact ⟨s, hs, hholders, mutual_exclusion hs 2⟩

/-- The queue of mutex 2 is full when process 2 locks it. Process 2 is not blocked, and its
`lockMutex` returns while process 23 still holds the mutex. -/
theorem two_holders :
    ∃ s, (machineSystem.restrict MutexCall).Reachable s ∧ s.ledger.holders 2 = [2, 23] :=
  reachable_restrict_of_execute IsBoot isBoot_bootedMachine
    (show (execute (guarded MutexCall step) bootedMachine
      (createProcesses 22 ++ [.tick, .getMutex 2 0, .lockMutex 2 0, .tick] ++
        List.replicate 21 (.lockMutex 2 (-7)) ++ [.tick, .tick, .tick, .resume 0])).map
          (fun s => s.ledger.holders 2) = some [2, 23] by decide +kernel)

end GatOS.Sync
