import GatOS.SemaphoreFrame

/-!
# What the operations do to one mutex

The word, the queue and the holders of a mutex change only when a process locks it, frees it or
goes on after it was woken.
-/
namespace GatOS.Sync
open Scheduler Transition

/-- The mutex, its holders and the calls suspended on it are as before. -/
structure MutexUntouched (m : ℤ) (s t : Machine) : Prop where
  word : (t.kernel.mutexes m).mutex = (s.kernel.mutexes m).mutex
  waiters : t.kernel.waiters (.mutex m) = s.kernel.waiters (.mutex m)
  holders : t.ledger.holders m = s.ledger.holders m
  pending : ∀ p rest, t.pending p = some (.locking m rest) ↔ s.pending p = some (.locking m rest)

section

variable {k k' : Kernel} {s t : Machine} {m : ℤ}

theorem MutexUntouched.refl (m : ℤ) (s : Machine) : MutexUntouched m s s :=
  ⟨rfl, rfl, rfl, fun _ _ => Iff.rfl⟩

theorem MutexUntouched.trans {u : Machine} (h : MutexUntouched m s t) (g : MutexUntouched m t u) :
    MutexUntouched m s u :=
  ⟨g.word.trans h.word, g.waiters.trans h.waiters, g.holders.trans h.holders,
    fun p rest => (g.pending p rest).trans (h.pending p rest)⟩

/-- The rest of the machine may change. -/
theorem MutexUntouched.of_slot (hslot : t.kernel.mutexes m = s.kernel.mutexes m)
    (hholders : t.ledger.holders m = s.ledger.holders m) (hpending : t.pending = s.pending) :
    MutexUntouched m s t := by
  refine ⟨by rw [hslot], ?_, hholders, fun p rest => by rw [hpending]⟩
  rw [Kernel.waiters, hslot]
  rfl

theorem hold_ne (l : Ledger) {i : ℤ} (pid : ℤ) (h : m ≠ i) :
    (l.hold i pid).holders m = l.holders m := assign_ne _ _ h

theorem hold_self (l : Ledger) (pid : ℤ) : (l.hold m pid).holders m = pid :: l.holders m :=
  assign_self _ _ _

theorem release_ne (l : Ledger) {i : ℤ} (pid : ℤ) (h : m ≠ i) :
    (l.release i pid).holders m = l.holders m := assign_ne _ _ h

theorem release_self (l : Ledger) (pid : ℤ) :
    (l.release m pid).holders m = (l.holders m).erase pid := assign_self _ _ _

/-! ### The tables -/

/-- A change of the table that leaves the names and the use of the slots as they are. -/
structure SameSlots (k k' : Kernel) : Prop where
  used : ∀ i, (k'.mutexes i).used = (k.mutexes i).used
  admin : k'.adminMutex = k.adminMutex
  semaphoreMutex : k'.semaphoreMutex = k.semaphoreMutex

theorem SameSlots.refl (k : Kernel) : SameSlots k k := ⟨fun _ => rfl, rfl, rfl⟩

theorem SameSlots.trans {k'' : Kernel} (h : SameSlots k k') (g : SameSlots k' k'') :
    SameSlots k k'' :=
  ⟨fun i => (g.used i).trans (h.used i), g.admin.trans h.admin,
    g.semaphoreMutex.trans h.semaphoreMutex⟩

theorem SameSlots.setMutex (k : Kernel) {i : ℤ} {x : Mutex} (hused : x.used = (k.mutexes i).used) :
    SameSlots k (k.setMutex i x) := by
  refine ⟨fun j => ?_, rfl, rfl⟩
  by_cases hj : j = i
  · rw [hj, Kernel.setMutex_self, hused]
  · rw [Kernel.setMutex_ne k x hj]

theorem SameSlots.setState (k : Kernel) (pid : ℤ) (state : ProcessState) :
    SameSlots k (k.setState pid state) := ⟨fun _ => rfl, rfl, rfl⟩

theorem SameSlots.valid (h : SameSlots k k') (i : ℤ) : isValidMutex i k' = isValidMutex i k := by
  simp only [isValidMutex, h.used]

/-- `freeMutex` changes one slot. -/
theorem freeMutex_slots (hcard : (k.mutexes m).cardinalBlocked =
      (waitersOf (k.mutexes m).queue).length) (h : freeMutex m k = some k') :
    SameSlots k k' ∧ ∀ i ≠ m, k'.mutexes i = k.mutexes i := by
  rcases freeMutex_cases hcard h with ⟨-, rfl⟩ | ⟨-, p, queue, -, rfl⟩ | ⟨-, -, rfl⟩
  · exact ⟨SameSlots.refl k', fun i _ => rfl⟩
  · exact ⟨(SameSlots.setState k p .ready).trans (SameSlots.setMutex _ (by rfl)), fun i hi =>
      Kernel.setMutex_ne (k.setState p .ready) _ hi⟩
  · exact ⟨SameSlots.setMutex k rfl, fun i hi => Kernel.setMutex_ne k _ hi⟩

theorem yield_slots (h : k.yield = some k') : SameSlots k k' := by
  obtain ⟨-, hmutexes, hadmin, hsem⟩ := yield_tables h
  exact ⟨fun i => by rw [hmutexes], hadmin, hsem⟩

/-! ### `lockMutex` -/

/-- A call is suspended on another mutex. -/
theorem pending_locking_iff {p q i : ℤ} {rest rest' : Rest} (hnone : s.pending p = none)
    (hi : m ≠ i) :
    assign s.pending p (some (.locking i rest)) q = some (.locking m rest') ↔
      s.pending q = some (.locking m rest') := by
  by_cases hq : q = p
  · subst hq
    simp [hnone, Ne.symm hi]
  · rw [assign_ne _ _ hq]

/-- `lockMutex` returns at once, or the process joins the queue, or the queue is full. -/
theorem lock_spec (h : Settled s) (hidle : s.idle = true) {garbage : ℤ} {rest : Rest}
    {returned : Bool} (hlock : s.lock m garbage rest = some (returned, t)) :
    SameSlots s.kernel t.kernel ∧ (∀ i ≠ m, MutexUntouched i s t) ∧
      ((isValidMutex m s.kernel = false ∧ returned = true ∧ t = s) ∨
        (isValidMutex m s.kernel = true ∧ returned = true ∧ (s.kernel.mutexes m).mutex = 0 ∧
          s.kernel.waiters (.mutex m) = [] ∧ (t.kernel.mutexes m).mutex = 1 ∧
          t.kernel.waiters (.mutex m) = [] ∧
          t.ledger.holders m = s.pid :: s.ledger.holders m ∧ t.pending = s.pending) ∨
        (isValidMutex m s.kernel = true ∧ returned = false ∧
          ¬ ((s.kernel.mutexes m).mutex = 0 ∧ s.kernel.waiters (.mutex m) = []) ∧
          (t.kernel.mutexes m).mutex = (s.kernel.mutexes m).mutex ∧
          t.ledger.holders m = s.ledger.holders m ∧
          t.pending = assign s.pending s.pid (some (.locking m rest)) ∧
          (((s.kernel.waiters (.mutex m)).length < maxBlockedQueueSize ∧
              (t.kernel.waiters (.mutex m)).Perm (s.pid :: s.kernel.waiters (.mutex m))) ∨
            maxBlockedQueueSize ≤ (s.kernel.waiters (.mutex m)).length))) := by
  have hnone := Machine.pending_of_idle hidle
  obtain ⟨⟨b, k'⟩, hk, hpair⟩ := Option.map_eq_some_iff.mp hlock
  rcases lockMutex_cases h.parked.current_range.1 (h.parked.mutex_cardinal m) hk with
    ⟨hvalid, rfl, rfl⟩ | ⟨hvalid, hword, hwait, rfl, rfl⟩ |
      ⟨hvalid, hlocked, hroom, rfl, queue, hperm, hy⟩ | ⟨hvalid, hlocked, hfull, rfl, hy⟩
  · simp only [hvalid, Bool.false_eq_true, if_false, if_true] at hpair
    obtain ⟨rfl, rfl⟩ := Prod.mk.inj hpair
    exact ⟨SameSlots.refl _, fun i _ => MutexUntouched.refl i _, Or.inl ⟨hvalid, rfl, rfl⟩⟩
  · simp only [hvalid, if_true] at hpair
    obtain ⟨rfl, rfl⟩ := Prod.mk.inj hpair
    refine ⟨SameSlots.setMutex s.kernel rfl, fun i hi => .of_slot ?_ ?_ rfl,
      Or.inr (Or.inl ⟨hvalid, rfl, hword, hwait, ?_, ?_, hold_self _ _, rfl⟩)⟩
    · exact Kernel.setMutex_ne s.kernel _ hi
    · exact hold_ne _ _ hi
    · rw [Kernel.setMutex_self]
    · rw [Kernel.waiters_setMutex_self]
      exact hwait
  · simp only [Bool.false_eq_true, if_false] at hpair
    obtain ⟨rfl, rfl⟩ := Prod.mk.inj hpair
    have hmutexes := (yield_tables hy).2.1
    refine ⟨((SameSlots.setMutex s.kernel (by rfl)).trans
      (SameSlots.setState _ _ _)).trans (yield_slots hy), fun i hi => ⟨?_, ?_,
      rfl, fun p rest => pending_locking_iff hnone hi⟩,
      Or.inr (Or.inr ⟨hvalid, rfl, hlocked, ?_, rfl, rfl, Or.inl ⟨hroom, ?_⟩⟩)⟩
    · simp only [Machine.suspend, hmutexes, Kernel.setState_mutexes, Kernel.setMutex_ne _ _ hi]
    · simp only [Machine.suspend, Kernel.waiters, hmutexes, Kernel.setState_mutexes,
        Kernel.setMutex_ne _ _ hi]
    · simp only [Machine.suspend, hmutexes, Kernel.setState_mutexes, Kernel.setMutex_self]
    · simp only [Machine.suspend, Kernel.waiters, hmutexes, Kernel.setState_mutexes,
        Kernel.setMutex_self]
      exact hperm
  · simp only [Bool.false_eq_true, if_false] at hpair
    obtain ⟨rfl, rfl⟩ := Prod.mk.inj hpair
    have hmutexes := (yield_tables hy).2.1
    refine ⟨(SameSlots.setState _ _ _).trans (yield_slots hy), fun i hi => ⟨?_, ?_, rfl, fun p rest => pending_locking_iff hnone hi⟩,
      Or.inr (Or.inr ⟨hvalid, rfl, hlocked, ?_, rfl, rfl, Or.inr hfull⟩)⟩
    · simp only [Machine.suspend, hmutexes, Kernel.setState_mutexes]
    · simp only [Machine.suspend, Kernel.waiters, hmutexes, Kernel.setState_mutexes]
    · simp only [Machine.suspend, hmutexes, Kernel.setState_mutexes]

/-! ### `freeMutex` and `getMutex` -/

theorem free_spec (h : Settled s) (hrun : s.free m = some t) :
    SameSlots s.kernel t.kernel ∧ (∀ i ≠ m, MutexUntouched i s t) ∧ t.pending = s.pending ∧
      t.ledger.holders m = (s.ledger.holders m).erase s.pid ∧
      ((isValidMutex m s.kernel = false ∧ t.kernel = s.kernel) ∨
        (isValidMutex m s.kernel = true ∧
          (t.kernel.mutexes m).mutex = (s.kernel.mutexes m).mutex ∧
          ∃ p, s.kernel.waiters (.mutex m) = p :: t.kernel.waiters (.mutex m)) ∨
        (isValidMutex m s.kernel = true ∧ (t.kernel.mutexes m).mutex = 0 ∧
          s.kernel.waiters (.mutex m) = [] ∧ t.kernel.waiters (.mutex m) = [])) := by
  obtain ⟨k', hk, rfl⟩ := Option.map_eq_some_iff.mp hrun
  have hcard := h.parked.mutex_cardinal m
  obtain ⟨hslots, hne⟩ := freeMutex_slots hcard hk
  refine ⟨hslots, fun i hi => .of_slot (hne i hi) (release_ne _ _ hi) rfl, rfl,
    release_self _ _, ?_⟩
  rcases freeMutex_cases hcard hk with
    ⟨hvalid, rfl⟩ | ⟨hvalid, p, queue, hwait, rfl⟩ | ⟨hvalid, hwait, rfl⟩
  · exact Or.inl ⟨hvalid, rfl⟩
  · refine Or.inr (Or.inl ⟨hvalid, ?_, p, ?_⟩)
    · rw [Kernel.setMutex_self]
    · rw [Kernel.waiters_setMutex_self]
      exact hwait
  · refine Or.inr (Or.inr ⟨hvalid, ?_, hwait, ?_⟩)
    · rw [Kernel.setMutex_self]
    · rw [Kernel.waiters_setMutex_self]
      exact hwait

/-- `getMutex` behind `lockMutex` takes a free slot into use if the name is new, and frees
`adminMutex`. -/
theorem getMutexEnd_spec {name : ℕ} (hrun : s.getMutexEnd name = some t) :
    ∃ k, (k = s.kernel ∨ ∃ i, getFreeSpot s.kernel = some i ∧
        k = s.kernel.setMutex i { s.kernel.mutexes i with
          used := true, name := name, pidCreator := s.pid }) ∧
      Machine.free s.kernel.adminMutex { s with kernel := k } = some t := by
  obtain ⟨⟨i, k'⟩, hk, rfl⟩ := Option.map_eq_some_iff.mp hrun
  rcases getMutexRest_cases hk with ⟨-, hf⟩ | ⟨-, -, -, hf⟩ | ⟨-, hspot, hf⟩
  · exact ⟨s.kernel, Or.inl rfl, Option.map_eq_some_iff.mpr ⟨_, hf, rfl⟩⟩
  · exact ⟨s.kernel, Or.inl rfl, Option.map_eq_some_iff.mpr ⟨_, hf, rfl⟩⟩
  · exact ⟨_, Or.inr ⟨i, hspot, rfl⟩, Option.map_eq_some_iff.mpr ⟨_, hf, rfl⟩⟩

/-! ### Going on after `lockMutex` -/

theorem wake_locking {rest : Rest} (hpending : s.pending s.pid = some (.locking m rest)) :
    (∀ i ≠ m, MutexUntouched i s s.wake) ∧
      s.wake.ledger.holders m = s.pid :: s.ledger.holders m := by
  have hledger : s.wake.ledger = s.ledger.hold m s.pid := by
    simp only [Machine.wake, hpending]
  refine ⟨fun i hi => ⟨by rw [wake_kernel], by rw [wake_kernel], ?_, fun p rest => ?_⟩, ?_⟩
  · rw [hledger]
    exact hold_ne _ _ hi
  · rw [wake_pending]
    by_cases hp : p = s.pid
    · rw [hp, assign_self, hpending]
      simp [Ne.symm hi]
    · rw [assign_ne _ _ hp]
  · rw [hledger]
    exact hold_self _ _

end

end GatOS.Sync
