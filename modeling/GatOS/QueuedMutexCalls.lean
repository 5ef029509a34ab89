import GatOS.MutexPreemption

/-!
# Whole calls on a mutex with a queue

What a call of `mutex_lock` or `mutex_unlock` that is not interrupted changes.
-/
namespace GatOS.QueuedMutex
open Scheduler

/-- Only the lock and the queue of one mutex change. -/
structure Relocked (key lock : ℤ) (w : List ℕ) (s t : Machine) : Prop where
  other : ∀ k, k ≠ key → t.openMutexes k = s.openMutexes k
  state : (t.openMutexes key).state = (s.openMutexes key).state
  locked : (t.openMutexes key).locked = lock
  waiting : t.waiting key = w

section

variable {s t : Machine} {key lock : ℤ} {w : List ℕ}

theorem Relocked.waiting_other (h : Relocked key lock w s t) {k : ℤ} (hk : k ≠ key) :
    t.waiting k = s.waiting k := by
  unfold Machine.waiting
  rw [h.other k hk]

theorem Relocked.isOpen_eq (h : Relocked key lock w s t) (k : ℤ) : isOpen k t = isOpen k s := by
  by_cases hk : k = key
  · simp [isOpen, hk, h.state]
  · simp [isOpen, h.other k hk]

theorem relocked_setLocked (s : Machine) (key lock : ℤ) :
    Relocked key lock (s.waiting key) s (s.setLocked key lock) :=
  ⟨fun k hk => Function.update_of_ne hk _ _, by simp, by simp, waiting_setLocked lock key⟩

theorem relocked_setQueue (s : Machine) (key : ℤ) (q : Option Queue) :
    Relocked key (s.openMutexes key).locked ((q.map Queue.elems).getD []) s (s.setQueue key q) := by
  refine ⟨fun k hk => Function.update_of_ne hk _ _, ?_, ?_, ?_⟩
  · simp [Machine.setQueue, Machine.setMutex]
  · simp [Machine.setQueue, Machine.setMutex]
  · rw [waiting_setQueue, if_pos rfl]

theorem Relocked.trans {u : Machine} {lock' : ℤ} {w' : List ℕ} (h : Relocked key lock w s t)
    (g : Relocked key lock' w' t u) : Relocked key lock' w' s u :=
  ⟨fun k hk => (g.other k hk).trans (h.other k hk), g.state.trans h.state, g.locked, g.waiting⟩

/-- The rest of the machine does not matter. -/
theorem Relocked.congr {u : Machine} (h : Relocked key lock w s t)
    (hmutexes : u.openMutexes = t.openMutexes) : Relocked key lock w s u := by
  refine ⟨fun k hk => ?_, ?_, ?_, ?_⟩
  · rw [hmutexes]
    exact h.other k hk
  · rw [hmutexes]
    exact h.state
  · rw [hmutexes]
    exact h.locked
  · unfold Machine.waiting
    rw [hmutexes]
    exact h.waiting

/-! ### `mutex_lock` -/

theorem mutexLock_enter (hopen : isOpen key s) (hfree : (s.openMutexes key).locked ≠ locked)
    (node : ℕ) : ∃ t, mutexLock key node s = some (1, t) ∧ t.sched = s.sched ∧
      Relocked key locked (s.waiting key) s t := by
  refine ⟨unsetSuperlock ((setSuperlock s).setLocked key locked), ?_, rfl, ?_⟩
  · rw [mutexLock, if_pos hopen]
    exact if_neg hfree
  · exact (relocked_setLocked s key locked).congr rfl

theorem relocked_queueProcess (key : ℤ) (node p : ℕ) (s : Machine) :
    ∃ w, (w = s.waiting key ∨ w = s.waiting key ++ [p]) ∧
      Relocked key (s.openMutexes key).locked w s (queueProcess key node p s) := by
  unfold queueProcess
  cases hq : (s.openMutexes key).processQueue with
  | none => exact ⟨s.waiting key, Or.inl rfl, fun _ _ => rfl, rfl, rfl, rfl⟩
  | some q =>
    have hw : s.waiting key = q.elems := by simp [Machine.waiting, hq]
    have helems : (enqueue node p q).elems = s.waiting key ∨
        (enqueue node p q).elems = s.waiting key ++ [p] := by
      unfold enqueue
      split_ifs <;> simp_all
    refine ⟨(enqueue node p q).elems, helems, ?_⟩
    dsimp only
    split_ifs
    · exact (relocked_setQueue s key (some (enqueue node p q))).congr rfl
    · exact relocked_setQueue s key (some (enqueue node p q))

theorem processOf_queueProcess (key : ℤ) (node p : ℕ) {a : ℕ} (ha : a ≠ null) :
    (queueProcess key node p s).sched.processOf a = s.sched.processOf a := by
  unfold queueProcess
  split
  · rfl
  · dsimp only
    split_ifs
    · simp [storeNull, State.setSlot, State.processOf, ha]
    · rfl

/-- The process that finds the mutex locked blocks and another one runs. -/
theorem mutexLock_wait {node : ℕ} {r : ℤ × Machine} (h : RingInvariant s.sched)
    (hopen : isOpen key s) (htaken : (s.openMutexes key).locked = locked)
    (hr : mutexLock key node s = some r) :
    RingInvariant r.2.sched ∧ (∀ a, a ∈ ring r.2.sched ↔ a ∈ ring s.sched) ∧
      (∀ a, BlockedSlot r.2.sched a ↔ a = s.sched.current ∨ BlockedSlot s.sched a) ∧
      ¬ BlockedSlot r.2.sched r.2.sched.current ∧
      ∃ w, (w = s.waiting key ∨ w = s.waiting key ++ [s.sched.current]) ∧
        Relocked key locked w s r.2 := by
  set c := s.sched.current with hc
  set u := (setSuperlock s).setLocked key locked with hu
  have husched : u.sched = s.sched := rfl
  have hlocked : Relocked key locked (s.waiting key) s u :=
    (relocked_setLocked s key locked).congr rfl
  obtain ⟨w, hw, hqueued⟩ := relocked_queueProcess key node c u
  obtain ⟨hqring, hqsame⟩ := ring_queueProcess (s := u) h key node c
  rw [hlocked.locked] at hqueued
  rw [hlocked.waiting] at hw
  have hcurrent : c ∈ ring (queueProcess key node c u).sched := by
    rw [hqsame]
    exact h.current_mem
  have hblocks := blockedSlot_changeProcessState hqring hcurrent .blocked
  have hbring := (changeProcessState_spec hqring
    ((queueProcess key node c u).sched.processOf c).pid .blocked).1
  have hsameRing := ring_changeProcessState hqring
    ((queueProcess key node c u).sched.processOf c).pid .blocked
  have hold : ∀ a, BlockedSlot (queueProcess key node c u).sched a ↔ BlockedSlot s.sched a := by
    intro a
    rw [BlockedSlot, BlockedSlot, hqsame, husched]
    refine and_congr_right fun ha => ?_
    rw [processOf_queueProcess key node c fun he => h.null_notMem (he ▸ ha), husched]
  rw [mutexLock, if_pos hopen] at hr
  dsimp only at hr
  rw [if_pos (show ((setSuperlock s).openMutexes key).locked = locked from htaken)] at hr
  obtain ⟨t, hy, rfl⟩ := Option.map_eq_some_iff.mp hr
  obtain ⟨hmutexes, hstill, hawake⟩ := yield_spec hbring hy
  obtain ⟨sched, hs, rfl⟩ := Option.map_eq_some_iff.mp hy
  have hschedule : schedule (changeProcessState
      ((queueProcess key node c u).sched.processOf c).pid .blocked
      (queueProcess key node c u).sched) = some sched := by
    rw [← hs]
    exact (if_neg (RingInvariant.current_ne_null hbring)).symm
  have hmem := (schedule_slots hbring hschedule).1
  refine ⟨(hbring.schedule hschedule).1, fun a => ?_, fun a => ?_, hawake, w, hw, ?_⟩
  · rw [hmem]
    exact hsameRing ▸ hqsame ▸ Iff.rfl
  · refine (hstill a).trans ((hblocks a).trans ?_)
    split_ifs with ha
    · simp [ha]
    · simp [ha, hold]
  · exact (hlocked.trans hqueued).congr hmutexes

/-! ### `mutex_unlock` -/

/-- Nobody waits. -/
theorem mutexUnlock_nobody {r : Unlock} (hopen : isOpen key s) (hw : s.waiting key = [])
    (hr : mutexUnlock key s = some r) :
    r.after.sched = s.sched ∧ Relocked key unlocked [] s r.after := by
  have hskip : ∀ fuel reads p t, skipDead key fuel null (setSuperlock s) = some (reads, p, t) →
      p = null ∧ t = setSuperlock s := by
    intro fuel
    induction fuel with
    | zero => simp [skipDead]
    | succ fuel ih =>
      intro reads p t h
      unfold skipDead at h
      split_ifs at h
      · rw [dequeueProcess_nil (s := setSuperlock s) hw] at h
        obtain ⟨⟨reads', p', t'⟩, hrest, he⟩ := Option.map_eq_some_iff.mp h
        obtain ⟨-, rfl, rfl⟩ := by simpa using he
        exact ih reads' p' t' hrest
      · obtain ⟨-, rfl, rfl⟩ := by simpa using h
        exact ⟨rfl, rfl⟩
  rw [mutexUnlock_eq hopen, dequeueProcess_nil (s := setSuperlock s) hw] at hr
  obtain ⟨⟨reads, p, t⟩, hp, rfl⟩ := Option.map_eq_some_iff.mp hr
  obtain ⟨rfl, rfl⟩ := hskip _ _ _ _ hp
  simp only [ne_eq, not_true_eq_false, if_false]
  refine ⟨rfl, ?_⟩
  rw [← hw]
  exact (relocked_setLocked s key unlocked).congr rfl

theorem mutexUnlock_nobody_isSome (hopen : isOpen key s) (hw : s.waiting key = [])
    (hnull : ¬ Dead s null) : (mutexUnlock key s).isSome := by
  rw [mutexUnlock_eq hopen, dequeueProcess_nil (s := setSuperlock s) hw]
  simp only [skipDead_stop (s := setSuperlock s) hnull, Option.map_some, Option.isSome_some]

/-- The first of the queue gets the mutex. -/
theorem mutexUnlock_first {p : ℕ} {rest : List ℕ} (hopen : isOpen key s)
    (hw : s.waiting key = p :: rest) (hdead : ¬ Dead s p) (hp : p ≠ null) :
    ∃ r, mutexUnlock key s = some r ∧
      r.after.sched = changeProcessState (s.sched.processOf p).pid .ready s.sched ∧
      Relocked key locked rest s r.after := by
  obtain ⟨q, hq, hrest⟩ := dequeueProcess_cons (s := setSuperlock s) hw
  rw [waiting_setQueue, if_pos rfl] at hrest
  have hdequeued : Relocked key (s.openMutexes key).locked rest s
      ((setSuperlock s).setQueue key q) := by
    rw [← hrest]
    exact (relocked_setQueue s key q).congr rfl
  rw [mutexUnlock_eq hopen, hq]
  simp only [skipDead_stop (s := (setSuperlock s).setQueue key q) hdead, Option.map_some, ne_eq, hp,
    not_false_eq_true, if_true]
  refine ⟨_, rfl, rfl, ?_⟩
  have hwoken : Relocked key unlocked rest s ((((setSuperlock s).setQueue key q).setLocked key
      unlocked).changeProcessState p .ready) := by
    have hfreed := relocked_setLocked ((setSuperlock s).setQueue key q) key unlocked
    rw [hdequeued.waiting] at hfreed
    exact (hdequeued.trans hfreed).congr rfl
  have hlocked := relocked_setLocked ((((setSuperlock s).setQueue key q).setLocked key
    unlocked).changeProcessState p .ready) key locked
  rw [hwoken.waiting] at hlocked
  exact (hwoken.trans hlocked).congr rfl

/-! ### The processes that wait -/

theorem changeProcessState_slots (h : RingInvariant s.sched) {p : ℕ} (hp : p ∈ ring s.sched)
    (state : ProcessState) :
    RingInvariant (s.changeProcessState p state).sched ∧
      (∀ a, a ∈ ring (s.changeProcessState p state).sched ↔ a ∈ ring s.sched) ∧
      (s.changeProcessState p state).sched.current = s.sched.current ∧
      ∀ a, BlockedSlot (s.changeProcessState p state).sched a ↔
        if a = p then state = .blocked else BlockedSlot s.sched a :=
  ⟨(changeProcessState_spec h _ state).1, fun a => by
    rw [← ring_changeProcessState h (s.sched.processOf p).pid state]
    exact Iff.rfl, current_changeProcessState h hp state, blockedSlot_changeProcessState h hp state⟩

/-- At the start nobody is blocked. -/
theorem isFresh_quiet {next : ℕ → Option Statement} (h : IsFresh ⟨s, next⟩) :
    RingInvariant s.sched ∧ (∀ p, ¬ BlockedSlot s.sched p) ∧ ∀ key, s.waiting key = [] := by
  have hcalls := callsInvariant_start h
  refine ⟨hcalls.placed.isRing, fun p hp => ?_, fun key => (h.2.1 key).1⟩
  obtain ⟨key, hs, -⟩ := hcalls.wakeups.asleep p hp
  have hnone : next p = none := h.2.2 p
  simp [hnone, Sleeping] at hs

/-- A switch of the processes. -/
theorem switch_slots {m : Machine} (h : RingInvariant s.sched) (hm : s.yield = some m) :
    ∃ sched, m = { s with sched := sched } ∧ RingInvariant sched ∧
      (∀ a ∈ ring s.sched, a ∈ ring sched) ∧ (∀ a, BlockedSlot sched a ↔ BlockedSlot s.sched a) ∧
      ¬ BlockedSlot sched sched.current := by
  obtain ⟨-, hblocked, hawake⟩ := yield_spec h hm
  obtain ⟨sched, hs, rfl⟩ := Option.map_eq_some_iff.mp hm
  have hring := h.yield hs
  rw [Scheduler.yield, if_neg h.current_ne_null] at hs
  exact ⟨sched, rfl, hring, fun a => ((schedule_slots h hs).1 a).mpr, hblocked, hawake⟩

/-- A call of `mutex_lock` returns at once, or the process blocks and another one runs. -/
theorem mutexLock_spec {node : ℕ} {r : ℤ × Machine} (h : RingInvariant s.sched)
    (hr : mutexLock key node s = some r) :
    RingInvariant r.2.sched ∧ (∀ a, a ∈ ring r.2.sched ↔ a ∈ ring s.sched) ∧
      ((r.2.sched = s.sched ∧ ∀ k, r.2.waiting k = s.waiting k) ∨
        ((∀ a, BlockedSlot r.2.sched a ↔ a = s.sched.current ∨ BlockedSlot s.sched a) ∧
          ¬ BlockedSlot r.2.sched r.2.sched.current ∧
          (r.2.waiting key = s.waiting key ∨
            r.2.waiting key = s.waiting key ++ [s.sched.current]) ∧
          ∀ k, k ≠ key → r.2.waiting k = s.waiting k)) := by
  by_cases hopen : isOpen key s
  · by_cases hfree : (s.openMutexes key).locked = locked
    · obtain ⟨hring, hmem, hblocked, hawake, w, hw, hrelocked⟩ := mutexLock_wait h hopen hfree hr
      refine ⟨hring, hmem, Or.inr ⟨hblocked, hawake, ?_, fun k => hrelocked.waiting_other⟩⟩
      rw [hrelocked.waiting]
      exact hw
    · obtain ⟨m, hm, hsched, hrelocked⟩ := mutexLock_enter hopen hfree node
      obtain rfl : (1, m) = r := Option.some.inj (hm.symm.trans hr)
      refine ⟨hsched ▸ h, fun a => by rw [hsched], Or.inl ⟨hsched, fun k => ?_⟩⟩
      by_cases hk : k = key
      · rw [hk, hrelocked.waiting]
      · exact hrelocked.waiting_other hk
  · rw [mutexLock, if_neg hopen] at hr
    obtain rfl := Option.some.inj hr
    exact ⟨h, fun _ => Iff.rfl, Or.inl ⟨rfl, fun _ => rfl⟩⟩

/-- The first of the queue is woken, and nothing else changes for the processes. -/
theorem mutexUnlock_wake {u : Unlock} {p : ℕ} {rest : List ℕ} (h : RingInvariant s.sched)
    (hopen : isOpen key s) (hw : s.waiting key = p :: rest) (hp : BlockedSlot s.sched p)
    (hu : mutexUnlock key s = some u) :
    RingInvariant u.after.sched ∧ (∀ a, a ∈ ring u.after.sched ↔ a ∈ ring s.sched) ∧
      u.after.sched.current = s.sched.current ∧
      (∀ a, BlockedSlot u.after.sched a ↔ BlockedSlot s.sched a ∧ a ≠ p) ∧
      Relocked key locked rest s u.after := by
  have hne : p ≠ null := fun he => h.null_notMem (he ▸ hp.1)
  have hdead : ¬ Dead s p := fun hd => by simp [Dead, hp.2] at hd
  obtain ⟨u', hu', hsched, hrelocked⟩ := mutexUnlock_first hopen hw hdead hne
  obtain rfl : u' = u := Option.some.inj (hu'.symm.trans hu)
  refine ⟨?_, fun a => ?_, ?_, fun a => ?_, hrelocked⟩
  · rw [hsched]
    exact (changeProcessState_spec h _ .ready).1
  · rw [hsched, ring_changeProcessState h]
  · rw [hsched]
    exact current_changeProcessState h hp.1 .ready
  · rw [hsched, blockedSlot_changeProcessState h hp.1]
    split_ifs with ha
    · simp [ha]
    · simp [ha]

/-- A call of `mutex_unlock` wakes the first process in the queue, if there is one. -/
theorem mutexUnlock_spec {u : Unlock} (h : RingInvariant s.sched)
    (hparked : ∀ p ∈ s.waiting key, BlockedSlot s.sched p) (hu : mutexUnlock key s = some u) :
    RingInvariant u.after.sched ∧ (∀ a, a ∈ ring u.after.sched ↔ a ∈ ring s.sched) ∧
      u.after.sched.current = s.sched.current ∧
      ((u.after.sched = s.sched ∧ ∀ k, u.after.waiting k = s.waiting k) ∨
        ∃ p rest, s.waiting key = p :: rest ∧ u.after.waiting key = rest ∧
          (∀ k, k ≠ key → u.after.waiting k = s.waiting k) ∧
          ∀ a, BlockedSlot u.after.sched a ↔ BlockedSlot s.sched a ∧ a ≠ p) := by
  by_cases hopen : isOpen key s
  · cases hw : s.waiting key with
    | nil =>
      obtain ⟨hsched, hrelocked⟩ := mutexUnlock_nobody hopen hw hu
      refine ⟨hsched ▸ h, fun a => by rw [hsched], by rw [hsched], Or.inl ⟨hsched, fun k => ?_⟩⟩
      by_cases hk : k = key
      · rw [hk, hrelocked.waiting, hw]
      · exact hrelocked.waiting_other hk
    | cons p rest =>
      obtain ⟨hring, hmem, hcurrent, hblocked, hrelocked⟩ :=
        mutexUnlock_wake h hopen hw (hparked p (by simp [hw])) hu
      exact ⟨hring, hmem, hcurrent, Or.inr ⟨p, rest, rfl, hrelocked.waiting,
        fun k => hrelocked.waiting_other, hblocked⟩⟩
  · rw [mutexUnlock, if_neg hopen] at hu
    obtain rfl := Option.some.inj hu
    exact ⟨h, fun _ => Iff.rfl, rfl, Or.inl ⟨rfl, fun _ => rfl⟩⟩

end

end GatOS.QueuedMutex
