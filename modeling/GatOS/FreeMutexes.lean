import GatOS.QueuedMutexCalls

/-!
# Nobody waits for a free mutex

What a process finds in the queue of a mutex that is not locked, and how `mutex_close` empties a
queue.
-/
namespace GatOS.QueuedMutex
open Scheduler Transition

/-- Between the calls the table is not locked, and nobody waits for a mutex that is free. -/
structure Orderly (s : Machine) : Prop where
  queues : QueueInvariant s
  array : s.arrayMutex = unlocked
  free : ∀ key, isOpen key s → (s.openMutexes key).locked ≠ locked → s.waiting key = []

section

variable {s t : Machine} {key : ℤ}

theorem setMutex_setMutex (m m' : MutexType) :
    (s.setMutex key m).setMutex key m' = s.setMutex key m' := by
  simp [Machine.setMutex]

theorem isEmpty_waiting : isEmpty (s.openMutexes key).processQueue = true ↔ s.waiting key = [] := by
  unfold Machine.waiting isEmpty
  cases (s.openMutexes key).processQueue <;> simp

/-! ### The loops -/

/-- The queue without the process that came out of it. -/
theorem dequeueProcess_spec (hqueued : ∀ p ∈ s.waiting key, p ≠ null) :
    ∃ p q, dequeueProcess key s = (p, s.setQueue key q) ∧
      (s.setQueue key q).waiting key ⊆ s.waiting key ∧
      (p = null → (s.setQueue key q).waiting key = []) := by
  cases hw : s.waiting key with
  | nil =>
    refine ⟨null, (s.openMutexes key).processQueue, ?_, ?_, fun _ => ?_⟩
    · rw [dequeueProcess_nil hw, setQueue_processQueue]
    · rw [setQueue_processQueue, hw]
      exact List.Subset.refl _
    · rw [setQueue_processQueue, hw]
  | cons p rest =>
    obtain ⟨q, hq, hrest⟩ := dequeueProcess_cons hw
    refine ⟨p, q, hq, ?_, fun hnull => ?_⟩
    · rw [hrest]
      exact List.subset_cons_self p rest
    · exact absurd hnull (hqueued p (by simp [hw]))

/-- The loop of `mutex_unlock` finds nobody only in an empty queue. -/
theorem skipDead_end {fuel p : ℕ} {reads : List ℕ} {r : ℕ × Machine}
    (hqueued : ∀ a ∈ s.waiting key, a ≠ null) (hp : p = null → s.waiting key = [])
    (h : skipDead key fuel p s = some (reads, r)) :
    ∃ q, r.2 = s.setQueue key q ∧ (r.1 = null → (s.setQueue key q).waiting key = []) := by
  induction fuel generalizing s p reads with
  | zero => simp [skipDead] at h
  | succ fuel ih =>
    by_cases hdead : Dead s p
    · obtain ⟨next, q, hq, hsub, hnull⟩ := dequeueProcess_spec hqueued
      rw [skipDead_next hdead, hq] at h
      obtain ⟨⟨reads', r'⟩, hskip, he⟩ := Option.map_eq_some_iff.mp h
      obtain ⟨-, rfl⟩ := Prod.mk.inj he
      obtain ⟨q', hr, hend⟩ := ih (fun a ha => hqueued a (hsub ha)) hnull hskip
      rw [setQueue_setQueue] at hr hend
      exact ⟨q', hr, hend⟩
    · rw [skipDead_stop hdead] at h
      obtain ⟨-, rfl⟩ := Prod.mk.inj (Option.some.inj h)
      refine ⟨(s.openMutexes key).processQueue, ?_, ?_⟩
      · rw [setQueue_processQueue]
      · rw [setQueue_processQueue]
        exact hp

/-- When the state at `NULL` is read as `DEAD`, the loop on an empty queue never ends. -/
theorem skipDead_forever (hw : s.waiting key = []) (hdead : Dead s null) (fuel : ℕ) :
    skipDead key fuel null s = none := by
  induction fuel with
  | zero => rfl
  | succ fuel ih => rw [skipDead_next hdead, dequeueProcess_nil hw, ih, Option.map_none]

/-- The loop of `mutex_close` empties the queue. -/
theorem dequeueAll_eq {l : List ℕ} (hw : s.waiting key = l) (p : Option ℕ) :
    ∃ q, dequeueAll key l.length p s = (l.getLast?.or p, s.setQueue key q) ∧
      (s.setQueue key q).waiting key = [] := by
  induction l generalizing s p with
  | nil =>
    refine ⟨(s.openMutexes key).processQueue, ?_, ?_⟩
    · rw [setQueue_processQueue]
      rfl
    · rw [setQueue_processQueue, hw]
  | cons a rest ih =>
    have hne : ¬ isEmpty (s.openMutexes key).processQueue = true := by
      rw [isEmpty_waiting, hw]
      exact List.cons_ne_nil a rest
    obtain ⟨q, hq, hrest⟩ := dequeueProcess_cons hw
    obtain ⟨q', hall, hend⟩ := ih hrest (some a)
    rw [setQueue_setQueue] at hall hend
    refine ⟨q', ?_, hend⟩
    rw [List.length_cons, dequeueAll, if_neg hne, hq]
    dsimp only
    rw [hall, List.getLast?_cons]
    cases rest.getLast? <;> rfl

/-! ### The calls -/

/-- What a close of a mutex makes ready. -/
def lastPid (key garbage : ℤ) (s : Machine) : ℤ :=
  match (s.waiting key).getLast? with
  | some p => (s.sched.processOf p).pid
  | none => garbage

/-- Only one process is woken, whatever the length of the queue is. -/
theorem mutexClose_spec (harray : s.arrayMutex = unlocked) (hopen : isOpen key s) (garbage : ℤ) :
    ∃ t, mutexClose key garbage s = some (1, t) ∧
      t.sched = changeProcessState (lastPid key garbage s) .ready s.sched ∧
      t.waiting key = [] ∧ isOpen key t = false ∧ t.arrayMutex = unlocked ∧
      ∀ k, k ≠ key → t.openMutexes k = s.openMutexes k := by
  have hlock : lockArray s = some { s with arrayMutex := locked } :=
    if_neg (by rw [harray]; decide)
  obtain ⟨q, hall, hempty⟩ := @dequeueAll_eq { s with arrayMutex := locked } key _ rfl
    none
  have hopen' : isOpen key { s with arrayMutex := locked } := hopen
  have hclosed : ∀ u : Machine, u.openMutexes = (s.setQueue key q).openMutexes →
      (unlockArray (u.setMutex key { u.openMutexes key with state := closed })).waiting key = [] ∧
      isOpen key (unlockArray (u.setMutex key { u.openMutexes key with state := closed })) =
        false ∧
      ∀ k, k ≠ key → (unlockArray (u.setMutex key
        { u.openMutexes key with state := closed })).openMutexes k = s.openMutexes k := by
    intro u hu
    have hw : u.waiting key = [] := by
      rw [Machine.waiting, hu]
      exact hempty
    refine ⟨?_, ?_, fun k hk => ?_⟩
    · rw [← hw]
      simp [unlockArray, Machine.waiting, Machine.setMutex]
    · simp [isOpen, unlockArray, Machine.setMutex, closed, opened]
    · have hother : (s.setQueue key q).openMutexes k = s.openMutexes k :=
        Function.update_of_ne hk _ _
      rw [← hother, ← hu]
      exact Function.update_of_ne hk _ _
  unfold mutexClose
  rw [hlock, Option.map_some, if_pos hopen', hall]
  unfold lastPid
  cases hlast : (s.waiting key).getLast? with
  | none =>
    have hlast' : (Machine.waiting key { s with arrayMutex := locked }).getLast? = none := hlast
    simp only [hlast', Option.or_none]
    obtain ⟨hw, hclose, hother⟩ := hclosed _ rfl
    exact ⟨_, rfl, rfl, hw, hclose, rfl, hother⟩
  | some p =>
    have hlast' : (Machine.waiting key { s with arrayMutex := locked }).getLast? = some p := hlast
    simp only [hlast', Option.some_or]
    obtain ⟨hw, hclose, hother⟩ := hclosed _ rfl
    exact ⟨_, rfl, rfl, hw, hclose, rfl, hother⟩

theorem mutexClose_closed (harray : s.arrayMutex = unlocked) (hopen : ¬ isOpen key s)
    (garbage : ℤ) : mutexClose key garbage s = some (notOpenError, s) := by
  have hlock : lockArray s = some { s with arrayMutex := locked } :=
    if_neg (by rw [harray]; decide)
  have hopen' : ¬ isOpen key { s with arrayMutex := locked } := hopen
  rw [mutexClose, hlock, Option.map_some, if_neg hopen', unlockArray, ← harray]

/-- The mutex is given to somebody, or nobody waits for it. -/
theorem mutexUnlock_end (hqueued : ∀ p ∈ s.waiting key, p ≠ null) (hopen : isOpen key s)
    {r : Unlock} (hr : mutexUnlock key s = some r) :
    r.after.arrayMutex = s.arrayMutex ∧ (∀ k, k ≠ key → r.after.openMutexes k = s.openMutexes k) ∧
      ((r.after.openMutexes key).locked ≠ locked → r.after.waiting key = []) := by
  obtain ⟨first, q, hq, hsub, hnull⟩ := dequeueProcess_spec (s := setSuperlock s) hqueued
  rw [mutexUnlock_eq hopen, hq] at hr
  obtain ⟨⟨reads, p, t⟩, hskip, rfl⟩ := Option.map_eq_some_iff.mp hr
  obtain ⟨q', ht, hend⟩ := skipDead_end (fun a ha => hqueued a (hsub ha)) hnull hskip
  rw [setQueue_setQueue] at ht hend
  obtain rfl : t = (setSuperlock s).setQueue key q' := ht
  have hother : ∀ k, k ≠ key →
      ((setSuperlock s).setQueue key q').openMutexes k = s.openMutexes k := fun k hk =>
    Function.update_of_ne hk _ _
  dsimp only at hend ⊢
  split_ifs with hp
  · refine ⟨rfl, fun k hk => ?_, fun hfree => ?_⟩
    · rw [← hother k hk]
      exact (Function.update_of_ne hk _ _).trans (Function.update_of_ne hk _ _)
    · refine absurd ?_ hfree
      exact congrArg MutexType.locked (setLocked_self locked)
  · refine ⟨rfl, fun k hk => ?_, fun _ => ?_⟩
    · rw [← hother k hk]
      exact Function.update_of_ne hk _ _
    · rw [waiting_unsetSuperlock, waiting_setLocked]
      exact hend (not_not.mp hp)

theorem queueProcess_frame (key : ℤ) (node p : ℕ) (s : Machine) :
    (queueProcess key node p s).arrayMutex = s.arrayMutex := by
  unfold queueProcess
  split
  · rfl
  · dsimp only
    split_ifs <;> rfl

/-- Who waits finds the mutex locked. -/
theorem mutexLock_end (h : RingInvariant s.sched) (hopen : isOpen key s) {node : ℕ}
    {r : ℤ × Machine} (hr : mutexLock key node s = some r) :
    r.2.arrayMutex = s.arrayMutex ∧ (∀ k, k ≠ key → r.2.openMutexes k = s.openMutexes k) ∧
      (r.2.openMutexes key).locked = locked := by
  have harray : r.2.arrayMutex = s.arrayMutex := by
    have hr' := hr
    rw [mutexLock, if_pos hopen] at hr'
    dsimp only at hr'
    split_ifs at hr'
    · obtain ⟨t, hy, rfl⟩ := Option.map_eq_some_iff.mp hr'
      obtain ⟨sched, -, rfl⟩ := Option.map_eq_some_iff.mp hy
      exact queueProcess_frame key node _ _
    · rw [← Option.some.inj hr']
      rfl
  by_cases hfree : (s.openMutexes key).locked = locked
  · obtain ⟨-, -, -, -, w, -, hrelocked⟩ := mutexLock_wait h hopen hfree hr
    exact ⟨harray, hrelocked.other, hrelocked.locked⟩
  · obtain ⟨t, ht, -, hrelocked⟩ := mutexLock_enter hopen hfree node
    obtain rfl := Option.some.inj (ht.symm.trans hr)
    exact ⟨harray, hrelocked.other, hrelocked.locked⟩

/-! ### The invariant -/

theorem Orderly.congr (h : Orderly s) (hqueues : QueueInvariant t)
    (harray : t.arrayMutex = s.arrayMutex) (hmutexes : t.openMutexes = s.openMutexes) :
    Orderly t := by
  refine ⟨hqueues, harray.trans h.array, fun key hopen hfree => ?_⟩
  unfold isOpen Machine.waiting at *
  rw [hmutexes] at hopen hfree ⊢
  exact h.free key hopen hfree

/-- Only one mutex is changed. -/
theorem Orderly.change (h : Orderly s) (hqueues : QueueInvariant t)
    (harray : t.arrayMutex = unlocked)
    (hother : ∀ k, k ≠ key → t.openMutexes k = s.openMutexes k)
    (hkey : isOpen key t → (t.openMutexes key).locked ≠ locked → t.waiting key = []) :
    Orderly t := by
  refine ⟨hqueues, harray, fun k hopen hfree => ?_⟩
  by_cases hk : k = key
  · rw [hk] at hopen hfree ⊢
    exact hkey hopen hfree
  · have hsame := hother k hk
    unfold isOpen Machine.waiting at *
    rw [hsame] at hopen hfree ⊢
    exact h.free k hopen hfree

theorem Orderly.mutexOpen (h : Orderly s) {name : List ℤ} {page : ℕ} {r : ℤ × Machine}
    (hr : mutexOpen name page s = some r) : Orderly r.2 := by
  have hqueues := h.queues.mutexOpen hr
  obtain ⟨t, ht, rfl⟩ := Option.map_eq_some_iff.mp hr
  unfold lockArray at ht
  split_ifs at ht
  obtain rfl := Option.some.inj ht
  dsimp only at hqueues ⊢
  split at hqueues
  · exact h.congr hqueues h.array.symm rfl
  · split_ifs at hqueues ⊢
    · exact h.congr hqueues h.array.symm rfl
    · rename_i k _ _
      refine @Orderly.change s _ k h hqueues rfl (fun k' hk' => Function.update_of_ne hk' _ _)
        fun _ _ => ?_
      have hw := @waiting_setMutex s k (createNewMutex name page) k
      rw [if_pos rfl] at hw
      refine Eq.trans hw ?_
      unfold createNewMutex createQueue
      split_ifs <;> rfl

theorem Orderly.step (h : Orderly s) {a : Action} (ht : step s a = some t) : Orderly t := by
  have hqueues := h.queues.step ht
  cases a with
  | createProcess page =>
    simp only [QueuedMutex.step] at ht
    split_ifs at ht
    rw [← Option.some.inj ht] at hqueues ⊢
    exact h.congr hqueues rfl rfl
  | removeProcess pid =>
    obtain ⟨sched, -, rfl⟩ := Option.map_eq_some_iff.mp ht
    exact h.congr hqueues rfl rfl
  | changeProcessState pid state =>
    rw [← Option.some.inj ht] at hqueues ⊢
    exact h.congr hqueues rfl rfl
  | switch =>
    obtain ⟨sched, -, rfl⟩ := Option.map_eq_some_iff.mp ht
    exact h.congr hqueues rfl rfl
  | mutexOpen name page =>
    simp only [QueuedMutex.step] at ht
    split_ifs at ht
    obtain ⟨r, hr, rfl⟩ := Option.map_eq_some_iff.mp ht
    exact h.mutexOpen hr
  | mutexClose key garbage =>
    obtain ⟨r, hr, rfl⟩ := Option.map_eq_some_iff.mp ht
    by_cases hopen : isOpen key s
    · obtain ⟨u, hu, -, -, hclosed, harray, hother⟩ := mutexClose_spec h.array hopen garbage
      obtain rfl := Option.some.inj (hu.symm.trans hr)
      refine h.change hqueues harray hother fun hno => ?_
      rw [hclosed] at hno
      exact absurd hno (by decide)
    · rw [mutexClose_closed h.array hopen garbage] at hr
      obtain rfl := Option.some.inj hr
      exact h
  | mutexLock key node =>
    obtain ⟨r, hr, rfl⟩ := Option.map_eq_some_iff.mp ht
    by_cases hopen : isOpen key s
    · obtain ⟨harray, hother, hlocked⟩ := mutexLock_end h.queues.ring hopen hr
      exact h.change hqueues (harray.trans h.array) hother fun _ hfree => absurd hlocked hfree
    · rw [mutexLock, if_neg hopen] at hr
      obtain rfl := Option.some.inj hr
      exact h
  | mutexUnlock key =>
    obtain ⟨r, hr, rfl⟩ := Option.map_eq_some_iff.mp ht
    by_cases hopen : isOpen key s
    · obtain ⟨harray, hother, hfree⟩ := mutexUnlock_end (h.queues.queued key) hopen hr
      exact h.change hqueues (harray.trans h.array) hother fun _ => hfree
    · rw [mutexUnlock, if_neg hopen] at hr
      obtain rfl := Option.some.inj hr
      exact h

theorem orderly_start (hs : IsStart s) : Orderly s := by
  refine ⟨queueInvariant_start hs, ?_, fun key _ _ => ?_⟩
  · obtain ⟨slot, page, -, rfl⟩ := hs
    rfl
  · obtain ⟨slot, page, -, rfl⟩ := hs
    rfl

/-- A node at `NULL`. -/
theorem Orderly.storeNull (h : Orderly s) (p : ℕ) :
    Orderly { s with sched := storeNull p s.sched } := by
  refine h.congr ⟨(ring_storeNull h.queues.ring p).1, h.queues.queued⟩ rfl rfl

end

end GatOS.QueuedMutex
