import GatOS.Mutex
import GatOS.ProcessRing

/-!
# Mutexes with a queue

The table `open_mutexes` of `mutex.c` and the queues of `queue.c`. A queue holds addresses of
Process records, which stay in the memory when the process is removed.
-/
namespace GatOS.QueuedMutex
open Scheduler Transition Sync

def mutexNameLen : ℕ := 64

/-- `LOCKED`. -/
def locked : ℤ := 0

/-- `UNLOCKED`. -/
def unlocked : ℤ := 1

/-- `OPEN`. -/
def opened : ℤ := 1

/-- `CLOSED`. -/
def closed : ℤ := 0

def notOpenError : ℤ := -1

def maxMutexOpenError : ℤ := -2

/-! ### `queue.c` -/

/-- `elems` are the elements of the nodes from `first` on. When `linked` is false, `last` is not
the last of these nodes. -/
structure Queue where
  elems : List ℕ
  linked : Bool

/-- `page` is what `allocPage` returns. -/
def createQueue (page : ℕ) : Option Queue := if page = null then none else some ⟨[], false⟩

def isEmpty : Option Queue → Bool
  | none => true
  | some q => q.elems = []

/-- `node` is what `allocPage` returns. A queue with elements whose new node is `NULL` loses its
`last` node, and the nodes that come after it are not reached from `first`. -/
def enqueue (node elem : ℕ) (q : Queue) : Queue :=
  if q.elems = [] then
    if node = null then q else ⟨[elem], true⟩
  else if q.linked then
    if node = null then { q with linked := false } else { q with elems := q.elems ++ [elem] }
  else q

def dequeue : Option Queue → ℕ × Option Queue
  | none => (null, none)
  | some ⟨[], linked⟩ => (null, some ⟨[], linked⟩)
  | some ⟨elem :: elems, linked⟩ => (elem, some ⟨elems, linked⟩)

/-- A node at `NULL` starts with the address that is stored in it. Read as a Process record this
is the number of the process, and the state is `RUNNING`. -/
def storeNull (elem : ℕ) (s : State) : State :=
  s.setSlot null { s.slot null with process := ⟨MachineInt.int32 elem, .running⟩ }

/-! ### `mutex.c` -/

/-- `mutex_type`. -/
structure MutexType where
  name : List ℤ
  locked : ℤ
  state : ℤ
  processQueue : Option Queue

structure Machine where
  sched : State
  openMutexes : ℤ → MutexType
  arrayMutex : ℤ
  superlock : ℤ

namespace Machine

def setMutex (key : ℤ) (m : MutexType) (s : Machine) : Machine :=
  { s with openMutexes := Function.update s.openMutexes key m }

def setLocked (key lock : ℤ) (s : Machine) : Machine :=
  s.setMutex key { s.openMutexes key with locked := lock }

def setQueue (key : ℤ) (q : Option Queue) (s : Machine) : Machine :=
  s.setMutex key { s.openMutexes key with processQueue := q }

/-- `changeProcessState(p->pid, state)`. -/
def changeProcessState (p : ℕ) (state : ProcessState) (s : Machine) : Machine :=
  { s with sched := Scheduler.changeProcessState (s.sched.processOf p).pid state s.sched }

def yield (s : Machine) : Option Machine :=
  (Scheduler.yield s.sched).map fun sched => { s with sched }

/-- The processes in the queue of the mutex. -/
def waiting (key : ℤ) (s : Machine) : List ℕ :=
  ((s.openMutexes key).processQueue.map Queue.elems).getD []

end Machine

def setSuperlock (s : Machine) : Machine := { s with superlock := locked }

def unsetSuperlock (s : Machine) : Machine := { s with superlock := unlocked }

/-- When the lock is taken, the loop waits for another process to give it back. Here each call is
made as a whole, and nobody does. -/
def lockArray (s : Machine) : Option Machine :=
  if s.arrayMutex = locked then none else some { s with arrayMutex := locked }

def unlockArray (s : Machine) : Machine := { s with arrayMutex := unlocked }

def createNewMutex (name : List ℤ) (page : ℕ) : MutexType :=
  ⟨name, unlocked, opened, createQueue page⟩

def queueProcess (key : ℤ) (node p : ℕ) (s : Machine) : Machine :=
  match (s.openMutexes key).processQueue with
  | none => s
  | some q =>
    let s := if node = null then { s with sched := storeNull p s.sched } else s
    s.setQueue key (some (enqueue node p q))

def dequeueProcess (key : ℤ) (s : Machine) : ℕ × Machine :=
  let (p, q) := dequeue (s.openMutexes key).processQueue
  (p, s.setQueue key q)

def isOpen (key : ℤ) (s : Machine) : Bool :=
  0 ≤ key ∧ key < maxMutexes ∧ (s.openMutexes key).state = opened

/-- The loop ends at the first mutex that has the name or is not open. -/
def mutexOpen (name : List ℤ) (page : ℕ) (s : Machine) : Option (ℤ × Machine) :=
  (lockArray s).map fun s =>
    match firstIndex maxMutexes fun k =>
      !isOpen k s || strcmp name (s.openMutexes k).name = 0 with
    | none => (maxMutexOpenError, unlockArray s)
    | some k =>
      if isOpen k s then (k, unlockArray s)
      else (k, unlockArray (s.setMutex k (createNewMutex name page)))

/-- The loop of `mutex_close`, which keeps the process that comes out last. -/
def dequeueAll (key : ℤ) : ℕ → Option ℕ → Machine → Option ℕ × Machine
  | 0, p, s => (p, s)
  | fuel + 1, p, s =>
    if isEmpty (s.openMutexes key).processQueue then (p, s)
    else
      let (p, s) := dequeueProcess key s
      dequeueAll key fuel (some p) s

/-- `garbage` is what is read as `p->pid` when nothing was assigned to `p`. Only the call that
empties the queue is in the loop. -/
def mutexClose (key garbage : ℤ) (s : Machine) : Option (ℤ × Machine) :=
  (lockArray s).map fun s =>
    if isOpen key s then
      let (p, s) := dequeueAll key (s.waiting key).length none s
      let s := match p with
        | some p => s.changeProcessState p .ready
        | none => { s with sched := Scheduler.changeProcessState garbage .ready s.sched }
      let s := s.setMutex key { s.openMutexes key with state := closed }
      (1, unlockArray s)
    else (notOpenError, unlockArray s)

/-- `_unlocked` leaves the lock at `LOCKED` and returns what it was. -/
def mutexLock (key : ℤ) (node : ℕ) (s : Machine) : Option (ℤ × Machine) :=
  if isOpen key s then
    let s := setSuperlock s
    let p := s.sched.current
    let lock := (s.openMutexes key).locked
    let s := s.setLocked key locked
    if lock = locked then
      let s := queueProcess key node p s
      let s := s.changeProcessState p .blocked
      let s := unsetSuperlock s
      s.yield.map fun s => (1, s)
    else some (1, unsetSuperlock s)
  else some (notOpenError, s)

/-- What a call of `mutex_unlock` returns and leaves, and the addresses that it reads a process
state from. -/
structure Unlock where
  reads : List ℕ
  result : ℤ
  after : Machine

/-- The loop of `mutex_unlock`, with the addresses it has read from. An empty queue gives `NULL`
again and again. -/
def skipDead (key : ℤ) : ℕ → ℕ → Machine → Option (List ℕ × ℕ × Machine)
  | 0, _, _ => none
  | fuel + 1, p, s =>
    if (s.sched.processOf p).state = .dead then
      let (next, s) := dequeueProcess key s
      (skipDead key fuel next s).map fun (reads, r) => (p :: reads, r)
    else some ([p], p, s)

def mutexUnlock (key : ℤ) (s : Machine) : Option Unlock :=
  if isOpen key s then
    let s := setSuperlock s
    let (p, s) := dequeueProcess key s
    (skipDead key ((s.waiting key).length + 2) p s).map fun (reads, p, s) =>
      let s := s.setLocked key unlocked
      let s := if p ≠ null then (s.changeProcessState p .ready).setLocked key locked else s
      ⟨reads, 1, unsetSuperlock s⟩
  else some ⟨[], notOpenError, s⟩

/-! ### Runs -/

inductive Action
  | createProcess (page : ℕ)
  | removeProcess (pid : ℤ)
  | changeProcessState (pid : ℤ) (state : ProcessState)
  | switch
  | mutexOpen (name : List ℤ) (page : ℕ)
  | mutexClose (key garbage : ℤ)
  | mutexLock (key : ℤ) (node : ℕ)
  | mutexUnlock (key : ℤ)

/-- A name has to fit in its record. The rest of the kernel moves processes between the states. -/
def step (s : Machine) : Action → Option Machine
  | .createProcess page =>
    if FreshPage s.sched page then
      some { s with sched := (Scheduler.createProcess page s.sched).2 }
    else none
  | .removeProcess pid => (Scheduler.removeProcess pid s.sched).map fun sched => { s with sched }
  | .changeProcessState pid state =>
    some { s with sched := Scheduler.changeProcessState pid state s.sched }
  | .switch => s.yield
  | .mutexOpen name page =>
    if name.length < mutexNameLen then (mutexOpen name page s).map Prod.snd else none
  | .mutexClose key garbage => (mutexClose key garbage s).map Prod.snd
  | .mutexLock key node => (mutexLock key node s).map Prod.snd
  | .mutexUnlock key => (mutexUnlock key s).map Unlock.after

/-- The table is in static memory. -/
def boot (sched : State) : Machine := ⟨sched, fun _ => ⟨[], 0, 0, none⟩, unlocked, unlocked⟩

/-- `main` has created the init process. -/
def IsStart (s : Machine) : Prop :=
  ∃ slot page, IsPage page ∧ s = boot (Scheduler.createProcess page (Scheduler.boot slot)).2

def mutexSystem : System Machine Action := ofStep IsStart step

/-! ### The queue of one mutex -/

section

variable {s t : Machine} {key : ℤ}

@[simp] theorem setQueue_sched (q : Option Queue) : (s.setQueue key q).sched = s.sched := rfl

@[simp] theorem setQueue_setQueue (q q' : Option Queue) :
    (s.setQueue key q).setQueue key q' = s.setQueue key q' := by
  simp [Machine.setQueue, Machine.setMutex]

theorem setQueue_processQueue (s : Machine) (key : ℤ) :
    s.setQueue key (s.openMutexes key).processQueue = s := by
  simp [Machine.setQueue, Machine.setMutex]

theorem waiting_setMutex (m : MutexType) (k : ℤ) : (s.setMutex key m).waiting k =
    if k = key then (m.processQueue.map Queue.elems).getD [] else s.waiting k := by
  unfold Machine.waiting Machine.setMutex
  by_cases hk : k = key
  · subst hk
    simp
  · simp [hk]

theorem waiting_setQueue (q : Option Queue) (k : ℤ) : (s.setQueue key q).waiting k =
    if k = key then (q.map Queue.elems).getD [] else s.waiting k := waiting_setMutex _ k

@[simp] theorem waiting_setLocked (lock k : ℤ) :
    (s.setLocked key lock).waiting k = s.waiting k := by
  unfold Machine.setLocked
  rw [waiting_setMutex]
  split_ifs with hk
  · rw [hk]
    rfl
  · rfl

@[simp] theorem waiting_changeProcessState (p : ℕ) (state : ProcessState) (k : ℤ) :
    (s.changeProcessState p state).waiting k = s.waiting k := rfl

@[simp] theorem waiting_setSuperlock (k : ℤ) : (setSuperlock s).waiting k = s.waiting k := rfl

@[simp] theorem waiting_unsetSuperlock (k : ℤ) : (unsetSuperlock s).waiting k = s.waiting k := rfl

@[simp] theorem setLocked_self (lock : ℤ) :
    (s.setLocked key lock).openMutexes key = { s.openMutexes key with locked := lock } :=
  Function.update_self ..

theorem dequeueProcess_nil (h : s.waiting key = []) : dequeueProcess key s = (null, s) := by
  have hsame := setQueue_processQueue s key
  unfold dequeueProcess
  unfold Machine.waiting at h
  cases hq : (s.openMutexes key).processQueue with
  | none =>
    rw [hq] at hsame
    simp [dequeue, hsame]
  | some q =>
    obtain ⟨elems, linked⟩ := q
    obtain rfl : elems = [] := by simpa [hq] using h
    rw [hq] at hsame
    simp [dequeue, hsame]

theorem dequeueProcess_cons {p : ℕ} {rest : List ℕ} (h : s.waiting key = p :: rest) :
    ∃ q, dequeueProcess key s = (p, s.setQueue key q) ∧ (s.setQueue key q).waiting key = rest := by
  unfold dequeueProcess
  unfold Machine.waiting at h
  cases hq : (s.openMutexes key).processQueue with
  | none => simp [hq] at h
  | some q =>
    obtain ⟨elems, linked⟩ := q
    obtain rfl : elems = p :: rest := by simpa [hq] using h
    exact ⟨some ⟨rest, linked⟩, rfl, by simp [waiting_setQueue]⟩

/-! ### Skipping dead processes -/

def Dead (s : Machine) (p : ℕ) : Prop := (s.sched.processOf p).state = .dead

theorem mem_of_skipDead {fuel p : ℕ} {reads : List ℕ} {r : ℕ × Machine}
    (h : skipDead key fuel p s = some (reads, r)) : p ∈ reads := by
  cases fuel with
  | zero => simp [skipDead] at h
  | succ fuel =>
    unfold skipDead at h
    split_ifs at h
    · obtain ⟨_, -, he⟩ := Option.map_eq_some_iff.mp h
      simp [← (Prod.mk.inj he).1]
    · simp [← (Prod.mk.inj (Option.some.inj h)).1]

theorem skipDead_stop {fuel p : ℕ} (hp : ¬ Dead s p) :
    skipDead key (fuel + 1) p s = some ([p], p, s) := if_neg hp

theorem skipDead_next {fuel p : ℕ} (hp : Dead s p) : skipDead key (fuel + 1) p s =
    (skipDead key fuel (dequeueProcess key s).1 (dequeueProcess key s).2).map
      fun (reads, r) => (p :: reads, r) := if_pos hp

/-- Past a dead process the loop goes on with the next one of the queue. -/
theorem skipDead_of_dead {p next : ℕ} {rest : List ℕ} (fuel : ℕ) (hp : Dead s p)
    (hw : s.waiting key = next :: rest) :
    ∃ q, (s.setQueue key q).waiting key = rest ∧ skipDead key (fuel + 1) p s =
      (skipDead key fuel next (s.setQueue key q)).map fun (reads, r) => (p :: reads, r) := by
  obtain ⟨q, hq, hrest⟩ := dequeueProcess_cons hw
  refine ⟨q, hrest, ?_⟩
  rw [skipDead_next hp, hq]

/-- The loop stops at the first process that is not dead. -/
theorem skipDead_alive {l rest : List ℕ} {fuel p p' : ℕ}
    (hl : p :: s.waiting key = l ++ p' :: rest) (hdead : ∀ q ∈ l, Dead s q) (hp' : ¬ Dead s p')
    (hfuel : l.length < fuel) :
    ∃ q, skipDead key fuel p s = some (l ++ [p'], p', s.setQueue key q) ∧
      (s.setQueue key q).waiting key = rest := by
  induction l generalizing s fuel p with
  | nil =>
    obtain ⟨rfl, hw⟩ := List.cons.inj hl
    obtain ⟨fuel, rfl⟩ := Nat.exists_eq_add_one_of_ne_zero (Nat.ne_zero_of_lt hfuel)
    refine ⟨(s.openMutexes key).processQueue, ?_, ?_⟩
    · rw [setQueue_processQueue, skipDead_stop hp']
      rfl
    · rw [setQueue_processQueue, hw]
  | cons a l ih =>
    obtain ⟨rfl, hw⟩ := List.cons.inj hl
    obtain ⟨hp, hdead⟩ := List.forall_mem_cons.mp hdead
    obtain ⟨fuel, rfl⟩ := Nat.exists_eq_add_one_of_ne_zero (Nat.ne_zero_of_lt hfuel)
    obtain ⟨next, rest', hnext⟩ : ∃ next rest', l ++ p' :: rest = next :: rest' := by
      cases l <;> simp
    obtain ⟨q, hrest, hskip⟩ := skipDead_of_dead fuel hp (hw.trans hnext)
    obtain ⟨q', hih, hw'⟩ := ih (s := s.setQueue key q) (by rw [hrest, hnext]) hdead hp'
      (by simpa using hfuel)
    rw [setQueue_setQueue] at hih hw'
    refine ⟨q', ?_, hw'⟩
    rw [hskip, hih]
    rfl

/-- When all of them are dead, the loop reads through `NULL`. -/
theorem skipDead_null {l reads : List ℕ} {fuel p : ℕ} {r : ℕ × Machine} 
    (hw : s.waiting key = l) (hdead : ∀ q ∈ p :: l, Dead s q)
    (h : skipDead key fuel p s = some (reads, r)) : null ∈ reads := by
  induction l generalizing s fuel p reads r with
  | nil =>
    cases fuel with
    | zero => simp [skipDead] at h
    | succ fuel =>
      rw [skipDead_next (hdead p List.mem_cons_self), dequeueProcess_nil hw] at h
      obtain ⟨⟨reads', r'⟩, hskip, he⟩ := Option.map_eq_some_iff.mp h
      rw [← (Prod.mk.inj he).1]
      exact List.mem_cons_of_mem p (mem_of_skipDead hskip)
  | cons a l ih =>
    obtain ⟨hp, hdead⟩ := List.forall_mem_cons.mp hdead
    cases fuel with
    | zero => simp [skipDead] at h
    | succ fuel =>
      obtain ⟨q, hrest, hskip⟩ := skipDead_of_dead fuel hp hw
      rw [hskip] at h
      obtain ⟨⟨reads', r'⟩, hskip', he⟩ := Option.map_eq_some_iff.mp h
      rw [← (Prod.mk.inj he).1]
      exact List.mem_cons_of_mem p (ih hrest hdead hskip')

/-! ### `mutex_unlock` -/

theorem mutexUnlock_eq (hopen : isOpen key s) : mutexUnlock key s =
    let (p, s) := dequeueProcess key (setSuperlock s)
    (skipDead key ((s.waiting key).length + 2) p s).map fun (reads, p, s) =>
      let s := s.setLocked key unlocked
      let s := if p ≠ null then (s.changeProcessState p .ready).setLocked key locked else s
      ⟨reads, 1, unsetSuperlock s⟩ := if_pos hopen

/-- The first process of the queue that is not dead gets the mutex. -/
theorem mutexUnlock_handOff {l rest : List ℕ} {p : ℕ} (hopen : isOpen key s)
    (hw : s.waiting key = l ++ p :: rest) (hdead : ∀ q ∈ l, Dead s q) (hp : ¬ Dead s p)
    (hnull : p ≠ null) :
    ∃ r, mutexUnlock key s = some r ∧ r.reads = l ++ [p] ∧ r.after.waiting key = rest ∧
      r.after.sched = changeProcessState (s.sched.processOf p).pid .ready s.sched ∧
      (r.after.openMutexes key).locked = locked := by
  obtain ⟨next, rest', hnext⟩ : ∃ next rest', l ++ p :: rest = next :: rest' := by
    cases l <;> simp
  obtain ⟨q, hq, hrest⟩ := dequeueProcess_cons (s := setSuperlock s) (hw.trans hnext)
  have hfuel : l.length < rest'.length + 2 := by
    have := congrArg List.length hnext
    simp at this
    omega
  obtain ⟨q', hskip, hw'⟩ := skipDead_alive (s := (setSuperlock s).setQueue key q)
    (by rw [hrest, hnext]) hdead hp hfuel
  rw [mutexUnlock_eq hopen, hq]
  dsimp only
  rw [hrest, hskip]
  refine ⟨_, rfl, rfl, ?_, ?_, ?_⟩
  · simpa [hnull] using hw'
  · simp only [ne_eq, hnull, not_false_eq_true, if_true]
    rfl
  · simp only [ne_eq, hnull, not_false_eq_true, if_true]
    exact congrArg MutexType.locked (setLocked_self locked)

/-- When the processes of the queue are dead, or there are none, the state is read through
`NULL`. -/
theorem mutexUnlock_null {r : Unlock} (hopen : isOpen key s) (hdead : ∀ q ∈ s.waiting key, Dead s q)
    (h : mutexUnlock key s = some r) : null ∈ r.reads := by
  rw [mutexUnlock_eq hopen] at h
  cases hw : s.waiting key with
  | nil =>
    rw [dequeueProcess_nil (s := setSuperlock s) hw] at h
    obtain ⟨⟨reads, r'⟩, hskip, rfl⟩ := Option.map_eq_some_iff.mp h
    exact mem_of_skipDead hskip
  | cons p rest =>
    rw [hw] at hdead
    obtain ⟨q, hq, hrest⟩ := dequeueProcess_cons (s := setSuperlock s) hw
    rw [hq] at h
    obtain ⟨⟨reads, r'⟩, hskip, rfl⟩ := Option.map_eq_some_iff.mp h
    exact skipDead_null hrest hdead hskip

/-- A free mutex is locked at once. -/
theorem mutexLock_free (hopen : isOpen key s) (hfree : (s.openMutexes key).locked = unlocked)
    (node : ℕ) : ∃ t, mutexLock key node s = some (1, t) ∧ t.sched = s.sched ∧
      (t.openMutexes key).locked = locked := by
  refine ⟨unsetSuperlock ((setSuperlock s).setLocked key locked), ?_, rfl, ?_⟩
  · rw [mutexLock, if_pos hopen]
    exact if_neg (by rw [setSuperlock, hfree]; decide)
  · exact congrArg MutexType.locked (setLocked_self locked)

end

/-! ### Runs -/

/-- A process that was not removed and is not dead. -/
def Alive (s : Machine) (p : ℕ) : Prop := p ∈ ring s.sched ∧ ¬ Dead s p

/-- The first process of the queue that is alive gets the mutex; without one it is free. -/
structure UnlockedRightly (key : ℤ) (s : Machine) (r : Unlock) : Prop where
  noNull : null ∉ r.reads
  handOff : ∀ l p rest, s.waiting key = l ++ p :: rest → (∀ q ∈ l, ¬ Alive s q) → Alive s p →
    p ∈ ring r.after.sched ∧ (r.after.sched.processOf p).state = .ready ∧
      r.after.waiting key = rest ∧ (r.after.openMutexes key).locked = locked
  free : (∀ q ∈ s.waiting key, ¬ Alive s q) → (r.after.openMutexes key).locked = unlocked ∧
    ∀ node, ∃ t, mutexLock key node r.after = some (1, t) ∧ t.sched = r.after.sched ∧
      (t.openMutexes key).locked = locked

structure QueueInvariant (s : Machine) : Prop where
  ring : RingInvariant s.sched
  queued : ∀ key, ∀ p ∈ s.waiting key, p ≠ null

/-- No process has come into a queue. -/
structure Fewer (s t : Machine) : Prop where
  sched : t.sched = s.sched
  waiting : ∀ key, t.waiting key ⊆ s.waiting key

section

variable {s t u : Machine} {key : ℤ}

theorem Fewer.refl (s : Machine) : Fewer s s := ⟨rfl, fun _ => List.Subset.refl _⟩

theorem Fewer.trans (h : Fewer s t) (h' : Fewer t u) : Fewer s u :=
  ⟨h'.sched.trans h.sched, fun key =>
    List.Subset.trans (h'.waiting key) (h.waiting key)⟩

theorem QueueInvariant.of_subset (h : QueueInvariant s) (hring : RingInvariant t.sched)
    (hw : ∀ key, t.waiting key ⊆ s.waiting key) : QueueInvariant t :=
  ⟨hring, fun key p hp => h.queued key p (hw key hp)⟩

theorem QueueInvariant.of_fewer (h : QueueInvariant s) (hf : Fewer s t) : QueueInvariant t :=
  h.of_subset (hf.sched ▸ h.ring) hf.waiting

/-- The other locks do not matter. -/
theorem QueueInvariant.congr (h : QueueInvariant s) (hsched : t.sched = s.sched)
    (hmutexes : t.openMutexes = s.openMutexes) : QueueInvariant t :=
  h.of_fewer ⟨hsched, fun key => by
    unfold Machine.waiting
    rw [hmutexes]
    exact List.Subset.refl _⟩

theorem fewer_setMutex {m : MutexType}
    (h : (m.processQueue.map Queue.elems).getD [] ⊆ s.waiting key) :
    Fewer s (s.setMutex key m) := by
  refine ⟨rfl, fun k => ?_⟩
  rw [waiting_setMutex]
  split_ifs with hk
  · rwa [hk]
  · exact List.Subset.refl _

theorem fewer_setLocked (lock : ℤ) : Fewer s (s.setLocked key lock) :=
  fewer_setMutex (List.Subset.refl _)

theorem fewer_dequeueProcess (key : ℤ) (s : Machine) : Fewer s (dequeueProcess key s).2 := by
  cases hw : s.waiting key with
  | nil =>
    rw [dequeueProcess_nil hw]
    exact Fewer.refl s
  | cons p rest =>
    obtain ⟨q, hq, hrest⟩ := dequeueProcess_cons hw
    rw [hq]
    refine fewer_setMutex ?_
    rw [waiting_setQueue, if_pos rfl] at hrest
    rw [hrest, hw]
    exact List.subset_cons_self p rest

theorem fewer_dequeueAll (fuel : ℕ) (p : Option ℕ) : Fewer s (dequeueAll key fuel p s).2 := by
  induction fuel generalizing s p with
  | zero => exact Fewer.refl s
  | succ fuel ih =>
    unfold dequeueAll
    split_ifs
    · exact Fewer.refl s
    · exact (fewer_dequeueProcess key s).trans (ih _)

theorem fewer_skipDead {fuel p : ℕ} {reads : List ℕ} {r : ℕ × Machine}
    (h : skipDead key fuel p s = some (reads, r)) : Fewer s r.2 := by
  induction fuel generalizing s p reads with
  | zero => simp [skipDead] at h
  | succ fuel ih =>
    unfold skipDead at h
    split_ifs at h
    · obtain ⟨⟨reads', r'⟩, hskip, he⟩ := Option.map_eq_some_iff.mp h
      obtain ⟨-, rfl⟩ := Prod.mk.inj he
      exact (fewer_dequeueProcess key s).trans (ih hskip)
    · obtain ⟨-, rfl⟩ := Prod.mk.inj (Option.some.inj h)
      exact Fewer.refl s

/-! ### The invariant -/

theorem QueueInvariant.changeState (h : QueueInvariant s) (pid : ℤ) (state : ProcessState) :
    QueueInvariant { s with sched := Scheduler.changeProcessState pid state s.sched } :=
  h.of_subset (changeProcessState_spec h.ring pid state).1 fun _ => List.Subset.refl _

theorem QueueInvariant.changeProcessState (h : QueueInvariant s) (p : ℕ) (state : ProcessState) :
    QueueInvariant (s.changeProcessState p state) := h.changeState _ state

theorem QueueInvariant.setLocked (h : QueueInvariant s) (key lock : ℤ) :
    QueueInvariant (s.setLocked key lock) := h.of_fewer (fewer_setLocked lock)

theorem QueueInvariant.yield (h : QueueInvariant s) (ht : s.yield = some t) : QueueInvariant t := by
  obtain ⟨sched, hs, rfl⟩ := Option.map_eq_some_iff.mp ht
  exact h.of_subset (h.ring.yield hs) fun _ => List.Subset.refl _

/-- `NULL` is no slot. -/
theorem ring_storeNull {s : State} (h : RingInvariant s) (elem : ℕ) :
    RingInvariant (storeNull elem s) ∧ ring (storeNull elem s) = ring s := by
  have hnext : (storeNull elem s).nextOf = s.nextOf := by
    funext a
    by_cases ha : a = null <;> simp [storeNull, State.setSlot, State.nextOf, ha]
  obtain ⟨hinv, hring, -⟩ := h.congr hnext rfl rfl rfl rfl fun a ha => by
    have hne : a ≠ null := (h.isPage a (h.slots a ha)).ne_null
    simp [storeNull, State.setSlot, State.processOf, hne]
  exact ⟨hinv, hring⟩

theorem elems_enqueue {node elem : ℕ} {q : Queue} :
    (enqueue node elem q).elems ⊆ q.elems ++ [elem] := by
  unfold enqueue
  split_ifs <;> simp_all

theorem ring_queueProcess (h : RingInvariant s.sched) (key : ℤ) (node p : ℕ) :
    RingInvariant (queueProcess key node p s).sched ∧
      ring (queueProcess key node p s).sched = ring s.sched := by
  unfold queueProcess
  split
  · exact ⟨h, rfl⟩
  · dsimp only
    split_ifs
    · exact ring_storeNull h p
    · exact ⟨h, rfl⟩

theorem mem_waiting_queueProcess {node p a : ℕ} {k : ℤ}
    (ha : a ∈ (queueProcess key node p s).waiting k) : a ∈ s.waiting k ∨ a = p := by
  have hstored : ∀ {t : Machine} {q : Queue}, (∀ k, t.waiting k = s.waiting k) →
      s.waiting key = q.elems →
      a ∈ (t.setQueue key (some (enqueue node p q))).waiting k → a ∈ s.waiting k ∨ a = p := by
    intro t q ht hq ha
    rw [waiting_setQueue] at ha
    split_ifs at ha with hk
    · rw [hk, hq]
      simpa using elems_enqueue ha
    · exact Or.inl (ht k ▸ ha)
  unfold queueProcess at ha
  cases hq : (s.openMutexes key).processQueue with
  | none =>
    rw [hq] at ha
    exact Or.inl ha
  | some q =>
    rw [hq] at ha
    have hw : s.waiting key = q.elems := by simp [Machine.waiting, hq]
    dsimp only at ha
    split_ifs at ha
    · exact hstored (t := { s with sched := storeNull p s.sched }) (fun _ => rfl) hw ha
    · exact hstored (fun _ => rfl) hw ha

theorem QueueInvariant.queueProcess (h : QueueInvariant s) (key : ℤ) (node : ℕ) {p : ℕ}
    (hp : p ≠ null) : QueueInvariant (queueProcess key node p s) := by
  refine ⟨(ring_queueProcess h.ring key node p).1, fun k a ha => ?_⟩
  rcases mem_waiting_queueProcess ha with hmem | rfl
  · exact h.queued k a hmem
  · exact hp

theorem queueInvariant_start (hs : IsStart s) : QueueInvariant s := by
  obtain ⟨slot, page, hpage, rfl⟩ := hs
  refine ⟨(historyInvariant_start ⟨slot, page, hpage, rfl⟩).ring, fun key p hp => ?_⟩
  simp [boot, Machine.waiting] at hp

theorem QueueInvariant.lockArray (h : QueueInvariant s) (ht : lockArray s = some t) :
    QueueInvariant t := by
  unfold QueuedMutex.lockArray at ht
  split_ifs at ht
  rw [← Option.some.inj ht]
  exact h.congr rfl rfl

theorem QueueInvariant.setSuperlock (h : QueueInvariant s) : QueueInvariant (setSuperlock s) :=
  h.congr rfl rfl

theorem QueueInvariant.unsetSuperlock (h : QueueInvariant s) : QueueInvariant (unsetSuperlock s) :=
  h.congr rfl rfl

theorem QueueInvariant.unlockArray (h : QueueInvariant s) : QueueInvariant (unlockArray s) :=
  h.congr rfl rfl

theorem QueueInvariant.mutexOpen (h : QueueInvariant s) {name : List ℤ} {page : ℕ}
    {r : ℤ × Machine} (hr : mutexOpen name page s = some r) : QueueInvariant r.2 := by
  obtain ⟨t, ht, rfl⟩ := Option.map_eq_some_iff.mp hr
  have hlocked := h.lockArray ht
  split
  · exact hlocked.unlockArray
  · split_ifs
    · exact hlocked.unlockArray
    · refine (hlocked.of_fewer (fewer_setMutex ?_)).unlockArray
      unfold createNewMutex createQueue
      split_ifs <;> simp

theorem QueueInvariant.mutexClose (h : QueueInvariant s) {garbage : ℤ} {r : ℤ × Machine}
    (hr : mutexClose key garbage s = some r) : QueueInvariant r.2 := by
  obtain ⟨t, ht, rfl⟩ := Option.map_eq_some_iff.mp hr
  have hlocked := h.lockArray ht
  have hclose : ∀ u : Machine, QueueInvariant u → QueueInvariant (QueuedMutex.unlockArray
      (u.setMutex key { u.openMutexes key with state := closed })) := fun u hu =>
    (hu.of_fewer (fewer_setMutex (m := { u.openMutexes key with state := closed })
      (List.Subset.refl (u.waiting key)))).unlockArray
  dsimp only
  split_ifs
  · have hfewer : Fewer t (dequeueAll key (t.waiting key).length none t).2 :=
      fewer_dequeueAll _ none
    have hempty := hlocked.of_fewer hfewer
    split
    · exact hclose _ (hempty.changeProcessState _ .ready)
    · exact hclose _ (hempty.changeState _ .ready)
  · exact hlocked.unlockArray

theorem QueueInvariant.mutexLock (h : QueueInvariant s) {node : ℕ} {r : ℤ × Machine}
    (hr : mutexLock key node s = some r) : QueueInvariant r.2 := by
  have htaken := h.setSuperlock.setLocked key locked
  unfold QueuedMutex.mutexLock at hr
  dsimp only at hr
  split_ifs at hr
  · obtain ⟨t, hy, rfl⟩ := Option.map_eq_some_iff.mp hr
    have hqueued := htaken.queueProcess key node (RingInvariant.current_ne_null h.ring)
    have hblocked := hqueued.changeProcessState s.sched.current .blocked
    exact hblocked.unsetSuperlock.yield hy
  · rw [← Option.some.inj hr]
    exact htaken.unsetSuperlock
  · rw [← Option.some.inj hr]
    exact h

theorem QueueInvariant.mutexUnlock (h : QueueInvariant s) {r : Unlock}
    (hr : mutexUnlock key s = some r) : QueueInvariant r.after := by
  by_cases hopen : isOpen key s
  · rw [mutexUnlock_eq hopen] at hr
    obtain ⟨⟨reads, p, t⟩, hskip, rfl⟩ := Option.map_eq_some_iff.mp hr
    have ht : QueueInvariant t :=
      h.setSuperlock.of_fewer ((fewer_dequeueProcess key _).trans (fewer_skipDead hskip))
    have hfree := ht.setLocked key unlocked
    dsimp only
    split_ifs
    · exact ((hfree.changeProcessState p .ready).setLocked key locked).unsetSuperlock
    · exact hfree.unsetSuperlock
  · rw [QueuedMutex.mutexUnlock, if_neg hopen] at hr
    rw [← Option.some.inj hr]
    exact h

theorem QueueInvariant.step (h : QueueInvariant s) {a : Action} (ht : step s a = some t) :
    QueueInvariant t := by
  cases a with
  | createProcess page =>
    simp only [QueuedMutex.step] at ht
    split_ifs at ht with hpage
    rw [← Option.some.inj ht]
    exact h.of_subset (h.ring.createProcess hpage).1 fun _ => List.Subset.refl _
  | removeProcess pid =>
    obtain ⟨sched, hs, rfl⟩ := Option.map_eq_some_iff.mp ht
    exact h.of_subset (h.ring.of_removeProcess hs) fun _ => List.Subset.refl _
  | changeProcessState pid state =>
    rw [← Option.some.inj ht]
    exact h.changeState pid state
  | switch => exact h.yield ht
  | mutexOpen name page =>
    simp only [QueuedMutex.step] at ht
    split_ifs at ht
    obtain ⟨r, hr, rfl⟩ := Option.map_eq_some_iff.mp ht
    exact h.mutexOpen hr
  | mutexClose key garbage =>
    obtain ⟨r, hr, rfl⟩ := Option.map_eq_some_iff.mp ht
    exact h.mutexClose hr
  | mutexLock key node =>
    obtain ⟨r, hr, rfl⟩ := Option.map_eq_some_iff.mp ht
    exact h.mutexLock hr
  | mutexUnlock key =>
    obtain ⟨r, hr, rfl⟩ := Option.map_eq_some_iff.mp ht
    exact h.mutexUnlock hr

theorem reachable_queueInvariant (h : mutexSystem.Reachable s) : QueueInvariant s :=
  h.invariant (I := QueueInvariant) (fun _ hs => queueInvariant_start hs) fun _ _ _ hinv ht =>
    hinv.step ht

/-! ### The result -/

/-- The queue starts with dead processes and goes on with one that is alive. -/
def NextAlive (key : ℤ) (s : Machine) : Prop :=
  ∃ l p rest, s.waiting key = l ++ p :: rest ∧ (∀ q ∈ l, Dead s q) ∧ Alive s p

theorem exists_first {P : ℕ → Prop} {l : List ℕ} (h : ¬ ∀ q ∈ l, P q) :
    ∃ l₁ p l₂, l = l₁ ++ p :: l₂ ∧ (∀ q ∈ l₁, P q) ∧ ¬ P p := by
  induction l with
  | nil => simp at h
  | cons a l ih =>
    by_cases ha : P a
    · obtain ⟨l₁, p, l₂, rfl, hl₁, hp⟩ := ih fun hall => h (List.forall_mem_cons.mpr ⟨ha, hall⟩)
      exact ⟨a :: l₁, p, l₂, rfl, List.forall_mem_cons.mpr ⟨ha, hl₁⟩, hp⟩
    · exact ⟨[], a, l, rfl, by simp, ha⟩

/-- The first element with a property splits a list in one way. -/
theorem first_unique {P : ℕ → Prop} {l l' rest rest' : List ℕ} {p p' : ℕ}
    (h : l ++ p :: rest = l' ++ p' :: rest') (hl : ∀ q ∈ l, ¬ P q) (hp : P p)
    (hl' : ∀ q ∈ l', ¬ P q) (hp' : P p') : l = l' ∧ p = p' ∧ rest = rest' := by
  induction l generalizing l' with
  | nil =>
    cases l' with
    | nil =>
      obtain ⟨rfl, rfl⟩ := List.cons.inj h
      exact ⟨rfl, rfl, rfl⟩
    | cons a l' =>
      obtain ⟨rfl, -⟩ := List.cons.inj h
      exact absurd hp (hl' p List.mem_cons_self)
  | cons a l ih =>
    cases l' with
    | nil =>
      obtain ⟨rfl, -⟩ := List.cons.inj h
      exact absurd hp' (hl a List.mem_cons_self)
    | cons a' l' =>
      obtain ⟨rfl, hrest⟩ := List.cons.inj h
      obtain ⟨rfl, rfl, rfl⟩ := ih hrest (List.forall_mem_cons.mp hl).2
        (List.forall_mem_cons.mp hl').2
      exact ⟨rfl, rfl, rfl⟩

theorem unlockedRightly_of_nextAlive (h : QueueInvariant s) (hopen : isOpen key s)
    (hnext : NextAlive key s) : ∃ r, mutexUnlock key s = some r ∧ UnlockedRightly key s r := by
  obtain ⟨l, p, rest, hw, hdead, hring, hp⟩ := hnext
  have hmem : p ∈ s.waiting key := by simp [hw]
  obtain ⟨r, hr, hreads, hrest, hsched, hlocked⟩ :=
    mutexUnlock_handOff hopen hw hdead hp (h.queued key p hmem)
  rw [h.ring.changeProcessState_slot hring] at hsched
  refine ⟨r, hr, fun hnull => ?_, fun l' p' rest' hw' hl' hp' => ?_, fun hnone => ?_⟩
  · have hnull' : null ∈ s.waiting key := by
      rw [hreads, List.mem_append, List.mem_singleton] at hnull
      rw [hw, List.mem_append, List.mem_cons]
      exact hnull.imp_right Or.inl
    exact h.queued key null hnull' rfl
  · have hl : ∀ q ∈ l, ¬ Alive s q := fun q hq halive => halive.2 (hdead q hq)
    obtain ⟨-, rfl, rfl⟩ := first_unique (hw.symm.trans hw') hl ⟨hring, hp⟩ hl' hp'
    obtain ⟨-, hsame, -⟩ := h.ring.setState p .ready
    rw [hsched, hsame]
    exact ⟨hring, by simp, hrest, hlocked⟩
  · exact absurd ⟨hring, hp⟩ (hnone p hmem)

theorem nextAlive_of_unlockedRightly (hinv : QueueInvariant s) (hopen : isOpen key s) {r : Unlock}
    (hr : mutexUnlock key s = some r) (h : UnlockedRightly key s r) : NextAlive key s := by
  by_cases hdead : ∀ q ∈ s.waiting key, Dead s q
  · exact absurd (mutexUnlock_null hopen hdead hr) h.noNull
  · -- `p` is the first one that is not dead
    obtain ⟨l, p, rest, hw, hl, hp⟩ := exists_first hdead
    have hmem : p ∈ s.waiting key := by simp [hw]
    obtain ⟨r', hr', -, hrest, -, hlocked⟩ :=
      mutexUnlock_handOff hopen hw hl hp (hinv.queued key p hmem)
    obtain rfl : r' = r := Option.some.inj (hr'.symm.trans hr)
    refine ⟨l, p, rest, hw, hl, ?_, hp⟩
    by_contra hring
    by_cases hnone : ∀ q ∈ s.waiting key, ¬ Alive s q
    · have hfree := (h.free hnone).1
      rw [hlocked] at hfree
      exact absurd hfree (by decide)
    · obtain ⟨l', p', rest', hw', hl', hp'⟩ := exists_first hnone
      obtain ⟨-, -, hrest', -⟩ := h.handOff l' p' rest' hw' hl' (not_not.mp hp')
      -- both calls leave the same queue, so the process that gets the mutex is alive
      obtain rfl : rest' = rest := hrest'.symm.trans hrest
      obtain ⟨-, heq⟩ := List.append_inj' (hw.symm.trans hw') (by simp)
      obtain rfl : p = p' := (List.cons.inj heq).1
      exact hring (not_not.mp hp').1

/-- A call of `mutex_unlock` does what it is for just when a process in the queue is alive and all
in front of it are dead. -/
theorem unlockedRightly_iff (h : mutexSystem.Reachable s) (hopen : isOpen key s) :
    (∃ r, mutexUnlock key s = some r ∧ UnlockedRightly key s r) ↔ NextAlive key s := by
  have hinv := reachable_queueInvariant h
  constructor
  · rintro ⟨r, hr, hright⟩
    exact nextAlive_of_unlockedRightly hinv hopen hr hright
  · exact unlockedRightly_of_nextAlive hinv hopen

end

def started : Machine := boot (createProcess (pageAt 0) (Scheduler.boot emptySlots)).2

theorem isStart_started : IsStart started := ⟨emptySlots, pageAt 0, by decide, rfl⟩

/-- Process 1 waits while process 2 holds the mutex. -/
theorem unlockedRightly_waiting : ∃ s r, mutexSystem.Reachable s ∧ s.waiting 0 = [pageAt 1] ∧
    mutexUnlock 0 s = some r ∧ UnlockedRightly 0 s r := by
  obtain ⟨s, hpath, hview⟩ := exists_path_of_execute IsStart
    (show (execute step started
      [.createProcess (pageAt 1), .createProcess (pageAt 2), .mutexOpen [109] (pageAt 3), .switch,
        .mutexLock 0 (pageAt 4), .switch, .mutexLock 0 (pageAt 5)]).map (fun s =>
      (isOpen 0 s, s.waiting 0, decide (pageAt 1 ∈ ring s.sched),
        (s.sched.processOf (pageAt 1)).state)) = some (true, [pageAt 1], true, .blocked) by
      decide +kernel)
  simp only [Prod.mk.injEq, decide_eq_true_eq] at hview
  obtain ⟨hopen, hw, hring, hstate⟩ := hview
  have hs := hpath.reachable (System.Reachable.start isStart_started)
  have hdead : ¬ Dead s (pageAt 1) := by simp [Dead, hstate]
  obtain ⟨r, hr, hright⟩ := (unlockedRightly_iff hs hopen).mpr
    ⟨[], pageAt 1, [], hw, by simp, hring, hdead⟩
  exact ⟨s, r, hs, hw, hr, hright⟩

/-- A process locks a free mutex and unlocks it. -/
theorem unlock_reads_null : ∃ s t r, mutexSystem.Reachable s ∧ isOpen 0 s ∧
    mutexLock 0 (pageAt 4) s = some (1, t) ∧ t.sched = s.sched ∧ mutexUnlock 0 t = some r ∧
    null ∈ r.reads := by
  obtain ⟨s, hpath, hview⟩ := exists_path_of_execute IsStart
    (show (execute step started
      [.createProcess (pageAt 1), .mutexOpen [109] (pageAt 3), .switch]).map (fun s =>
      (isOpen 0 s, (s.openMutexes 0).locked,
        (mutexLock 0 (pageAt 4) s).bind fun t => (mutexUnlock 0 t.2).map Unlock.reads)) =
        some (true, unlocked, some [null]) by decide +kernel)
  simp only [Prod.mk.injEq] at hview
  obtain ⟨hopen, hfree, hreads⟩ := hview
  obtain ⟨t, ht, hsched, -⟩ := mutexLock_free hopen hfree (pageAt 4)
  rw [ht] at hreads
  obtain ⟨r, hr, hnull⟩ := Option.map_eq_some_iff.mp hreads
  refine ⟨s, t, r, hpath.reachable (System.Reachable.start isStart_started), hopen, ht, hsched, hr,
    ?_⟩
  rw [hnull]
  exact List.mem_singleton_self null

end GatOS.QueuedMutex
