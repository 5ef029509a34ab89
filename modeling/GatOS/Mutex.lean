import GatOS.Scheduler
import GatOS.SlotArray

/-!
# Mutexes

The tables of the kernel and the functions of `mutex.c`. A function that gives up the processor
is followed up to the switch.
-/
namespace GatOS.Sync
open Scheduler

def maxBlockedQueueSize : ℕ := 20

/-- `mutex.c` has its own value, the other files have 100. -/
def maxMutexes : ℕ := 128

def maxSemaphores : ℕ := 100 / 2

def noBlockedQueueValue : ℤ := -1

/-- `ERROR`. -/
def error : ℤ := -4

abbrev Queue := SlotArray ℤ maxBlockedQueueSize

structure Mutex where
  used : Bool
  name : ℕ
  queue : Queue
  mutex : ℤ
  cardinalBlocked : ℕ
  pidCreator : ℤ

structure Semaphore where
  used : Bool
  name : ℕ
  queue : Queue
  semaphore : ℤ
  cardinalBlocked : ℕ
  mutex : ℤ
  pidCreator : ℤ

/-- `strings` is the text that each address of the memory holds. -/
structure Kernel where
  sched : State
  mutexes : ℤ → Mutex
  adminMutex : ℤ
  semaphores : ℤ → Semaphore
  semaphoreMutex : ℤ
  strings : ℕ → List ℤ

namespace Kernel

def setMutex (k : Kernel) (i : ℤ) (m : Mutex) : Kernel :=
  { k with mutexes := fun j => if j = i then m else k.mutexes j }

def setSemaphore (k : Kernel) (i : ℤ) (sem : Semaphore) : Kernel :=
  { k with semaphores := fun j => if j = i then sem else k.semaphores j }

def setState (k : Kernel) (pid : ℤ) (state : ProcessState) : Kernel :=
  { k with sched := changeProcessState pid state k.sched }

def pid (k : Kernel) : ℤ := getCurrentPid k.sched

/-- `_yield`, inside a system call. -/
def yield (k : Kernel) : Option Kernel :=
  (Scheduler.yield k.sched).map fun sched => { k with sched := sched }

end Kernel

/-- The comparison of `stdio.c`; the final zero bytes are left out. -/
def strcmp : List ℤ → List ℤ → ℤ
  | [], [] => 0
  | [], _ :: _ => -1
  | _ :: _, [] => 1
  | a :: str1, b :: str2 => if a - b > 0 then 1 else if a - b < 0 then -1 else strcmp str1 str2

/-- A loop over a table that stops at the first index with the property. -/
def firstIndex (n : ℕ) (p : ℤ → Bool) : Option ℤ :=
  ((List.range n).find? fun i : ℕ => p (i : ℤ)).map Int.ofNat

theorem firstIndex_spec {n : ℕ} {p : ℤ → Bool} {i : ℤ} (h : firstIndex n p = some i) :
    0 ≤ i ∧ i < n ∧ p i = true := by
  obtain ⟨j, hj, rfl⟩ := Option.map_eq_some_iff.mp h
  have h1 := List.mem_of_find?_eq_some hj
  have h2 := List.find?_some hj
  rw [List.mem_range] at h1
  exact ⟨Int.natCast_nonneg j, by simpa using h1, h2⟩

theorem strcmp_eq_zero_iff (a b : List ℤ) : strcmp a b = 0 ↔ a = b := by
  fun_induction strcmp a b with
  | case1 => simp
  | case2 => simp
  | case3 => simp
  | case4 a str1 b str2 hpos =>
    have hne : a ≠ b := by omega
    simp [hne]
  | case5 a str1 b str2 hpos hneg =>
    have hne : a ≠ b := by omega
    simp [hne]
  | case6 a str1 b str2 hpos hneg ih =>
    obtain rfl : a = b := by omega
    simp [ih]

/-- The first place of a search, when there is one. -/
theorem firstIndex_isSome {n : ℕ} {p : ℤ → Bool} :
    (firstIndex n p).isSome ↔ ∃ i : ℤ, 0 ≤ i ∧ i < n ∧ p i = true := by
  constructor
  · intro h
    obtain ⟨i, hi⟩ := Option.isSome_iff_exists.mp h
    exact ⟨i, firstIndex_spec hi⟩
  · rintro ⟨i, hnonneg, hlt, hp⟩
    rw [firstIndex, Option.isSome_map, List.find?_isSome]
    exact ⟨i.toNat, by rw [List.mem_range]; omega, by rwa [Int.toNat_of_nonneg hnonneg]⟩

/-- Nothing before the first index has the property. -/
theorem firstIndex_least {n : ℕ} {p : ℤ → Bool} {i : ℤ} (h : firstIndex n p = some i) {j : ℤ}
    (hj : 0 ≤ j) (hji : j < i) : p j = false := by
  obtain ⟨m, hm, rfl⟩ := Option.map_eq_some_iff.mp h
  obtain ⟨-, before, after, hsplit, hbefore⟩ := List.find?_eq_some_iff_append.mp hm
  have hlt : j.toNat < m := by
    have : j < (m : ℤ) := hji
    omega
  -- the numbers before `m` in the range are those that the search has passed
  have hmem : j.toNat ∈ before := by
    have hrange : j.toNat ∈ List.range n := by
      have hmn : m ∈ List.range n := List.mem_of_find?_eq_some hm
      rw [List.mem_range] at hmn ⊢
      omega
    have hsorted := List.pairwise_lt_range (n := n)
    rw [hsplit] at hrange hsorted
    rcases List.mem_append.mp hrange with hb | ha
    · exact hb
    · rcases List.mem_cons.mp ha with he | ha
      · omega
      · have := List.rel_of_pairwise_cons (List.pairwise_append.mp hsorted).2.1 ha
        omega
  simpa [Int.toNat_of_nonneg hj] using hbefore _ hmem

/-! ### The table -/

def emptyQueue : Queue := SlotArray.replicate maxBlockedQueueSize noBlockedQueueValue

def cleanMutex (m : Mutex) : Mutex :=
  { m with used := false, name := null, cardinalBlocked := 0, mutex := 0, queue := emptyQueue }

/-- Entries outside the table are never read. -/
def initializeMutexes (k : Kernel) : Kernel :=
  { k with
    mutexes := fun i =>
      if i = 0 then { cleanMutex (k.mutexes i) with used := true } else cleanMutex (k.mutexes i)
    adminMutex := 0 }

def getIndex (mutexName : ℕ) (k : Kernel) : Option ℤ :=
  firstIndex maxMutexes fun i =>
    strcmp (k.strings (k.mutexes i).name) (k.strings mutexName) = 0 ∧ (k.mutexes i).used

def getFreeSpot (k : Kernel) : Option ℤ :=
  firstIndex maxMutexes fun i => !(k.mutexes i).used

def createMutex (mutexName : ℕ) (k : Kernel) : ℤ × Kernel :=
  let pid := k.pid
  match getFreeSpot k with
  | none => (error, k)
  | some index =>
    (index, k.setMutex index
      { k.mutexes index with used := true, name := mutexName, pidCreator := pid })

/-! ### Locking and freeing -/

/-- Of an index that is not negative. -/
def isValidMutex (mutex : ℤ) (k : Kernel) : Bool :=
  if mutex ≥ maxMutexes then false else (k.mutexes mutex).used

def isQueueFull (mutex : ℤ) (k : Kernel) : Bool :=
  (k.mutexes mutex).cardinalBlocked ≥ maxBlockedQueueSize

def getFreeSpotInBlockedQueue (blocked : Queue) : Option ℕ :=
  blocked.firstFree noBlockedQueueValue

def addToBlocked (mutex pid : ℤ) (k : Kernel) : Kernel :=
  let m := k.mutexes mutex
  match getFreeSpotInBlockedQueue m.queue with
  | none => k
  | some index =>
    k.setMutex mutex
      { m with queue := m.queue.set index pid, cardinalBlocked := m.cardinalBlocked + 1 }

/-- `CMPXCHG8B` compares eight bytes with zero, the word `mutex` and the field
`cardinalBlocked` behind it, and writes both when they are equal. -/
def testAndSet (m : Mutex) : Bool × Mutex :=
  if m.mutex = 0 ∧ m.cardinalBlocked = 0 then (true, { m with mutex := 1, cardinalBlocked := 0 })
  else (false, m)

/-- Whether the call has returned, or is suspended in `_yield`. When the queue is full the
variable `pid` has not been set and holds the value `garbage`. An index below the table is
undefined behaviour. -/
def lockMutex (mutex garbage : ℤ) (k : Kernel) : Option (Bool × Kernel) :=
  if mutex < 0 then none
  else if ¬ isValidMutex mutex k then some (true, k)
  else
    let lock := testAndSet (k.mutexes mutex)
    let k := k.setMutex mutex lock.2
    if lock.1 then some (true, k)
    else if isQueueFull mutex k then
      (k.setState garbage .blocked).yield.map (false, ·)
    else
      let pid := k.pid
      ((addToBlocked mutex pid k).setState pid .blocked).yield.map (false, ·)

def unblockProcess (mutex : ℤ) (k : Kernel) : Kernel :=
  let m := k.mutexes mutex
  match m.queue.firstTaken noBlockedQueueValue with
  | none => k
  | some (i, pid) =>
    let k := k.setState pid .ready
    k.setMutex mutex { m with queue := m.queue.set i noBlockedQueueValue }

def freeMutex (mutex : ℤ) (k : Kernel) : Option Kernel :=
  if mutex < 0 then none
  else if ¬ isValidMutex mutex k then some k
  else if (k.mutexes mutex).cardinalBlocked > 0 then
    let k := unblockProcess mutex k
    some (k.setMutex mutex
      { k.mutexes mutex with cardinalBlocked := (k.mutexes mutex).cardinalBlocked - 1 })
  else some (k.setMutex mutex { k.mutexes mutex with mutex := 0 })

def closeMutex (index : ℤ) (k : Kernel) : Option Kernel :=
  if index < 0 then none
  else if ¬ isValidMutex index k then some k
  else
    let pid := k.pid
    if pid = (k.mutexes index).pidCreator then
      some (k.setMutex index { k.mutexes index with used := false })
    else some k

end GatOS.Sync
