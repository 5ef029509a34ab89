import GatOS.Mutex

/-!
# Semaphores

The functions of `semaphores.c` and `getMutex`. A function that calls `lockMutex` is cut behind
that call: the process may be suspended there.
-/
namespace GatOS.Sync
open Scheduler

/-- What `getMutex` does after `lockMutex(adminMutex)`. -/
def getMutexRest (mutexName : ℕ) (k : Kernel) : Option (ℤ × Kernel) :=
  let r := match getIndex mutexName k with
    | some index => (index, k)
    | none => createMutex mutexName k
  (freeMutex r.2.adminMutex r.2).map fun k => (r.1, k)

/-! ### The table -/

def cleanSemaphore (sem : Semaphore) : Semaphore :=
  { sem with used := false, semaphore := 0, cardinalBlocked := 0, queue := emptyQueue }

/-- `name` is the address of the text "semaphoreMutex". -/
def initializeSemaphores (name : ℕ) (k : Kernel) : Option Kernel :=
  let k := { k with semaphores := fun i => cleanSemaphore (k.semaphores i) }
  (lockMutex k.adminMutex 0 k).bind fun r =>
    (getMutexRest name r.2).map fun r => { r.2 with semaphoreMutex := r.1 }

/-- Of an index that is not negative. -/
def isValidSemaphore (index : ℤ) (k : Kernel) : Bool :=
  if index ≥ maxSemaphores then false else (k.semaphores index).used

def addToSemBlocked (i pid : ℤ) (k : Kernel) : Kernel :=
  let sem := k.semaphores i
  match getFreeSpotInBlockedQueue sem.queue with
  | none => k
  | some index =>
    k.setSemaphore i
      { sem with queue := sem.queue.set index pid, cardinalBlocked := sem.cardinalBlocked + 1 }

def getSemIndex (name : ℕ) (k : Kernel) : Option ℤ :=
  firstIndex maxSemaphores fun i =>
    strcmp (k.strings (k.semaphores i).name) (k.strings name) = 0 ∧ (k.semaphores i).used

def getFreePositionSemaphores (k : Kernel) : Option ℤ :=
  firstIndex maxSemaphores fun i => !(k.semaphores i).used

def semClose (index : ℤ) (k : Kernel) : Option Kernel :=
  if index < 0 then none
  else if ¬ isValidSemaphore index k then some k
  else
    let pid := k.pid
    if pid = (k.semaphores index).pidCreator then
      some (k.setSemaphore index { k.semaphores index with used := false })
    else some k

/-! ### Creating -/

/-- What `createSemaphore` does before `getMutex`. -/
def createSemaphoreStart (index : ℤ) (semName : ℕ) (k : Kernel) : Kernel :=
  k.setSemaphore index { k.semaphores index with used := true, name := semName }

/-- What `createSemaphore` does after `getMutex` has returned `mutex`. -/
def createSemaphoreEnd (index mutex start pid : ℤ) (k : Kernel) : Kernel :=
  k.setSemaphore index
    { k.semaphores index with mutex := mutex, semaphore := start, pidCreator := pid }

/-- What `semCreate` does after `lockMutex(adminMutex)` in the call of `getMutex`. -/
def createSemaphoreRest (index : ℤ) (semName : ℕ) (start pid : ℤ) (k : Kernel) : Option Kernel :=
  (getMutexRest semName k).bind fun r =>
    freeMutex r.2.semaphoreMutex (createSemaphoreEnd index r.1 start pid r.2)

/-! ### Waiting and signalling -/

/-- `sem->semaphore--`. -/
def decrement (semaphore : ℤ) (k : Kernel) : Kernel :=
  let sem := k.semaphores semaphore
  k.setSemaphore semaphore { sem with semaphore := MachineInt.int32 (sem.semaphore - 1) }

/-- What `wait` does after `lockMutex(sem->mutex)`; whether the call has returned. -/
def waitRest (semaphore : ℤ) (k : Kernel) : Option (Bool × Kernel) :=
  let k := decrement semaphore k
  if (k.semaphores semaphore).semaphore ≥ 0 then
    (freeMutex (k.semaphores semaphore).mutex k).map (true, ·)
  else
    let pid := k.pid
    let k := (addToSemBlocked semaphore pid k).setState pid .blocked
    (freeMutex (k.semaphores semaphore).mutex k).bind fun k => k.yield.map (false, ·)

def unblockProcessSemaphore (sem : ℤ) (k : Kernel) : Kernel :=
  let s := k.semaphores sem
  match s.queue.firstTaken noBlockedQueueValue with
  | none => k
  | some (i, pid) =>
    let k := k.setState pid .ready
    k.setSemaphore sem { s with queue := s.queue.set i noBlockedQueueValue }

def signal (semaphore : ℤ) (k : Kernel) : Option Kernel :=
  if semaphore < 0 then none
  else if ¬ isValidSemaphore semaphore k then some k
  else
    let k :=
      if (k.semaphores semaphore).cardinalBlocked > 0 then
        let k := unblockProcessSemaphore semaphore k
        k.setSemaphore semaphore
          { k.semaphores semaphore with
            cardinalBlocked := (k.semaphores semaphore).cardinalBlocked - 1 }
      else k
    let sem := k.semaphores semaphore
    some (k.setSemaphore semaphore
      { sem with semaphore := MachineInt.int32 (sem.semaphore + 1) })

end GatOS.Sync
