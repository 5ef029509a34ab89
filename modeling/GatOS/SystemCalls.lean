import GatOS.SchedulerRing
import GatOS.Semaphore

/-!
# System calls of many processes

A system call runs without interruption until it ends or gives up the processor in `_yield`.
The rest of a suspended call is kept with its process and carried out when the process runs
again.
-/
namespace GatOS.Sync
open Scheduler Transition

/-- The rest of a call after its `lockMutex` has returned. -/
inductive Rest
  | lockMutex
  | getMutex (name : ℕ)
  | semCreate (name : ℕ) (start : ℤ)
  | createSemaphore (index : ℤ) (name : ℕ) (start pid : ℤ)
  | wait (semaphore : ℤ)

/-- Where a call is suspended: in `lockMutex`, or at the end of `wait`. The semaphore that
`wait` was called on is told from a later one in the same slot by its generation. -/
inductive Pending
  | locking (mutex : ℤ) (rest : Rest)
  | sleeping (semaphore : ℤ) (generation : ℕ)

/-- A record of the past: who holds which mutex, whom `wait` has blocked and no `signal` has
woken, and the calls on each semaphore since it was created. -/
structure Ledger where
  holders : ℤ → List ℤ
  asleep : ℤ → List ℤ
  generation : ℤ → ℕ
  start : ℤ → ℤ
  signals : ℤ → ℕ
  waits : ℤ → ℕ
  returned : ℤ → ℕ

/-- `f` with another value at one place. -/
def assign {β : Type*} (f : ℤ → β) (i : ℤ) (v : β) : ℤ → β := fun j => if j = i then v else f j

@[simp] theorem assign_self {β : Type*} (f : ℤ → β) (i : ℤ) (v : β) : assign f i v i = v :=
  if_pos rfl

theorem assign_ne {β : Type*} (f : ℤ → β) {i j : ℤ} (v : β) (h : j ≠ i) : assign f i v j = f j :=
  if_neg h

namespace Ledger

def hold (l : Ledger) (mutex pid : ℤ) : Ledger :=
  { l with holders := assign l.holders mutex (pid :: l.holders mutex) }

def release (l : Ledger) (mutex pid : ℤ) : Ledger :=
  { l with holders := assign l.holders mutex ((l.holders mutex).erase pid) }

def newSemaphore (l : Ledger) (j start : ℤ) : Ledger :=
  { l with
    asleep := assign l.asleep j []
    generation := assign l.generation j (l.generation j + 1)
    start := assign l.start j start
    signals := assign l.signals j 0
    waits := assign l.waits j 0
    returned := assign l.returned j 0 }

def waited (l : Ledger) (j : ℤ) : Ledger := { l with waits := assign l.waits j (l.waits j + 1) }

def complete (l : Ledger) (j : ℤ) : Ledger :=
  { l with returned := assign l.returned j (l.returned j + 1) }

def sleep (l : Ledger) (j pid : ℤ) : Ledger :=
  { l with asleep := assign l.asleep j (pid :: l.asleep j) }

def signal (l : Ledger) (j : ℤ) (woken : Option ℤ) : Ledger :=
  { l with
    signals := assign l.signals j (l.signals j + 1)
    asleep := assign l.asleep j (match woken with
      | none => l.asleep j
      | some pid => (l.asleep j).erase pid) }

end Ledger

structure Machine where
  kernel : Kernel
  pending : ℤ → Option Pending
  ledger : Ledger

namespace Machine

def pid (s : Machine) : ℤ := s.kernel.pid

def idle (s : Machine) : Bool := (s.pending s.pid).isNone

def suspend (s : Machine) (pid : ℤ) (c : Pending) : Machine :=
  { s with pending := assign s.pending pid (some c) }

/-! ### The parts of the calls -/

def switch (s : Machine) : Option Machine := s.kernel.yield.map fun k => { s with kernel := k }

def createProcess (page : ℕ) (s : Machine) : Machine :=
  { s with kernel := { s.kernel with sched := (Scheduler.createProcess page s.kernel.sched).2 } }

def removeProcess (pid : ℤ) (s : Machine) : Option Machine :=
  (Scheduler.removeProcess pid s.kernel.sched).map fun sched =>
    { s with kernel := { s.kernel with sched := sched } }

/-- `lockMutex`, called as a part of a call that goes on with `rest`; whether it has returned. -/
def lock (mutex garbage : ℤ) (rest : Rest) (s : Machine) : Option (Bool × Machine) :=
  (lockMutex mutex garbage s.kernel).map fun r =>
    if r.1 then
      (true, { s with
        kernel := r.2
        ledger := if isValidMutex mutex s.kernel then s.ledger.hold mutex s.pid else s.ledger })
    else (false, { s with kernel := r.2 }.suspend s.pid (.locking mutex rest))

def free (mutex : ℤ) (s : Machine) : Option Machine :=
  (freeMutex mutex s.kernel).map fun k =>
    { s with kernel := k, ledger := s.ledger.release mutex s.pid }

def getMutexEnd (name : ℕ) (s : Machine) : Option Machine :=
  (getMutexRest name s.kernel).map fun r =>
    { s with kernel := r.2, ledger := s.ledger.release s.kernel.adminMutex s.pid }

def close (mutex : ℤ) (s : Machine) : Option Machine :=
  (closeMutex mutex s.kernel).map fun k => { s with kernel := k }

def reserve (index : ℤ) (name : ℕ) (s : Machine) : Machine :=
  { s with kernel := createSemaphoreStart index name s.kernel }

def createSemaphoreEnd (index : ℤ) (name : ℕ) (start pid : ℤ) (s : Machine) : Option Machine :=
  (createSemaphoreRest index name start pid s.kernel).map fun k =>
    { s with
      kernel := k
      ledger := ((s.ledger.release s.kernel.adminMutex s.pid).release s.kernel.semaphoreMutex
        s.pid).newSemaphore index start }

def closeSemaphore (j : ℤ) (s : Machine) : Option Machine :=
  (semClose j s.kernel).map fun k => { s with kernel := k }

/-- The mutex that is freed is the one of the semaphore at that time. -/
def waitEnd (j : ℤ) (s : Machine) : Option Machine :=
  (waitRest j s.kernel).map fun r =>
    let ledger := (s.ledger.waited j).release (s.kernel.semaphores j).mutex s.pid
    if r.1 then { s with kernel := r.2, ledger := ledger.complete j }
    else { s with kernel := r.2, ledger := ledger.sleep j s.pid }.suspend s.pid
      (.sleeping j (s.ledger.generation j))

/-- The waiter that the next `signal` takes out of the queue. -/
def nextWoken (j : ℤ) (k : Kernel) : Option ℤ :=
  if (k.semaphores j).cardinalBlocked > 0 then
    ((k.semaphores j).queue.firstTaken noBlockedQueueValue).map Prod.snd
  else none

def signal (j : ℤ) (s : Machine) : Option Machine :=
  (Sync.signal j s.kernel).map fun k =>
    { s with
      kernel := k
      ledger := if isValidSemaphore j s.kernel then
          s.ledger.signal j (nextWoken j s.kernel)
        else s.ledger }

/-- The process goes on behind its `_yield`. -/
def wake (s : Machine) : Machine :=
  let pid := s.pid
  let t := { s with pending := assign s.pending pid none }
  match s.pending pid with
  | none => t
  | some (.locking mutex _) => { t with ledger := t.ledger.hold mutex pid }
  | some (.sleeping j generation) =>
    { t with
      ledger := if generation = t.ledger.generation j then t.ledger.complete j else t.ledger }

/-! ### The calls -/

/-- `semCreate` behind `lockMutex(semaphoreMutex)`. -/
def semCreateEnd (name : ℕ) (start garbage : ℤ) (s : Machine) : Option Machine :=
  match getSemIndex name s.kernel with
  | some _ => some s
  | none =>
    match getFreePositionSemaphores s.kernel with
    | none => s.free s.kernel.semaphoreMutex
    | some index =>
      let pid := s.pid
      let s := s.reserve index name
      (s.lock s.kernel.adminMutex garbage (.createSemaphore index name start pid)).bind fun r =>
        if r.1 then r.2.createSemaphoreEnd index name start pid else some r.2

def proceed (garbage : ℤ) (s : Machine) : Rest → Option Machine
  | .lockMutex => some s
  | .getMutex name => s.getMutexEnd name
  | .semCreate name start => s.semCreateEnd name start garbage
  | .createSemaphore index name start pid => s.createSemaphoreEnd index name start pid
  | .wait j => s.waitEnd j

/-- A call that locks a mutex first. -/
def lockThen (mutex garbage : ℤ) (rest : Rest) (s : Machine) : Option Machine :=
  (s.lock mutex garbage rest).bind fun r => if r.1 then r.2.proceed garbage rest else some r.2

/-- A process that was suspended runs again. -/
def resume (garbage : ℤ) (s : Machine) : Option Machine :=
  match s.pending s.pid with
  | none => none
  | some (.locking _ rest) => s.wake.proceed garbage rest
  | some (.sleeping _ _) => some s.wake

end Machine

/-- `garbage` is the value of a variable that has not been set. -/
inductive Action
  | tick
  | createProcess (page : ℕ)
  | removeProcess (pid : ℤ)
  | lockMutex (mutex garbage : ℤ)
  | freeMutex (mutex : ℤ)
  | getMutex (name : ℕ) (garbage : ℤ)
  | closeMutex (mutex : ℤ)
  | semCreate (name : ℕ) (start garbage : ℤ)
  | semClose (semaphore : ℤ)
  | wait (semaphore garbage : ℤ)
  | signal (semaphore : ℤ)
  | resume (garbage : ℤ)
  | store (strings : ℕ → List ℤ)

/-- `wait` looks up the mutex of a valid semaphore. -/
def Machine.wait (j garbage : ℤ) (s : Machine) : Option Machine :=
  if j < 0 then none
  else if ¬ isValidSemaphore j s.kernel then some s
  else s.lockThen (s.kernel.semaphores j).mutex garbage (.wait j)

/-- The calls that the running process can make; the init process makes none. -/
def Machine.call (s : Machine) : Action → Option Machine
  | .lockMutex mutex garbage => s.lockThen mutex garbage .lockMutex
  | .freeMutex mutex => s.free mutex
  | .getMutex name garbage => s.lockThen s.kernel.adminMutex garbage (.getMutex name)
  | .closeMutex mutex => s.close mutex
  | .semCreate name start garbage =>
    s.lockThen s.kernel.semaphoreMutex garbage (.semCreate name start)
  | .semClose j => s.closeSemaphore j
  | .wait j garbage => s.wait j garbage
  | .signal j => s.signal j
  | _ => none

/-- A process that was suspended in a call goes on with it before anything else happens. -/
def step (s : Machine) : Action → Option Machine
  | .resume garbage => s.resume garbage
  | .tick => if s.idle then s.switch else none
  | .createProcess page =>
    if s.idle ∧ FreshPage s.kernel.sched page then some (s.createProcess page) else none
  | .removeProcess pid => if s.idle then s.removeProcess pid else none
  | .store strings => if s.idle then some { s with kernel := { s.kernel with strings } } else none
  | a => if s.idle ∧ s.pid ≠ initPid then s.call a else none

/-! ### The start -/

def emptyLedger : Ledger :=
  ⟨fun _ => [], fun _ => [], fun _ => 0, fun _ => 0, fun _ => 0, fun _ => 0, fun _ => 0⟩

/-- The memory of the tables is zero at the start. -/
def zeroKernel (slot : ℕ → ProcessSlot) (strings : ℕ → List ℤ) : Kernel where
  sched := ⟨slot, null, 0, 0, []⟩
  mutexes := fun _ => ⟨false, null, emptyQueue, 0, 0, 0⟩
  adminMutex := 0
  semaphores := fun _ => ⟨false, null, emptyQueue, 0, 0, 0, 0⟩
  semaphoreMutex := 0
  strings := strings

/-- `main` initialises the tables and creates the init process and the shell. -/
def boot (slot : ℕ → ProcessSlot) (strings : ℕ → List ℤ) (name initPage shellPage : ℕ) :
    Option Kernel :=
  (initializeSemaphores name (initializeMutexes (zeroKernel slot strings))).map fun k =>
    { k with sched :=
        (Scheduler.createProcess shellPage (Scheduler.createProcess initPage k.sched).2).2 }

/-- At address 0 there is not the text "semaphoreMutex". -/
def IsBoot (s : Machine) : Prop :=
  ∃ slot strings name initPage shellPage, strcmp (strings null) (strings name) ≠ 0 ∧
    IsPage initPage ∧ IsPage shellPage ∧ initPage ≠ shellPage ∧
    boot slot strings name initPage shellPage = some s.kernel ∧
    (∀ p, s.pending p = none) ∧ s.ledger = emptyLedger

def machineSystem : System Machine Action := ofStep IsBoot step

end GatOS.Sync
