import GatOS.BoundedQueue
import GatOS.Census
import GatOS.SemaphoreCalls
import GatOS.SemaphorePermits

/-!
# Producers and consumers

The program `prodCons` of `dummy.c`: any number of producers and consumers, created and removed at
any moment, share a buffer through three semaphores. The other processes use the rest of the
kernel as they like. The calls of `sleep` and the output are left out: a process that sleeps is one
whose next statement comes later.
-/
namespace GatOS.ProducerConsumer
open Scheduler Sync Transition

def bufferSize : ℕ := 50

/-- A value stored in a `char`. -/
def char (x : ℤ) : ℤ := x.bmod (2 ^ 8)

inductive Role
  | producer
  | consumer
deriving DecidableEq

/-- The next statement of a process. A role waits on the semaphore that counts what it needs and
signals the one that counts what it leaves. -/
inductive Place
  | openItem
  | openFull
  | openEmpty
  | produce
  | increment
  | waitCount
  | waitItem
  | access
  | advance
  | signalItem
  | signalCount
deriving DecidableEq

/-- The head of the loop. -/
def Role.head : Role → Place
  | .producer => .produce
  | .consumer => .waitCount

/-- The variables of `producer` and of `consumer`. -/
structure Worker where
  role : Role
  place : Place
  item : ℤ
  itemSem : ℤ
  fullSem : ℤ
  emptySem : ℤ

namespace Worker

/-- The semaphore before the access to the buffer. -/
def awaited (x : Worker) : ℤ :=
  match x.role with
  | .producer => x.emptySem
  | .consumer => x.fullSem

/-- The semaphore after the access to the buffer. -/
def posted (x : Worker) : ℤ :=
  match x.role with
  | .producer => x.fullSem
  | .consumer => x.emptySem

end Worker

/-- The global variables of the program and a record of the past: the processes that were started,
the items that were stored in the buffer and those that were read from it. -/
structure State where
  machine : Machine
  workers : ℤ → Option Worker
  started : List ℤ
  itemMutex : ℤ
  fullCount : ℤ
  emptyCount : ℤ
  i : ℤ
  buffer : ℕ → ℤ
  w : ℕ
  r : ℕ
  inserted : List ℤ
  removed : List ℤ

/-- The addresses of the names of the semaphores. -/
structure Names where
  itemMutex : ℕ
  fullCount : ℕ
  emptyCount : ℕ

inductive Event
  | run (garbage : ℤ)
  | createProcess (role : Role) (page : ℕ)
  | other (action : Action)

def semOpen (name : ℕ) (k : Kernel) : ℤ := (getSemIndex name k).getD error

namespace State

def own (s : State) : List ℤ := [s.itemMutex, s.fullCount, s.emptyCount]

/-- The running process, which is `x` now. -/
def setWorker (s : State) (x : Worker) : State :=
  { s with workers := Function.update s.workers s.machine.pid (some x) }

/-- After a system call that has returned, `x` describes the process that made it. -/
def afterCall (s : State) (x : Worker) (m : Machine) : State :=
  if (m.pending s.machine.pid).isNone then { s.setWorker x with machine := m }
  else { s with machine := m }

/-- The assignment to `buffer[w]` in `insertItem`, or the one from `buffer[r]` in `removeItem`. -/
def access (s : State) (x : Worker) : State :=
  match x.role with
  | .producer =>
    { s.setWorker { x with place := .advance } with
      buffer := fun i => if i = s.w then char x.item else s.buffer i
      inserted := s.inserted ++ [char x.item] }
  | .consumer =>
    { s.setWorker { x with item := s.buffer s.r, place := .advance } with
      removed := s.removed ++ [s.buffer s.r] }

/-- The increment of `w` in `insertItem`, or of `r` in `removeItem`. -/
def advance (s : State) (x : Worker) : State :=
  match x.role with
  | .producer =>
    { s.setWorker { x with place := .signalItem } with w := (s.w + 1) % bufferSize }
  | .consumer =>
    { s.setWorker { x with place := .signalItem } with r := (s.r + 1) % bufferSize }

/-- The next statement of the running process. -/
def run (names : Names) (garbage : ℤ) (s : State) (x : Worker) : Option State :=
  match x.place with
  | .openItem =>
    some (s.setWorker { x with
      itemSem := semOpen names.itemMutex s.machine.kernel, place := .openFull })
  | .openFull =>
    some (s.setWorker { x with
      fullSem := semOpen names.fullCount s.machine.kernel, place := .openEmpty })
  | .openEmpty =>
    some (s.setWorker { x with
      emptySem := semOpen names.emptyCount s.machine.kernel, place := x.role.head })
  | .produce => some (s.setWorker { x with item := s.i, place := .increment })
  | .increment =>
    some { s.setWorker { x with place := .waitCount } with i := MachineInt.int32 (x.item + 1) }
  | .waitCount =>
    (waitOn x.awaited garbage s.machine).map (s.afterCall { x with place := .waitItem })
  | .waitItem =>
    (waitOn x.itemSem garbage s.machine).map (s.afterCall { x with place := .access })
  | .access => some (s.access x)
  | .advance => some (s.advance x)
  | .signalItem =>
    (Sync.step s.machine (.signal x.itemSem)).map (s.afterCall { x with place := .signalCount })
  | .signalCount =>
    (Sync.step s.machine (.signal x.posted)).map (s.afterCall { x with place := x.role.head })

/-- What the other processes do. The clock interrupts all of them. -/
def permits (s : State) : Action → Bool
  | .tick => true
  | a => (s.workers s.machine.pid).isNone && a.foreign s.own s.machine

/-- `control` creates a producer or a consumer. -/
def createProcess (role : Role) (page : ℕ) (s : State) : Option State :=
  let p := (Scheduler.createProcess page s.machine.kernel.sched).1
  (Sync.step s.machine (.createProcess page)).map fun m =>
    { s with
      machine := m
      workers := Function.update s.workers p (some ⟨role, .openItem, 0, 0, 0, 0⟩)
      started := p :: s.started }

end State

def step (names : Names) (s : State) : Event → Option State
  | .run garbage => (s.workers s.machine.pid).bind (s.run names garbage)
  | .createProcess role page =>
    if (s.workers s.machine.pid).isNone then s.createProcess role page else none
  | .other action =>
    if s.permits action then
      (Sync.step s.machine action).map fun m => { s with machine := m }
    else none

/-- Semaphore `j` has been created under the name, and nobody has called `wait` or `signal`. -/
structure FreshSemaphore (m : Machine) (name : ℕ) (j start : ℤ) : Prop where
  index : getSemIndex name m.kernel = some j
  start : m.ledger.start j = start
  waits : m.ledger.waits j = 0
  signals : m.ledger.signals j = 0

/-- After the three calls of `semCreate` in `prodCons`. -/
structure IsStart (names : Names) (s : State) : Prop where
  machine : machineSystem.Reachable s.machine
  itemMutex : FreshSemaphore s.machine names.itemMutex s.itemMutex 1
  fullCount : FreshSemaphore s.machine names.fullCount s.fullCount 0
  emptyCount : FreshSemaphore s.machine names.emptyCount s.emptyCount bufferSize
  workers : ∀ p, s.workers p = none
  started : s.started = []
  indices : s.w = 0 ∧ s.r = 0
  items : s.inserted = [] ∧ s.removed = []

def system (names : Names) : System State Event := ofStep (IsStart names) (step names)

end GatOS.ProducerConsumer
