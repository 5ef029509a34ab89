import GatOS.MutexCalls

/-!
# Dining philosophers

The program `dPhilosphers` of `dummy.c`: processes that take and put down forks under one mutex.
The calls of `sleep` and the output are left out: a process that sleeps is one whose next
statement comes later.
-/
namespace GatOS.Philosophers
open Scheduler Sync Transition

def thinking : ℤ := 0

def hungry : ℤ := 1

def eating : ℤ := 2

/-- The calls of `testP`: the one in `take_fork` and the two in `put_fork`. -/
inductive Test
  | own
  | left
  | right
deriving DecidableEq

/-- The next statement of a philosopher. `take_fork` returns at `lockPut`. -/
inductive Place
  | lockTake
  | hungry
  | test (call : Test)
  | eat (call : Test)
  | signal (call : Test)
  | freeTake
  | wait
  | lockPut
  | think
  | freePut
deriving DecidableEq

/-- The place behind a call of `testP`. -/
def Test.after : Test → Place
  | .own => .freeTake
  | .left => .test .right
  | .right => .freePut

/-- `value` is the number of the philosopher. -/
structure Philosopher where
  value : ℕ
  place : Place

/-- The arguments of `createThreads`; `semaphores` is an array of pointers. -/
structure Table where
  total : ℕ
  mutex : ℤ
  semaphores : ℕ → ℕ

namespace Table

/-- `*(arg->sems + k)`: the array of pointers, read as an array of `int`. -/
def sems (T : Table) (k : ℕ) : ℤ :=
  MachineInt.int32 (T.semaphores (k / 2) / 2 ^ (32 * (k % 2)) : ℕ)

/-- The argument `number` of `testP`. -/
def number (T : Table) (x : Philosopher) : Test → ℕ
  | .own => x.value
  | .left => (x.value + 4) % T.total
  | .right => (x.value + 1) % T.total

end Table

/-- `created` is the variable `i` of `createThreads`, `state` the array `st`, which is not
initialised. -/
structure State where
  machine : Machine
  philosophers : ℤ → Option Philosopher
  created : ℕ
  state : ℕ → ℤ

inductive Event
  | run (garbage : ℤ)
  | createProcess (page : ℕ)
  | other (action : Action)

namespace State

/-- The running process goes on at `place`. -/
def goto (s : State) (x : Philosopher) (place : Place) : State :=
  { s with philosophers :=
      Function.update s.philosophers s.machine.pid (some { x with place := place }) }

/-- After a system call; the process goes on if the call has returned. -/
def afterCall (s : State) (x : Philosopher) (place : Place) (m : Machine) : State :=
  if (m.pending s.machine.pid).isNone then { s.goto x place with machine := m }
  else { s with machine := m }

/-- `state[number] = value`. -/
def setState (s : State) (number : ℕ) (value : ℤ) : State :=
  { s with state := Function.update s.state number value }

/-- The condition in `testP`. -/
def testP (T : Table) (s : State) (number : ℕ) : Bool :=
  s.state number = hungry ∧ s.state ((number + 4) % T.total) ≠ eating ∧
    s.state ((number + 1) % T.total) ≠ eating

/-- The next statement of the running process. -/
def run (T : Table) (garbage : ℤ) (s : State) (x : Philosopher) : Option State :=
  match x.place with
  | .lockTake => (lockOn T.mutex garbage s.machine).map (s.afterCall x .hungry)
  | .hungry => some ((s.setState x.value Philosophers.hungry).goto x (.test .own))
  | .test call =>
    some (s.goto x (if s.testP T (T.number x call) then .eat call else call.after))
  | .eat call => some ((s.setState (T.number x call) eating).goto x (.signal call))
  | .signal call =>
    (Sync.step s.machine (.signal (T.sems (T.number x call)))).map (s.afterCall x call.after)
  | .freeTake => (Sync.step s.machine (.freeMutex T.mutex)).map (s.afterCall x .wait)
  | .wait => (waitOn (T.sems x.value) garbage s.machine).map (s.afterCall x .lockPut)
  | .lockPut => (lockOn T.mutex garbage s.machine).map (s.afterCall x .think)
  | .think => some ((s.setState x.value thinking).goto x (.test .left))
  | .freePut => (Sync.step s.machine (.freeMutex T.mutex)).map (s.afterCall x .lockTake)

/-- One turn of the loop of `createThreads`. -/
def createProcess (page : ℕ) (s : State) : Option State :=
  let p := (Scheduler.createProcess page s.machine.kernel.sched).1
  (Sync.step s.machine (.createProcess page)).map fun m =>
    { s with
      machine := m
      philosophers := Function.update s.philosophers p (some ⟨s.created, .lockTake⟩)
      created := s.created + 1 }

/-- What the other processes do. The clock interrupts all of them. -/
def permits (T : Table) (s : State) : Action → Bool
  | .tick => true
  | a => (s.philosophers s.machine.pid).isNone && a.spares T.mutex s.machine

end State

def step (T : Table) (s : State) : Event → Option State
  | .run garbage => (s.philosophers s.machine.pid).bind (s.run T garbage)
  | .createProcess page =>
    if (s.philosophers s.machine.pid).isNone ∧ s.created < T.total then s.createProcess page
    else none
  | .other action =>
    if s.permits T action then
      (Sync.step s.machine action).map fun m => { s with machine := m }
    else none

/-- `getMutex` has returned the mutex under a new name, so it is nobody's, and no semaphore has
it. -/
structure IsStart (T : Table) (s : State) : Prop where
  machine : machineSystem.Reachable s.machine
  valid : isValidMutex T.mutex s.machine.kernel = true
  word : (s.machine.kernel.mutexes T.mutex).mutex = 0
  holders : s.machine.ledger.holders T.mutex = []
  pending : ∀ p rest, s.machine.pending p ≠ some (.locking T.mutex rest)
  semaphores : ∀ j, 0 ≤ j → isValidSemaphore j s.machine.kernel = true →
    (s.machine.kernel.semaphores j).mutex ≠ T.mutex
  philosophers : ∀ p, s.philosophers p = none
  created : s.created = 0

def system (T : Table) : System State Event := ofStep (IsStart T) (step T)

end GatOS.Philosophers
