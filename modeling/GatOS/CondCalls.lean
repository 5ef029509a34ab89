import GatOS.CondVariable
import GatOS.MutexPreemption

/-!
# Waiting on a condition variable

`cond_wait`, `cond_signal` and `cond_broadcast` statement by statement, with any number of
processes. The calls of `mutex_lock` and `mutex_unlock` are whole calls; between two statements
other processes can run.
-/
namespace GatOS.CondCalls
open Cond QueuedMutex Scheduler Transition

/-- The next statement of `cond_wait`; the statements from `lockQueue` to `unlockQueue` are those
of `sync_enqueue`. -/
inductive WaitPlace
  | unlockMutex
  | lockQueue
  | enqueue
  | unlockQueue
  | block
  | yield
  | relock
  | ret
  deriving DecidableEq

inductive Kind
  | signal
  | broadcast
  deriving DecidableEq

/-- The next statement of `cond_signal` with `sync_dequeue`, or of `cond_broadcast`. -/
inductive WakePlace
  | lock
  | test
  | dequeue
  | unlock (p : ℕ)
  | wake (p : ℕ)
  | ret

/-- A record of the past: the processes that had released their mutex in a `cond_wait` on the
variable when the call began and have not been taken out of the queue since, and the sleeping
processes that the call has made ready. -/
structure Record where
  left : ℕ → Bool
  woken : List ℕ

inductive Call
  | wait (key lockKey : ℤ) (place : WaitPlace)
  | wake (kind : Kind) (key : ℤ) (place : WakePlace) (record : Record)

/-- The process has been taken out of a queue. -/
def Call.drop (p : ℕ) : Call → Call
  | .wait key lockKey place => .wait key lockKey place
  | .wake kind key place record =>
    .wake kind key place { record with left := fun q => record.left q && q ≠ p }

/-- The mutex is released and the process not yet in the queue. -/
def Call.between (key : ℤ) : Call → Bool
  | .wait key' _ place => key' = key && (place = .lockQueue || place = .enqueue)
  | .wake .. => false

/-- The process has blocked itself, and has not been woken when it is still blocked. -/
def Call.asleep (key : ℤ) : Call → Bool
  | .wait key' _ place => key' = key && (place = .yield || place = .relock)
  | .wake .. => false

/-- `finished` are the calls of `cond_signal` and `cond_broadcast` that have returned. -/
structure State where
  conds : Conds
  calls : ℕ → Option Call
  finished : List (Kind × Record)

namespace State

def machine (s : State) : Machine := s.conds.machine

def current (s : State) : ℕ := s.machine.sched.current

/-- The processes in the queue of the variable. -/
def queue (s : State) (key : ℤ) : List ℕ :=
  ((s.conds.openConds key).processQueue.map QueuedMutex.Queue.elems).getD []

def between (s : State) (key : ℤ) (p : ℕ) : Bool := (s.calls p).any (Call.between key)

/-- The process has released its mutex in a `cond_wait` on the variable. -/
def released (s : State) (key : ℤ) (p : ℕ) : Bool := s.between key p || p ∈ s.queue key

def sleeps (s : State) (key : ℤ) (p : ℕ) : Bool :=
  (s.calls p).any (Call.asleep key) && (s.machine.sched.processOf p).state = .blocked

def goto (s : State) (c : Option Call) : State :=
  { s with calls := Function.update s.calls s.current c }

def withMachine (m : Machine) (s : State) : State := { s with conds := s.conds.withMachine m }

def setQueue (key : ℤ) (q : Option QueuedMutex.Queue) (s : State) : State :=
  { s with conds := s.conds.setCond key { s.conds.openConds key with processQueue := q } }

/-! ### The statements -/

/-- `node` is what `allocPage` returns when the process has to wait. -/
def mutexLock (key : ℤ) (node : ℕ) (s : State) : Option State :=
  (QueuedMutex.mutexLock key node s.machine).map fun (_, m) => s.withMachine m

def mutexUnlock (key : ℤ) (s : State) : Option State :=
  (QueuedMutex.mutexUnlock key s.machine).map fun u => s.withMachine u.after

def changeProcessState (p : ℕ) (state : ProcessState) (s : State) : State :=
  s.withMachine (s.machine.changeProcessState p state)

def lockQueue (s : State) (key : ℤ) : ℤ := (s.conds.openConds key).lockQueue

/-- `node` is what `allocPage` returns. -/
def enqueue (key : ℤ) (node p : ℕ) (s : State) : State :=
  match (s.conds.openConds key).processQueue with
  | none => s
  | some q =>
    let s := if node = null then
        s.withMachine { s.machine with sched := storeNull p s.machine.sched }
      else s
    s.setQueue key (some (QueuedMutex.enqueue node p q))

def dequeue (key : ℤ) (s : State) : ℕ × State :=
  let (p, q) := QueuedMutex.dequeue (s.conds.openConds key).processQueue
  (p, { s.setQueue key q with calls := fun a => (s.calls a).map (Call.drop p) })

def runWait (node : ℕ) (key lockKey : ℤ) (s : State) : WaitPlace → Option State
  | .unlockMutex => (s.goto (some (.wait key lockKey .lockQueue))).mutexUnlock lockKey
  | .lockQueue => (s.goto (some (.wait key lockKey .enqueue))).mutexLock (s.lockQueue key) node
  | .enqueue => some ((s.goto (some (.wait key lockKey .unlockQueue))).enqueue key node s.current)
  | .unlockQueue => (s.goto (some (.wait key lockKey .block))).mutexUnlock (s.lockQueue key)
  | .block =>
    some ((s.goto (some (.wait key lockKey .yield))).changeProcessState s.current .blocked)
  | .yield => s.machine.yield.map fun m => (s.goto (some (.wait key lockKey .relock))).withMachine m
  | .relock => (s.goto (some (.wait key lockKey .ret))).mutexLock lockKey node
  | .ret => some (s.goto none)

/-- `changeProcessState(p->pid, READY)`. -/
def wake (key : ℤ) (p : ℕ) (record : Record) (s : State) : Record × State :=
  ({ record with woken := if s.sleeps key p then p :: record.woken else record.woken },
    s.changeProcessState p .ready)

def runSignal (node : ℕ) (key : ℤ) (record : Record) (s : State) : WakePlace → Option State
  | .lock => (s.goto (some (.wake .signal key .test record))).mutexLock (s.lockQueue key) node
  | .test =>
    let place := if isEmpty (s.conds.openConds key).processQueue then .unlock null else .dequeue
    some (s.goto (some (.wake .signal key place record)))
  | .dequeue =>
    let (p, s) := s.dequeue key
    some (s.goto (some ((Call.wake .signal key (.unlock p) record).drop p)))
  | .unlock p => (s.goto (some (.wake .signal key (.wake p) record))).mutexUnlock (s.lockQueue key)
  | .wake p =>
    if p ≠ null then
      let (record, s) := s.wake key p record
      some (s.goto (some (.wake .signal key .ret record)))
    else some (s.goto (some (.wake .signal key .ret record)))
  | .ret => some { s.goto none with finished := (.signal, record) :: s.finished }

def runBroadcast (node : ℕ) (key : ℤ) (record : Record) (s : State) : WakePlace → Option State
  | .lock => (s.goto (some (.wake .broadcast key .test record))).mutexLock (s.lockQueue key) node
  | .test =>
    let place := if isEmpty (s.conds.openConds key).processQueue then .unlock null else .dequeue
    some (s.goto (some (.wake .broadcast key place record)))
  | .dequeue =>
    let (p, s) := s.dequeue key
    some (s.goto (some ((Call.wake .broadcast key (.wake p) record).drop p)))
  | .wake p =>
    let (record, s) := s.wake key p record
    some (s.goto (some (.wake .broadcast key .test record)))
  | .unlock _ => (s.goto (some (.wake .broadcast key .ret record))).mutexUnlock (s.lockQueue key)
  | .ret => some { s.goto none with finished := (.broadcast, record) :: s.finished }

/-- The running process goes on with its call. -/
def run (node : ℕ) (s : State) : Call → Option State
  | .wait key lockKey place => s.runWait node key lockKey place
  | .wake .signal key place record => s.runSignal node key record place
  | .wake .broadcast key place record => s.runBroadcast node key record place

/-- A call on a variable that is not open returns `NOT_OPEN_ERROR`. -/
def begin (key : ℤ) (c : Call) (s : State) : Option State :=
  if (s.calls s.current).isSome then none
  else if condIsOpen key s.conds then some (s.goto (some c))
  else some s

end State

inductive Event
  | condWait (key lockKey : ℤ)
  | condSignal (key : ℤ)
  | condBroadcast (key : ℤ)
  | mutexLock (key : ℤ) (node : ℕ)
  | mutexUnlock (key : ℤ)
  | run (node : ℕ)
  | tick
  | createProcess (page : ℕ)

/-- A process that is in a call finishes it before it makes the next one. -/
def step (s : State) : Event → Option State
  | .condWait key lockKey => s.begin key (.wait key lockKey .unlockMutex)
  | .condSignal key => s.begin key (.wake .signal key .lock ⟨s.released key, []⟩)
  | .condBroadcast key => s.begin key (.wake .broadcast key .lock ⟨s.released key, []⟩)
  | .mutexLock key node => if (s.calls s.current).isSome then none else s.mutexLock key node
  | .mutexUnlock key => if (s.calls s.current).isSome then none else s.mutexUnlock key
  | .run node => (s.calls s.current).bind (s.run node)
  | .tick => s.machine.yield.map fun m => s.withMachine m
  | .createProcess page =>
    if FreshPage s.machine.sched page then
      some (s.withMachine
        { s.machine with sched := (Scheduler.createProcess page s.machine.sched).2 })
    else none

/-- The mutexes and the variables have been opened, and nobody has called yet. -/
def IsStart (s : State) : Prop :=
  IsFresh ⟨s.machine, fun _ => none⟩ ∧ (∀ key, s.queue key = []) ∧ (∀ p, s.calls p = none) ∧
    s.finished = []

def system : System State Event := ofStep IsStart step

/-! ### The result -/

/-- The call has taken the process out of the queue and is going to make it ready. -/
def Takes (c : Option Call) (key : ℤ) (p : ℕ) : Prop :=
  p ≠ null ∧ ∃ kind record, c = some (.wake kind key (.unlock p) record) ∨
    c = some (.wake kind key (.wake p) record)

/-- A signal has woken somebody when anybody was left, a broadcast has left nobody, and a sleeping
process is in the queue or about to be woken. -/
structure NoneLost (s : State) : Prop where
  signal : ∀ record, (Kind.signal, record) ∈ s.finished →
    record.woken ≠ [] ∨ ∀ p, record.left p = false
  broadcast : ∀ record, (Kind.broadcast, record) ∈ s.finished → ∀ p, record.left p = false
  asleep : ∀ key p, s.sleeps key p = true → p ∈ s.queue key ∨ ∃ q, Takes (s.calls q) key p

/-- Nobody who had released the mutex when the call began is still on the way to the queue. -/
def NobodyBetween (s : State) (key : ℤ) (record : Record) : Prop :=
  ∀ p ∈ ring s.machine.sched, record.left p = true → s.between key p = false

instance (s : State) (key : ℤ) (record : Record) : Decidable (NobodyBetween s key record) :=
  inferInstanceAs (Decidable (∀ p ∈ ring s.machine.sched, _ → _))

/-- An empty queue means that nobody is left, nobody is made ready before it has blocked itself,
and there is memory for the queues. -/
def Call.Heard (s : State) (node : ℕ) : Call → Prop
  | .wait key _ .enqueue => node ≠ null ∧ (s.conds.openConds key).processQueue.isSome
  | .wake _ key .test record => s.queue key = [] → NobodyBetween s key record
  | .wake .signal key .dequeue record => s.queue key = [] → NobodyBetween s key record
  | .wake .broadcast key .dequeue _ => s.queue key ≠ []
  | .wake _ key (.wake p) _ => p ≠ null → (s.calls p).any (Call.asleep key) = true
  | _ => True

instance (s : State) (node : ℕ) (c : Call) : Decidable (c.Heard s node) := by
  unfold Call.Heard
  split <;> infer_instance

def Event.Heard (s : State) : Event → Prop
  | .run node => ∀ c ∈ s.calls s.current, c.Heard s node
  | _ => True

instance (s : State) (e : Event) : Decidable (e.Heard s) := by
  unfold Event.Heard
  split <;> infer_instance

end GatOS.CondCalls
