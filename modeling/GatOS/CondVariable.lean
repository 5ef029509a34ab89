import GatOS.QueuedMutex

/-!
# Condition variables

The table `open_conds` of `condVariable.c`. Each variable has a queue of processes and a mutex for
this queue.
-/
namespace GatOS.Cond
open Scheduler Sync QueuedMutex Transition

def maxCondVar : ℕ := 128

def condNameLen : ℕ := 64

def maxCondOpenError : ℤ := -2

/-- `COND_LOCK_IDENTIFIER`. -/
def condLockIdentifier : List ℤ := "__COND_ARRAY_LOCK__".toList.map fun c => (c.toNat : ℤ)

/-- `cond_variable`. `lockQueue` is what `mutex_open` returned. -/
structure CondVariable where
  name : List ℤ
  state : ℤ
  lockQueue : ℤ
  processQueue : Option QueuedMutex.Queue

structure Conds where
  machine : Machine
  openConds : ℤ → CondVariable
  arrayLock : ℤ

namespace Conds

def setCond (key : ℤ) (v : CondVariable) (s : Conds) : Conds :=
  { s with openConds := Function.update s.openConds key v }

def withMachine (m : Machine) (s : Conds) : Conds := { s with machine := m }

end Conds

def condIsOpen (key : ℤ) (s : Conds) : Bool :=
  0 ≤ key ∧ key < maxCondVar ∧ (s.openConds key).state = opened

/-- The loop of `itoa`, which puts the last digit first. -/
def itoaLoop : ℕ → ℕ → List ℤ
  | 0, _ => []
  | fuel + 1, value =>
    (value % 10 + 48 : ℕ) :: if value / 10 = 0 then [] else itoaLoop fuel (value / 10)

/-- `itoa` in base 10, of a value that is not negative. -/
def itoa (value : ℕ) : List ℤ := (itoaLoop (value + 1) value).reverse

/-- When the mutex is locked, the caller waits for another process to give it back. Here each call
is made as a whole, and nobody does. -/
def lockAtOnce (key : ℤ) (node : ℕ) (s : Conds) : Option Conds :=
  if isOpen key s.machine ∧ (s.machine.openMutexes key).locked = locked then none
  else (mutexLock key node s.machine).map fun (_, m) => s.withMachine m

def unlock (key : ℤ) (s : Conds) : Option Conds :=
  (mutexUnlock key s.machine).map fun u => s.withMachine u.after

/-- `page` is what `allocPage` returns. -/
def initializeConditionalVariable (page : ℕ) (s : Conds) : Option Conds :=
  (mutexOpen condLockIdentifier page s.machine).map fun (key, m) =>
    { s.withMachine m with arrayLock := key }

/-- `page` and `queuePage` are what `allocPage` returns for the queues of the mutex and of the
variable. -/
def createNewCond (key : ℤ) (name : List ℤ) (page queuePage : ℕ) (s : Conds) : Option Conds :=
  let aux := itoa key.toNat ++ condLockIdentifier
  (mutexOpen aux page s.machine).map fun (lockQueue, m) =>
    (s.withMachine m).setCond key ⟨name, opened, lockQueue, createQueue queuePage⟩

/-- The loop ends at the first variable that has the name or is not open. -/
def condOpen (name : List ℤ) (node page queuePage : ℕ) (s : Conds) : Option (ℤ × Conds) := do
  let s ← lockAtOnce s.arrayLock node s
  match firstIndex maxCondVar fun k =>
    !condIsOpen k s || strcmp (s.openConds k).name name = 0 with
  | none => return (maxCondOpenError, ← unlock s.arrayLock s)
  | some k =>
    if condIsOpen k s then return (k, ← unlock s.arrayLock s)
    else
      let s ← createNewCond k name page queuePage s
      return (k, ← unlock s.arrayLock s)

/-- The loop of `cond_broadcast` takes the processes out of the queue one after the other. -/
def wakeAll : List ℕ → Machine → Machine
  | [], m => m
  | p :: ps, m => wakeAll ps (m.changeProcessState p .ready)

/-- The queue without its elements. -/
def emptied (v : CondVariable) : CondVariable :=
  { v with processQueue := v.processQueue.map fun q => { q with elems := [] } }

def condBroadcast (key : ℤ) (node : ℕ) (s : Conds) : Option (ℤ × Conds) :=
  if condIsOpen key s then do
    let v := s.openConds key
    let s ← lockAtOnce v.lockQueue node s
    let waiting := (v.processQueue.map QueuedMutex.Queue.elems).getD []
    let s := (s.withMachine (wakeAll waiting s.machine)).setCond key (emptied v)
    return (1, ← unlock v.lockQueue s)
  else some (notOpenError, s)

/-- `garbage` is what `mutex_close` reads when nobody waits for the mutex. -/
def condClose (key : ℤ) (node : ℕ) (garbage : ℤ) (s : Conds) : Option (ℤ × Conds) :=
  if condIsOpen key s then do
    let (_, s) ← condBroadcast key node s
    let v := emptied (s.openConds key)
    let (_, m) ← mutexClose v.lockQueue garbage s.machine
    return (1, (s.withMachine m).setCond key { v with state := closed })
  else some (notOpenError, s)

inductive Action
  | initializeConds (page : ℕ)
  | condOpen (name : List ℤ) (node page queuePage : ℕ)
  | condBroadcast (key : ℤ) (node : ℕ)
  | condClose (key : ℤ) (node : ℕ) (garbage : ℤ)
  | mutex (a : QueuedMutex.Action)

/-- A name has to fit in its record. -/
def step (s : Conds) : Action → Option Conds
  | .initializeConds page => initializeConditionalVariable page s
  | .condOpen name node page queuePage =>
    if name.length < condNameLen then (condOpen name node page queuePage s).map Prod.snd else none
  | .condBroadcast key node => (condBroadcast key node s).map Prod.snd
  | .condClose key node garbage => (condClose key node garbage s).map Prod.snd
  | .mutex a => (QueuedMutex.step s.machine a).map fun m => s.withMachine m

/-- The table is in static memory. -/
def IsStart (s : Conds) : Prop :=
  QueuedMutex.IsStart s.machine ∧ (∀ key, s.openConds key = ⟨[], 0, 0, none⟩) ∧ s.arrayLock = 0

def condSystem : System Conds Action := ofStep IsStart step

end GatOS.Cond
