import Mathlib.Data.List.Iterate
import GatOS.BuddyAllocator

/-!
# The scheduler

Process slots are linked in memory. `current` points to the slot of the running process, and
the other slots are reached from it over `next`.
-/
namespace GatOS.Scheduler
open BuddyAllocator

inductive ProcessState
  | running
  | ready
  | blocked
  | dead
  | sleeping
  deriving DecidableEq, Repr

structure Process where
  pid : ℤ
  state : ProcessState
  deriving DecidableEq, Repr

structure ProcessSlot where
  next : ℕ
  process : Process

/-- `slot` is the memory of the process slots, `pid` the number of the next process and
`pages` the pages that `allocPage` has handed out for slots. -/
structure State where
  slot : ℕ → ProcessSlot
  current : ℕ
  cardinalProcesses : ℕ
  pid : ℤ
  pages : List ℕ

/-- `NULL`. -/
def null : ℕ := 0

def initPid : ℤ := 0

namespace State

def setSlot (s : State) (a : ℕ) (v : ProcessSlot) : State :=
  { s with slot := fun b => if b = a then v else s.slot b }

def setNext (s : State) (a next : ℕ) : State :=
  s.setSlot a { s.slot a with next := next }

def setState (s : State) (a : ℕ) (state : ProcessState) : State :=
  s.setSlot a { s.slot a with process := { (s.slot a).process with state := state } }

def nextOf (s : State) (a : ℕ) : ℕ := (s.slot a).next

def processOf (s : State) (a : ℕ) : Process := (s.slot a).process

end State

/-! ### `process.c` and `scheduler.c` -/

def getProcess (s : State) : Process × State :=
  (⟨s.pid, .ready⟩, { s with pid := MachineInt.int32 (s.pid + 1) })

/-- The slot is placed in the page that `allocPage` returns. -/
def newProcessSlot (page : ℕ) (process : Process) (s : State) : State :=
  { s.setSlot page { s.slot page with process := process } with pages := page :: s.pages }

def addProcess (page : ℕ) (process : Process) (s : State) : State :=
  let s := newProcessSlot page process s
  if s.current = null then { s.setNext page page with current := page }
  else
    let next := s.nextOf s.current
    (s.setNext s.current page).setNext page next

def createProcess (page : ℕ) (s : State) : ℤ × State :=
  let (p, s) := getProcess s
  let s := addProcess page p s
  (p.pid, { s with cardinalProcesses := s.cardinalProcesses + 1 })

def getCurrentPid (s : State) : ℤ :=
  if s.current = null then -1 else (s.processOf s.current).pid

def changeProcessStateLoop (pid : ℤ) (state : ProcessState) :
    ℕ → ℕ → State → State
  | 0, _, s => s
  | n + 1, slot, s =>
    if (s.processOf slot).pid = pid then s.setState slot state
    else changeProcessStateLoop pid state n (s.nextOf slot) s

def changeProcessState (pid : ℤ) (state : ProcessState) (s : State) : State :=
  changeProcessStateLoop pid state s.cardinalProcesses s.current s

/-- The loop of `schedule`: the slot of the first process that is `READY`. -/
def findReady (s : State) : ℕ → ℕ → Option ℕ
  | 0, _ => none
  | fuel + 1, slot =>
    if (s.processOf slot).state = .ready then some slot else findReady s fuel (s.nextOf slot)

/-- The loop visits the whole ring once; when no process is `READY` it never ends. -/
def schedule (s : State) : Option State :=
  let s := if (s.processOf s.current).state = .running then s.setState s.current .ready else s
  (findReady s s.cardinalProcesses (s.nextOf s.current)).map fun slot =>
    { s with current := slot }.setState slot .running

/-- `_yield` saves the registers and continues in `next_process`. -/
def yield (s : State) : Option State :=
  if s.current = null then some s else schedule s

def eqProcess (a b : Process) : Bool := a.pid = b.pid

/-- The loop of `removeProcess`: the slot of `pid` and the slot before it. -/
def findSlot (s : State) (pid : ℤ) : ℕ → ℕ → ℕ → Option (ℕ × ℕ)
  | 0, _, _ => none
  | n + 1, prevSlot, slotToRemove =>
    if (s.processOf slotToRemove).pid = pid then some (prevSlot, slotToRemove)
    else findSlot s pid n slotToRemove (s.nextOf slotToRemove)

def removeProcess (pid : ℤ) (s : State) : Option State :=
  if pid = 0 then yield s
  else if s.current = null then some s
  else if eqProcess (s.processOf s.current) (s.processOf (s.nextOf s.current)) ∧
      (s.processOf s.current).pid = pid then
    some { s with current := null, cardinalProcesses := s.cardinalProcesses - 1 }
  else
    match findSlot s pid s.cardinalProcesses s.current (s.nextOf s.current) with
    | none => some s
    | some (prevSlot, slotToRemove) =>
      let s := s.setNext prevSlot (s.nextOf slotToRemove)
      let s := { s with cardinalProcesses := s.cardinalProcesses - 1 }
      if eqProcess (s.processOf slotToRemove) (s.processOf s.current) then yield s else some s

/-! ### The ring seen as a list -/

/-- The slots that following `next` from `current` visits. -/
def ring (s : State) : List ℕ := List.iterate s.nextOf s.current s.cardinalProcesses

def processes (s : State) : List Process := (ring s).map s.processOf

def pids (s : State) : List ℤ := (processes s).map Process.pid

end GatOS.Scheduler
