import GatOS.Operations
import GatOS.PipeCalls

/-!
# The administration of pipes

`createPipe`, `openPipe` and `closePipe` on the tables of names and pipes. `createPipe` locks
`ipcAdminMutex` and then, in `getMutex`, `adminMutex`; a call is suspended in either of them.
-/
namespace GatOS.PipeAdmin
open Scheduler Sync IPC Transition ByteMemory

def maxPipes : ℕ := 50

/-- `NO_SPACE_LEFT`. -/
def noSpaceLeft : ℤ := -1

/-- A pipe; `pipePids`, `blocked` and `pipe` are offsets in the page of its creator. -/
structure PipeInfo where
  name : ℕ
  position : ℕ
  endPosition : ℕ
  readFlag : Bool
  creator : ℤ
  connected : ℕ
  cardinalBlocked : ℕ
  pipePids : ℕ
  blocked : ℕ
  pipe : ℕ
  mutex : ℤ

/-- What a process keeps for its pipes. -/
structure Owner where
  pipesOpened : ℤ
  occupiedPosition : ℤ → ℤ
  pipesStruct : ℤ → PipeInfo
  page : Bytes

/-- A pointer into the array `pipesStruct` of a process. -/
structure PipeRef where
  owner : ℤ
  index : ℤ
  deriving DecidableEq

/-- The part of a call behind a `lockMutex` that may suspend it. Inside `getMutex` the pipe is
known, or `NULL`. -/
inductive AdminRest
  | openPipe (name : ℕ)
  | createPipe (name : ℕ)
  | createPipeEnd (name : ℕ) (index : Option ℤ)

/-- `fault`: the code reads or writes through `NULL` or outside an array. -/
inductive Outcome
  | suspended (mutex : ℤ)
  | returned (pipe : Option PipeRef)
  | fault
  deriving DecidableEq

/-- `created` is a record of the pipes that `createPipe` has returned. -/
structure Admin where
  sync : Machine
  pipeNames : ℤ → ℕ
  pipes : ℤ → Option PipeRef
  lastPipeName : ℤ
  ipcAdminMutex : ℤ
  owner : ℤ → Owner
  rest : ℤ → Option AdminRest
  created : List PipeRef

/-! ### The structures of a process -/

def getIndexForPipeStructure (pro : Owner) : Option (ℤ × Owner) :=
  let current := pro.pipesOpened
  if current > maxProcessPipes ∨ pro.occupiedPosition current = 1 then
    (firstIndex maxProcessPipes fun i => pro.occupiedPosition i = 0).map fun i =>
      (i, { pro with pipesOpened := i + 1 })
  else some (current, { pro with pipesOpened := current + 1 })

def createPipeStruct (pid : ℤ) (name : ℕ) (pro : Owner) : Option (ℤ × Owner) :=
  (getIndexForPipeStructure pro).map fun r =>
    let index := r.1
    let fields := initializePipeFields processSize
    let p : PipeInfo := { r.2.pipesStruct index with
      name := name
      endPosition := 0
      readFlag := false
      connected := 1
      creator := pid
      pipePids := fields.pipePids + index.toNat * maxProcessPipes
      blocked := fields.blocked + index.toNat * maxProcessPipes
      position := 0
      cardinalBlocked := 0
      pipe := fields.pipes + index.toNat * pipeLength }
    (index, { r.2 with
      occupiedPosition := assign r.2.occupiedPosition index 1
      pipesStruct := assign r.2.pipesStruct index p
      page := storeInt p.pipePids pid r.2.page
      pipesOpened := 0 })

namespace Admin

def pid (s : Admin) : ℤ := s.sync.pid

def kernel (s : Admin) : Kernel := s.sync.kernel

def holders (s : Admin) (mutex : ℤ) : List ℤ := s.sync.ledger.holders mutex

def idle (s : Admin) : Bool := s.sync.idle && (s.rest s.pid).isNone

def info (s : Admin) (pipe : PipeRef) : PipeInfo := (s.owner pipe.owner).pipesStruct pipe.index

def setInfo (s : Admin) (pipe : PipeRef) (p : PipeInfo) : Admin :=
  let pro := s.owner pipe.owner
  let pro := { pro with pipesStruct := assign pro.pipesStruct pipe.index p }
  { s with owner := assign s.owner pipe.owner pro }

/-- For the number of the running process: the loop finds it in its first round. -/
def getProcessById (s : Admin) : Option ℤ :=
  if s.kernel.sched.cardinalProcesses = 0 then none else some s.pid

def getPipeNameIndex (name : ℕ) (s : Admin) : Option ℤ :=
  firstIndex maxPipes fun i =>
    strcmp (s.kernel.strings (s.pipeNames i)) (s.kernel.strings name) = 0

def getMiddleSpace (s : Admin) : ℤ :=
  (firstIndex maxPipes fun i => s.pipeNames i = null).getD noSpaceLeft

/-! ### Locking -/

/-- `lockMutex` in a call that goes on with `rest`; whether it has returned. -/
def lock (mutex garbage : ℤ) (rest : AdminRest) (s : Admin) : Option (Bool × Admin) :=
  (lockMutex mutex garbage s.kernel).map fun r =>
    if r.1 then
      (true, { s with sync := { s.sync with
        kernel := r.2
        ledger := if isValidMutex mutex s.kernel then s.sync.ledger.hold mutex s.pid
          else s.sync.ledger } })
    else
      (false, { s with
        sync := { s.sync with kernel := r.2 }
        rest := assign s.rest s.pid (some rest) })

def lockThen (mutex garbage : ℤ) (rest : AdminRest)
    (proceed : Admin → Option (Outcome × Admin)) (s : Admin) : Option (Outcome × Admin) :=
  (s.lock mutex garbage rest).bind fun r =>
    if r.1 then proceed r.2 else some (.suspended mutex, r.2)

def free (mutex : ℤ) (s : Admin) : Option Admin :=
  (s.sync.free mutex).map fun sync => { s with sync := sync }

/-! ### The calls -/

/-- `openPipe` behind `lockMutex(ipcAdminMutex)`. -/
def openPipeRest (name : ℕ) (s : Admin) : Option (Outcome × Admin) :=
  match s.getPipeNameIndex name with
  | none => some (.returned none, s)
  | some i =>
    match s.pipes i with
    | none => some (.fault, s)
    | some pipe =>
      let p := s.info pipe
      let pro := s.owner pipe.owner
      let pro := { pro with page := storeInt (p.pipePids + 4 * p.connected) s.pid pro.page }
      let s := { s with owner := assign s.owner pipe.owner pro }
      let s := s.setInfo pipe { p with connected := p.connected + 1 }
      (s.free s.ipcAdminMutex).map fun s => (.returned (some pipe), s)

/-- What `createPipe` does in front of `getMutex`: it returns `NULL`, or has the index of the new
pipe among those of the process, or no pipe. -/
inductive Start
  | null
  | fault
  | getMutex (index : Option ℤ)

def createPipeStart (name : ℕ) (s : Admin) : Start × Admin :=
  if s.lastPipeName < 0 then (.fault, s)
  else
    let s := if s.lastPipeName ≥ maxPipes ∨ s.pipeNames s.lastPipeName ≠ null then
        { s with lastPipeName := s.getMiddleSpace }
      else s
    if s.lastPipeName = noSpaceLeft then (.null, s)
    else if name = null then (.null, s)
    else
      match s.getProcessById with
      | none => (.null, s)
      | some pid =>
        match PipeAdmin.createPipeStruct pid name (s.owner pid) with
        | none => (.getMutex none, s)
        | some (index, pro) => (.getMutex (some index), { s with owner := assign s.owner pid pro })

/-- `createPipe` behind `lockMutex(adminMutex)` in the call of `getMutex`. -/
def createPipeEnd (name : ℕ) (index : Option ℤ) (s : Admin) : Option (Outcome × Admin) :=
  (getMutexRest name s.kernel).bind fun r =>
    (s.sync.getMutexEnd name).bind fun sync =>
      let s := { s with sync := sync }
      match index with
      | none => some (.fault, s)
      | some index =>
        if s.lastPipeName < 0 ∨ s.lastPipeName ≥ maxPipes then some (.fault, s)
        else
          let pipe : PipeRef := ⟨s.pid, index⟩
          let s := s.setInfo pipe { s.info pipe with mutex := r.1 }
          let s := { s with
            pipeNames := assign s.pipeNames s.lastPipeName name
            pipes := assign s.pipes s.lastPipeName (some pipe)
            lastPipeName := s.lastPipeName + 1
            created := pipe :: s.created }
          (s.free s.ipcAdminMutex).map fun s => (.returned (some pipe), s)

/-- `createPipe` behind `lockMutex(ipcAdminMutex)`. -/
def createPipeRest (name : ℕ) (garbage : ℤ) (s : Admin) : Option (Outcome × Admin) :=
  match s.createPipeStart name with
  | (.null, s) => some (.returned none, s)
  | (.fault, s) => some (.fault, s)
  | (.getMutex index, s) =>
    s.lockThen s.kernel.adminMutex garbage (.createPipeEnd name index)
      (createPipeEnd name index)

def openPipe (name : ℕ) (garbage : ℤ) (s : Admin) : Option (Outcome × Admin) :=
  s.lockThen s.ipcAdminMutex garbage (.openPipe name) (openPipeRest name)

def createPipe (name : ℕ) (garbage : ℤ) (s : Admin) : Option (Outcome × Admin) :=
  s.lockThen s.ipcAdminMutex garbage (.createPipe name) (createPipeRest name garbage)

/-- The loop of `freeSpace`: the first structure of the process with the name. -/
def freeSpace (name : ℕ) (pid : ℤ) (s : Admin) : Outcome × Admin :=
  let pro := s.owner pid
  match firstIndex maxProcessPipes fun i =>
    strcmp (s.kernel.strings (pro.pipesStruct i).name) (s.kernel.strings name) = 0 with
  | none => (.fault, s)
  | some i =>
    let pro := { pro with occupiedPosition := assign pro.occupiedPosition i 0 }
    (.returned none, { s with owner := assign s.owner pid pro })

/-- For another creator than the running process `getProcessById` leaves the slot that it
starts from. -/
def closePipe (pipe : PipeRef) (s : Admin) : Outcome × Admin :=
  match s.getPipeNameIndex (s.info pipe).name with
  | none => (.returned none, s)
  | some i =>
    if (s.info pipe).creator ≠ s.pid then (.fault, s)
    else
      match s.pipes i with
      | none => (.fault, s)
      | some p =>
        { s with pipes := assign s.pipes i none }.freeSpace (s.info p).name s.pid

/-- The suspended call has the mutex now. -/
def wake (mutex : ℤ) (s : Admin) : Admin :=
  { s with
    sync := { s.sync with ledger := s.sync.ledger.hold mutex s.pid }
    rest := assign s.rest s.pid none }

def resume (garbage : ℤ) (s : Admin) : Option (Outcome × Admin) :=
  match s.rest s.pid with
  | none => none
  | some (.openPipe name) => (s.wake s.ipcAdminMutex).openPipeRest name
  | some (.createPipe name) => (s.wake s.ipcAdminMutex).createPipeRest name garbage
  | some (.createPipeEnd name index) => (s.wake s.kernel.adminMutex).createPipeEnd name index

end Admin

/-! ### The machine -/

inductive PipeCall
  | createPipe (name : ℕ) (garbage : ℤ)
  | openPipe (name : ℕ) (garbage : ℤ)
  | closePipe (pipe : PipeRef)
  | resume (garbage : ℤ)

/-- The init process makes no calls, and only pipes that were created are closed. -/
def PipeCall.run (s : Admin) : PipeCall → Option (Outcome × Admin)
  | .createPipe name garbage =>
    if s.idle ∧ s.pid ≠ initPid then s.createPipe name garbage else none
  | .openPipe name garbage =>
    if s.idle ∧ s.pid ≠ initPid then s.openPipe name garbage else none
  | .closePipe pipe =>
    if s.idle ∧ s.pid ≠ initPid ∧ pipe ∈ s.created then some (s.closePipe pipe) else none
  | .resume garbage => s.resume garbage

/-- A call on pipes, or any other action of a process that is in no call on pipes. -/
inductive AdminAction
  | pipe (c : PipeCall)
  | sync (a : Action)

def adminStep (s : Admin) : AdminAction → Option Admin
  | .pipe c => (c.run s).bind fun r => if r.1 = .fault then none else some r.2
  | .sync a =>
    if (s.rest s.pid).isNone then (step s.sync a).map fun sync => { s with sync := sync } else none

def freshOwner (page : Bytes) (pipesStruct : ℤ → PipeInfo) : Owner :=
  ⟨0, fun _ => 0, pipesStruct, page⟩

/-- `main` does not call `initializePipes`: the tables and `ipcAdminMutex` are zero. -/
structure IsAdminBoot (s : Admin) : Prop where
  sync : IsBoot s.sync
  pipeNames : ∀ i, s.pipeNames i = null
  pipes : ∀ i, s.pipes i = none
  lastPipeName : s.lastPipeName = 0
  ipcAdminMutex : s.ipcAdminMutex = 0
  owner : ∀ p, ∃ page pipesStruct, s.owner p = freshOwner page pipesStruct
  rest : ∀ p, s.rest p = none
  created : s.created = []

def adminSystem : System Admin AdminAction := ofStep IsAdminBoot adminStep

end GatOS.PipeAdmin
