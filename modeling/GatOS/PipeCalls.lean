import GatOS.ByteMemory
import GatOS.PipeQueue
import GatOS.SystemCalls

/-!
# Calls on the pipes of a process

`read` and `write` of many processes on the pipes that one process has created. A call computes
where it will read or write before it locks the mutex of the pipe, and may be suspended there. A
reader that finds the pipe empty stores its pid behind the pids of the other readers, in the page
of the process that created the pipe.
-/
namespace GatOS.IPC
open Scheduler Sync Transition ByteMemory

def maxProcessPipes : ℕ := 3

def maxListenersIPC : ℕ := 2

/-! ### The page of the process -/

/-- `sizeof(Process)`, `sizeof(Pipe)` and `sizeof(int)`. -/
def processSize : ℕ := 248

def pipeSize : ℕ := 64

def intSize : ℕ := 4

/-- Offsets in the page. -/
structure PipeFields where
  pipes : ℕ
  pipesStruct : ℕ
  pipePids : ℕ
  blocked : ℕ
  occupiedPosition : ℕ

def initializePipeFields (infoPage : ℕ) : PipeFields :=
  let pipes := infoPage
  let pipesStruct := pipes + maxProcessPipes * pipeLength
  let pipePids := pipesStruct + maxProcessPipes * pipeSize
  let blocked := pipePids + maxProcessPipes * maxListenersIPC * intSize
  let occupiedPosition := blocked + maxListenersIPC * maxProcessPipes * intSize
  ⟨pipes, pipesStruct, pipePids, blocked, occupiedPosition⟩

instance : NeZero maxProcessPipes := ⟨by decide⟩

abbrev PipeIndex := Fin maxProcessPipes

/-- A pipe with the fields that its callers share. `blocked` is the offset of the array. -/
structure SharedPipe extends Pipe where
  name : ℕ
  blocked : ℕ
  cardinalBlocked : ℕ
  mutex : ℤ

/-- `createPipeStruct` and the mutex that `createPipe` gets for the name. The arrays of two pipes
are `MAX_PROCESS_PIPES` bytes apart. -/
def createSharedPipe (index : PipeIndex) (name : ℕ) (mutex : ℤ) (memory : ℕ → UInt8) :
    SharedPipe where
  toPipe := createPipeStruct memory
  name := name
  blocked := (initializePipeFields processSize).blocked + index.val * maxProcessPipes
  cardinalBlocked := 0
  mutex := mutex

/-! ### The machine -/

/-- What a suspended process goes on with; `aux` is an offset in the bytes of the pipe. -/
inductive PipePending
  | write (i : PipeIndex) (message : List UInt8) (aux : ℕ)
  | read (i : PipeIndex) (bytes : ℤ) (aux : ℕ)
  | reading
  | locking
  deriving DecidableEq

inductive CallResult
  | written (bytes : ℕ)
  | delivered (result : List UInt8)
  deriving DecidableEq

/-- A record of the past of each pipe: the readers that have blocked since a byte was last
written, the writers that `write` has blocked and no `read` has set `READY`, the state at the
start, and the calls in the order in which they obtained the mutex. -/
structure PipeLedger where
  sleepers : PipeIndex → List ℤ
  refused : PipeIndex → List ℤ
  start : PipeIndex → Pipe
  log : PipeIndex → List (Call × CallResult)

/-- `pipe` is the array `pipesStruct` of the process, and `page` its page. `pipes` gives the
place in that array. -/
structure PipeMachine where
  kernel : Kernel
  pipe : PipeIndex → SharedPipe
  page : Bytes
  pipeNames : ℤ → ℕ
  pipes : ℤ → PipeIndex
  lastPipeName : ℤ
  pending : ℤ → Option PipePending
  ledger : PipeLedger

namespace PipeLedger

def record (l : PipeLedger) (i : PipeIndex) (c : Call) (r : CallResult) : PipeLedger :=
  { l with log := Function.update l.log i (l.log i ++ [(c, r)]) }

def refuse (l : PipeLedger) (i : PipeIndex) (pid : ℤ) : PipeLedger :=
  { l with refused := Function.update l.refused i (pid :: l.refused i) }

def sleep (l : PipeLedger) (i : PipeIndex) (pid : ℤ) : PipeLedger :=
  { l with sleepers := Function.update l.sleepers i (l.sleepers i ++ [pid]) }

def store (l : PipeLedger) (i : PipeIndex) (bytes : ℕ) : PipeLedger :=
  if bytes = 0 then l else { l with sleepers := Function.update l.sleepers i [] }

end PipeLedger

namespace PipeMachine

def pid (m : PipeMachine) : ℤ := m.kernel.pid

def idle (m : PipeMachine) : Bool := (m.pending m.pid).isNone

def setPipe (m : PipeMachine) (i : PipeIndex) (p : SharedPipe) : PipeMachine :=
  { m with pipe := Function.update m.pipe i p }

def suspend (m : PipeMachine) (pid : ℤ) (c : PipePending) : PipeMachine :=
  { m with pending := assign m.pending pid (some c) }

/-- The first name in front of `lastPipeName` that has the text. -/
def findName (name : ℕ) (m : PipeMachine) : Option ℤ :=
  firstIndex m.lastPipeName.toNat fun i =>
    strcmp (m.kernel.strings (m.pipeNames i)) (m.kernel.strings name) = 0

def wakeAll (pids : List ℤ) (k : Kernel) : Kernel :=
  pids.foldl (fun k pid => k.setState pid .ready) k

def unlockProcesses (name : ℕ) (m : PipeMachine) : PipeMachine :=
  match m.findName name with
  | none => m
  | some i =>
    let pi := m.pipe (m.pipes i)
    { m.setPipe (m.pipes i) { pi with cardinalBlocked := 0 } with
      kernel := wakeAll (entries pi.blocked pi.cardinalBlocked m.page) m.kernel }

def freeMutex (mutex : ℤ) (m : PipeMachine) : Option PipeMachine :=
  (Sync.freeMutex mutex m.kernel).map fun k => { m with kernel := k }

/-- The process is marked `BLOCKED` and goes on. -/
def refuseWriter (i : PipeIndex) (message : List UInt8) (m : PipeMachine) : PipeMachine :=
  { m with
    kernel := m.kernel.setState m.pid .blocked
    ledger := (m.ledger.refuse i m.pid).record i (.write message) (.written 0) }

def storeMessage (i : PipeIndex) (message : List UInt8) (aux : ℕ) (m : PipeMachine) :
    PipeMachine :=
  let p := m.pipe i
  let r := writeLoop p.toPipe message aux 0 p.pipe
  let endPosition := (p.endPosition + r.1) % pipeLength
  { m.setPipe i { p with
      pipe := r.2
      endPosition := endPosition
      readFlag := if endPosition = p.position then true else p.readFlag } with
    ledger := (m.ledger.store i r.1).record i (.write message) (.written r.1) }

/-- `write` behind `lockMutex(p->mutex)`. -/
def writeRest (i : PipeIndex) (message : List UInt8) (aux : ℕ) (m : PipeMachine) :
    Option PipeMachine :=
  let p := m.pipe i
  if p.position = p.endPosition ∧ p.readFlag = true then
    (m.refuseWriter i message).freeMutex p.mutex
  else ((m.storeMessage i message aux).unlockProcesses p.name).freeMutex p.mutex

/-- The process is marked `BLOCKED`, and its pid is stored in the array `blocked`. -/
def recordReader (i : PipeIndex) (bytes : ℤ) (m : PipeMachine) : PipeMachine :=
  let p := m.pipe i
  { m.setPipe i { p with cardinalBlocked := p.cardinalBlocked + 1 } with
    kernel := m.kernel.setState m.pid .blocked
    page := storeInt (p.blocked + 4 * p.cardinalBlocked) m.pid m.page
    ledger := (m.ledger.sleep i m.pid).record i (.read bytes) (.delivered []) }

def takeBytes (i : PipeIndex) (bytes : ℤ) (aux : ℕ) (m : PipeMachine) : PipeMachine :=
  let p := m.pipe i
  let bytes' := if bytes = -1 then (pipeLength : ℤ) else bytes
  let result := readLoop p.toPipe bytes'.toNat aux 0
  { m.setPipe i { p with
      position := (p.position + result.length) % pipeLength
      readFlag := false } with
    ledger := m.ledger.record i (.read bytes) (.delivered result) }

/-- `read` behind `lockMutex(p->mutex)`. -/
def readRest (i : PipeIndex) (bytes : ℤ) (aux : ℕ) (m : PipeMachine) : Option PipeMachine :=
  let p := m.pipe i
  if p.position = p.endPosition ∧ p.readFlag = false then
    ((m.recordReader i bytes).freeMutex p.mutex).bind fun t =>
      t.kernel.yield.map fun k => { t with kernel := k }.suspend m.pid .reading
  else (m.takeBytes i bytes aux).freeMutex p.mutex

def proceed (m : PipeMachine) : PipePending → Option PipeMachine
  | .write i message aux => m.writeRest i message aux
  | .read i bytes aux => m.readRest i bytes aux
  | .reading => some m
  | .locking => some m

/-- A call that locks a mutex first. -/
def lockThen (mutex garbage : ℤ) (c : PipePending) (m : PipeMachine) : Option PipeMachine :=
  (lockMutex mutex garbage m.kernel).bind fun r =>
    if r.1 then { m with kernel := r.2 }.proceed c
    else some ({ m with kernel := r.2 }.suspend m.pid c)

def wake (m : PipeMachine) : PipeMachine := { m with pending := assign m.pending m.pid none }

def resume (m : PipeMachine) : Option PipeMachine :=
  (m.pending m.pid).bind fun c => m.wake.proceed c

end PipeMachine

inductive PipeAction
  | tick
  | createProcess (page : ℕ)
  | removeProcess (pid : ℤ)
  | lockMutex (mutex garbage : ℤ)
  | freeMutex (mutex : ℤ)
  | write (i : PipeIndex) (message : List UInt8) (garbage : ℤ)
  | read (i : PipeIndex) (bytes garbage : ℤ)
  | resume

/-- The mutex that the call locks, and what runs when it has it. -/
def PipeAction.rest (m : PipeMachine) : PipeAction → Option (ℤ × ℤ × PipePending)
  | .lockMutex mutex garbage => some (mutex, garbage, .locking)
  | .write i message garbage =>
    some ((m.pipe i).mutex, garbage, .write i message (m.pipe i).endPosition)
  | .read i bytes garbage => some ((m.pipe i).mutex, garbage, .read i bytes (m.pipe i).position)
  | _ => none

/-- A process that was suspended in a call goes on with it before anything else happens. -/
def pipeStep (m : PipeMachine) (a : PipeAction) : Option PipeMachine :=
  match a with
  | .resume => m.resume
  | .tick => if m.idle then m.kernel.yield.map fun k => { m with kernel := k } else none
  | .createProcess page =>
    if m.idle ∧ FreshPage m.kernel.sched page then
      some { m with kernel := { m.kernel with
        sched := (Scheduler.createProcess page m.kernel.sched).2 } }
    else none
  | .removeProcess pid =>
    if m.idle then (Scheduler.removeProcess pid m.kernel.sched).map fun sched =>
      { m with kernel := { m.kernel with sched := sched } }
    else none
  | .freeMutex mutex => if m.idle then m.freeMutex mutex else none
  | a => if m.idle then (a.rest m).bind fun c => m.lockThen c.1 c.2.1 c.2.2 else none

/-- The pipes are new and no call has been made. -/
structure IsPipeStart (m : PipeMachine) : Prop where
  ring : RingInvariant m.kernel.sched
  pipe : ∀ i, ∃ name mutex memory, m.pipe i = createSharedPipe i name mutex memory
  pending : ∀ p, m.pending p = none
  ledger : m.ledger = ⟨fun _ => [], fun _ => [], fun i => (m.pipe i).toPipe, fun _ => []⟩

def pipeMachine : System PipeMachine PipeAction := ofStep IsPipeStart pipeStep

/-- The rest of a call that the action carries out: its `lockMutex` returns, or it was suspended
and goes on. -/
def PipeAction.starts (m : PipeMachine) : PipeAction → Option PipePending
  | .resume => m.pending m.pid
  | a => (a.rest m).bind fun c =>
      if (Sync.lockMutex c.1 c.2.1 m.kernel).any Prod.fst then some c.2.2 else none

/-- The condition on the rest of a call, as a condition on the action. -/
def Meets (ok : PipeMachine → PipePending → Prop) (m : PipeMachine) (a : PipeAction) : Prop :=
  ∀ c ∈ a.starts m, ok m c

instance (ok : PipeMachine → PipePending → Prop) [∀ m c, Decidable (ok m c)] (m : PipeMachine)
    (a : PipeAction) : Decidable (Meets ok m a) :=
  inferInstanceAs (Decidable (∀ c ∈ a.starts m, ok m c))

/-! ### What a step can do -/

section

variable {k k' : Kernel} {m m' t : PipeMachine} {mutex garbage : ℤ}

theorem ring_yield {s s' : State} (h : RingInvariant s) (hyield : Scheduler.yield s = some s') :
    RingInvariant s' := by
  rw [Scheduler.yield, if_neg h.current_ne_null] at hyield
  exact (h.schedule hyield).1

theorem ring_removeProcess {s s' : State} (h : RingInvariant s) {pid : ℤ}
    (hremove : removeProcess pid s = some s') : RingInvariant s' := by
  by_cases hpid : pid = 0
  · rw [removeProcess, if_pos hpid] at hremove
    exact ring_yield h hremove
  · rcases h.removeProcess hpid hremove with ⟨-, rfl⟩ | ⟨-, hring, -⟩ | ⟨-, hring, -⟩
    · exact h
    · exact hring
    · exact hring

/-- `lockMutex` returns and leaves the processes alone, or the process gives up the processor. -/
theorem lockMutex_sched {returned : Bool}
    (h : lockMutex mutex garbage k = some (returned, k')) :
    k'.strings = k.strings ∧ (returned = true ∧ k'.sched = k.sched ∨
      returned = false ∧ ∃ p,
        Scheduler.yield (changeProcessState p .blocked k.sched) = some k'.sched) := by
  have hyield : ∀ {k₁ k₂ : Kernel}, k₁.yield = some k₂ →
      k₂.strings = k₁.strings ∧ Scheduler.yield k₁.sched = some k₂.sched := fun hy => by
    obtain ⟨sched, hs, rfl⟩ := Option.map_eq_some_iff.mp hy
    exact ⟨rfl, hs⟩
  unfold lockMutex at h
  dsimp only at h
  split_ifs at h with hneg hvalid hlock hfull
  · obtain ⟨rfl, rfl⟩ := Prod.mk.inj (Option.some.inj h)
    exact ⟨rfl, Or.inl ⟨rfl, rfl⟩⟩
  · obtain ⟨k₂, hy, hpair⟩ := Option.map_eq_some_iff.mp h
    obtain ⟨rfl, rfl⟩ := Prod.mk.inj hpair
    obtain ⟨hstrings, hs⟩ := hyield hy
    exact ⟨hstrings, Or.inr ⟨rfl, garbage, hs⟩⟩
  · obtain ⟨k₂, hy, hpair⟩ := Option.map_eq_some_iff.mp h
    obtain ⟨rfl, rfl⟩ := Prod.mk.inj hpair
    obtain ⟨hstrings, hs⟩ := hyield hy
    have hadd : ∀ k₁ : Kernel, (addToBlocked mutex k₁.pid k₁).sched = k₁.sched ∧
        (addToBlocked mutex k₁.pid k₁).strings = k₁.strings := fun k₁ => by
      unfold addToBlocked
      dsimp only
      split <;> exact ⟨rfl, rfl⟩
    rw [Kernel.setState, (hadd _).1] at hs
    exact ⟨hstrings.trans (hadd _).2, Or.inr ⟨rfl, _, hs⟩⟩
  · obtain ⟨rfl, rfl⟩ := Prod.mk.inj (Option.some.inj h)
    exact ⟨rfl, Or.inl ⟨rfl, rfl⟩⟩

/-- `freeMutex` wakes one process or none. -/
theorem freeMutex_sched (h : Sync.freeMutex mutex k = some k') :
    k'.strings = k.strings ∧
      (k'.sched = k.sched ∨ ∃ p, k'.sched = changeProcessState p .ready k.sched) := by
  unfold Sync.freeMutex at h
  split_ifs at h with hneg hvalid hpos
  · obtain rfl := Option.some.inj h
    unfold unblockProcess
    dsimp only
    split
    · exact ⟨rfl, Or.inl rfl⟩
    · exact ⟨rfl, Or.inr ⟨_, rfl⟩⟩
  · exact Option.some.inj h ▸ ⟨rfl, Or.inl rfl⟩
  · exact Option.some.inj h ▸ ⟨rfl, Or.inl rfl⟩

theorem ring_freeMutex (h : RingInvariant k.sched) (hfree : Sync.freeMutex mutex k = some k') :
    RingInvariant k'.sched := by
  rcases (freeMutex_sched hfree).2 with hs | ⟨p, hs⟩
  · exact hs ▸ h
  · exact hs ▸ (changeProcessState_spec h p .ready).1

/-- The pipes, their tables and the record of the past are the same. -/
structure Quiet (m t : PipeMachine) : Prop where
  ring : RingInvariant t.kernel.sched
  strings : t.kernel.strings = m.kernel.strings
  pipe : t.pipe = m.pipe
  page : t.page = m.page
  pipeNames : t.pipeNames = m.pipeNames
  pipes : t.pipes = m.pipes
  lastPipeName : t.lastPipeName = m.lastPipeName
  ledger : t.ledger = m.ledger

theorem Quiet.refl (h : RingInvariant m.kernel.sched) : Quiet m m :=
  ⟨h, rfl, rfl, rfl, rfl, rfl, rfl, rfl⟩

/-- The rest of a call starts from a state in which only the kernel and the calls that are
suspended have changed. -/
structure Started (m m₁ : PipeMachine) : Prop where
  quiet : Quiet m m₁
  pid : m₁.pid = m.pid
  processes : processes m₁.kernel.sched = processes m.kernel.sched
  idle : m₁.pending m₁.pid = none

/-- A call that locks a mutex is suspended, or goes on behind `lockMutex`. -/
theorem lockThen_cases (h : RingInvariant m.kernel.sched) (hidle : m.idle = true)
    {c : PipePending} (hlock : m.lockThen mutex garbage c = some t) :
    ((Sync.lockMutex mutex garbage m.kernel).any Prod.fst = false ∧ Quiet m t) ∨
    ((Sync.lockMutex mutex garbage m.kernel).any Prod.fst = true ∧
      ∃ m₁, Started m m₁ ∧ m₁.proceed c = some t) := by
  obtain ⟨⟨returned, k⟩, hk, hrest⟩ := Option.bind_eq_some_iff.mp hlock
  obtain ⟨hstrings, hsched⟩ := lockMutex_sched hk
  rw [hk]
  rcases hsched with ⟨rfl, hs⟩ | ⟨rfl, p, hs⟩
  · right
    have hpid : k.pid = m.kernel.pid := by rw [Kernel.pid, hs, Kernel.pid]
    have hquiet : Quiet m { m with kernel := k } :=
      ⟨hs ▸ h, hstrings, rfl, rfl, rfl, rfl, rfl, rfl⟩
    refine ⟨rfl, { m with kernel := k }, ⟨hquiet, hpid, ?_, ?_⟩, hrest⟩
    · show processes k.sched = processes m.kernel.sched
      rw [hs]
    · show m.pending k.pid = none
      rw [hpid]
      exact Option.isNone_iff_eq_none.mp hidle
  · left
    obtain rfl := Option.some.inj hrest
    have hring := ring_yield (changeProcessState_spec h p .blocked).1 hs
    exact ⟨rfl, hring, hstrings, rfl, rfl, rfl, rfl, rfl, rfl⟩

/-- A step leaves the pipes alone, or carries out the rest of a call. -/
theorem pipeStep_cases (h : RingInvariant m.kernel.sched) {a : PipeAction}
    (hstep : pipeStep m a = some t) :
    (a.starts m = none ∧ Quiet m t) ∨
    ∃ c m₁, a.starts m = some c ∧ Started m m₁ ∧ m₁.proceed c = some t := by
  have hlock : ∀ {mutex garbage : ℤ} {c : PipePending}, a.rest m = some (mutex, garbage, c) →
      a.starts m = (a.rest m).bind (fun c =>
        if (Sync.lockMutex c.1 c.2.1 m.kernel).any Prod.fst then some c.2.2 else none) →
      (if m.idle then (a.rest m).bind fun c => m.lockThen c.1 c.2.1 c.2.2 else none) = some t →
      (a.starts m = none ∧ Quiet m t) ∨
        ∃ c m₁, a.starts m = some c ∧ Started m m₁ ∧ m₁.proceed c = some t := by
    intro mutex garbage c hrest hstarts hrun
    split_ifs at hrun with hidle
    rw [hrest] at hstarts hrun
    simp only [Option.bind_some] at hstarts hrun
    rw [hstarts]
    rcases lockThen_cases h hidle hrun with ⟨hf, hquiet⟩ | ⟨hf, m₁, hstarted, hproceed⟩
    · rw [if_neg (by rw [hf]; exact Bool.false_ne_true)]
      exact Or.inl ⟨rfl, hquiet⟩
    · rw [if_pos hf]
      exact Or.inr ⟨c, m₁, rfl, hstarted, hproceed⟩
  cases a with
  | resume =>
    right
    obtain ⟨c, hc, hrun⟩ := Option.bind_eq_some_iff.mp hstep
    have hquiet : Quiet m m.wake := ⟨h, rfl, rfl, rfl, rfl, rfl, rfl, rfl⟩
    exact ⟨c, m.wake, hc, ⟨hquiet, rfl, rfl, assign_self _ _ _⟩, hrun⟩
  | tick =>
    left
    simp only [pipeStep] at hstep
    split_ifs at hstep with hidle
    obtain ⟨k, hk, rfl⟩ := Option.map_eq_some_iff.mp hstep
    obtain ⟨sched, hs, rfl⟩ := Option.map_eq_some_iff.mp hk
    exact ⟨rfl, ring_yield h hs, rfl, rfl, rfl, rfl, rfl, rfl, rfl⟩
  | createProcess page =>
    left
    simp only [pipeStep] at hstep
    split_ifs at hstep with hidle
    obtain rfl := Option.some.inj hstep
    exact ⟨rfl, (h.createProcess hidle.2).1, rfl, rfl, rfl, rfl, rfl, rfl, rfl⟩
  | removeProcess pid =>
    left
    simp only [pipeStep] at hstep
    split_ifs at hstep with hidle
    obtain ⟨sched, hs, rfl⟩ := Option.map_eq_some_iff.mp hstep
    exact ⟨rfl, ring_removeProcess h hs, rfl, rfl, rfl, rfl, rfl, rfl, rfl⟩
  | freeMutex mutex =>
    left
    simp only [pipeStep] at hstep
    split_ifs at hstep with hidle
    obtain ⟨k, hk, rfl⟩ := Option.map_eq_some_iff.mp hstep
    exact ⟨rfl, ring_freeMutex h hk, (freeMutex_sched hk).1, rfl, rfl, rfl, rfl, rfl, rfl⟩
  | lockMutex mutex garbage => exact hlock rfl rfl hstep
  | write i message garbage => exact hlock rfl rfl hstep
  | read i bytes garbage => exact hlock rfl rfl hstep

end

end GatOS.IPC
