import GatOS.BuddyAllocatorRun
import GatOS.Malloc
import GatOS.PipeCalls
import GatOS.ProcessRing

/-!
# Threads

The functions of `threads.c`, `process.c` and `scheduler.c` on the Thread records of the
processes. The records, the stacks and the heaps lie in blocks that `allocPage` hands out.
-/
namespace GatOS.Threads
open BuddyAllocator Scheduler Transition

def maxThreads : ℕ := 10

def maxPagesPerProcess : ℕ := 10

/-- `sizeof(Thread)`, `sizeof(StackFrame)` and `sizeof(ProcessSlot)`. -/
def threadSize : ℕ := 24

def stackFrameSize : ℕ := 184

def processSlotSize : ℕ := 16

structure Thread where
  userStack : ℕ
  kernelStack : ℕ
  entryPoint : ℕ

/-- A Process record at the address `page`, without what the scheduler and the pipes use. -/
structure ProcessRecord where
  page : ℕ
  activeThread : ℕ
  numberOfThreads : ℤ
  thread : ℕ → ℕ
  heap : ℕ
  pagesIndex : ℕ
  pages : ℕ → ℕ

/-- `record`: the code follows `NULL` or the address of a record that was freed, or writes outside
the marks of the page allocator. `block`: the same for the header of a heap block. `hang`: a loop
never ends. -/
inductive Fault
  | record
  | block
  | hang
  deriving DecidableEq

/-- The Process record of each process number and the Thread record at each address. The last
three fields are a record of the past: the Thread records that exist, the stack pointer that each
thread of each process was suspended with or starts from, and the blocks acquired for each
process. -/
structure Machine where
  sched : State
  process : ℤ → ProcessRecord
  record : ℕ → Thread
  buddyArray : BuddyArray
  live : List ℕ
  saved : ℤ → ℕ → Option ℕ
  owned : ℤ → List Block

/-- The blocks of the kernel itself. -/
def kernelOwner : ℤ := -1

/-- The frame is put under the top of the stack. -/
def fillStackFrame (userStack : ℕ) : ℕ := userStack - 2 * stackFrameSize

def findNextSpot (t : ℕ → ℕ) (dim : ℕ) : Option ℕ × (ℕ → ℕ) :=
  match (List.range dim).find? fun i => t i = null with
  | none => (none, t)
  | some i => (some i, Function.update t i 1)

namespace Machine

def pid (s : Machine) : ℤ := getCurrentPid s.sched

/-- `getCurrentProcess`. -/
def current (s : Machine) : ProcessRecord := s.process s.pid

/-- `current->process->thread[current->process->activeThread]`. -/
def activeRecord (s : Machine) : ℕ := s.current.thread s.current.activeThread

def setProcess (pid : ℤ) (p : ProcessRecord) (s : Machine) : Machine :=
  { s with process := Function.update s.process pid p }

@[simp] theorem setProcess_self (pid : ℤ) (p : ProcessRecord) (s : Machine) :
    (s.setProcess pid p).process pid = p := Function.update_self ..

theorem setProcess_ne {pid q : ℤ} (p : ProcessRecord) (s : Machine) (h : q ≠ pid) :
    (s.setProcess pid p).process q = s.process q := Function.update_of_ne h ..

/-! ### Pages -/

def allocPage (owner : ℤ) (pages : ℕ) (s : Machine) : ℕ × Machine :=
  match BuddyAllocator.allocPage pages s.buddyArray with
  | (none, b) => (null, { s with buddyArray := b })
  | (some page, b) =>
    (page, { s with
      buddyArray := b
      owned := Function.update s.owned owner (⟨page, 2 ^ Nat.clog 2 pages⟩ :: s.owned owner) })

def deallocPage (page : ℕ) (s : Machine) : Except Fault Machine :=
  match BuddyAllocator.deallocPage page s.buddyArray with
  | none => .error .record
  | some r => .ok { s with buddyArray := r.2 }

/-! ### Creating -/

def createThread (entryPoint : ℕ) (pid : ℤ) (s : Machine) : Except Fault Machine :=
  let (t, s) := s.allocPage pid (numberOfPagesToAlloc threadSize)
  let (page1, s) := s.allocPage pid 2
  let (page2, s) := s.allocPage pid 2
  let userStack := page1 + 2 * pageSize
  let kernelStack := page2 + 2 * pageSize
  let stack := fillStackFrame userStack
  let p := s.process pid
  match findNextSpot p.thread 3 with
  | (none, _) => .ok s
  | (some index, thread) =>
    if t = null then .error .record
    else
      let p := { p with
        numberOfThreads := p.numberOfThreads + 1
        thread := Function.update thread index t }
      .ok { s.setProcess pid p with
        record := Function.update s.record t ⟨stack, kernelStack, entryPoint⟩
        live := t :: s.live
        saved := Function.update s.saved pid (Function.update (s.saved pid) index (some stack)) }

/-- `getProcess` takes the next process number, which `Scheduler.createProcess` counts up. -/
def createProcess (entryPoint : ℕ) (s : Machine) : Except Fault Machine :=
  let pid := s.sched.pid
  let (infoPage, s) := s.allocPage pid (numberOfPagesToAlloc IPC.processSize)
  if infoPage = null then .error .record
  else
    let p := { s.process pid with
      page := infoPage
      activeThread := 0
      numberOfThreads := 0
      thread := fun _ => null
      heap := null
      pagesIndex := 0 }
    ((s.setProcess pid p).createThread entryPoint pid).bind fun s =>
      let (slot, s) := s.allocPage pid (numberOfPagesToAlloc processSlotSize)
      if slot = null then .error .record
      else .ok { s with sched := (Scheduler.createProcess slot s.sched).2 }

/-- `getProcessById` finds the running process, and reads behind its slot for any other number. -/
def addPagesToProcess (pageBase : ℕ) (pid : ℤ) (s : Machine) : Machine :=
  let p := s.current
  if pid ≠ s.pid ∨ p.pagesIndex ≥ maxPagesPerProcess then s
  else s.setProcess s.pid { p with
    pages := Function.update p.pages p.pagesIndex pageBase
    pagesIndex := p.pagesIndex + 1 }

/-- `numberOfPages`; `size_t` has 32 bits. -/
def heapPages (size : ℕ) : ℕ :=
  numberOfPagesToAlloc (MachineInt.uint32 (size + Malloc.blockStructSize))

/-- One call of `mallock` passes the running process, the other one passes nothing: `pid` is the
number found there. -/
def extendHeap (size : ℕ) (pid : ℤ) (s : Machine) : Except Fault Machine :=
  let baseHeap := (s.allocPage s.pid (heapPages size)).1
  let s := (s.allocPage s.pid (heapPages size)).2
  if baseHeap = null then .error .block
  else
    let p := s.current
    let s := if p.heap = null then s.setProcess s.pid { p with heap := baseHeap } else s
    .ok (s.addPagesToProcess baseHeap pid)

/-! ### Switching -/

/-- The stack pointer of the running thread is saved in its record. -/
def saveStack (rsp : ℕ) (s : Machine) : Except Fault Machine :=
  let t := s.activeRecord
  if t ∈ s.live then
    .ok { s with
      record := Function.update s.record t { s.record t with userStack := rsp }
      saved := Function.update s.saved s.pid
        (Function.update (s.saved s.pid) s.current.activeThread (some rsp)) }
  else .error .record

def loadStack (s : Machine) : Except Fault (ℕ × Machine) :=
  let t := s.activeRecord
  if t ∈ s.live then .ok ((s.record t).userStack, s) else .error .record

def schedule (s : Machine) : Except Fault Machine :=
  match Scheduler.schedule s.sched with
  | none => .error .hang
  | some sched => .ok { s with sched }

/-- Of a kernel in which there is a process: the stack pointer that goes on. -/
def nextProcess (rsp : ℕ) (s : Machine) : Except Fault (ℕ × Machine) :=
  if s.sched.current = null then .ok (rsp, s)
  else (s.saveStack rsp).bind fun s => s.schedule.bind loadStack

/-- The loop never ends when the process has no thread. -/
def nextThread (s : Machine) : Option ℕ :=
  let p := s.current
  ((List.range maxThreads).map fun i => (p.activeThread + (i + 1)) % maxThreads).find? fun i =>
    p.thread i ≠ null

def switchUserToKernel (esp : ℕ) (s : Machine) : Except Fault (ℕ × Machine) :=
  (s.saveStack esp).map fun s => ((s.record s.activeRecord).kernelStack, s)

def switchKernelToUser (s : Machine) : Except Fault (ℕ × Machine) :=
  s.schedule.bind fun s =>
    match s.nextThread with
    | none => .error .hang
    | some index => (s.setProcess s.pid { s.current with activeThread := index }).loadStack

/-- The handler of the timer. -/
def tick (esp : ℕ) (s : Machine) : Except Fault (ℕ × Machine) :=
  (s.switchUserToKernel esp).bind fun r => r.2.switchKernelToUser

/-! ### Removing -/

def freeStacks (t : ℕ) (s : Machine) : Except Fault Machine :=
  if t ∈ s.live then
    (s.deallocPage (s.record t).userStack).bind fun s => s.deallocPage (s.record t).kernelStack
  else .error .record

/-- For the running process, which the lookup finds. -/
def freeProcessPages (s : Machine) : Except Fault Machine :=
  let p := s.current
  (s.deallocPage p.page).bind fun s =>
    ((List.range p.numberOfThreads.toNat).foldlM (fun s i => freeStacks (p.thread i) s) s).bind
      fun s =>
        (s.deallocPage (Malloc.dataStart p.heap)).bind fun s =>
          (List.range p.pagesIndex).foldlM (fun s i => deallocPage (p.pages i) s) s

/-- With the stack pointer that goes on, when the process gives up the processor. -/
def removeProcess (pid : ℤ) (rsp : ℕ) (s : Machine) : Except Fault (Option ℕ × Machine) :=
  if pid = 0 then (s.nextProcess rsp).map fun r => (some r.1, r.2)
  else if s.sched.current = null then .ok (none, s)
  else if eqProcess (s.sched.processOf s.sched.current)
      (s.sched.processOf (s.sched.nextOf s.sched.current)) ∧
      (s.sched.processOf s.sched.current).pid = pid then
    s.freeProcessPages.map fun s => (none, { s with
      sched := { s.sched with current := null, cardinalProcesses := s.sched.cardinalProcesses - 1 } })
  else
    match findSlot s.sched pid s.sched.cardinalProcesses s.sched.current
      (s.sched.nextOf s.sched.current) with
    | none => .ok (none, s)
    | some (prevSlot, slotToRemove) =>
      let sched := s.sched.unlink prevSlot slotToRemove
      let s := { s with sched }
      if eqProcess (sched.processOf slotToRemove) (sched.processOf sched.current) then
        (s.nextProcess rsp).map fun r => (some r.1, r.2)
      else .ok (none, s)

def freeThreadPages (t : ℕ) (s : Machine) : Except Fault Machine :=
  (s.freeStacks t).bind fun s =>
    (s.deallocPage t).map fun s => { s with live := s.live.erase t }

end Machine

/-- How a thread is suspended. -/
inductive Switch
  | tick
  | yield

namespace Machine

def switch (rsp : ℕ) (s : Machine) : Switch → Except Fault (ℕ × Machine)
  | .tick => s.tick rsp
  | .yield => s.nextProcess rsp

/-- `terminateThread` at the end of `callProcess`, with the switch that comes next: the call of
`_yield`, or the timer before it. -/
def terminateThread (how : Switch) (rsp : ℕ) (s : Machine) : Except Fault (Option ℕ × Machine) :=
  let p := s.current
  if p.activeThread = 0 then s.removeProcess s.pid rsp
  else
    (s.freeThreadPages s.activeRecord).bind fun s =>
      let p := { p with
        thread := Function.update p.thread p.activeThread null
        numberOfThreads := p.numberOfThreads - 1 }
      ((s.setProcess s.pid p).switch rsp how).map fun r => (some r.1, r.2)

end Machine

/-! ### The machine -/

/-- `allocPage` is a request of the kernel, `rsp` the stack pointer of the running thread. -/
inductive Action
  | switch (how : Switch) (rsp : ℕ)
  | createProcess (entryPoint : ℕ)
  | createThread (entryPoint : ℕ)
  | terminateThread (how : Switch) (rsp : ℕ)
  | removeProcess (pid : ℤ) (rsp : ℕ)
  | changeProcessState (pid : ℤ) (state : ProcessState)
  | extendHeap (size : ℕ) (pid : ℤ)
  | allocPage (pages : ℕ)

/-- With the stack pointer of the thread that goes on, when there was a switch. -/
def perform (s : Machine) : Action → Except Fault (Option ℕ × Machine)
  | .switch how rsp => (s.switch rsp how).map fun r => (some r.1, r.2)
  | .createProcess entryPoint => (s.createProcess entryPoint).map fun s => (none, s)
  | .createThread entryPoint => (s.createThread entryPoint s.pid).map fun s => (none, s)
  | .terminateThread how rsp => s.terminateThread how rsp
  | .removeProcess pid rsp => s.removeProcess pid rsp
  | .changeProcessState pid state =>
    .ok (none, { s with sched := Scheduler.changeProcessState pid state s.sched })
  | .extendHeap size pid => (s.extendHeap size pid).map fun s => (none, s)
  | .allocPage pages => .ok (none, (s.allocPage kernelOwner pages).2)

def step (s : Machine) (a : Action) : Option Machine :=
  match perform s a with
  | .ok r => some r.2
  | .error _ => none

/-- No process has been created, and all pages are free. -/
def empty (slot : ℕ → ProcessSlot) (process : ℤ → ProcessRecord) (record : ℕ → Thread) : Machine where
  sched := Scheduler.boot slot
  process := process
  record := record
  buddyArray := createHeap
  live := []
  saved := fun _ _ => none
  owned := fun _ => []

/-- `main` creates the init process, and then the shell as the next one. -/
def IsStart (s : Machine) : Prop :=
  ∃ slot process record entryPoint,
    (empty slot process record).createProcess entryPoint = .ok s

def threadSystem : System Machine Action := ofStep IsStart step

/-! ### Calls that can fault -/

theorem bind_eq_ok {α β ε : Type} {x : Except ε α} {f : α → Except ε β} {r : β} :
    x.bind f = .ok r ↔ ∃ a, x = .ok a ∧ f a = .ok r := by
  cases x <;> simp [Except.bind]

theorem map_eq_ok {α β ε : Type} {x : Except ε α} {f : α → β} {r : β} :
    x.map f = .ok r ↔ ∃ a, x = .ok a ∧ f a = r := by
  cases x <;> simp [Except.map]

theorem ok_of_toOption {α ε : Type} {x : Except ε α} {r : α} (h : x.toOption = some r) :
    x = .ok r := by
  cases x with
  | error e => cases h
  | ok a => exact congrArg Except.ok (Option.some.inj h)

end GatOS.Threads
