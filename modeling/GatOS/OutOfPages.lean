import GatOS.Threads

/-!
# Calls that run out of pages

The functions that call `allocPage`, with the stores through the addresses that it returns.
-/
namespace GatOS.OutOfPages
open BuddyAllocator Scheduler Threads Transition

/-! ### The machine -/

/-- `struct queue` and `struct node`. -/
structure Queue where
  first : ℕ
  last : ℕ

structure Node where
  elem : ℕ
  next : ℕ

/-- The heaps of the processes are linked in `memory`; `denied` says that a call of `allocPage` has
returned `NULL`. -/
structure State extends Machine where
  queue : ℕ → Queue
  node : ℕ → Node
  heapBase : ℕ
  memory : Malloc.Memory
  denied : Bool

/-- `null`: a store through `NULL`. `hang`: a loop has not ended in the turns that it was given. -/
inductive Fault
  | null
  | hang
  deriving DecidableEq

abbrev Run := EStateM Fault State

def allocPage (owner : ℤ) (pages : ℕ) : Run ℕ := fun s =>
  let (page, m) := s.toMachine.allocPage owner pages
  .ok page { s with toMachine := m, denied := s.denied || page = null }

/-- The first store through an address. -/
def store (address : ℕ) : Run Unit := fun s =>
  if address = null then .error .null s else .ok () s

/-- The result of a loop. -/
def turns {α : Type} : Option α → Run α
  | none => throw .hang
  | some a => pure a

def setProcess (pid : ℤ) (p : ProcessRecord) : Run Unit :=
  modify fun s => { s with toMachine := s.toMachine.setProcess pid p }

def setSched (sched : Scheduler.State) : Run Unit := modify fun s => { s with sched }

def setBlock (address : ℕ) (block : Malloc.TBlock) : Run Unit :=
  modify fun s => { s with memory := Function.update s.memory address block }

/-! ### `threads.c` and `process.c` -/

/-- `fillStackFrame` stores the frame under the top of the first stack. -/
def createThread (entryPoint : ℕ) (pid : ℤ) : Run ℤ := do
  let t ← allocPage pid (numberOfPagesToAlloc threadSize)
  let page1 ← allocPage pid 2
  let page2 ← allocPage pid 2
  let userStack := page1 + 2 * pageSize
  let kernelStack := page2 + 2 * pageSize
  store page1
  let stack := fillStackFrame userStack
  let p := (← get).process pid
  match findNextSpot p.thread 3 with
  | (none, _) => return -1
  | (some index, thread) =>
    setProcess pid { p with
      numberOfThreads := p.numberOfThreads + 1
      thread := Function.update thread index t }
    store t
    modify fun s => { s with
      record := Function.update s.record t ⟨stack, kernelStack, entryPoint⟩
      live := t :: s.live
      saved := Function.update s.saved pid (Function.update (s.saved pid) index (some stack)) }
    return 0

/-- The record of the process, at the address that the function returns, and what the scheduler
knows of it. -/
def getProcess (entryPoint : ℕ) : Run (ℕ × Process) := do
  let pid := (← get).sched.pid
  let infoPage ← allocPage pid (numberOfPagesToAlloc IPC.processSize)
  store infoPage
  setProcess pid { (← get).process pid with
    page := infoPage
    activeThread := 0
    numberOfThreads := 0
    thread := fun _ => null }
  let _ ← createThread entryPoint pid
  let (p, sched) := Scheduler.getProcess (← get).sched
  setSched sched
  setProcess pid { (← get).process pid with heap := null, pagesIndex := 0 }
  return (infoPage, p)

/-! ### `scheduler.c` -/

def newProcessSlot (process : Process) : Run ℕ := do
  let page ← allocPage process.pid (numberOfPagesToAlloc processSlotSize)
  store page
  setSched (Scheduler.newProcessSlot page process (← get).sched)
  return page

def addProcess (process : Process) : Run Unit := do
  let newProcess ← newProcessSlot process
  let s := (← get).sched
  if s.current = null then setSched { s.setNext newProcess newProcess with current := newProcess }
  else
    let next := s.nextOf s.current
    setSched ((s.setNext s.current newProcess).setNext newProcess next)

def createProcess (entryPoint : ℕ) : Run ℤ := do
  let (_, p) ← getProcess entryPoint
  addProcess p
  let s := (← get).sched
  setSched { s with cardinalProcesses := s.cardinalProcesses + 1 }
  return p.pid

/-! ### `queue.c` -/

/-- `sizeof(struct queue)` and `sizeof(node)`. -/
def queueSize : ℕ := 16

def nodeSize : ℕ := 16

/-- The size is passed as the number of pages. -/
def createQueue : Run ℕ := do
  let q ← allocPage kernelOwner queueSize
  if q = null then return null
  modify fun s => { s with queue := Function.update s.queue q ⟨null, null⟩ }
  return q

def enqueue (q elem : ℕ) : Run Unit := do
  if q = null then return
  let newNode ← allocPage kernelOwner nodeSize
  store newNode
  modify fun s => { s with node := Function.update s.node newNode ⟨elem, null⟩ }
  let s ← get
  if (s.queue q).first = null then
    modify fun s => { s with queue := Function.update s.queue q ⟨newNode, newNode⟩ }
  else
    let last := (s.queue q).last
    modify fun s => { s with
      node := Function.update s.node last { s.node last with next := newNode }
      queue := Function.update s.queue q { s.queue q with last := newNode } }

/-! ### `malloc.c` -/

/-- `p` is the number of the process whose record the second argument points to. -/
def extendHeap (fuel size : ℕ) (p : ℤ) : Run ℕ := do
  let numberOfPages := Machine.heapPages size
  let newBlock ← allocPage (← get).pid numberOfPages
  store newBlock
  setBlock newBlock { (← get).memory newBlock with
    size := MachineInt.uint32Sub (MachineInt.uint32 (numberOfPages * pageSize))
      Malloc.blockStructSize
    free := true
    next := null }
  let s ← get
  if s.heapBase = null then
    modify fun s => { s with heapBase := newBlock }
    setBlock newBlock { s.memory newBlock with prev := null }
    setProcess p { s.process p with heap := newBlock }
  else
    let last ← turns (Malloc.findLastInHeap s.memory fuel s.heapBase)
    setBlock last { s.memory last with next := newBlock }
    setBlock newBlock { (← get).memory newBlock with prev := last }
  modify fun s => { s with toMachine := s.toMachine.addPagesToProcess newBlock p }
  return newBlock

/-- What `mallock` does when the process has a heap. This call of `extendHeap` passes no process:
`garbage` is the number that is found there. -/
def takeFreeBlock (fuel size : ℕ) (garbage : ℤ) : Run ℕ := do
  let aligned := Malloc.align4 size
  let s ← get
  let found ← turns (Malloc.findFirstFreeBlock s.memory aligned fuel s.heapBase)
  let freeBlock ← if found = null then extendHeap fuel size garbage else pure found
  modify fun s => { s with memory := Malloc.takeBlock freeBlock aligned s.memory }
  return Malloc.dataStart freeBlock

/-- A call of the running process. -/
def mallock (fuel size : ℕ) (garbage : ℤ) : Run ℕ := do
  let p := (← get).pid
  modify fun s => { s with heapBase := s.current.heap }
  if size = 0 then return null
  if (← get).heapBase = null then
    let _ ← extendHeap fuel size p
    takeFreeBlock fuel size garbage
  else takeFreeBlock fuel size garbage

/-! ### Calls -/

inductive Call
  | createProcess (entryPoint : ℕ)
  | getProcess (entryPoint : ℕ)
  | newProcessSlot (process : Process)
  | createThread (entryPoint : ℕ) (pid : ℤ)
  | createQueue
  | enqueue (q elem : ℕ)
  | mallock (size : ℕ) (garbage : ℤ)
  | extendHeap (size : ℕ) (p : ℤ)

/-- What a function returns to its caller. -/
inductive Result
  | pointer (address : ℕ)
  | int (value : ℤ)
  | void

/-- `NULL` or -1. -/
def Result.Failed : Result → Prop
  | .pointer address => address = null
  | .int value => value = -1
  | .void => False

def perform (fuel : ℕ) : Call → Run Result
  | .createProcess entryPoint => return .int (← createProcess entryPoint)
  | .getProcess entryPoint => return .pointer (← getProcess entryPoint).1
  | .newProcessSlot process => return .pointer (← newProcessSlot process)
  | .createThread entryPoint pid => return .int (← createThread entryPoint pid)
  | .createQueue => return .pointer (← createQueue)
  | .enqueue q elem => do
    enqueue q elem
    return .void
  | .mallock size garbage => return .pointer (← mallock fuel size garbage)
  | .extendHeap size p => return .pointer (← extendHeap fuel size p)

/-- The call starts when no request was denied. -/
def call (fuel : ℕ) (c : Call) (s : State) : EStateM.Result Fault State Result :=
  perform fuel c { s with denied := false }

/-! ### The page allocator -/

/-- Any call, with any argument. -/
inductive PageCall
  | alloc (pages : ℕ)
  | dealloc (page : ℤ)

def pageStep (b : BuddyArray) : PageCall → Option BuddyArray
  | .alloc pages => some (BuddyAllocator.allocPage pages b).2
  | .dealloc page => (BuddyAllocator.deallocPage page b).map Prod.snd

def pageSystem : System BuddyArray PageCall := ofStep (fun b => b = createHeap) pageStep

end GatOS.OutOfPages
