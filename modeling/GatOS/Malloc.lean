import GatOS.BuddyAllocator

/-!
# The heaps of the processes

`mallock` and `free` over the headers of the blocks, which are linked in memory. The loops get a
number of turns, `fuel`, and return `none` when it does not suffice.
-/
namespace GatOS.Malloc
open MachineInt BuddyAllocator

/-- The header of a block; its bytes follow behind it. -/
structure TBlock where
  size : ℕ
  next : ℕ
  prev : ℕ
  free : Bool

/-- The headers by their addresses. -/
abbrev Memory := ℕ → TBlock

/-- `NULL`. -/
def null : ℕ := 0

def blockStructSize : ℕ := 28

def dataStart (block : ℕ) : ℕ := block + blockStructSize

def align4 (x : ℕ) : ℕ := uint32 (uint32Sub x 1 / 4 * 4 + 4)

/-- Pages that `allocPage` has handed out together. -/
structure PageBlock where
  base : ℕ
  pages : ℕ
  deriving DecidableEq

/-- `heap` is the field `heap` of each process, by its number; `heapBase` is global. -/
structure State where
  memory : Memory
  heapBase : ℕ
  heap : ℤ → ℕ
  pageBlocks : List PageBlock

def findFirstFreeBlock (memory : Memory) (size : ℕ) : ℕ → ℕ → Option ℕ
  | 0, _ => none
  | fuel + 1, current =>
    if current ≠ null ∧ ¬ ((memory current).free = true ∧ (memory current).size > size) then
      findFirstFreeBlock memory size fuel (memory current).next
    else some current

def splitBlock (block size : ℕ) (memory : Memory) : Memory :=
  if (memory block).size < size then memory
  else
    let newBlock := dataStart block + size
    let memory := Function.update memory newBlock
      { size := uint32Sub (memory block).size (uint32 (size + blockStructSize))
        next := (memory block).next
        prev := block
        free := true }
    Function.update memory block { memory block with next := newBlock, size := size }

/-- What is done with the free block that serves a request. -/
def takeBlock (freeBlock size : ℕ) (memory : Memory) : Memory :=
  let memory :=
    if (memory freeBlock).size > uint32 (size + 4 + blockStructSize) then
      splitBlock freeBlock size memory
    else memory
  Function.update memory freeBlock { memory freeBlock with free := false }

def findLastInHeap (memory : Memory) : ℕ → ℕ → Option ℕ
  | 0, _ => none
  | fuel + 1, current =>
    if (memory current).next ≠ null then findLastInHeap memory fuel (memory current).next
    else some current

/-- The allocator is a parameter: `reply` is the address that it returns. -/
def allocPage (pages reply : ℕ) (s : State) : ℕ × State :=
  (reply, { s with pageBlocks := s.pageBlocks ++ [⟨reply, pages⟩] })

/-- The list of the pages of the process is left out. -/
def extendHeap (fuel size reply : ℕ) (p : ℤ) (s : State) : Option (ℕ × State) :=
  let numberOfPages := numberOfPagesToAlloc (uint32 (size + blockStructSize))
  let (newBlock, s) := allocPage numberOfPages reply s
  let memory := Function.update s.memory newBlock { s.memory newBlock with
    size := uint32Sub (uint32 (numberOfPages * pageSize)) blockStructSize
    free := true
    next := null }
  if s.heapBase = null then
    some (newBlock, { s with
      memory := Function.update memory newBlock { memory newBlock with prev := null }
      heapBase := newBlock
      heap := Function.update s.heap p newBlock })
  else
    (findLastInHeap memory fuel s.heapBase).map fun last =>
      let memory := Function.update memory last { memory last with next := newBlock }
      (newBlock, { s with
        memory := Function.update memory newBlock { memory newBlock with prev := last } })

/-- A call of process `p`; `first` and `second` are the replies of the allocator in the two places
where the heap is extended. -/
def mallock (fuel size first second : ℕ) (p : ℤ) (s : State) : Option (ℕ × State) := do
  let s := { s with heapBase := s.heap p }
  if size = 0 then return (null, s)
  let aligned := align4 size
  let s ← (if s.heapBase = null then (extendHeap fuel size first p s).map Prod.snd else some s)
  let found ← findFirstFreeBlock s.memory aligned fuel s.heapBase
  let (freeBlock, s) ← (if found = null then extendHeap fuel size second p s else some (found, s))
  return (dataStart freeBlock, { s with memory := takeBlock freeBlock aligned s.memory })

def isValidAddress (p : ℕ) (s : State) : Prop := ¬ (p = null ∨ p < dataStart s.heapBase)

instance (p : ℕ) (s : State) : Decidable (isValidAddress p s) :=
  inferInstanceAs (Decidable (¬ _))

def getBlock (memory : Memory) (p : ℕ) : ℕ → ℕ → Option ℕ
  | 0, _ => none
  | fuel + 1, current =>
    if current ≠ null ∧ (memory current).next < p then
      getBlock memory p fuel (memory current).next
    else some current

def mergeBlocks (firstBlock : ℕ) (memory : Memory) : Memory :=
  let next := memory (memory firstBlock).next
  Function.update memory firstBlock { memory firstBlock with
    size := uint32 ((memory firstBlock).size + next.size + blockStructSize)
    next := next.next }

/-- What `free` does with the block that it has found. -/
def release (blockForFree : ℕ) (memory : Memory) : Memory :=
  let memory := Function.update memory blockForFree { memory blockForFree with free := true }
  let next := (memory blockForFree).next
  let memory :=
    if next ≠ null ∧ (memory next).free = true then mergeBlocks blockForFree memory else memory
  let prev := (memory blockForFree).prev
  if prev ≠ null ∧ (memory prev).free = true then mergeBlocks prev memory else memory

def free (fuel p : ℕ) (s : State) : Option State :=
  if isValidAddress p s then
    (getBlock s.memory p fuel s.heapBase).map fun blockForFree =>
      if blockForFree = null then s else { s with memory := release blockForFree s.memory }
  else some s

end GatOS.Malloc
