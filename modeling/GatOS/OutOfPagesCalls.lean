import GatOS.BuddyAllocatorSearch
import GatOS.OutOfPages

/-!
# What a call does without pages

Most functions store through the address that `allocPage` returns before they look at it. Only
`create_queue` looks, and `createThread` gives up for a reason of its own.
-/
namespace GatOS.OutOfPages
open BuddyAllocator Scheduler Threads Transition

/-! ### The condition -/

/-- All requests find a node, one after the other. -/
def ServesAll : List ℕ → BuddyArray → Prop
  | [], _ => True
  | pages :: rest, b => Serves pages b ∧ ServesAll rest (BuddyAllocator.allocPage pages b).2

/-- The size of the block that `extendHeap` appends. -/
def heapBlockSize (size : ℕ) : ℕ :=
  MachineInt.uint32Sub (MachineInt.uint32 (Machine.heapPages size * pageSize))
    Malloc.blockStructSize

/-- `mallock` extends an empty heap, and it extends the heap when no free block is large enough. -/
def heapRequests (fuel size : ℕ) (s : State) : List ℕ :=
  if size = 0 then []
  else if s.current.heap = null then
    if heapBlockSize size > Malloc.align4 size then [Machine.heapPages size]
    else [Machine.heapPages size, Machine.heapPages size]
  else
    match Malloc.findFirstFreeBlock s.memory (Malloc.align4 size) fuel s.current.heap with
    | some 0 => [Machine.heapPages size]
    | _ => []

def threadRequests : List ℕ := [numberOfPagesToAlloc threadSize, 2, 2]

def processRequests : List ℕ := numberOfPagesToAlloc IPC.processSize :: threadRequests

def slotRequests : List ℕ := [numberOfPagesToAlloc processSlotSize]

/-- The numbers of pages that a call asks for, as long as it gets them. -/
def requests (fuel : ℕ) (s : State) : Call → List ℕ
  | .createProcess _ => processRequests ++ slotRequests
  | .getProcess _ => processRequests
  | .newProcessSlot _ => slotRequests
  | .createThread _ _ => threadRequests
  | .createQueue => [queueSize]
  | .enqueue q _ => if q = null then [] else [nodeSize]
  | .mallock size _ => heapRequests fuel size s
  | .extendHeap size _ => [Machine.heapPages size]

/-- `create_queue` looks at the address. `createThread` gives up when the first three threads of the
process exist; before that it has stored a frame in the first stack. -/
def Harmless (s : State) : Call → Prop
  | .createQueue => True
  | .createThread _ pid => (findNextSpot (s.process pid).thread 3).1 = none ∧
      Serves 2 (BuddyAllocator.allocPage (numberOfPagesToAlloc threadSize) s.buddyArray).2
  | .createProcess _ | .getProcess _ | .newProcessSlot _ | .enqueue _ _ | .mallock _ _
  | .extendHeap _ _ => False

/-! ### What a call has to do -/

/-- The process ring, the thread arrays, the queues and the heap lists. -/
structure SameTables (s t : State) : Prop where
  slot : t.sched.slot = s.sched.slot
  current : t.sched.current = s.sched.current
  cardinalProcesses : t.sched.cardinalProcesses = s.sched.cardinalProcesses
  thread : ∀ p, (t.process p).thread = (s.process p).thread
  numberOfThreads : ∀ p, (t.process p).numberOfThreads = (s.process p).numberOfThreads
  queue : t.queue = s.queue
  node : t.node = s.node
  heap : ∀ p, (t.process p).heap = (s.process p).heap
  memory : t.memory = s.memory

/-- A run that was denied a page returns and says so, and the tables are as they were. It has stored
nothing through `NULL`. -/
def Right (s : State) : EStateM.Result Fault State Result → Prop
  | .ok r t => t.denied = true → r.Failed ∧ SameTables s t
  | .error _ t => t.denied = false

def Survives (fuel : ℕ) (c : Call) (s : State) : Prop := Right s (call fuel c s)

/-! ### Runs -/

section

variable {α β : Type} {s t u : State} {owner pid : ℤ} {pages entryPoint : ℕ} {ns ms : List ℕ}

theorem bind_apply (x : Run α) (f : α → Run β) (s : State) :
    (x >>= f) s = match x s with
      | .ok a t => f a t
      | .error e t => .error e t := by
  cases h : x s <;> simp [bind, EStateM.bind, h]

theorem pure_apply (a : α) (s : State) : (pure a : Run α) s = .ok a s := rfl

theorem get_apply (s : State) : (get : Run State) s = .ok s s := rfl

theorem modify_apply (f : State → State) (s : State) :
    (modify f : Run PUnit) s = .ok ⟨⟩ (f s) := rfl

theorem store_apply (a : ℕ) (s : State) :
    store a s = if a = null then .error .null s else .ok () s := rfl

/-- The answer of the page allocator, and the machine behind it. -/
def reply (owner : ℤ) (pages : ℕ) (s : State) : ℕ × State :=
  ((s.toMachine.allocPage owner pages).1, { s with
    toMachine := (s.toMachine.allocPage owner pages).2
    denied := s.denied || (s.toMachine.allocPage owner pages).1 = null })

theorem allocPage_apply (owner : ℤ) (pages : ℕ) (s : State) :
    allocPage owner pages s = .ok (reply owner pages s).1 (reply owner pages s).2 := rfl

@[simp] theorem reply_sched : (reply owner pages s).2.sched = s.sched := by
  show (s.toMachine.allocPage owner pages).2.sched = _
  unfold Machine.allocPage
  split <;> rfl

@[simp] theorem reply_process : (reply owner pages s).2.process = s.process := by
  show (s.toMachine.allocPage owner pages).2.process = _
  unfold Machine.allocPage
  split <;> rfl

/-- The tree after a request. -/
theorem machine_allocPage_buddyArray (owner : ℤ) (pages : ℕ) (m : Machine) :
    (m.allocPage owner pages).2.buddyArray = (BuddyAllocator.allocPage pages m.buddyArray).2 := by
  unfold Machine.allocPage
  split <;> simp_all

/-- A request is answered with `NULL` when it finds no node. -/
theorem machine_allocPage_null_iff {m : Machine} (hb : Shape m.buddyArray) (owner : ℤ)
    (pages : ℕ) : (m.allocPage owner pages).1 = null ↔ ¬ Serves pages m.buddyArray := by
  rw [← allocPage_eq_none_iff hb]
  unfold Machine.allocPage
  cases hrun : BuddyAllocator.allocPage pages m.buddyArray with
  | mk found b =>
    cases found with
    | none => simp
    | some page =>
      have hfound : (BuddyAllocator.allocPage pages m.buddyArray).1 = some page := by rw [hrun]
      have hle := baseMemory_le_of_allocPage hb hfound
      have hpos : 0 < baseMemory := by decide
      simp only [null, reduceCtorEq, iff_false]
      omega

@[simp] theorem reply_buddyArray :
    (reply owner pages s).2.buddyArray = (BuddyAllocator.allocPage pages s.buddyArray).2 :=
  machine_allocPage_buddyArray owner pages s.toMachine

@[simp] theorem reply_queue : (reply owner pages s).2.queue = s.queue := rfl

@[simp] theorem reply_node : (reply owner pages s).2.node = s.node := rfl

@[simp] theorem reply_memory : (reply owner pages s).2.memory = s.memory := rfl

@[simp] theorem reply_heapBase : (reply owner pages s).2.heapBase = s.heapBase := rfl

theorem reply_denied_iff :
    (reply owner pages s).2.denied = true ↔ s.denied = true ∨ (reply owner pages s).1 = null := by
  simp [reply]

theorem reply_eq_null_iff (hb : Shape s.buddyArray) (owner : ℤ) (pages : ℕ) :
    (reply owner pages s).1 = null ↔ ¬ Serves pages s.buddyArray :=
  machine_allocPage_null_iff hb owner pages

theorem sameTables_reply : SameTables s (reply owner pages s).2 := by
  constructor <;> simp

theorem SameTables.trans (h : SameTables s t) (g : SameTables t u) : SameTables s u :=
  ⟨g.slot.trans h.slot, g.current.trans h.current, g.cardinalProcesses.trans h.cardinalProcesses,
    fun p => (g.thread p).trans (h.thread p),
    fun p => (g.numberOfThreads p).trans (h.numberOfThreads p), g.queue.trans h.queue,
    g.node.trans h.node, fun p => (g.heap p).trans (h.heap p), g.memory.trans h.memory⟩

theorem SameTables.of_denied {denied : Bool} (h : SameTables { s with denied := denied } t) :
    SameTables s t :=
  ⟨h.slot, h.current, h.cardinalProcesses, h.thread, h.numberOfThreads, h.queue, h.node, h.heap,
    h.memory⟩

/-! ### Requests -/

def allocPages (ns : List ℕ) (b : BuddyArray) : BuddyArray :=
  ns.foldl (fun b pages => (BuddyAllocator.allocPage pages b).2) b

theorem servesAll_append {b : BuddyArray} :
    ServesAll (ns ++ ms) b ↔ ServesAll ns b ∧ ServesAll ms (allocPages ns b) := by
  induction ns generalizing b with
  | nil => simp [ServesAll, allocPages]
  | cons pages ns ih => simp [ServesAll, ih, allocPages, and_assoc]

/-- The requests that were made between the two states, and whether one was refused. -/
structure Asked (ns : List ℕ) (s t : State) : Prop where
  shape : Shape t.buddyArray
  buddyArray : t.buddyArray = allocPages ns s.buddyArray
  denied : t.denied = true ↔ s.denied = true ∨ ¬ ServesAll ns s.buddyArray

theorem Asked.nil (hb : Shape s.buddyArray) (hbuddy : t.buddyArray = s.buddyArray)
    (hdenied : t.denied = s.denied) : Asked [] s t :=
  ⟨by rwa [hbuddy], hbuddy, by simp [ServesAll, hdenied]⟩

theorem Asked.append (h : Asked ns s t) (g : Asked ms t u) : Asked (ns ++ ms) s u := by
  refine ⟨g.shape, ?_, ?_⟩
  · rw [g.buddyArray, h.buddyArray, allocPages, allocPages, allocPages, List.foldl_append]
  · rw [g.denied, h.denied, servesAll_append, h.buddyArray]
    tauto

theorem Asked.congr (h : Asked ns s t) (hbuddy : u.buddyArray = t.buddyArray)
    (hdenied : u.denied = t.denied) : Asked ns s u :=
  ⟨hbuddy ▸ h.shape, hbuddy.trans h.buddyArray, by rw [hdenied]; exact h.denied⟩

theorem asked_reply (hb : Shape s.buddyArray) : Asked [pages] s (reply owner pages s).2 := by
  refine ⟨?_, by simp [allocPages], ?_⟩
  · rw [reply_buddyArray]
    exact hb.allocPage pages
  · rw [reply_denied_iff, reply_eq_null_iff hb owner pages]
    simp [ServesAll]

/-- The state in which a run stores through `NULL`. -/
def Refused (ns : List ℕ) (s t : State) : Prop :=
  t.denied = true ∧ ¬ ServesAll ns s.buddyArray

theorem Asked.refused (h : Asked ns s t) (hno : ¬ ServesAll ns s.buddyArray) : Refused ns s t :=
  ⟨h.denied.mpr (Or.inr hno), hno⟩

theorem reply_ne_null_iff (hb : Shape s.buddyArray) (owner : ℤ) (pages : ℕ) :
    (reply owner pages s).1 ≠ null ↔ Serves pages s.buddyArray := by
  rw [ne_eq, reply_eq_null_iff hb owner pages, not_not]

/-! ### Threads -/

/-- The state when the three blocks of a thread have been asked for. -/
def threadReply (pid : ℤ) (s : State) : State :=
  (reply pid 2 (reply pid 2 (reply pid (numberOfPagesToAlloc threadSize) s).2).2).2

theorem asked_threadReply (hb : Shape s.buddyArray) (pid : ℤ) :
    Asked threadRequests s (threadReply pid s) := by
  have h1 : Asked [numberOfPagesToAlloc threadSize] s
      (reply pid (numberOfPagesToAlloc threadSize) s).2 := asked_reply hb
  have h2 : Asked [2] _ (reply pid 2 (reply pid (numberOfPagesToAlloc threadSize) s).2).2 :=
    asked_reply h1.shape
  have h3 : Asked [2] _ (threadReply pid s) := asked_reply h2.shape
  exact (h1.append h2).append h3

theorem sameTables_threadReply : SameTables s (threadReply pid s) :=
  (sameTables_reply.trans sameTables_reply).trans sameTables_reply

/-- `createThread` stores through `NULL`, or it returns -1 because it finds no spot, or it returns
0, with or without a second stack. -/
theorem createThread_spec (hb : Shape s.buddyArray) (entryPoint : ℕ) (pid : ℤ) :
    match createThread entryPoint pid s with
    | .ok r t => Asked threadRequests s t ∧ t.sched = s.sched ∧
        ((r = -1 ∧ SameTables s t ∧ Harmless s (.createThread entryPoint pid)) ∨
          (r = 0 ∧ (findNextSpot (s.process pid).thread 3).1 ≠ none))
    | .error f t => f = .null ∧ Refused threadRequests s t ∧
        ¬ Harmless s (.createThread entryPoint pid) := by
  have hasked := asked_threadReply hb pid
  have hshape : Shape (reply pid (numberOfPagesToAlloc threadSize) s).2.buddyArray :=
    (asked_reply hb).shape
  have ht := reply_ne_null_iff hb pid (numberOfPagesToAlloc threadSize)
  have hpage1 := reply_ne_null_iff hshape pid 2
  rw [reply_buddyArray] at hpage1
  simp only [createThread, bind_apply, allocPage_apply, store_apply, get_apply]
  by_cases hnull : (reply pid 2 (reply pid (numberOfPagesToAlloc threadSize) s).2).1 = null
  · have hno := mt hpage1.mpr (not_not_intro hnull)
    rw [if_pos hnull]
    exact ⟨rfl, hasked.refused fun h => hno h.2.1, fun h => hno h.2⟩
  · rw [if_neg hnull]
    have hserves := hpage1.mp hnull
    have hprocess : (threadReply pid s).process = s.process := by simp [threadReply]
    have hsched : (threadReply pid s).sched = s.sched := by simp [threadReply]
    rcases hspot : findNextSpot (s.process pid).thread 3 with ⟨_ | index, thread⟩
    · simp only [reply_process, hspot, pure_apply]
      exact ⟨hasked, hsched, Or.inl ⟨trivial, sameTables_threadReply, by rw [hspot], hserves⟩⟩
    · have hspots : ¬ Harmless s (.createThread entryPoint pid) := fun h => by
        simp [Harmless, hspot] at h
      simp only [reply_process, hspot, bind_apply, setProcess, modify_apply, store_apply]
      by_cases htnull : (reply pid (numberOfPagesToAlloc threadSize) s).1 = null
      · rw [if_pos htnull]
        have hno := mt ht.mpr (not_not_intro htnull)
        exact ⟨rfl, (hasked.congr rfl rfl).refused fun h => hno h.1, hspots⟩
      · rw [if_neg htnull]
        exact ⟨hasked.congr rfl rfl, hsched, Or.inr ⟨rfl, by simp⟩⟩

/-- A call that returns does to the machine what it does when the stores are left out. -/
theorem createThread_machine {r : ℤ} (h : createThread entryPoint pid s = .ok r t) :
    s.toMachine.createThread entryPoint pid = .ok t.toMachine := by
  simp only [createThread, bind_apply, allocPage_apply, store_apply, get_apply] at h
  by_cases hpage1 : (reply pid 2 (reply pid (numberOfPagesToAlloc threadSize) s).2).1 = null
  · rw [if_pos hpage1] at h
    exact absurd h (by simp)
  rw [if_neg hpage1] at h
  unfold Machine.createThread
  have hblocks : (Machine.allocPage pid 2 (Machine.allocPage pid 2
      (Machine.allocPage pid (numberOfPagesToAlloc threadSize) s.toMachine).2).2).2 =
        (threadReply pid s).toMachine := rfl
  simp only [hblocks]
  rcases hspot : findNextSpot ((threadReply pid s).process pid).thread 3 with ⟨_ | index, thread⟩
  · rw [threadReply] at hspot
    simp only [hspot, pure_apply] at h
    cases h
    rfl
  · rw [threadReply] at hspot
    simp only [hspot, bind_apply, setProcess, modify_apply, store_apply] at h
    show (if (reply pid (numberOfPagesToAlloc threadSize) s).1 = null then _ else _) = _
    by_cases htnull : (reply pid (numberOfPagesToAlloc threadSize) s).1 = null
    · rw [if_pos htnull] at h
      exact absurd h (by simp)
    · rw [if_neg htnull] at h ⊢
      cases h
      rfl

theorem Refused.append (h : Asked ns s t) (g : Refused ms t u) : Refused (ns ++ ms) s u := by
  refine ⟨g.1, fun hall => g.2 ?_⟩
  rw [h.buddyArray]
  exact (servesAll_append.mp hall).2

/-! ### Processes -/

theorem getProcess_spec (hb : Shape s.buddyArray) (entryPoint : ℕ) :
    match getProcess entryPoint s with
    | .ok r t => Asked processRequests s t ∧ r.1 ≠ null ∧
        t.sched = (Scheduler.getProcess s.sched).2
    | .error f t => f = .null ∧ Refused processRequests s t := by
  have hinfo : Asked [numberOfPagesToAlloc IPC.processSize] s
      (reply s.sched.pid (numberOfPagesToAlloc IPC.processSize) s).2 := asked_reply hb
  have hnull := reply_ne_null_iff hb s.sched.pid
    (numberOfPagesToAlloc IPC.processSize)
  simp only [getProcess, bind_apply, get_apply, allocPage_apply, store_apply]
  by_cases hpage : (reply s.sched.pid (numberOfPagesToAlloc IPC.processSize) s).1 = null
  · rw [if_pos hpage]
    have hno := mt hnull.mpr (not_not_intro hpage)
    exact ⟨rfl, hinfo.denied.mpr (Or.inr fun h => hno h.1), fun h => hno h.1⟩
  · rw [if_neg hpage]
    simp only [setProcess, modify_apply]
    -- the record is in place, and the thread is created
    generalize hrecord : ({
      (reply s.sched.pid (numberOfPagesToAlloc IPC.processSize) s).2 with
      toMachine := _ } : State) = u
    have hu : Asked [numberOfPagesToAlloc IPC.processSize] s u :=
      hrecord ▸ hinfo.congr rfl rfl
    have hsched : u.sched = s.sched := by
      rw [← hrecord]
      exact reply_sched
    have hthread := createThread_spec hu.shape entryPoint s.sched.pid
    cases hrun : createThread entryPoint s.sched.pid u with
    | ok r t =>
      rw [hrun] at hthread
      refine ⟨(hu.append hthread.1).congr rfl rfl, hpage, ?_⟩
      show (Scheduler.getProcess t.sched).2 = _
      rw [hthread.2.1, hsched]
    | error f t =>
      rw [hrun] at hthread
      exact ⟨hthread.1, Refused.append hu hthread.2.1⟩

theorem newProcessSlot_spec (hb : Shape s.buddyArray) (process : Process) :
    match newProcessSlot process s with
    | .ok page t => Asked slotRequests s t ∧ ServesAll slotRequests s.buddyArray ∧
        t.sched = Scheduler.newProcessSlot page process s.sched
    | .error f t => f = .null ∧ Refused slotRequests s t := by
  have hasked : Asked slotRequests s
      (reply process.pid (numberOfPagesToAlloc processSlotSize) s).2 := asked_reply hb
  have hnull := reply_ne_null_iff hb process.pid
    (numberOfPagesToAlloc processSlotSize)
  simp only [newProcessSlot, bind_apply, get_apply, allocPage_apply, store_apply]
  by_cases hpage : (reply process.pid (numberOfPagesToAlloc processSlotSize) s).1 = null
  · rw [if_pos hpage]
    exact ⟨rfl, hasked.refused fun h => mt hnull.mpr (not_not_intro hpage) h.1⟩
  · rw [if_neg hpage]
    simp only [setSched, modify_apply, pure_apply, reply_sched]
    exact ⟨hasked.congr rfl rfl, ⟨hnull.mp hpage, trivial⟩, trivial⟩

theorem createProcess_spec (hb : Shape s.buddyArray) (entryPoint : ℕ) :
    match createProcess entryPoint s with
    | .ok _ t => Asked (processRequests ++ slotRequests) s t ∧
        t.sched.cardinalProcesses = s.sched.cardinalProcesses + 1
    | .error f t => f = .null ∧ Refused (processRequests ++ slotRequests) s t := by
  have hprocess := getProcess_spec hb entryPoint
  simp only [createProcess, addProcess, bind_apply]
  cases hrun : getProcess entryPoint s with
  | error f t =>
    rw [hrun] at hprocess
    obtain ⟨hf, hdenied, hno⟩ := hprocess
    exact ⟨hf, hdenied, fun h => hno (servesAll_append.mp h).1⟩
  | ok r t =>
    rw [hrun] at hprocess
    obtain ⟨hasked, -, hsched⟩ := hprocess
    have hslot := newProcessSlot_spec hasked.shape r.2
    dsimp only
    cases hnew : newProcessSlot r.2 t with
    | error f u =>
      rw [hnew] at hslot
      exact ⟨hslot.1, hslot.2.append hasked⟩
    | ok page u =>
      rw [hnew] at hslot
      obtain ⟨hasked', -, hsched'⟩ := hslot
      have hcount : u.sched.cardinalProcesses = s.sched.cardinalProcesses := by
        rw [hsched', hsched]
        rfl
      -- the slot is linked into the ring
      by_cases hcurrent : u.sched.current = null
      · simp only [get_apply, hcurrent, if_true, setSched, modify_apply, pure_apply]
        exact ⟨(hasked.append hasked').congr rfl rfl, congrArg (· + 1) hcount⟩
      · simp only [get_apply, hcurrent, if_false, setSched, modify_apply, pure_apply]
        exact ⟨(hasked.append hasked').congr rfl rfl, congrArg (· + 1) hcount⟩

/-! ### Queues -/

theorem createQueue_spec (hb : Shape s.buddyArray) :
    match createQueue s with
    | .ok q t => Asked [queueSize] s t ∧
        (¬ ServesAll [queueSize] s.buddyArray → q = null ∧ SameTables s t)
    | .error _ _ => False := by
  have hasked : Asked [queueSize] s (reply kernelOwner queueSize s).2 := asked_reply hb
  have hnull := reply_ne_null_iff hb kernelOwner queueSize
  simp only [createQueue, bind_apply, allocPage_apply]
  by_cases hpage : (reply kernelOwner queueSize s).1 = null
  · simp only [hpage, if_true, pure_apply]
    exact ⟨hasked, fun _ => ⟨trivial, sameTables_reply⟩⟩
  · simp only [hpage, if_false, bind_apply, modify_apply, pure_apply]
    exact ⟨hasked.congr rfl rfl, fun hno => absurd ⟨hnull.mp hpage, trivial⟩ hno⟩

/-! ### Functions that stop at the first refusal -/

/-- A run that stores through every address that it asks for. -/
def Strict (ns : List ℕ) (s : State) : EStateM.Result Fault State α → Prop
  | .ok _ t => Asked ns s t ∧ ServesAll ns s.buddyArray
  | .error .hang t => Asked ns s t ∧ ServesAll ns s.buddyArray
  | .error .null t => Refused ns s t

/-- Only the page allocator counts in the state from which a run starts. -/
theorem Strict.start {r : EStateM.Result Fault State α} (h : Strict ns s r)
    (hbuddy : s.buddyArray = u.buddyArray) (hdenied : s.denied = u.denied) : Strict ns u r := by
  have hasked : ∀ t, Asked ns s t → Asked ns u t := fun t ht =>
    ⟨ht.shape, hbuddy ▸ ht.buddyArray, by rw [← hbuddy, ← hdenied]; exact ht.denied⟩
  cases r with
  | ok a t => exact ⟨hasked t h.1, hbuddy ▸ h.2⟩
  | error f t =>
    cases f with
    | null => exact ⟨h.1, hbuddy ▸ h.2⟩
    | hang => exact ⟨hasked t h.1, hbuddy ▸ h.2⟩

/-- The requests of the two halves of a run. -/
theorem Strict.append {r : EStateM.Result Fault State α} (h : Asked ns s t)
    (hserves : ServesAll ns s.buddyArray) (hr : Strict ms t r) : Strict (ns ++ ms) s r := by
  have hall : ServesAll ms t.buddyArray → ServesAll (ns ++ ms) s.buddyArray := fun g => by
    rw [h.buddyArray] at g
    exact servesAll_append.mpr ⟨hserves, g⟩
  cases r with
  | ok a u => exact ⟨h.append hr.1, hall hr.2⟩
  | error f u =>
    cases f with
    | null => exact Refused.append h hr
    | hang => exact ⟨h.append hr.1, hall hr.2⟩

theorem strict_enqueue (hb : Shape s.buddyArray) (q elem : ℕ) :
    Strict (if q = null then [] else [nodeSize]) s (enqueue q elem s) := by
  by_cases hq : q = null
  · simp only [enqueue, hq, if_true, pure_apply]
    exact ⟨Asked.nil hb rfl rfl, trivial⟩
  have hasked : Asked [nodeSize] s (reply kernelOwner nodeSize s).2 := asked_reply hb
  have hnull := reply_ne_null_iff hb kernelOwner nodeSize
  simp only [enqueue, hq, if_false, bind_apply, allocPage_apply, store_apply, get_apply,
    modify_apply]
  by_cases hpage : (reply kernelOwner nodeSize s).1 = null
  · rw [if_pos hpage]
    exact hasked.refused fun h => mt hnull.mpr (not_not_intro hpage) h.1
  · have hserves : ServesAll [nodeSize] s.buddyArray := ⟨hnull.mp hpage, trivial⟩
    rw [if_neg hpage]
    dsimp only
    split_ifs
    · exact ⟨hasked.congr rfl rfl, hserves⟩
    · exact ⟨hasked.congr rfl rfl, hserves⟩

/-! ### Heaps -/

theorem addPagesToProcess_buddyArray (pageBase : ℕ) (p : ℤ) (m : Machine) :
    (m.addPagesToProcess pageBase p).buddyArray = m.buddyArray := by
  unfold Machine.addPagesToProcess
  dsimp only
  split_ifs <;> rfl

/-- The first block of a heap is empty and has no neighbours. -/
def FirstBlock (size b : ℕ) (t : State) : Prop :=
  b ≠ null ∧ t.heapBase = b ∧ t.memory b = ⟨heapBlockSize size, null, null, true⟩

theorem extendHeap_spec (hb : Shape s.buddyArray) (fuel size : ℕ) (p : ℤ) :
    Strict [Machine.heapPages size] s (extendHeap fuel size p s) ∧
      (s.heapBase = null → match extendHeap fuel size p s with
        | .ok b t => FirstBlock size b t
        | .error f _ => f = .null) := by
  have hasked : Asked [Machine.heapPages size] s (reply s.pid (Machine.heapPages size) s).2 :=
    asked_reply hb
  have hnull := reply_ne_null_iff hb s.pid (Machine.heapPages size)
  simp only [extendHeap, bind_apply, allocPage_apply, store_apply, get_apply]
  by_cases hpage : (reply s.pid (Machine.heapPages size) s).1 = null
  · rw [if_pos hpage]
    exact ⟨hasked.refused fun h => mt hnull.mpr (not_not_intro hpage) h.1, fun _ => rfl⟩
  · have hserves : ServesAll [Machine.heapPages size] s.buddyArray := ⟨hnull.mp hpage, trivial⟩
    rw [if_neg hpage]
    simp only [setBlock, modify_apply, reply_heapBase]
    by_cases hbase : s.heapBase = null
    · simp only [hbase, if_true, bind_apply, modify_apply, setProcess, pure_apply]
      refine ⟨⟨hasked.congr ?_ rfl, hserves⟩, fun _ => ⟨hpage, rfl, ?_⟩⟩
      · rw [addPagesToProcess_buddyArray]
        rfl
      · simp [heapBlockSize]
    · simp only [hbase, if_false, bind_apply, false_implies, and_true]
      cases hlast : Malloc.findLastInHeap _ fuel s.heapBase with
      | none => exact ⟨hasked.congr rfl rfl, hserves⟩
      | some last =>
        simp only [turns, pure_apply, modify_apply, get_apply]
        refine ⟨hasked.congr ?_ rfl, hserves⟩
        rw [addPagesToProcess_buddyArray]

theorem findFirstFreeBlock_single {memory : Malloc.Memory} {aligned fuel b : ℕ} (hfuel : 2 ≤ fuel)
    (hb : b ≠ null) (hnext : (memory b).next = null) (hfree : (memory b).free = true) :
    Malloc.findFirstFreeBlock memory aligned fuel b =
      some (if (memory b).size > aligned then b else null) := by
  obtain ⟨k, rfl⟩ := Nat.exists_eq_add_of_le' hfuel
  have hb' : b ≠ Malloc.null := hb
  simp only [Malloc.findFirstFreeBlock, hfree, hnext, hb', true_and, ne_eq,
    not_false_eq_true]
  by_cases hsize : (memory b).size > aligned
  · simp [hsize]
  · simp [hsize, null, Malloc.null]

/-- Of a process that has a heap. -/
theorem strict_takeFreeBlock (hb : Shape s.buddyArray) (fuel size : ℕ) (garbage : ℤ) :
    Strict (match Malloc.findFirstFreeBlock s.memory (Malloc.align4 size) fuel s.heapBase with
      | some 0 => [Machine.heapPages size]
      | _ => []) s (takeFreeBlock fuel size garbage s) := by
  simp only [takeFreeBlock, bind_apply, get_apply]
  cases hfound : Malloc.findFirstFreeBlock s.memory (Malloc.align4 size) fuel s.heapBase with
  | none => exact ⟨Asked.nil hb rfl rfl, trivial⟩
  | some found =>
    simp only [turns, pure_apply]
    by_cases hnull : found = null
    · have hextend := (extendHeap_spec hb fuel size garbage).1
      rw [if_pos hnull]
      obtain rfl : found = 0 := hnull
      simp only [bind_apply]
      cases hrun : extendHeap fuel size garbage s with
      | ok b t =>
        rw [hrun] at hextend
        exact ⟨hextend.1.congr rfl rfl, hextend.2⟩
      | error f t =>
        rw [hrun] at hextend
        cases f <;> exact hextend
    · have hne : found ≠ 0 := hnull
      rw [if_neg hnull]
      split
      · rename_i heq
        exact absurd (Option.some.inj heq) hne
      · exact ⟨Asked.nil hb rfl rfl, trivial⟩

theorem strict_mallock (hb : Shape s.buddyArray) {fuel : ℕ} (hfuel : 2 ≤ fuel) (size : ℕ)
    (garbage : ℤ) : Strict (heapRequests fuel size s) s (mallock fuel size garbage s) := by
  simp only [mallock, bind_apply, get_apply, modify_apply, heapRequests]
  by_cases hsize : size = 0
  · simp only [hsize, if_true, pure_apply]
    exact ⟨Asked.nil hb rfl rfl, trivial⟩
  simp only [hsize, if_false, bind_apply, get_apply]
  by_cases hheap : s.current.heap = null
  · -- the heap is empty: its first block is the only one that the search visits
    simp only [hheap, if_true, bind_apply]
    generalize hs' : ({ s with heapBase := null } : State) = s'
    have hbase : s'.heapBase = null := by rw [← hs']
    have hb' : Shape s'.buddyArray := by rw [← hs']; exact hb
    obtain ⟨hextend, hfirst⟩ := extendHeap_spec hb' fuel size s.pid
    have hfirst := hfirst hbase
    replace hextend := hextend.start (u := s) (by rw [← hs']) (by rw [← hs'])
    cases hrun : extendHeap fuel size s.pid s' with
    | error f t =>
      rw [hrun] at hextend hfirst
      obtain rfl : f = .null := hfirst
      have hrefused : Refused [Machine.heapPages size] s t := hextend
      split_ifs
      · exact hrefused
      · exact ⟨hrefused.1, fun h => hrefused.2 ⟨h.1, trivial⟩⟩
    | ok b t =>
      rw [hrun] at hextend hfirst
      obtain ⟨hb0, hbase', hblock⟩ : FirstBlock size b t := hfirst
      obtain ⟨hasked, hserves⟩ : Asked [Machine.heapPages size] s t ∧
          ServesAll [Machine.heapPages size] s.buddyArray := hextend
      have htake := strict_takeFreeBlock hasked.shape fuel size garbage
      rw [hbase', findFirstFreeBlock_single hfuel hb0 (by rw [hblock]) (by rw [hblock]), hblock]
        at htake
      by_cases hfits : heapBlockSize size > Malloc.align4 size
      · simp only [hfits, if_true] at htake ⊢
        split at htake
        · rename_i heq
          exact absurd (Option.some.inj heq) hb0
        · exact Strict.append hasked hserves htake
      · simp only [hfits, if_false] at htake ⊢
        exact Strict.append hasked hserves htake
  · simp only [hheap, if_false]
    exact (strict_takeFreeBlock (s := { s with heapBase := s.current.heap }) hb fuel size
      garbage).start rfl rfl

/-! ### The result -/

theorem reachable_shape {b : BuddyArray} (h : pageSystem.Reachable b) : Shape b := by
  refine h.invariant (I := Shape) ?_ ?_
  · rintro b rfl
    exact shape_createHeap
  · rintro b a c hb hstep
    cases a with
    | alloc pages =>
      obtain rfl := Option.some.inj hstep
      exact hb.allocPage pages
    | dealloc page =>
      obtain ⟨r, hr, rfl⟩ := Option.map_eq_some_iff.mp hstep
      exact hb.deallocPage hr

/-- What the function returns is passed on. -/
theorem Strict.map {x : Run α} (h : Strict ns s (x s)) (g : α → β) :
    Strict ns s ((x >>= fun a => pure (g a)) s) := by
  rw [bind_apply]
  cases hrun : x s with
  | ok a t =>
    rw [hrun] at h
    exact h
  | error f t =>
    rw [hrun] at h
    cases f <;> exact h

/-- Of a function that stores through every address that it asks for. -/
theorem Strict.right_iff {r : EStateM.Result Fault State Result} (h : Strict ns s r)
    (hdenied : s.denied = false) (v : State) : Right v r ↔ ServesAll ns s.buddyArray := by
  have hserved : ∀ {t}, Asked ns s t ∧ ServesAll ns s.buddyArray → t.denied = false :=
    fun {t} ht => by
      rw [Bool.eq_false_iff, ne_eq, ht.1.denied]
      simp [hdenied, ht.2]
  cases r with
  | ok a t =>
    refine iff_of_true (fun ht => ?_) h.2
    rw [hserved h] at ht
    exact absurd ht (by simp)
  | error f t =>
    cases f with
    | null =>
      refine iff_of_false (fun ht : t.denied = false => ?_) h.2
      rw [h.1] at ht
      exact absurd ht (by simp)
    | hang => exact iff_of_true (hserved h) h.2

/-- Of a run that does not report that it failed, or that has changed a table. -/
theorem Asked.right_iff {r : Result} {v : State} (h : Asked ns s t) (hdenied : s.denied = false)
    (hno : ¬ (r.Failed ∧ SameTables v t)) :
    Right v (.ok r t) ↔ ServesAll ns s.buddyArray := by
  have hiff : t.denied = true ↔ ¬ ServesAll ns s.buddyArray := by simpa [hdenied] using h.denied
  constructor
  · intro hright
    by_contra hserves
    exact hno (hright (hiff.mpr hserves))
  · intro hserves ht
    exact absurd hserves (hiff.mp ht)

theorem Refused.right_iff {f : Fault} {v : State} (h : Refused ns s t) :
    Right v (.error f t) ↔ ServesAll ns s.buddyArray := by
  refine iff_of_false (fun ht : t.denied = false => ?_) h.2
  rw [h.1] at ht
  exact absurd ht (by simp)

/-- In every state of the page allocator: a call survives exactly if all its requests are served, or
if it is a call of `create_queue`, or one of `createThread` that finds no spot for the thread and
gets a first stack. -/
theorem survives_iff (hb : pageSystem.Reachable s.buddyArray) {fuel : ℕ} (hfuel : 2 ≤ fuel)
    (c : Call) :
    Survives fuel c s ↔ ServesAll (requests fuel s c) s.buddyArray ∨ Harmless s c := by
  have hshape : Shape ({ s with denied := false } : State).buddyArray := reachable_shape hb
  cases c with
  | createProcess entryPoint =>
    rw [Harmless, or_false]
    have h := createProcess_spec hshape entryPoint
    simp only [Survives, call, perform, bind_apply]
    cases hrun : createProcess entryPoint { s with denied := false } with
    | ok r t =>
      rw [hrun] at h
      refine h.1.right_iff rfl fun hright => ?_
      have hcount := hright.2.cardinalProcesses.symm.trans h.2
      exact absurd hcount (Nat.succ_ne_self _).symm
    | error f t =>
      rw [hrun] at h
      exact h.2.right_iff
  | getProcess entryPoint =>
    rw [Harmless, or_false]
    have h := getProcess_spec hshape entryPoint
    simp only [Survives, call, perform, bind_apply]
    cases hrun : getProcess entryPoint { s with denied := false } with
    | ok r t =>
      rw [hrun] at h
      exact h.1.right_iff rfl fun hright => h.2.1 hright.1
    | error f t =>
      rw [hrun] at h
      exact h.2.right_iff
  | newProcessSlot process =>
    rw [Harmless, or_false]
    have h := newProcessSlot_spec hshape process
    simp only [Survives, call, perform, bind_apply]
    cases hrun : newProcessSlot process { s with denied := false } with
    | ok page t =>
      rw [hrun] at h
      refine iff_of_true (fun ht => ?_) h.2.1
      exact absurd h.2.1 (((h.1.denied.mp ht).resolve_left (by simp)))
    | error f t =>
      rw [hrun] at h
      exact h.2.right_iff
  | createThread entryPoint pid =>
    have h := createThread_spec hshape entryPoint pid
    simp only [Survives, call, perform, bind_apply]
    cases hrun : createThread entryPoint pid { s with denied := false } with
    | ok r t =>
      rw [hrun] at h
      obtain ⟨hasked, -, ⟨rfl, hsame, hharmless⟩ | ⟨rfl, hspot⟩⟩ := h
      · exact iff_of_true (fun _ => ⟨rfl, hsame.of_denied⟩) (Or.inr hharmless)
      · rw [or_iff_left fun hharmless => hspot hharmless.1]
        exact hasked.right_iff rfl fun hright => absurd hright.1 (by simp [Result.Failed])
    | error f t =>
      rw [hrun] at h
      have hno : ¬ Harmless s (.createThread entryPoint pid) := h.2.2
      rw [or_iff_left hno]
      exact h.2.1.right_iff
  | createQueue =>
    have h := createQueue_spec hshape
    simp only [Survives, call, perform, bind_apply]
    cases hrun : createQueue { s with denied := false } with
    | ok q t =>
      rw [hrun] at h
      refine iff_of_true (fun ht => ?_) (Or.inr trivial)
      obtain ⟨hnull, hsame⟩ := h.2 ((h.1.denied.mp ht).resolve_left (by simp))
      exact ⟨hnull, hsame.of_denied⟩
    | error f t =>
      rw [hrun] at h
      exact h.elim
  | enqueue q elem =>
    rw [Harmless, or_false]
    exact ((strict_enqueue hshape q elem).map fun _ => Result.void).right_iff rfl s
  | mallock size garbage =>
    rw [Harmless, or_false]
    exact ((strict_mallock hshape hfuel size garbage).map Result.pointer).right_iff rfl s
  | extendHeap size p =>
    rw [Harmless, or_false]
    exact ((extendHeap_spec hshape fuel size p).1.map Result.pointer).right_iff rfl s

end

/-! ### A kernel without pages -/

/-- No process exists, and `b` is the heap. -/
def kernelWith (b : BuddyArray) : State where
  toMachine := { Threads.empty (fun _ => ⟨null, ⟨0, .ready⟩⟩)
    (fun _ => ⟨null, 0, 0, fun _ => null, null, 0, fun _ => null⟩)
    (fun _ => ⟨null, null, null⟩) with buddyArray := b }
  queue := fun _ => ⟨null, null⟩
  node := fun _ => ⟨null, null⟩
  heapBase := null
  memory := fun _ => ⟨0, null, null, false⟩
  denied := false

theorem reachable_allocPage {b : BuddyArray} (h : pageSystem.Reachable b) (n : ℕ) :
    pageSystem.Reachable (BuddyAllocator.allocPage n b).2 :=
  h.next (a := .alloc n) rfl

/-- One request takes all the pages. -/
theorem exists_exhausted :
    ∃ b, pageSystem.Reachable b ∧ ∀ n, n = 1 ∨ n = queueSize → ¬ Serves n b := by
  have hreach := reachable_allocPage (System.Reachable.start rfl) numberOfPages
  refine ⟨_, hreach, fun n hn => ?_⟩
  rw [← allocPage_eq_none_iff (reachable_shape hreach), createHeap_eq]
  rcases hn with rfl | rfl <;> decide +kernel

/-- `create_queue` survives. The record of a new thread is stored at `NULL`. -/
theorem survives_iff_exhausted : ∃ b, pageSystem.Reachable b ∧
    Survives 2 .createQueue (kernelWith b) ∧ ¬ Survives 2 (.createThread 0 0) (kernelWith b) := by
  obtain ⟨b, hreach, hno⟩ := exists_exhausted
  have hb : pageSystem.Reachable (kernelWith b).buddyArray := hreach
  refine ⟨b, hreach, (survives_iff hb le_rfl .createQueue).mpr (Or.inr trivial), fun h => ?_⟩
  rcases (survives_iff hb le_rfl (.createThread 0 0)).mp h with hserves | hharmless
  · exact hno _ (Or.inl (by decide)) hserves.1
  · exact absurd hharmless.1 (show ¬ (findNextSpot (fun _ => null) 3).1 = none by decide)

/-- A process whose record gets no page. -/
theorem createProcess_refused {s : State} (hb : Shape s.buddyArray)
    (hno : ¬ Serves (numberOfPagesToAlloc IPC.processSize) s.buddyArray) (entryPoint : ℕ) :
    ∃ t, createProcess entryPoint s = .error .null t ∧ t.denied = true := by
  have hnull := (reply_eq_null_iff hb s.sched.pid _).mpr hno
  refine ⟨_, ?_, reply_denied_iff.mpr (Or.inr hnull)⟩
  simp only [createProcess, getProcess, bind_apply, get_apply, allocPage_apply, store_apply]
  rw [if_pos hnull]

/-- The first process is created when there are no pages left. -/
theorem process_through_null : ∃ s, pageSystem.Reachable s.buddyArray ∧
    (∃ t, call 2 (.createProcess 0) s = .error .null t ∧ t.denied = true) ∧
    ¬ Survives 2 (.createProcess 0) s := by
  obtain ⟨b, hreach, hno⟩ := exists_exhausted
  have hb : Shape ({ kernelWith b with denied := false } : State).buddyArray :=
    reachable_shape hreach
  have hpage := hno (numberOfPagesToAlloc IPC.processSize) (Or.inl (by decide))
  obtain ⟨t, hrun, hdenied⟩ := createProcess_refused hb hpage 0
  have hcall : call 2 (.createProcess 0) (kernelWith b) = .error .null t := by
    simp only [call, perform, bind_apply, hrun]
  refine ⟨kernelWith b, hreach, ⟨t, hcall, hdenied⟩, fun h => ?_⟩
  rw [Survives, hcall] at h
  exact absurd (hdenied.symm.trans h) (by simp)

end GatOS.OutOfPages
