import GatOS.HeapLists
import GatOS.KernelHeap
import GatOS.NumberText
import GatOS.ThreadPages
import GatOS.ThreadSwitch

/-!
# Listing the processes

`getCurrentProcesses` and `printProcesses` (`scheduler.c`). A Process record is named by the
address of its slot.
-/
namespace GatOS.ProcessListing

open BuddyAllocator Scheduler LinkedRing MachineInt Transition

/-- A memory of words. -/
abbrev Words := ℕ → ℕ

/-- `sizeof(Process *)`. -/
def pointerSize : ℕ := 8

def entry (processes i : ℕ) (words : Words) : ℕ := words (processes + pointerSize * i)

def setEntry (processes i p : ℕ) (words : Words) : Words :=
  Function.update words (processes + pointerSize * i) p

/-! ### The array of the processes -/

/-- The loop of `getCurrentProcesses`, with the number of turns in which `i < cardinal_processes`
still holds. -/
def entriesLoop (s : State) (processes : ℕ) : ℕ → ℕ → ℕ → Words → Words
  | 0, _, _, words => words
  | n + 1, i, aux, words =>
    entriesLoop s processes n (i + 1) (s.nextOf aux) (setEntry processes (i + 1) aux words)

/-- The bytes that the array is requested for. -/
def arraySize (s : State) : ℕ := s.cardinalProcesses * pointerSize

/-- `processes` is what `allocPage` returns. The result is `*a`. -/
def getCurrentProcesses (s : State) (processes : ℕ) (words : Words) : ℕ × Words :=
  (s.cardinalProcesses,
    entriesLoop s processes s.cardinalProcesses 0 (s.nextOf s.current)
      (setEntry processes 0 s.current words))

/-- The entries that the array is said to have. -/
def entries (n processes : ℕ) (words : Words) : List ℕ :=
  (List.range n).map fun i => entry processes i words

/-- Whatever the memory holds, the array gets each process once, in the order of the ring, and
nothing is stored outside the bytes that were requested. -/
structure IsSnapshot (s : State) (processes : ℕ) : Prop where
  count : ∀ words, (getCurrentProcesses s processes words).1 = s.cardinalProcesses
  order : ∀ words,
    entries s.cardinalProcesses processes (getCurrentProcesses s processes words).2 = ring s
  once : (ring s).Nodup ∧ (ring s).head? = some s.current
  inside : ∀ words i, i < processes ∨ processes + arraySize s ≤ i →
    (getCurrentProcesses s processes words).2 i = words i

section

variable {s : State} {processes : ℕ} {words : Words}

theorem entry_setEntry (processes i j p : ℕ) (words : Words) :
    entry processes j (setEntry processes i p words) =
      if j = i then p else entry processes j words := by
  unfold entry setEntry pointerSize
  split_ifs with hij
  · rw [hij, Function.update_self]
  · exact Function.update_of_ne (by omega) _ _

/-- The loop stores what following `next` from `aux` visits. -/
theorem entry_entriesLoop (s : State) (processes n i aux j : ℕ) (words : Words) :
    entry processes j (entriesLoop s processes n i aux words) =
      if i < j ∧ j ≤ i + n then s.nextOf^[j - i - 1] aux else entry processes j words := by
  induction n generalizing i aux words with
  | zero => rw [entriesLoop, if_neg (by omega)]
  | succ n ih =>
    rw [entriesLoop, ih, entry_setEntry]
    by_cases hfirst : j = i + 1
    · subst hfirst
      rw [if_neg (by omega), if_pos rfl, if_pos (by omega), Nat.add_sub_cancel_left]
      rfl
    by_cases hin : i + 1 < j ∧ j ≤ i + 1 + n
    · have hsub : j - i - 1 = j - (i + 1) - 1 + 1 := by omega
      rw [if_pos hin, if_pos (by omega), hsub, Function.iterate_succ_apply]
    · rw [if_neg hin, if_neg hfirst, if_neg (by omega)]

theorem entriesLoop_outside (s : State) {processes n i aux a : ℕ} {words : Words}
    (ha : a < processes ∨ processes + pointerSize * (i + n + 1) ≤ a) :
    entriesLoop s processes n i aux words a = words a := by
  unfold pointerSize at ha
  induction n generalizing i aux words with
  | zero => rfl
  | succ n ih =>
    rw [entriesLoop, ih (by omega)]
    exact Function.update_of_ne (by unfold pointerSize; omega) _ _

/-- Once more than there are processes an entry is stored: the last one is the running process
again. -/
theorem entry_getCurrentProcesses {j : ℕ} (hj : j ≤ s.cardinalProcesses) :
    entry processes j (getCurrentProcesses s processes words).2 = s.nextOf^[j] s.current := by
  rw [getCurrentProcesses, entry_entriesLoop, entry_setEntry]
  cases j with
  | zero => rfl
  | succ j => rw [if_pos (by omega), Nat.sub_zero, Nat.add_sub_cancel, Function.iterate_succ_apply]

theorem getCurrentProcesses_outside {a : ℕ}
    (ha : a < processes ∨ processes + arraySize s + pointerSize ≤ a) :
    (getCurrentProcesses s processes words).2 a = words a := by
  unfold arraySize pointerSize at ha
  refine (entriesLoop_outside s (by unfold pointerSize; omega)).trans ?_
  exact Function.update_of_ne (by unfold pointerSize; omega) _ _

/-- All the processes are stored, in the order of the ring. -/
theorem entries_getCurrentProcesses (s : State) (processes : ℕ) (words : Words) :
    entries s.cardinalProcesses processes (getCurrentProcesses s processes words).2 = ring s := by
  rw [ring, ← List.range_map_iterate, entries]
  refine List.map_congr_left fun i hi => ?_
  exact entry_getCurrentProcesses (List.mem_range.mp hi).le

/-- The entry behind the last one is the running process again. -/
theorem entry_behind (h : IsRing s.nextOf s.current (ring s)) (processes : ℕ) (words : Words) :
    entry processes s.cardinalProcesses (getCurrentProcesses s processes words).2 =
      s.current := by
  have hlength : (ring s).length = s.cardinalProcesses := List.length_iterate _ _ _
  rw [entry_getCurrentProcesses le_rfl, ← hlength]
  exact h.chain.iterate_length

theorem not_inside (h : IsRing s.nextOf s.current (ring s)) (hnull : s.current ≠ null)
    (processes : ℕ) : ¬ ∀ words i, i < processes ∨ processes + arraySize s ≤ i →
      (getCurrentProcesses s processes words).2 i = words i := by
  intro hall
  have hinside := hall (fun _ => null) (processes + arraySize s) (Or.inr le_rfl)
  rw [arraySize, Nat.mul_comm] at hinside
  exact hnull ((entry_behind h processes fun _ => null).symm.trans hinside)

/-- One pointer more is stored than the memory was requested for. -/
theorem getCurrentProcesses_not_isSnapshot (h : IsRing s.nextOf s.current (ring s))
    (hnull : s.current ≠ null) (processes : ℕ) : ¬ IsSnapshot s processes :=
  fun hsnapshot => not_inside h hnull processes hsnapshot.inside

/-- The init process alone. -/
def alone : State := (createProcess (pageAt 0) (boot emptySlots)).2

theorem isRing_alone : IsRing alone.nextOf alone.current (ring alone) :=
  isRing_singleton rfl

theorem getCurrentProcesses_alone : ¬ IsSnapshot alone (pageAt 1) :=
  fun hsnapshot => not_inside isRing_alone (by decide) (pageAt 1) hsnapshot.inside

theorem getCurrentProcesses_not_isSnapshot_alone : ¬ IsSnapshot alone (pageAt 2) :=
  getCurrentProcesses_not_isSnapshot isRing_alone (by decide) (pageAt 2)

end

/-! ### The printed list -/

/-- The state of the kernel that a listing reads and changes. `description` is the text of the
process with a number, `words` and `chars` are the memories of the array and of the buffers, and
`returned` is what `allocPage` and `kmalloc` have returned, the last result first. -/
structure Kernel where
  machine : Threads.Machine
  heap : Malloc.KernelMachine
  description : ℤ → List ℤ
  words : Words
  chars : NumberText.Memory
  printed : List ℤ
  returned : List ℕ

/-- No list of blocks in the heap of the kernel is longer. -/
def heapFuel : ℕ := Malloc.kernelHeapSize + Malloc.blockStructSize + 1

/-- The static buffer of `naiveConsole.c`. Its address is not used elsewhere. -/
def consoleBuffer : ℕ := 0

def text (s : String) : List ℤ := s.toList.map fun c => (c.toNat : ℤ)

def getStateFromNumber : ProcessState → List ℤ
  | .running => text "RUNNING"
  | .ready => text "READY"
  | .blocked => text "BLOCKED"
  | .dead => text "DEAD"
  | .sleeping => text "SLEEPING"

/-- The characters from an address up to the first zero. -/
def readString : ℕ → ℕ → NumberText.Memory → List ℤ
  | 0, _, _ => []
  | n + 1, a, m => if m a = 0 then [] else m a :: readString n (a + 1) m

namespace Kernel

def print (text : List ℤ) (s : Kernel) : Kernel := { s with printed := s.printed ++ text }

def allocPage (pages : ℕ) (s : Kernel) : ℕ × Kernel :=
  let (page, machine) := s.machine.allocPage Threads.kernelOwner pages
  (page, { s with machine := machine, returned := page :: s.returned })

def kmalloc (size : ℕ) (s : Kernel) : Option (ℕ × Kernel) :=
  (Malloc.kmalloc heapFuel size s.heap.heap).map fun (address, heap) =>
    (address, { s with
      heap := ⟨heap, if address = null then s.heap.results else ⟨address, size⟩ :: s.heap.results⟩
      returned := address :: s.returned })

def putNumber (n : ℤ) (s : Kernel) : Option Kernel := do
  let (buffer, s) ← s.kmalloc 20
  let (text, chars) ← NumberText.putNumber n buffer s.chars
  return { s with chars := chars }.print text

def ncPrintHex (value : ℕ) (s : Kernel) : Option Kernel := do
  let (_, chars) ← NumberText.uintToBase (value % 2 ^ 64) consoleBuffer 16 s.chars
  return { s with chars := chars }.print (readString 64 consoleBuffer chars)

/-- `thread[0]->userStack`, of the process with this number. -/
def firstStack (pid : ℤ) (s : Kernel) : ℕ :=
  (s.machine.record ((s.machine.process pid).thread 0)).userStack

def printThread (pid : ℤ) (s : Kernel) (j : ℕ) : Option Kernel := do
  let s ← ((s.print (text "\n")).print (text "         thread: ")).putNumber (int32 j)
  (s.print (text "   UserStack:")).ncPrintHex (s.firstStack pid)

/-- One turn of the loop of `printProcesses`, for the process of the slot `p`. -/
def printProcess (p : ℕ) (s : Kernel) : Option Kernel := do
  let q := s.machine.sched.processOf p
  let s ← (s.print (text "pid: ")).putNumber q.pid
  let s := (s.print (text "-->description: ")).print (s.description q.pid)
  let s := (s.print (text "-->state: ")).print (getStateFromNumber q.state)
  let s ← (s.print (text "  UserStack:")).ncPrintHex (s.firstStack q.pid)
  let s ← (List.range (s.machine.process q.pid).numberOfThreads.toNat).foldlM
    (printThread q.pid) s
  return s.print (text "\n")

def getCurrentProcesses (s : Kernel) : ℕ × ℕ × Kernel :=
  let (processes, s) := s.allocPage (numberOfPagesToAlloc (arraySize s.machine.sched))
  let (a, words) := ProcessListing.getCurrentProcesses s.machine.sched processes s.words
  (a, processes, { s with words := words })

def printProcesses (s : Kernel) : Option Kernel :=
  let (c, processes, s) := s.getCurrentProcesses
  (List.range c).foldlM (fun s i => s.printProcess (entry processes i s.words)) s

/-- Consecutive calls. -/
def listings : ℕ → Kernel → Option Kernel
  | 0, s => some s
  | k + 1, s => s.printProcesses.bind (listings k)

end Kernel

/-! ### Runs -/

/-- `thread`: another action of the kernel on processes, threads and pages; the texts of the
descriptions belong to the callers. `putNumber`: the kernel prints a number. -/
inductive Action
  | thread (a : Threads.Action) (description : ℤ → List ℤ)
  | putNumber (n : ℤ)
  | printProcesses

def step (s : Kernel) : Action → Option Kernel
  | .thread a description =>
    (Threads.step s.machine a).map fun machine =>
      { s with machine := machine, description := description }
  | .putNumber n => s.putNumber n
  | .printProcesses => s.printProcesses

def IsStart (s : Kernel) : Prop := Threads.IsStart s.machine ∧ Malloc.IsInitialized s.heap

def system : System Kernel Action := ofStep IsStart step

/-- The page tree and the heap of the kernel are as before, and every request was served. -/
structure CostsNothing (s t : Kernel) : Prop where
  tree : t.machine.buddyArray = s.machine.buddyArray
  heap : t.heap.heap = s.heap.heap
  served : ∃ results, t.returned = results ++ s.returned ∧ null ∉ results

/-! ### What a listing changes -/

/-- The effect of printing: requests to the heap of the kernel, and none to the page tree. -/
structure Prints (s t : Kernel) : Prop where
  machine : t.machine = s.machine
  words : t.words = s.words
  heap : ∃ l, Malloc.KernelInvariant t.heap l
  returned : ∃ results, t.returned = results ++ s.returned

section

variable {s t u : Kernel}

theorem Prints.refl (h : ∃ l, Malloc.KernelInvariant s.heap l) : Prints s s :=
  ⟨rfl, rfl, h, [], rfl⟩

theorem Prints.trans (h : Prints s t) (g : Prints t u) : Prints s u := by
  obtain ⟨r, hr⟩ := h.returned
  obtain ⟨r', hr'⟩ := g.returned
  exact ⟨g.machine.trans h.machine, g.words.trans h.words, g.heap, r' ++ r,
    by rw [hr', hr, List.append_assoc]⟩

/-- The list of the blocks of the kernel is searched to its end. -/
theorem length_lt_heapFuel {m : Malloc.KernelMachine} {l : List ℕ}
    (h : Malloc.KernelInvariant m l) : l.length < heapFuel := by
  have htiles := Tiling.fills_singleton.mp h.arranged.fills
  have hle : Malloc.kernelHeapStart + l.length ≤
      Malloc.kernelHeapStart + Malloc.blockStructSize + Malloc.kernelHeapSize :=
    htiles.length_le fun b _ => Malloc.extent_pos m.heap.memory b
  unfold heapFuel
  omega

/-- `kmalloc` is the call that the runs of the heap are made of. -/
theorem kmalloc_eq_some {size : UInt32} {buffer : ℕ}
    (h : s.kmalloc size.toNat = some (buffer, t)) :
    Malloc.kernelCall s.heap ⟨heapFuel, size⟩ = some t.heap ∧
      t = { s with heap := t.heap, returned := buffer :: s.returned } := by
  obtain ⟨r, hrun, heq⟩ := Option.map_eq_some_iff.mp h
  obtain ⟨rfl, rfl⟩ := Prod.mk.inj heq
  exact ⟨Option.map_eq_some_iff.mpr ⟨r, hrun, rfl⟩, rfl⟩

theorem kmalloc_total (h : ∃ l, Malloc.KernelInvariant s.heap l) :
    ∃ buffer t, s.kmalloc 20 = some (buffer, t) ∧ Prints s t := by
  obtain ⟨l, hl⟩ := h
  have hbase : s.heap.heap.kernelBase ≠ Malloc.null := by
    rw [hl.base]
    decide
  obtain ⟨b, hfind, -⟩ := @Malloc.findFirstFreeBlock_total _ _ _ _ (Malloc.align4 20)
    hl.arranged.list.forward hl.arranged.list.null_notMem (length_lt_heapFuel hl)
  have hrun : ∃ r, Malloc.kmalloc heapFuel 20 s.heap.heap = some r := by
    rw [Malloc.kmalloc, if_neg hbase, if_neg (by norm_num), hl.base]
    simp only [hfind, Option.map_some]
    exact ⟨_, rfl⟩
  obtain ⟨r, hrun⟩ := hrun
  have hcall : ∃ t, s.kmalloc (20 : UInt32).toNat = some (r.1, t) :=
    ⟨_, Option.map_eq_some_iff.mpr ⟨r, hrun, rfl⟩⟩
  obtain ⟨t, ht⟩ := hcall
  obtain ⟨hkernel, heq⟩ := kmalloc_eq_some ht
  obtain ⟨l', hl', -⟩ := Malloc.call_kernelInvariant hl hkernel
  refine ⟨r.1, t, ht, ?_, ?_, ⟨l', hl'⟩, [r.1], ?_⟩
  · rw [heq]
  · rw [heq]
  · rw [heq]
    rfl

theorem Prints.print (h : Prints s t) (text : List ℤ) : Prints s (t.print text) :=
  ⟨h.machine, h.words, h.heap, h.returned⟩

theorem putNumber_total (h : ∃ l, Malloc.KernelInvariant s.heap l) {n : ℤ} (hlo : intMin ≤ n)
    (hhi : n ≤ intMax) : ∃ t, s.putNumber n = some t ∧ Prints s t := by
  obtain ⟨buffer, t, hmalloc, hprints⟩ := kmalloc_total h
  obtain ⟨chars, hput⟩ := NumberText.putNumber_eq hlo hhi buffer t.chars
  refine ⟨{ t with chars := chars }.print (NumberText.decimal n), ?_, hprints.machine,
    hprints.words, hprints.heap, hprints.returned⟩
  rw [Kernel.putNumber, hmalloc]
  simp only [Option.bind_eq_bind, Option.bind_some, hput]
  rfl

theorem ncPrintHex_total (h : ∃ l, Malloc.KernelInvariant s.heap l) (value : ℕ) :
    ∃ t, s.ncPrintHex value = some t ∧ Prints s t := by
  have hlt : value % 2 ^ 64 < 2 ^ 64 := Nat.mod_lt _ (by norm_num)
  have hrun : ∃ r, NumberText.uintToBase (value % 2 ^ 64) consoleBuffer 16 s.chars = some r :=
    ⟨_, NumberText.uintToBase_eq (by norm_num) hlt consoleBuffer s.chars⟩
  obtain ⟨r, hrun⟩ := hrun
  refine ⟨{ s with chars := r.2 }.print (readString 64 consoleBuffer r.2), ?_, rfl, rfl, h, [],
    rfl⟩
  rw [Kernel.ncPrintHex, hrun]
  rfl

/-- A loop each turn of which prints. -/
theorem foldlM_total {α : Type} {f : Kernel → α → Option Kernel} {l : List α}
    (hf : ∀ t, Prints s t → ∀ x ∈ l, ∃ u, f t x = some u ∧ Prints t u) (h : Prints s t) :
    ∃ u, l.foldlM f t = some u ∧ Prints s u := by
  induction l generalizing t with
  | nil => exact ⟨t, rfl, h⟩
  | cons x l ih =>
    obtain ⟨u, hu, hprints⟩ := hf t h x List.mem_cons_self
    obtain ⟨v, hv, hrest⟩ := ih (fun t ht y hy => hf t ht y (List.mem_cons_of_mem x hy))
      (h.trans hprints)
    refine ⟨v, ?_, hrest⟩
    rw [List.foldlM_cons, hu]
    exact hv

theorem printThread_total (h : ∃ l, Malloc.KernelInvariant s.heap l) (pid : ℤ) (j : ℕ) :
    ∃ t, s.printThread pid j = some t ∧ Prints s t := by
  have hstart : Prints s ((s.print (text "\n")).print (text "         thread: ")) :=
    ((Prints.refl h).print _).print _
  obtain ⟨hlo, hhi⟩ := int32_range j
  obtain ⟨t, ht, hput⟩ := putNumber_total hstart.heap hlo hhi
  have hstack := hput.print (text "   UserStack:")
  obtain ⟨u, hu, hhex⟩ := ncPrintHex_total hstack.heap (t.firstStack pid)
  refine ⟨u, ?_, (hstart.trans hstack).trans hhex⟩
  rw [Kernel.printThread, ht]
  exact hu

theorem printProcess_total (h : ∃ l, Malloc.KernelInvariant s.heap l) {p : ℕ}
    (hlo : intMin ≤ (s.machine.sched.processOf p).pid)
    (hhi : (s.machine.sched.processOf p).pid ≤ intMax) :
    ∃ t, s.printProcess p = some t ∧ Prints s t := by
  have hstart : Prints s (s.print (text "pid: ")) := (Prints.refl h).print _
  obtain ⟨t, ht, hput⟩ := putNumber_total hstart.heap hlo hhi
  have hstack := (((((hstart.trans hput).print (text "-->description: ")).print
    (t.description (s.machine.sched.processOf p).pid)).print (text "-->state: ")).print
    (getStateFromNumber (s.machine.sched.processOf p).state)).print (text "  UserStack:")
  obtain ⟨u, hu, hhex⟩ := ncPrintHex_total hstack.heap
    (t.firstStack (s.machine.sched.processOf p).pid)
  obtain ⟨v, hv, hthreads⟩ := foldlM_total
    (l := List.range (u.machine.process (s.machine.sched.processOf p).pid).numberOfThreads.toNat)
    (fun w hw j _ => printThread_total hw.heap (s.machine.sched.processOf p).pid j)
    (hstack.trans hhex)
  refine ⟨v.print (text "\n"), ?_, hthreads.print _⟩
  rw [Kernel.printProcess, ht]
  refine (congrArg (Option.bind · _) hu).trans ?_
  exact congrArg (Option.bind · _) hv

/-! ### Consecutive listings -/

/-- What the runs keep. -/
structure Sound (s : Kernel) : Prop where
  machine : Threads.threadSystem.Reachable s.machine
  heap : ∃ l, Malloc.KernelInvariant s.heap l

theorem Sound.allocPage (h : Sound s) (pages : ℕ) : Sound (s.allocPage pages).2 :=
  ⟨h.machine.next (a := Threads.Action.allocPage pages) rfl, h.heap⟩

theorem Sound.prints (h : Sound s) (hprints : Prints s t) : Sound t :=
  ⟨by rw [hprints.machine]; exact h.machine, hprints.heap⟩

/-- A node of the page tree that is marked stays marked. -/
def KeepsMarks (s t : Kernel) : Prop :=
  ∀ x, s.machine.buddyArray.mark x ≠ .empty → t.machine.buddyArray.mark x ≠ .empty

theorem allocPage_sched (owner : ℤ) (pages : ℕ) (m : Threads.Machine) :
    (m.allocPage owner pages).2.sched = m.sched := by
  unfold Threads.Machine.allocPage
  split
  · rfl
  · rfl

theorem allocPage_tree (owner : ℤ) (pages : ℕ) (m : Threads.Machine) :
    (m.allocPage owner pages).2.buddyArray =
      (BuddyAllocator.allocPage pages m.buddyArray).2 := by
  unfold Threads.Machine.allocPage
  split
  · rename_i heq
    rw [heq]
  · rename_i heq
    rw [heq]

/-- A request is refused, or a node that was free is marked. -/
theorem Sound.allocPage_cases (h : Sound s) (pages : ℕ) :
    KeepsMarks s (s.allocPage pages).2 ∧
      ((s.allocPage pages).1 = null ∨ ∃ x, s.machine.buddyArray.mark x = .empty ∧
        (s.allocPage pages).2.machine.buddyArray.mark x ≠ .empty) := by
  obtain ⟨ns, htables⟩ := (Threads.reachable_threadInvariant h.machine).tables
  have htree : (s.allocPage pages).2.machine.buddyArray =
      (BuddyAllocator.allocPage pages s.machine.buddyArray).2 :=
    allocPage_tree Threads.kernelOwner pages s.machine
  unfold KeepsMarks
  rw [htree]
  cases BuddyAllocator.allocPage_cases htables.marks pages with
  | inl hfound =>
    obtain ⟨x, hx, -, hrun⟩ := hfound
    rw [hrun]
    refine ⟨fun y hy => Threads.fillUp_ne_empty hy, Or.inr ⟨x, hx.1.free, ?_⟩⟩
    rw [fillUp_mark_self]
    · simp
    · rw [hx.1.under]
      exact one_ne_zero
  | inr hnone =>
    rw [hnone.1]
    refine ⟨fun _ hy => hy, Or.inl ?_⟩
    show (s.machine.allocPage Threads.kernelOwner pages).1 = null
    rw [Threads.Machine.allocPage, hnone.1]

/-- What `getCurrentProcesses` does to the kernel: one request to the page tree. -/
structure Requests (s : Kernel) (a processes : ℕ) (t : Kernel) : Prop where
  sound : Sound t
  sched : t.machine.sched = s.machine.sched
  entries_eq : entries a processes t.words = ring s.machine.sched
  marks : KeepsMarks s t
  returned : t.returned = processes :: s.returned
  costs : processes = null ∨ ∃ x, s.machine.buddyArray.mark x = .empty ∧
    t.machine.buddyArray.mark x ≠ .empty

theorem Sound.getCurrentProcesses (h : Sound s) :
    Requests s s.getCurrentProcesses.1 s.getCurrentProcesses.2.1 s.getCurrentProcesses.2.2 := by
  set pages := numberOfPagesToAlloc (arraySize s.machine.sched) with hpages
  have hsched : (s.allocPage pages).2.machine.sched = s.machine.sched := allocPage_sched _ _ _
  obtain ⟨hmarks, hcosts⟩ := h.allocPage_cases pages
  have hsound := h.allocPage pages
  refine ⟨⟨hsound.machine, hsound.heap⟩, hsched, ?_, hmarks, rfl, hcosts⟩
  rw [← hsched]
  exact entries_getCurrentProcesses _ _ _

/-- The entries of the array are the slots of the ring, whose processes have small numbers. -/
theorem Sound.pid_range (h : Sound s) {p : ℕ} (hp : p ∈ ring s.machine.sched) :
    intMin ≤ (s.machine.sched.processOf p).pid ∧ (s.machine.sched.processOf p).pid ≤ intMax := by
  have hring := (Threads.reachable_threadInvariant h.machine).ring
  obtain ⟨hlo, hhi⟩ := hring.pid_range _ (List.mem_map_of_mem (List.mem_map_of_mem hp))
  have hle := hring.pid_le
  have hpages : (numberOfPages : ℤ) = 1024 := by decide
  unfold intMin intMax
  omega

/-- A listing returns, and it has asked the page tree for one block. -/
theorem Sound.printProcesses (h : Sound s) : ∃ a page t u, s.printProcesses = some u ∧
    Requests s a page t ∧ Prints t u := by
  have hrequests := h.getCurrentProcesses
  obtain ⟨u, hu, hprints⟩ := foldlM_total
    (f := fun t i => t.printProcess (entry s.getCurrentProcesses.2.1 i t.words))
    (l := List.range s.getCurrentProcesses.1) (fun t ht i hi => by
      have hmem : entry s.getCurrentProcesses.2.1 i t.words ∈ ring s.machine.sched := by
        rw [← hrequests.entries_eq, ht.words]
        exact List.mem_map.mpr ⟨i, hi, rfl⟩
      obtain ⟨hlo, hhi⟩ := h.pid_range hmem
      rw [← hrequests.sched, ← ht.machine] at hlo hhi
      exact printProcess_total ht.heap hlo hhi) (Prints.refl hrequests.sound.heap)
  exact ⟨_, _, _, u, hu, hrequests, hprints⟩

theorem KeepsMarks.trans (h : KeepsMarks s t) (g : KeepsMarks t u) : KeepsMarks s u :=
  fun x hx => g x (h x hx)

theorem Prints.keepsMarks (h : Prints s t) : KeepsMarks s t := by
  intro x hx
  rwa [h.machine]

theorem Sound.listings (h : Sound s) (k : ℕ) : ∃ t, s.listings k = some t ∧ Sound t ∧
    KeepsMarks s t ∧ ∃ results, t.returned = results ++ s.returned := by
  induction k generalizing s with
  | zero => exact ⟨s, rfl, h, fun _ hx => hx, [], rfl⟩
  | succ k ih =>
    obtain ⟨n, page, t, u, hu, hrequests, hprints⟩ := h.printProcesses
    obtain ⟨v, hv, hsound, hmarks, results, hresults⟩ := ih (hrequests.sound.prints hprints)
    obtain ⟨printed, hprinted⟩ := hprints.returned
    refine ⟨v, ?_, hsound, (hrequests.marks.trans hprints.keepsMarks).trans hmarks,
      results ++ printed ++ [page], ?_⟩
    · rw [Kernel.listings, hu]
      exact hv
    · rw [hresults, hprinted, hrequests.returned]
      simp

/-- The block for the array of the first listing is missing, or it is still taken at the end. -/
theorem Sound.not_costsNothing (h : Sound s) {k : ℕ} (ht : s.listings (k + 1) = some t) :
    ¬ CostsNothing s t := by
  obtain ⟨n, page, u, v, hv, hrequests, hprints⟩ := h.printProcesses
  obtain ⟨w, hw, -, hmarks, results, hresults⟩ :=
    (hrequests.sound.prints hprints).listings k
  obtain ⟨printed, hprinted⟩ := hprints.returned
  rw [Kernel.listings, hv] at ht
  obtain rfl : t = w := Option.some.inj (ht.symm.trans hw)
  rintro ⟨htree, -, served, hserved, hnull⟩
  cases hrequests.costs with
  | inl hpage =>
    have heq : served = results ++ printed ++ [page] := by
      rw [hresults, hprinted, hrequests.returned] at hserved
      have happend : served ++ s.returned = (results ++ printed ++ [page]) ++ s.returned := by
        rw [← hserved]
        simp
      exact List.append_cancel_right happend
    rw [heq, hpage] at hnull
    exact hnull (by simp)
  | inr hnode =>
    obtain ⟨x, hempty, hmarked⟩ := hnode
    exact hmarks x (hprints.keepsMarks x hmarked) (by rw [htree, hempty])

theorem step_sound {a : Action} (h : Sound s) (hstep : step s a = some t) : Sound t := by
  cases a with
  | thread a description =>
    obtain ⟨m, hm, rfl⟩ := Option.map_eq_some_iff.mp hstep
    exact ⟨h.machine.next (a := a) hm, h.heap⟩
  | putNumber n =>
    obtain ⟨buffer, u, hmalloc, hprints⟩ := kmalloc_total h.heap
    have hput : s.putNumber n = some t := hstep
    rw [Kernel.putNumber, hmalloc] at hput
    obtain ⟨r, -, heq⟩ := Option.bind_eq_some_iff.mp
      (show (NumberText.putNumber n buffer u.chars).bind _ = some t from hput)
    obtain rfl := Option.some.inj heq
    exact h.prints ⟨hprints.machine, hprints.words, hprints.heap, hprints.returned⟩
  | printProcesses =>
    obtain ⟨n, page, u, v, hv, hrequests, hprints⟩ := h.printProcesses
    obtain rfl : t = v := Option.some.inj (hstep.symm.trans hv)
    exact hrequests.sound.prints hprints

theorem reachable_sound (h : system.Reachable s) : Sound s := by
  refine h.invariant (fun s hs => ?_) fun s a t hs hstep =>
    step_sound hs (show step s a = some t from hstep)
  exact ⟨.start hs.1, _, Malloc.kernelInvariant_initialized hs.2⟩

theorem exists_start : ∃ s, IsStart s := by
  obtain ⟨machine, hmachine⟩ := Threads.exists_start
  exact ⟨⟨machine, ⟨Malloc.initializeKernelHeap ⟨fun _ => ⟨0, 0, 0, false⟩, 0⟩, []⟩, fun _ => [],
    fun _ => null, fun _ => 0, [], []⟩, hmachine, ⟨_, rfl⟩, rfl⟩

/-- The first listing after the start. -/
theorem printProcesses_costs_memory : ∃ s t, IsStart s ∧ s.printProcesses = some t ∧
    ¬ CostsNothing s t := by
  obtain ⟨s, hs⟩ := exists_start
  have hsound := reachable_sound (.start hs)
  obtain ⟨t, ht, -⟩ := hsound.listings 1
  refine ⟨s, t, hs, ?_, hsound.not_costsNothing ht⟩
  rw [Kernel.listings] at ht
  obtain ⟨u, hu, heq⟩ := Option.bind_eq_some_iff.mp ht
  rw [hu]
  exact heq

/-- Any number of listings can be made from a reachable state, and only when there is none the
memory is as before with every request served. -/
theorem printProcesses_costsNothing_iff (h : system.Reachable s) (k : ℕ) :
    ∃ t, s.listings k = some t ∧ (CostsNothing s t ↔ k = 0) := by
  have hsound := reachable_sound h
  obtain ⟨t, ht, -⟩ := hsound.listings k
  refine ⟨t, ht, ?_⟩
  cases k with
  | zero =>
    obtain rfl : s = t := Option.some.inj ht
    exact iff_of_true ⟨rfl, rfl, [], rfl, List.not_mem_nil⟩ rfl
  | succ k => exact iff_of_false (hsound.not_costsNothing ht) (Nat.succ_ne_zero k)

theorem printProcesses_costsNothing_iff_start : ∃ s, system.Reachable s ∧
    ∃ t, s.listings 2 = some t ∧ (CostsNothing s t ↔ 2 = 0) := by
  obtain ⟨s, hs⟩ := exists_start
  exact ⟨s, .start hs, printProcesses_costsNothing_iff (.start hs) 2⟩

end

end GatOS.ProcessListing
