import GatOS.MachineInt
import GatOS.Transition
import Mathlib.Data.List.GetD
import Mathlib.Data.List.Nodup
import Mathlib.Data.List.Perm.Basic
import Mathlib.Data.List.Range

/-!
# The page allocators

The stacks of free pages of `memoryAllocator.c`, one for the data pages and one for the stacks of
the processes.
-/
namespace GatOS.PageAllocator
open MachineInt Transition

def pageSize : ℕ := 0x1000

def stackPageSize : ℕ := 0x100000

def dataAddress : ℕ := 0x500000

/-- `STACK_SIZE`, the largest value of type `page_index_t`. -/
def stackSize : ℕ := 255

def memoryPagesEnd : ℕ := (stackSize + 1) * pageSize + dataAddress

def stackAddress : ℕ := memoryPagesEnd + pageSize

def maxProcesses : ℕ := 128

/-- The array of an allocator and the place of the next element to pop. -/
structure PageStack where
  pages : List ℕ
  index : ℕ

/-- The loop starts with 1: the parameters of the fractals are in the first page. -/
def initializeMemoryAllocator : PageStack :=
  ⟨(List.range (stackSize - 1)).foldl (fun pages i => pages.set i (uint8 (i + 1)))
    (List.replicate stackSize 0), 0⟩

def initializeStackMemoryAllocator : PageStack :=
  ⟨(List.range maxProcesses).foldl (fun pages i =>
    pages.set i ((i + 1) * stackPageSize + stackAddress)) (List.replicate maxProcesses 0), 0⟩

/-- The last call on the mutex before a function returns. -/
inductive MutexCall
  | mutexLock
  | mutexUnlock
  deriving DecidableEq

/-- What the statements between the two calls on the mutex leave, the second of these calls and
what the function returns after it. -/
structure Exit where
  stack : PageStack
  last : MutexCall
  result : ℕ

/-- What distinguishes the two allocators: the length of the array, the type of the index, and how
an element stands for an address. -/
structure Layout where
  size : ℕ
  index : ℕ → ℕ
  address : ℕ → ℕ
  element : ℕ → ℕ

def dataPages : Layout :=
  ⟨stackSize, uint8, fun i => i * pageSize + dataAddress,
    fun address => uint8 (uint64Sub address dataAddress / pageSize)⟩

def stackPages : Layout := ⟨maxProcesses, uint16, fun page => page, fun address => address⟩

/-- `last` is the call on the mutex of a function that finds no page. -/
def Layout.get (l : Layout) (last : MutexCall) (s : PageStack) : Exit :=
  if s.index < l.size then
    ⟨{ s with index := l.index (s.index + 1) }, .mutexUnlock, l.address (s.pages.getD s.index 0)⟩
  else ⟨s, last, 0⟩

def Layout.store (l : Layout) (address : ℕ) (s : PageStack) : Exit :=
  if 0 < s.index then
    let index := l.index (s.index - 1)
    ⟨⟨s.pages.set index (l.element address), index⟩, .mutexUnlock, 1⟩
  else ⟨s, .mutexUnlock, 0⟩

/-- The size is not used. When there is no page, the mutex is locked a second time. -/
def getPage (_size : ℕ) (s : PageStack) : Exit := dataPages.get .mutexLock s

def storePage (address : ℕ) (s : PageStack) : Exit := dataPages.store address s

def getStackPage (s : PageStack) : Exit := stackPages.get .mutexUnlock s

def storeStackPage (address : ℕ) (s : PageStack) : Exit := stackPages.store address s

theorem Layout.get_found {l : Layout} {s : PageStack} (last : MutexCall) (h : s.index < l.size) :
    l.get last s = ⟨{ s with index := l.index (s.index + 1) }, .mutexUnlock,
      l.address (s.pages.getD s.index 0)⟩ := if_pos h

theorem Layout.get_none {l : Layout} {s : PageStack} (last : MutexCall) (h : ¬ s.index < l.size) :
    l.get last s = ⟨s, last, 0⟩ := if_neg h

theorem Layout.store_none {l : Layout} {s : PageStack} (address : ℕ) (h : ¬ 0 < s.index) :
    l.store address s = ⟨s, .mutexUnlock, 0⟩ := if_neg h

/-! ### The data pages -/

/-- `out` are the pages that were handed out and not stored back. -/
structure State where
  stack : PageStack
  out : List ℕ

inductive Action
  | getPage (size : ℕ)
  | storePage (address : ℕ)

/-- Only pages that are out are stored. -/
def step (s : State) : Action → Option State
  | .getPage size =>
    let e := getPage size s.stack
    some ⟨e.stack, if e.result = 0 then s.out else e.result :: s.out⟩
  | .storePage address =>
    if address ∈ s.out then
      let e := storePage address s.stack
      some ⟨e.stack, if e.result = 0 then s.out else s.out.erase address⟩
    else none

def start : State := ⟨initializeMemoryAllocator, []⟩

def pageSystem : System State Action := ofStep (· = start) step

/-- What the allocator owes to its callers. -/
structure Sound (s : State) : Prop where
  distinct : s.out.Nodup
  inside : ∀ p ∈ s.out, dataAddress + pageSize ≤ p ∧ p < memoryPagesEnd
  again : ∀ p ∈ s.out, (storePage p s.stack).result = 1 ∧
    ∀ size, (getPage size (storePage p s.stack).stack).result = p
  exhausted : ∀ size, (getPage size s.stack).result = 0 →
    ∀ i, 0 < i → i ≤ stackSize → i * pageSize + dataAddress ∈ s.out

/-- The last element of the array, that the loop does not reach, is not popped. -/
def Action.Reached (s : State) : Action → Prop
  | .getPage _ => s.stack.index < stackSize - 1
  | .storePage _ => True

instance (s : State) (a : Action) : Decidable (a.Reached s) :=
  match a with
  | .getPage _ => inferInstanceAs (Decidable (_ < _))
  | .storePage _ => inferInstanceAs (Decidable True)

/-- The elements that can be popped and the pages that are out are the pages 1 to 254. -/
structure Invariant (s : State) : Prop where
  length : s.stack.pages.length = stackSize
  index_le : s.stack.index ≤ stackSize - 1
  unreached : s.stack.pages.getD (stackSize - 1) 0 = 0
  partition : ((s.stack.pages.take (stackSize - 1)).drop s.stack.index ++
    s.out.map dataPages.element).Perm (List.range' 1 (stackSize - 1))
  pages : ∀ p ∈ s.out, dataPages.address (dataPages.element p) = p

theorem element_address {i : ℕ} (hi : i ≤ stackSize) :
    dataPages.element (dataPages.address i) = i := by
  have hlt : i * pageSize + dataAddress < 2 ^ 64 := by
    simp only [stackSize, pageSize, dataAddress] at hi ⊢
    omega
  simp only [dataPages, uint64Sub_eq (Nat.le_add_left _ _) hlt, Nat.add_sub_cancel]
  simp only [uint8, stackSize, pageSize] at hi ⊢
  omega

theorem address_pos (i : ℕ) : dataPages.address i ≠ 0 := by
  simp [dataPages, dataAddress]

section

variable {s t : State}

theorem Invariant.element_mem (h : Invariant s) {p : ℕ} (hp : p ∈ s.out) :
    1 ≤ dataPages.element p ∧ dataPages.element p < stackSize := by
  have hmem : dataPages.element p ∈ List.range' 1 (stackSize - 1) :=
    h.partition.mem_iff.mp (List.mem_append_right _ (List.mem_map_of_mem hp))
  simpa [stackSize, List.mem_range'_1] using hmem

theorem Invariant.inside (h : Invariant s) {p : ℕ} (hp : p ∈ s.out) :
    dataAddress + pageSize ≤ p ∧ p < memoryPagesEnd := by
  obtain ⟨hlo, hhi⟩ := h.element_mem hp
  rw [← h.pages p hp]
  simp only [dataPages, memoryPagesEnd, stackSize, pageSize, dataAddress] at hlo hhi ⊢
  omega

theorem Invariant.distinct (h : Invariant s) : s.out.Nodup := by
  have hall := h.partition.nodup_iff.mpr (List.nodup_range' ..)
  exact List.Nodup.of_map _ (List.nodup_append.mp hall).2.1

theorem Invariant.length_out (h : Invariant s) : s.out.length = s.stack.index := by
  have hlen := h.partition.length_eq
  have hpages := h.length
  have hle := h.index_le
  simp only [List.length_append, List.length_drop, List.length_take, List.length_map,
    List.length_range', stackSize] at hlen hpages hle
  omega

theorem Invariant.index_pos (h : Invariant s) {p : ℕ} (hp : p ∈ s.out) : 0 < s.stack.index := by
  rw [← h.length_out]
  exact List.length_pos_of_mem hp

/-- What can be popped starts with the element at the index. -/
theorem drop_index {pages : List ℕ} {n k : ℕ} (hk : k < n) (hn : n ≤ pages.length) :
    (pages.take n).drop k = pages.getD k 0 :: (pages.take n).drop (k + 1) := by
  have hlt : k < (pages.take n).length := by simp [hk, hk.trans_le hn]
  rw [List.drop_eq_getElem_cons hlt, List.getElem_take, List.getD_eq_getElem]

/-- Writing below the index puts the element in front of what can be popped. -/
theorem drop_set {pages : List ℕ} {n k x : ℕ} (hk : k < n) (hn : n ≤ pages.length) :
    ((pages.set k x).take n).drop k = x :: (pages.take n).drop (k + 1) := by
  rw [drop_index hk (by simpa using hn), List.getD_eq_getElem _ _ (by simp [hk.trans_le hn]),
    List.getElem_set_self]
  congr 1
  rw [List.take_set, List.drop_set_of_lt (Nat.lt_succ_self k)]

/-! ### The two functions -/

theorem getPage_of_reached {stack : PageStack} (size : ℕ) (hlt : stack.index < stackSize - 1) :
    getPage size stack = ⟨⟨stack.pages, stack.index + 1⟩, .mutexUnlock,
      dataPages.address (stack.pages.getD stack.index 0)⟩ := by
  have hfull : stack.index < dataPages.size := by
    simp only [dataPages, stackSize] at hlt ⊢
    omega
  have hindex : dataPages.index (stack.index + 1) = stack.index + 1 := by
    simp only [dataPages, uint8, stackSize] at hlt ⊢
    omega
  rw [getPage, Layout.get_found _ hfull, hindex]

/-- The 255th page in a row is the first page of the data. -/
theorem getPage_unreached (h : Invariant s) (size : ℕ) (hlast : s.stack.index = stackSize - 1) :
    (getPage size s.stack).result = dataAddress := by
  have hfull : s.stack.index < dataPages.size := by rw [hlast]; decide
  rw [getPage, Layout.get_found _ hfull, hlast, h.unreached]
  rfl

theorem storePage_out (h : Invariant s) {p : ℕ} (hp : p ∈ s.out) : storePage p s.stack =
    ⟨⟨s.stack.pages.set (s.stack.index - 1) (dataPages.element p), s.stack.index - 1⟩,
      .mutexUnlock, 1⟩ := by
  have hindex : dataPages.index (s.stack.index - 1) = s.stack.index - 1 := by
    have hle := h.index_le
    simp only [dataPages, uint8, stackSize] at hle ⊢
    omega
  rw [storePage, Layout.store, if_pos (h.index_pos hp)]
  simp only [hindex]

theorem Invariant.getPage (h : Invariant s) {size : ℕ} (hlt : s.stack.index < stackSize - 1)
    (ht : step s (.getPage size) = some t) : Invariant t := by
  have hpopped := drop_index hlt (by rw [h.length]; decide)
  have hpartition := h.partition
  rw [hpopped, List.cons_append] at hpartition
  have hrange : s.stack.pages.getD s.stack.index 0 ≤ stackSize := by
    have hmem := hpartition.mem_iff.mp List.mem_cons_self
    simp only [List.mem_range'_1, stackSize] at hmem ⊢
    omega
  simp only [step, getPage_of_reached size hlt, if_neg (address_pos _)] at ht
  rw [← Option.some.inj ht]
  refine ⟨h.length, hlt, h.unreached, ?_, fun p hp => ?_⟩
  · simp only [List.map_cons, element_address hrange]
    exact List.perm_middle.trans hpartition
  · rcases List.mem_cons.mp hp with rfl | hp
    · rw [element_address hrange]
    · exact h.pages p hp

theorem Invariant.storePage (h : Invariant s) {p : ℕ} (hp : p ∈ s.out)
    (ht : step s (.storePage p) = some t) : Invariant t := by
  have hpos := h.index_pos hp
  have hle := h.index_le
  have hpushed := drop_set (x := dataPages.element p)
    (show s.stack.index - 1 < stackSize - 1 by omega)
    (show stackSize - 1 ≤ s.stack.pages.length by rw [h.length]; decide)
  rw [Nat.sub_add_cancel hpos] at hpushed
  simp only [step, if_pos hp, storePage_out h hp, if_neg one_ne_zero] at ht
  rw [← Option.some.inj ht]
  refine ⟨by simp [h.length], (Nat.sub_le _ _).trans hle, ?_, ?_, fun q hq =>
    h.pages q (List.mem_of_mem_erase hq)⟩
  · rw [List.getD_eq_getElem?_getD, List.getElem?_set_ne (by omega),
      ← List.getD_eq_getElem?_getD, h.unreached]
  · have hout := (List.perm_cons_erase hp).map dataPages.element
    rw [hpushed]
    exact (List.perm_middle.symm.trans (hout.symm.append_left _)).trans h.partition

/-- The loop leaves the last element as it was. -/
theorem initializeMemoryAllocator_pages :
    initializeMemoryAllocator.pages = List.range' 1 (stackSize - 1) ++ [0] := by
  decide +kernel

theorem invariant_start : Invariant start := by
  have hpages : start.stack.pages = List.range' 1 (stackSize - 1) ++ [0] :=
    initializeMemoryAllocator_pages
  have hindex : start.stack.index = 0 := rfl
  refine ⟨?_, Nat.zero_le _, ?_, ?_, by simp [start]⟩
  · simp [hpages, stackSize]
  · rw [hpages, List.getD_append_right _ _ _ _ (by simp)]
    simp
  · rw [hpages, List.take_left' (List.length_range' ..), hindex]
    simp [start]

theorem Invariant.step (h : Invariant s) {a : Action} (hok : a.Reached s)
    (ht : step s a = some t) : Invariant t := by
  cases a with
  | getPage size => exact h.getPage hok ht
  | storePage p =>
    by_cases hp : p ∈ s.out
    · exact h.storePage hp ht
    · simp [PageAllocator.step, hp] at ht

theorem Invariant.sound (h : Invariant s) : Sound s := by
  refine ⟨h.distinct, fun p hp => h.inside hp, fun p hp => ?_, fun size hnone => ?_⟩
  · have hpos := h.index_pos hp
    have hle := h.index_le
    have hlen := h.length
    rw [storePage_out h hp]
    refine ⟨rfl, fun size => ?_⟩
    rw [getPage_of_reached size (show s.stack.index - 1 < stackSize - 1 by omega)]
    simp only
    rw [List.getD_eq_getElem _ _ (by simp only [List.length_set, hlen, stackSize] at hle ⊢; omega),
      List.getElem_set_self, h.pages p hp]
  · rcases Nat.lt_or_ge s.stack.index (stackSize - 1) with hlt | hge
    · rw [getPage_of_reached size hlt] at hnone
      exact absurd hnone (address_pos _)
    · rw [getPage_unreached h size (Nat.le_antisymm h.index_le hge)] at hnone
      exact absurd hnone (by decide)

/-- Handing out the element that the loop does not reach is what breaks the allocator. -/
theorem Invariant.not_sound (h : Invariant s) {a : Action} (hok : ¬ a.Reached s)
    (ht : PageAllocator.step s a = some t) : ¬ Sound t := by
  cases a with
  | getPage size =>
    have hlast : s.stack.index = stackSize - 1 :=
      Nat.le_antisymm h.index_le (Nat.le_of_not_lt hok)
    have hresult := getPage_unreached h size hlast
    simp only [PageAllocator.step, hresult] at ht
    rw [← Option.some.inj ht]
    intro hsound
    exact absurd (hsound.inside dataAddress (by simp [dataAddress])).1 (by decide)
  | storePage p => exact absurd trivial hok

/-- As long as the last element is not popped the allocator is sound, and popping it makes it
unsound. -/
theorem sound_while_reached (h : (pageSystem.restrict fun s a => a.Reached s).Reachable s) :
    Sound s ∧ ∀ a t, pageSystem.step s a t → (Sound t ↔ a.Reached s) := by
  have hinv : Invariant s := by
    refine h.invariant (I := Invariant) (fun _ hs => ?_) ?_
    · obtain rfl : _ = start := hs
      exact invariant_start
    · rintro s a t hinv ⟨hok, hstep⟩
      exact hinv.step hok hstep
  refine ⟨hinv.sound, fun a t ht => ⟨fun hsound => ?_, fun hok => (hinv.step hok ht).sound⟩⟩
  by_contra hok
  exact hinv.not_sound hok ht hsound

end

/-- A page is stored and another one is handed out. -/
theorem sound_stored : ∃ s, s.out = [dataAddress + 2 * pageSize, dataAddress + pageSize] ∧
    Sound s := by
  obtain ⟨s, hs, hout⟩ := reachable_restrict_of_execute (· = start) rfl
    (show (execute (guarded (fun s a => Action.Reached s a) step) start
      [.getPage 1, .getPage 1, .storePage (dataAddress + 2 * pageSize), .getPage 1]).map State.out =
        some [dataAddress + 2 * pageSize, dataAddress + pageSize] by decide +kernel)
  exact ⟨s, hout, (sound_while_reached hs).1⟩

/-- After 255 calls the first page of the data is out. -/
theorem first_page_out : ∃ s, pageSystem.Reachable s ∧ dataAddress ∈ s.out ∧
    (∀ size, (getPage size s.stack).result = 0) ∧
    stackSize * pageSize + dataAddress ∉ s.out := by
  obtain ⟨s, hpath, hview⟩ := exists_path_of_execute (· = start)
    (show (execute step start (List.replicate 255 (.getPage 1))).map (fun s : State =>
      (decide (dataAddress ∈ s.out), s.stack.index,
        decide (stackSize * pageSize + dataAddress ∉ s.out))) = some (true, 255, true) by
      decide +kernel)
  simp only [Prod.mk.injEq, decide_eq_true_eq] at hview
  obtain ⟨hout, hindex, hlast⟩ := hview
  refine ⟨s, hpath.reachable (System.Reachable.start rfl), hout, fun size => ?_, hlast⟩
  have hfull : ¬ s.stack.index < dataPages.size := by rw [hindex]; decide
  rw [getPage, Layout.get_none _ hfull]

end GatOS.PageAllocator
