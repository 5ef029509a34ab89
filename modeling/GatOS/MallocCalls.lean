import GatOS.MallocRun
import GatOS.OutOfPagesCalls

/-!
# The ways through `mallock`

What `extendHeap` and `mallock` do to the heaps and to the page allocator, and where they stop.
-/
namespace GatOS.OutOfPages
open BuddyAllocator Scheduler Threads

/-- The field `heap` of each process. -/
def State.heap (s : State) (q : ℤ) : ℕ := (s.process q).heap

variable {owner p : ℤ} {pages fuel size y : ℕ} {garbage : ℤ} {s t : State}

/-- A block that `allocPage` hands out is recorded for its owner. -/
theorem reply_granted (h : (reply owner pages s).1 ≠ null) :
    BuddyAllocator.allocPage pages s.buddyArray =
        (some (reply owner pages s).1, (reply owner pages s).2.buddyArray) ∧
      (reply owner pages s).2.owned = Function.update s.owned owner
        (⟨(reply owner pages s).1, 2 ^ Nat.clog 2 pages⟩ :: s.owned owner) := by
  revert h
  simp only [reply, Machine.allocPage]
  rcases BuddyAllocator.allocPage pages s.buddyArray with ⟨_ | page, b⟩
  · exact fun h => absurd rfl h
  · exact fun _ => ⟨rfl, rfl⟩

theorem addPagesToProcess_frame (pageBase : ℕ) (p : ℤ) (m : Machine) :
    (m.addPagesToProcess pageBase p).sched = m.sched ∧
      (m.addPagesToProcess pageBase p).owned = m.owned ∧
      ∀ q, ((m.addPagesToProcess pageBase p).process q).heap = (m.process q).heap := by
  unfold Machine.addPagesToProcess
  dsimp only
  split_ifs
  · exact ⟨rfl, rfl, fun _ => rfl⟩
  · refine ⟨rfl, rfl, fun q => ?_⟩
    by_cases hq : q = m.pid
    · rw [hq, Machine.setProcess_self]
      rfl
    · rw [Machine.setProcess_ne _ _ hq]

/-- What `extendHeap` has done when it returns the block `y`. -/
structure Extended (fuel size : ℕ) (p : ℤ) (s : State) (y : ℕ) (t : State) : Prop where
  granted : BuddyAllocator.allocPage (Machine.heapPages size) s.buddyArray =
    (some y, t.buddyArray)
  owned : t.owned = Function.update s.owned s.pid
    (⟨y, 2 ^ Nat.clog 2 (Machine.heapPages size)⟩ :: s.owned s.pid)
  sched : t.sched = s.sched
  first : s.heapBase = null → t.heapBase = y ∧ t.heap = Function.update s.heap p y ∧
    t.memory = Function.update s.memory y ⟨heapBlockSize size, null, null, true⟩
  further : s.heapBase ≠ null → t.heapBase = s.heapBase ∧ t.heap = s.heap ∧
    ∃ last, Malloc.findLastInHeap (Function.update s.memory y
        ⟨heapBlockSize size, null, (s.memory y).prev, true⟩) fuel s.heapBase = some last ∧
      (last ≠ y → t.memory y = ⟨heapBlockSize size, null, last, true⟩ ∧
        t.memory last = { s.memory last with next := y }) ∧
      ∀ b, b ≠ y → b ≠ last → t.memory b = s.memory b

/-- `extendHeap` stores through `NULL`, or it does not find the end of the list, or it returns. -/
theorem extendHeap_cases (hb : Shape s.buddyArray) (fuel size : ℕ) (p : ℤ) :
    match extendHeap fuel size p s with
    | .ok y t => Extended fuel size p s y t
    | .error .null _ => ¬ Serves (Machine.heapPages size) s.buddyArray
    | .error .hang _ => s.heapBase ≠ null ∧ ∃ y,
        (∃ b, BuddyAllocator.allocPage (Machine.heapPages size) s.buddyArray = (some y, b)) ∧
        Malloc.findLastInHeap (Function.update s.memory y
          ⟨heapBlockSize size, null, (s.memory y).prev, true⟩) fuel s.heapBase = none := by
  have hnull := reply_ne_null_iff hb s.pid (Machine.heapPages size)
  simp only [extendHeap, bind_apply, allocPage_apply, store_apply, get_apply]
  by_cases hpage : (reply s.pid (Machine.heapPages size) s).1 = null
  · rw [if_pos hpage]
    exact mt hnull.mpr (not_not_intro hpage)
  rw [if_neg hpage]
  obtain ⟨hgranted, howned⟩ := reply_granted hpage
  set y := (reply s.pid (Machine.heapPages size) s).1
  simp only [setBlock, modify_apply, reply_heapBase]
  by_cases hbase : s.heapBase = null
  · simp only [hbase, if_true, bind_apply, modify_apply, setProcess, pure_apply]
    obtain ⟨hsched, hframe, hheap⟩ := addPagesToProcess_frame y p
      ((reply s.pid (Machine.heapPages size) s).2.toMachine.setProcess p
        { (reply s.pid (Machine.heapPages size) s).2.process p with heap := y })
    refine ⟨?_, ?_, ?_, fun _ => ⟨rfl, ?_, ?_⟩, fun hne => absurd hbase hne⟩
    · exact hgranted.trans (by rw [addPagesToProcess_buddyArray]; rfl)
    · exact hframe.trans howned
    · exact hsched.trans reply_sched
    · funext q
      refine (hheap q).trans ?_
      by_cases hq : q = p
      · rw [hq, Machine.setProcess_self, Function.update_self]
      · rw [Machine.setProcess_ne _ _ hq, Function.update_of_ne hq, reply_process]
        rfl
    · simp [heapBlockSize]
  · simp only [hbase, if_false, bind_apply]
    cases hlast : Malloc.findLastInHeap _ fuel s.heapBase with
    | none => exact ⟨hbase, y, ⟨_, hgranted⟩, hlast⟩
    | some last =>
      simp only [turns, pure_apply, modify_apply, get_apply]
      obtain ⟨hsched, hframe, hheap⟩ := addPagesToProcess_frame y p
        (reply s.pid (Machine.heapPages size) s).2.toMachine
      refine ⟨?_, ?_, ?_, fun hnull => absurd hnull hbase,
        fun _ => ⟨rfl, ?_, last, hlast, fun hne => ⟨?_, ?_⟩, fun b hby hbl => ?_⟩⟩
      · exact hgranted.trans (by rw [addPagesToProcess_buddyArray])
      · exact hframe.trans howned
      · exact hsched.trans reply_sched
      · funext q
        exact (hheap q).trans (by rw [reply_process]; rfl)
      · simp [Function.update_of_ne hne.symm, heapBlockSize]
      · simp [Function.update_of_ne hne]
      · simp [Function.update_of_ne hby, Function.update_of_ne hbl]

theorem extendHeap_ok (hb : Shape s.buddyArray) (h : extendHeap fuel size p s = .ok y t) :
    Extended fuel size p s y t := by
  have hcases := extendHeap_cases hb fuel size p
  rwa [h] at hcases

/-- The heap of the running process when the search begins: a new process has got its first
block. -/
def Prepared (fuel size : ℕ) (s s₁ : State) : Prop :=
  (s.current.heap = null ∧
      ∃ y, extendHeap fuel size s.pid { s with heapBase := null } = .ok y s₁) ∨
    (s.current.heap ≠ null ∧ s₁ = { s with heapBase := s.current.heap })

theorem takeFreeBlock_cases (fuel size : ℕ) (garbage : ℤ) (s : State) :
    match takeFreeBlock fuel size garbage s with
    | .ok y t => ∃ found b s₂,
        Malloc.findFirstFreeBlock s.memory (Malloc.align4 size) fuel s.heapBase = some found ∧
        (found = null ∧ extendHeap fuel size garbage s = .ok b s₂ ∨
          found ≠ null ∧ b = found ∧ s₂ = s) ∧
        y = Malloc.dataStart b ∧
        t = { s₂ with memory := Malloc.takeBlock b (Malloc.align4 size) s₂.memory }
    | .error f t =>
        (Malloc.findFirstFreeBlock s.memory (Malloc.align4 size) fuel s.heapBase = none ∧
          f = .hang) ∨
        (Malloc.findFirstFreeBlock s.memory (Malloc.align4 size) fuel s.heapBase = some null ∧
          extendHeap fuel size garbage s = .error f t) := by
  simp only [takeFreeBlock, bind_apply, get_apply]
  cases hfound : Malloc.findFirstFreeBlock s.memory (Malloc.align4 size) fuel s.heapBase with
  | none => exact Or.inl ⟨rfl, rfl⟩
  | some found =>
    simp only [turns, pure_apply]
    by_cases hnull : found = null
    · rw [if_pos hnull, bind_apply]
      cases hrun : extendHeap fuel size garbage s with
      | error f t => exact Or.inr ⟨by rw [hnull], rfl⟩
      | ok b s₂ => exact ⟨found, b, s₂, rfl, Or.inl ⟨hnull, rfl⟩, rfl, rfl⟩
    · rw [if_neg hnull]
      exact ⟨found, found, s, rfl, Or.inr ⟨hnull, rfl, rfl⟩, rfl, rfl⟩

theorem mallock_cases (hsize : size ≠ 0) (fuel : ℕ) (garbage : ℤ) (s : State) :
    match mallock fuel size garbage s with
    | .ok y t => ∃ s₁, Prepared fuel size s s₁ ∧ takeFreeBlock fuel size garbage s₁ = .ok y t
    | .error f t =>
        (s.current.heap = null ∧
          extendHeap fuel size s.pid { s with heapBase := null } = .error f t) ∨
        ∃ s₁, Prepared fuel size s s₁ ∧ takeFreeBlock fuel size garbage s₁ = .error f t := by
  simp only [mallock, bind_apply, get_apply, modify_apply, hsize, if_false]
  by_cases hheap : s.current.heap = null
  · simp only [hheap, if_true, bind_apply]
    cases hrun : extendHeap fuel size s.pid { s with heapBase := null } with
    | error f t => exact Or.inl ⟨trivial, rfl⟩
    | ok y s₁ =>
      have hprepared : Prepared fuel size s s₁ := Or.inl ⟨hheap, y, hrun⟩
      dsimp only
      cases htake : takeFreeBlock fuel size garbage s₁ with
      | ok b t => exact ⟨s₁, hprepared, htake⟩
      | error f t => exact Or.inr ⟨s₁, hprepared, htake⟩
  · simp only [hheap, if_false]
    have hprepared : Prepared fuel size s { s with heapBase := s.current.heap } :=
      Or.inr ⟨hheap, rfl⟩
    cases htake : takeFreeBlock fuel size garbage { s with heapBase := s.current.heap } with
    | ok b t => exact ⟨_, hprepared, htake⟩
    | error f t => exact Or.inr ⟨_, hprepared, htake⟩

theorem mallock_ok (hsize : size ≠ 0) (h : mallock fuel size garbage s = .ok y t) :
    ∃ s₁ found b s₂, Prepared fuel size s s₁ ∧
      Malloc.findFirstFreeBlock s₁.memory (Malloc.align4 size) fuel s₁.heapBase = some found ∧
      (found = null ∧ extendHeap fuel size garbage s₁ = .ok b s₂ ∨
        found ≠ null ∧ b = found ∧ s₂ = s₁) ∧
      y = Malloc.dataStart b ∧
      t = { s₂ with memory := Malloc.takeBlock b (Malloc.align4 size) s₂.memory } := by
  have hmallock := mallock_cases hsize fuel garbage s
  rw [h] at hmallock
  obtain ⟨s₁, hprepared, hrun⟩ := hmallock
  have htake := takeFreeBlock_cases fuel size garbage s₁
  rw [hrun] at htake
  obtain ⟨found, b, s₂, htake⟩ := htake
  exact ⟨s₁, found, b, s₂, hprepared, htake⟩

theorem mallock_error {f : Fault} (hsize : size ≠ 0)
    (h : mallock fuel size garbage s = .error f t) :
    (s.current.heap = null ∧
        extendHeap fuel size s.pid { s with heapBase := null } = .error f t) ∨
      ∃ s₁, Prepared fuel size s s₁ ∧
        ((Malloc.findFirstFreeBlock s₁.memory (Malloc.align4 size) fuel s₁.heapBase = none ∧
            f = .hang) ∨
          (Malloc.findFirstFreeBlock s₁.memory (Malloc.align4 size) fuel s₁.heapBase =
              some null ∧
            extendHeap fuel size garbage s₁ = .error f t)) := by
  have hmallock := mallock_cases hsize fuel garbage s
  rw [h] at hmallock
  refine hmallock.imp_right ?_
  rintro ⟨s₁, hprepared, hrun⟩
  have htake := takeFreeBlock_cases fuel size garbage s₁
  rw [hrun] at htake
  exact ⟨s₁, hprepared, htake⟩

/-! ### `free` -/

/-- The fields of the state that `malloc.c` uses. -/
def State.heaps (s : State) : Malloc.State := ⟨s.memory, s.heapBase, s.heap, []⟩

def free (fuel p : ℕ) (s : State) : Option State :=
  (Malloc.free fuel p s.heaps).map fun h => { s with memory := h.memory }

theorem free_cases {q : ℕ} (h : free fuel q s = some t) :
    t = s ∨ ∃ b, Malloc.isValidAddress q s.heaps ∧
      Malloc.getBlock s.memory q fuel s.heapBase = some b ∧ b ≠ null ∧
      t = { s with memory := Malloc.release b s.memory } := by
  obtain ⟨u, hfree, rfl⟩ := Option.map_eq_some_iff.mp h
  rcases Malloc.free_cases hfree with rfl | ⟨b, hvalid, hget, hb, rfl⟩
  · exact Or.inl rfl
  · exact Or.inr ⟨b, hvalid, hget, hb, rfl⟩

end GatOS.OutOfPages
