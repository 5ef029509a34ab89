import GatOS.ThreadPages
import Mathlib.Data.Finset.Card
import Mathlib.Data.Finset.Range

/-!
# The thread array of a process

The calls of `createThread` and `terminateThread` of a process, with the number of threads that the
record of the process counts.
-/
namespace GatOS.ThreadSlots
open BuddyAllocator HeapTree Scheduler Threads Transition

/-! ### The machine -/

/-- Nothing stops a store through `NULL`: a thread for which there is no block gets its record at
address 0. -/
def createThread (entryPoint : ℕ) (pid : ℤ) (s : Machine) : ℤ × Machine :=
  let (t, s) := s.allocPage pid (numberOfPagesToAlloc threadSize)
  let (page1, s) := s.allocPage pid 2
  let (page2, s) := s.allocPage pid 2
  let userStack := page1 + 2 * pageSize
  let kernelStack := page2 + 2 * pageSize
  let stack := fillStackFrame userStack
  let p := s.process pid
  match findNextSpot p.thread 3 with
  | (none, _) => (-1, s)
  | (some index, thread) =>
    let p := { p with
      numberOfThreads := p.numberOfThreads + 1
      thread := Function.update thread index t }
    (0, { s.setProcess pid p with
      record := Function.update s.record t ⟨stack, kernelStack, entryPoint⟩
      live := t :: s.live
      saved := Function.update s.saved pid (Function.update (s.saved pid) index (some stack)) })

/-- Of the running thread, without the switch that follows. -/
def terminateThread (rsp : ℕ) (s : Machine) : Except Fault Machine :=
  let p := s.current
  if p.activeThread = 0 then (s.removeProcess s.pid rsp).map Prod.snd
  else
    (s.freeThreadPages s.activeRecord).map fun t =>
      t.setProcess s.pid { p with
        thread := Function.update p.thread p.activeThread null
        numberOfThreads := p.numberOfThreads - 1 }

/-- `suspend`: the stack pointer of the running thread is saved. `resume`: the scheduler goes on
with the thread `index` of the process that it has made the current one. `page`: a call of
`allocPage` or `deallocPage` by the rest of the kernel. -/
inductive Action
  | createThread (entryPoint : ℕ) (pid : ℤ)
  | terminateThread (rsp : ℕ)
  | suspend (rsp : ℕ)
  | resume (sched : Scheduler.State) (index : ℕ)
  | page (c : OutOfPages.PageCall)

/-- A thread that has ended does not go on, and cannot end again. -/
def step (s : Machine) : Action → Option Machine
  | .createThread entryPoint pid => some (createThread entryPoint pid s).2
  | .terminateThread rsp =>
    if s.activeRecord = null then none else (terminateThread rsp s).toOption
  | .suspend rsp => (s.saveStack rsp).toOption
  | .resume sched index =>
    let s := { s with sched }
    if s.current.thread index = null then none
    else some (s.setProcess s.pid { s.current with activeThread := index })
  | .page c => (OutOfPages.pageStep s.buddyArray c).map fun b => { s with buddyArray := b }

/-- `getProcess` has initialised the record of the process `pid`. -/
structure IsNew (pid : ℤ) (s : Machine) : Prop where
  pages : OutOfPages.pageSystem.Reachable s.buddyArray
  numberOfThreads : (s.process pid).numberOfThreads = 0
  thread : ∀ i, (s.process pid).thread i = null

def slotSystem (pid : ℤ) : System Machine Action := ofStep (IsNew pid) step

/-! ### The law -/

/-- The places of the array that hold a thread. -/
def entries (thread : ℕ → ℕ) : Finset ℕ := (Finset.range maxThreads).filter fun i => thread i ≠ null

def Counted (p : ProcessRecord) : Prop := p.numberOfThreads = (entries p.thread).card

instance (p : ProcessRecord) : Decidable (Counted p) :=
  inferInstanceAs (Decidable (p.numberOfThreads = (entries p.thread).card))

/-- There is no place for another thread. -/
def NoSpot (pid : ℤ) (s : Machine) : Prop := (findNextSpot (s.process pid).thread 3).1 = none

instance (pid : ℤ) (s : Machine) : Decidable (NoSpot pid s) :=
  inferInstanceAs (Decidable ((findNextSpot (s.process pid).thread 3).1 = none))

structure FailsCleanly (pid : ℤ) (s : Machine) (r : ℤ × Machine) : Prop where
  result : r.1 = -1
  thread : (r.2.process pid).thread = (s.process pid).thread
  numberOfThreads : (r.2.process pid).numberOfThreads = (s.process pid).numberOfThreads
  buddyArray : r.2.buddyArray = s.buddyArray

/-- A call of `createThread` counts the thread that it adds, or fails without side effects. -/
structure Lawful (pid : ℤ) (s : Machine) (r : ℤ × Machine) : Prop where
  counted : Counted (r.2.process pid)
  fails : NoSpot pid s → FailsCleanly pid s r

/-- There is a page for the record of a thread that has a place, and no block at all for one that
has none. -/
def Fits (pid : ℤ) (s : Machine) : Prop :=
  (¬ NoSpot pid s → Serves (numberOfPagesToAlloc threadSize) s.buddyArray) ∧
    (NoSpot pid s →
      ¬ Serves (numberOfPagesToAlloc threadSize) s.buddyArray ∧ ¬ Serves 2 s.buddyArray)

/-- The condition on the steps: it is about the calls of `createThread` for the process `pid`. -/
def Permits (pid : ℤ) (s : Machine) : Action → Prop
  | .createThread _ q => q = pid → Fits pid s
  | _ => True

section

variable {s t u : Machine} {pid q : ℤ} {b : BuddyArray} {thread : ℕ → ℕ} {i a entryPoint rsp : ℕ}

/-! ### The array -/

theorem entries_insert (hi : i < maxThreads) (hnull : thread i = null) (ha : a ≠ null) :
    (entries (Function.update thread i a)).card = (entries thread).card + 1 := by
  have hinsert : entries (Function.update thread i a) = insert i (entries thread) := by
    ext j
    simp only [entries, Finset.mem_filter, Finset.mem_range, Finset.mem_insert]
    by_cases hj : j = i
    · subst hj
      simp [hi, ha]
    · simp [hj]
  rw [hinsert, Finset.card_insert_of_notMem]
  simp [entries, hnull]

theorem entries_erase (hi : i < maxThreads) (hlive : thread i ≠ null) :
    (entries (Function.update thread i null)).card + 1 = (entries thread).card := by
  have herase : entries (Function.update thread i null) = (entries thread).erase i := by
    ext j
    simp only [entries, Finset.mem_filter, Finset.mem_range, Finset.mem_erase]
    by_cases hj : j = i
    · subst hj
      simp
    · simp [hj]
  rw [herase, Finset.card_erase_add_one]
  simp [entries, hi, hlive]

/-! ### The page allocator -/

/-- A node that is in use is not given back by a request. -/
theorem allocPage_ne_empty {pages x : ℕ} (hb : Shape b) (h : b.mark x ≠ .empty) :
    (BuddyAllocator.allocPage pages b).2.mark x ≠ .empty := by
  rcases allocPage_found_or_none hb pages with ⟨-, -, y, -, -, hrun⟩ | ⟨-, hrun⟩
  · rw [hrun]
    exact fillUp_ne_empty h
  · rwa [hrun]

/-- A request that is served takes a free node. -/
theorem serves_takes {pages : ℕ} (hb : Shape b) (h : Serves pages b) :
    ∃ x, b.mark x = .empty ∧ (BuddyAllocator.allocPage pages b).2.mark x ≠ .empty := by
  cases hrun : BuddyAllocator.allocPage pages b with
  | mk found c =>
    cases found with
    | none =>
      have hnone : (BuddyAllocator.allocPage pages b).1 = none := by rw [hrun]
      exact absurd h ((allocPage_eq_none_iff hb).mp hnone)
    | some page =>
      obtain ⟨x, -, -, -, hempty, hc, hroot⟩ := exists_node hb hrun
      refine ⟨x, hempty, ?_⟩
      rw [hc, fillUp_mark_self b hroot]
      simp

theorem allocPage_of_not_serves {pages : ℕ} (hb : Shape b) (h : ¬ Serves pages b) :
    BuddyAllocator.allocPage pages b = (none, b) := by
  rcases allocPage_found_or_none hb pages with ⟨h1, h2, x, hx, -, -⟩ | ⟨-, hrun⟩
  · exact absurd ⟨h1, h2, x, hx⟩ h
  · exact hrun

theorem threadBlocks_buddyArray (pid : ℤ) (s : Machine) :
    (threadBlocks pid s).buddyArray = (BuddyAllocator.allocPage 2 (BuddyAllocator.allocPage 2
      (BuddyAllocator.allocPage (numberOfPagesToAlloc threadSize) s.buddyArray).2).2).2 := by
  simp only [threadBlocks, OutOfPages.machine_allocPage_buddyArray]

theorem threadBlocks_process (pid : ℤ) (s : Machine) :
    (threadBlocks pid s).process = s.process := by
  simp only [threadBlocks, allocPage_process]

/-- The three requests leave the tree as it is when none of them is served. -/
theorem threadBlocks_same_iff (hb : Shape s.buddyArray) :
    (threadBlocks pid s).buddyArray = s.buddyArray ↔
      ¬ Serves (numberOfPagesToAlloc threadSize) s.buddyArray ∧ ¬ Serves 2 s.buddyArray := by
  have hshape := hb.allocPage (numberOfPagesToAlloc threadSize)
  have hshape2 := hshape.allocPage 2
  rw [threadBlocks_buddyArray]
  constructor
  · intro hsame
    have hthread : ¬ Serves (numberOfPagesToAlloc threadSize) s.buddyArray := by
      intro hserves
      obtain ⟨x, hempty, htaken⟩ := serves_takes hb hserves
      have hkept := @allocPage_ne_empty _ 2 _ hshape2 (@allocPage_ne_empty _ 2 _ hshape htaken)
      rw [hsame] at hkept
      exact hkept hempty
    refine ⟨hthread, fun hserves => ?_⟩
    rw [allocPage_of_not_serves hb hthread] at hsame
    obtain ⟨x, hempty, htaken⟩ := serves_takes hb hserves
    have hkept := @allocPage_ne_empty _ 2 _ (hb.allocPage 2) htaken
    rw [hsame] at hkept
    exact hkept hempty
  · rintro ⟨hthread, hstack⟩
    rw [allocPage_of_not_serves hb hthread]
    dsimp only
    rw [allocPage_of_not_serves hb hstack]
    dsimp only
    rw [allocPage_of_not_serves hb hstack]

/-! ### Creating -/

theorem findNextSpot_lt {dim : ℕ} {thread' : ℕ → ℕ}
    (h : findNextSpot thread dim = (some i, thread')) : i < dim := by
  unfold findNextSpot at h
  split at h
  · simp at h
  · next j hj =>
    obtain rfl := Option.some.inj (Prod.mk.inj h).1
    exact List.mem_range.mp (List.mem_of_find?_eq_some hj)

theorem createThread_noSpot (h : NoSpot pid s) :
    createThread entryPoint pid s = (-1, threadBlocks pid s) := by
  have hprocess := threadBlocks_process pid s
  unfold threadBlocks at hprocess ⊢
  unfold NoSpot at h
  unfold createThread
  dsimp only
  rw [hprocess]
  rcases hfind : findNextSpot (s.process pid).thread 3 with ⟨_ | index, thread⟩
  · rfl
  · rw [hfind] at h
    exact absurd h (by simp)

/-- The record of the process when `t` is put in the place `index`. -/
def withThread (p : ProcessRecord) (index t : ℕ) : ProcessRecord :=
  { p with
    numberOfThreads := p.numberOfThreads + 1
    thread := Function.update p.thread index t }

theorem createThread_spot (h : ¬ NoSpot pid s) (entryPoint : ℕ) :
    ∃ index < 3, (s.process pid).thread index = null ∧
      (createThread entryPoint pid s).2.buddyArray = (threadBlocks pid s).buddyArray ∧
        (createThread entryPoint pid s).2.process = Function.update s.process pid
          (withThread (s.process pid) index
            (s.allocPage pid (numberOfPagesToAlloc threadSize)).1) := by
  have hprocess := threadBlocks_process pid s
  unfold threadBlocks at hprocess ⊢
  unfold NoSpot at h
  unfold createThread
  dsimp only
  rw [hprocess]
  rcases hfind : findNextSpot (s.process pid).thread 3 with ⟨_ | index, thread⟩
  · rw [hfind] at h
    exact absurd rfl h
  · obtain ⟨hnull, rfl⟩ := findNextSpot_some hfind
    refine ⟨index, findNextSpot_lt hfind, hnull, rfl, ?_⟩
    simp only [Function.update_idem, Machine.setProcess, hprocess, withThread]

/-- Where the record gets a block, the function that stops at a `NULL` record does the same. -/
theorem machine_createThread (h : ProvidesThread pid s) (entryPoint : ℕ) :
    s.createThread entryPoint pid = .ok (createThread entryPoint pid s).2 := by
  have hprocess := threadBlocks_process pid s
  unfold threadBlocks at hprocess
  unfold ProvidesThread at h
  unfold Machine.createThread createThread
  dsimp only
  rw [hprocess]
  rcases hfind : findNextSpot (s.process pid).thread 3 with ⟨_ | index, thread⟩
  · rfl
  · rw [hfind] at h
    dsimp only
    rw [if_neg (h.resolve_left (by simp))]

/-! ### Runs -/

/-- Only the first places hold threads, and each is counted. -/
structure Invariant (pid : ℤ) (s : Machine) : Prop where
  pages : Shape s.buddyArray
  counted : Counted (s.process pid)
  places : ∀ i, 3 ≤ i → (s.process pid).thread i = null

theorem Invariant.congr (h : Invariant pid s) (hb : Shape t.buddyArray)
    (hthread : (t.process pid).thread = (s.process pid).thread)
    (hnumber : (t.process pid).numberOfThreads = (s.process pid).numberOfThreads) :
    Invariant pid t := by
  refine ⟨hb, ?_, fun i hi => ?_⟩
  · rw [Counted, hthread, hnumber]
    exact h.counted
  · rw [hthread]
    exact h.places i hi

theorem counted_withThread {p : ProcessRecord} (hp : Counted p) (hi : i < maxThreads)
    (hnull : p.thread i = null) : Counted (withThread p i a) ↔ a ≠ null := by
  unfold Counted withThread
  dsimp only
  rw [hp]
  by_cases ha : a = null
  · have hsame : Function.update p.thread i a = p.thread := by
      rw [ha, ← hnull, Function.update_eq_self]
    rw [hsame]
    simp [ha]
  · rw [entries_insert hi hnull ha]
    simp [ha]

/-- The exact condition on one call. -/
theorem Invariant.lawful_iff (h : Invariant pid s) (entryPoint : ℕ) :
    Lawful pid s (createThread entryPoint pid s) ↔ Fits pid s := by
  by_cases hspot : NoSpot pid s
  · have hprocess := threadBlocks_process pid s
    have hsame := @threadBlocks_same_iff s pid h.pages
    rw [createThread_noSpot hspot]
    constructor
    · intro hlaw
      exact ⟨fun hno => absurd hspot hno, fun _ => hsame.mp (hlaw.fails hspot).buddyArray⟩
    · intro hfits
      refine ⟨by rw [hprocess]; exact h.counted, fun _ => ⟨rfl, ?_, ?_, hsame.mpr (hfits.2 hspot)⟩⟩
      · rw [hprocess]
      · rw [hprocess]
  · obtain ⟨index, hlt, hnull, -, hprocess⟩ := createThread_spot hspot entryPoint
    have hten : index < maxThreads := hlt.trans (by decide)
    have hcounted := counted_withThread
      (a := (s.allocPage pid (numberOfPagesToAlloc threadSize)).1) h.counted hten hnull
    rw [ne_eq, OutOfPages.machine_allocPage_null_iff h.pages, not_not] at hcounted
    constructor
    · intro hlaw
      have hlaw := hlaw.counted
      rw [hprocess, Function.update_self] at hlaw
      exact ⟨fun _ => hcounted.mp hlaw, fun hno => absurd hno hspot⟩
    · intro hfits
      refine ⟨?_, fun hno => absurd hno hspot⟩
      rw [hprocess, Function.update_self]
      exact hcounted.mpr (hfits.1 hspot)

/-! ### What leaves the thread arrays alone -/

/-- The records of the processes stay as they are, and the tree keeps its shape. -/
structure Spares (s t : Machine) : Prop where
  process : t.process = s.process
  shape : Shape s.buddyArray → Shape t.buddyArray

theorem Spares.refl (s : Machine) : Spares s s := ⟨rfl, id⟩

theorem Spares.trans (h : Spares s t) (g : Spares t u) : Spares s u :=
  ⟨g.process.trans h.process, fun hb => g.shape (h.shape hb)⟩

theorem Spares.of_eq (hprocess : t.process = s.process) (hb : t.buddyArray = s.buddyArray) :
    Spares s t :=
  ⟨hprocess, fun hshape => by rwa [hb]⟩

theorem spares_deallocPage {page : ℕ} (h : s.deallocPage page = .ok t) : Spares s t := by
  unfold Machine.deallocPage at h
  split at h
  · simp at h
  · next r hrun =>
    obtain rfl := Except.ok.inj h
    exact ⟨rfl, fun hb => hb.deallocPage hrun⟩

theorem spares_foldlM {l : List ℕ} {f : Machine → ℕ → Except Fault Machine}
    (hf : ∀ i s t, f s i = .ok t → Spares s t) (h : l.foldlM f s = .ok t) : Spares s t := by
  induction l generalizing s with
  | nil =>
    obtain rfl := Except.ok.inj h
    exact Spares.refl s
  | cons i l ih =>
    rw [List.foldlM_cons] at h
    obtain ⟨u, hu, hrest⟩ := bind_eq_ok.mp h
    exact (hf i s u hu).trans (ih hrest)

theorem spares_freeStacks (h : s.freeStacks a = .ok t) : Spares s t := by
  unfold Machine.freeStacks at h
  split_ifs at h
  obtain ⟨u, hu, hrest⟩ := bind_eq_ok.mp h
  exact (spares_deallocPage hu).trans (spares_deallocPage hrest)

theorem spares_freeThreadPages (h : s.freeThreadPages a = .ok t) : Spares s t := by
  unfold Machine.freeThreadPages at h
  obtain ⟨u, hu, hrest⟩ := bind_eq_ok.mp h
  obtain ⟨v, hv, rfl⟩ := map_eq_ok.mp hrest
  exact (spares_freeStacks hu).trans ((spares_deallocPage hv).trans (Spares.of_eq rfl rfl))

theorem spares_freeProcessPages (h : s.freeProcessPages = .ok t) : Spares s t := by
  unfold Machine.freeProcessPages at h
  obtain ⟨s₁, h₁, h⟩ := bind_eq_ok.mp h
  obtain ⟨s₂, h₂, h⟩ := bind_eq_ok.mp h
  obtain ⟨s₃, h₃, h₄⟩ := bind_eq_ok.mp h
  have hstacks := spares_foldlM (fun _ _ _ => spares_freeStacks) h₂
  have hpages := spares_foldlM (fun _ _ _ => spares_deallocPage) h₄
  exact (spares_deallocPage h₁).trans (hstacks.trans ((spares_deallocPage h₃).trans hpages))

theorem spares_saveStack (h : s.saveStack rsp = .ok t) : Spares s t := by
  have hb := saveStack_buddyArray h
  unfold Machine.saveStack at h
  dsimp only at h
  split_ifs at h
  obtain rfl := Except.ok.inj h
  exact Spares.of_eq rfl hb

theorem spares_schedule (h : s.schedule = .ok t) : Spares s t := by
  have hb := schedule_buddyArray h
  unfold Machine.schedule at h
  split at h
  · simp at h
  · obtain rfl := Except.ok.inj h
    exact Spares.of_eq rfl hb

theorem spares_nextProcess {r : ℕ × Machine} (h : s.nextProcess rsp = .ok r) : Spares s r.2 := by
  unfold Machine.nextProcess at h
  split_ifs at h
  · obtain rfl := Except.ok.inj h
    exact Spares.refl s
  · obtain ⟨s₁, h₁, h⟩ := bind_eq_ok.mp h
    obtain ⟨s₂, h₂, h₃⟩ := bind_eq_ok.mp h
    have hload := (loadStack_eq h₃).symm
    exact hload ▸ (spares_saveStack h₁).trans (spares_schedule h₂)

theorem spares_removeProcess {r : Option ℕ × Machine} (h : s.removeProcess q rsp = .ok r) :
    Spares s r.2 := by
  have hyield : ∀ u : Machine, u.process = s.process → u.buddyArray = s.buddyArray →
      (u.nextProcess rsp).map (fun r => (some r.1, r.2)) = .ok r → Spares s r.2 := by
    intro u hprocess hb hnext
    obtain ⟨r', hr', rfl⟩ := map_eq_ok.mp hnext
    exact (Spares.of_eq hprocess hb).trans (spares_nextProcess hr')
  unfold Machine.removeProcess at h
  split_ifs at h
  · exact hyield s rfl rfl h
  · obtain rfl := Except.ok.inj h
    exact Spares.refl s
  · obtain ⟨u, hu, rfl⟩ := map_eq_ok.mp h
    exact (spares_freeProcessPages hu).trans (Spares.of_eq rfl rfl)
  · split at h
    · obtain rfl := Except.ok.inj h
      exact Spares.refl s
    · dsimp only at h
      split_ifs at h
      · refine hyield _ ?_ ?_ h
        · rfl
        · rfl
      · obtain rfl := Except.ok.inj h
        exact Spares.of_eq rfl rfl

theorem Invariant.spares (h : Invariant pid s) (hspares : Spares s t) : Invariant pid t :=
  h.congr (hspares.shape h.pages) (by rw [hspares.process]) (by rw [hspares.process])

/-! ### One step -/

theorem Invariant.createThread (h : Invariant pid s) (hfits : q = pid → Fits pid s)
    (entryPoint : ℕ) : Invariant pid (createThread entryPoint q s).2 := by
  have hblocks : Shape (threadBlocks q s).buddyArray := by
    rw [threadBlocks_buddyArray]
    exact ((h.pages.allocPage _).allocPage _).allocPage _
  by_cases hspot : NoSpot q s
  · rw [createThread_noSpot hspot]
    exact h.congr hblocks (by rw [threadBlocks_process]) (by rw [threadBlocks_process])
  obtain ⟨index, hlt, hnull, hb, hprocess⟩ := createThread_spot hspot entryPoint
  rw [← hb] at hblocks
  by_cases hq : q = pid
  · subst hq
    refine ⟨hblocks, ((h.lawful_iff entryPoint).mpr (hfits rfl)).counted, fun i hi => ?_⟩
    have hne : i ≠ index := by omega
    rw [hprocess, Function.update_self, withThread]
    exact (Function.update_of_ne hne _ _).trans (h.places i hi)
  · have hother : (ThreadSlots.createThread entryPoint q s).2.process pid = s.process pid := by
      rw [hprocess, Function.update_of_ne (Ne.symm hq)]
    exact h.congr hblocks (by rw [hother]) (by rw [hother])

theorem Invariant.terminateThread (h : Invariant pid s) (hlive : s.activeRecord ≠ null)
    (hrun : terminateThread rsp s = .ok t) : Invariant pid t := by
  unfold ThreadSlots.terminateThread at hrun
  dsimp only at hrun
  split_ifs at hrun with hactive
  · obtain ⟨r, hr, rfl⟩ := map_eq_ok.mp hrun
    exact h.spares (spares_removeProcess hr)
  obtain ⟨u, hu, rfl⟩ := map_eq_ok.mp hrun
  have hspares := spares_freeThreadPages hu
  by_cases hpid : s.pid = pid
  · -- the place of the active thread becomes free
    have hten : s.current.activeThread < maxThreads := by
      by_contra hge
      have hmax : maxThreads = 10 := rfl
      have hnull := h.places s.current.activeThread (by omega)
      rw [← hpid] at hnull
      exact hlive hnull
    have herase := entries_erase hten hlive
    have hcounted := h.counted
    rw [← hpid, Counted] at hcounted
    change s.current.numberOfThreads = ((entries s.current.thread).card : ℤ) at hcounted
    refine ⟨hspares.shape h.pages, ?_, fun i hi => ?_⟩
    · rw [← hpid, Machine.setProcess_self, Counted]
      dsimp only
      omega
    · rw [← hpid, Machine.setProcess_self]
      dsimp only
      rw [Function.update_apply]
      split_ifs
      · rfl
      · have hnull := h.places i hi
        rwa [← hpid] at hnull
  · have hother : (u.setProcess s.pid { s.current with
        thread := Function.update s.current.thread s.current.activeThread null
        numberOfThreads := s.current.numberOfThreads - 1 }).process pid = s.process pid := by
      rw [Machine.setProcess_ne _ _ (Ne.symm hpid), hspares.process]
    exact h.congr (hspares.shape h.pages) (by rw [hother]) (by rw [hother])

theorem Invariant.step {action : Action} (h : Invariant pid s) (hok : Permits pid s action)
    (hstep : step s action = some t) : Invariant pid t := by
  cases action with
  | createThread entryPoint q =>
    obtain rfl := Option.some.inj hstep
    exact h.createThread hok entryPoint
  | terminateThread rsp =>
    simp only [ThreadSlots.step] at hstep
    split_ifs at hstep with hlive
    exact h.terminateThread hlive (ok_of_toOption hstep)
  | suspend rsp => exact h.spares (spares_saveStack (ok_of_toOption hstep))
  | resume sched index =>
    simp only [ThreadSlots.step] at hstep
    split_ifs at hstep
    obtain rfl := Option.some.inj hstep
    by_cases hq : pid = ({ s with sched } : Machine).pid
    · refine h.congr h.pages ?_ ?_
      · rw [hq, Machine.setProcess_self]
        rfl
      · rw [hq, Machine.setProcess_self]
        rfl
    · refine h.congr h.pages ?_ ?_
      · rw [Machine.setProcess_ne _ _ hq]
      · rw [Machine.setProcess_ne _ _ hq]
  | page c =>
    obtain ⟨b, hb, rfl⟩ := Option.map_eq_some_iff.mp hstep
    refine h.congr ?_ rfl rfl
    cases c with
    | alloc pages =>
      obtain rfl := Option.some.inj hb
      exact h.pages.allocPage pages
    | dealloc page =>
      obtain ⟨r, hr, rfl⟩ := Option.map_eq_some_iff.mp hb
      exact h.pages.deallocPage hr

theorem IsNew.invariant (h : IsNew pid s) : Invariant pid s := by
  refine ⟨OutOfPages.reachable_shape h.pages, ?_, fun i _ => h.thread i⟩
  rw [Counted, h.numberOfThreads]
  simp [entries, h.thread]

/-- What holds along every run whose calls of `createThread` fit, and exactly when the next call is
lawful. -/
theorem createThread_law (h : ((slotSystem pid).restrict (Permits pid)).Reachable s)
    (entryPoint : ℕ) :
    Counted (s.process pid) ∧ (Lawful pid s (createThread entryPoint pid s) ↔ Fits pid s) := by
  have hinv : Invariant pid s := by
    refine h.invariant (I := Invariant pid) ?_ ?_
    · intro s hnew
      exact IsNew.invariant hnew
    · intro s action t hinv hstep
      exact hinv.step hstep.1 hstep.2
  exact ⟨hinv.counted, hinv.lawful_iff entryPoint⟩

end

/-! ### Concrete runs -/

theorem isNew_zeroMachine : IsNew 0 zeroMachine :=
  ⟨System.Reachable.start rfl, rfl, fun _ => rfl⟩

/-- The first thread of a process, and the call that follows. -/
theorem createThread_law_second : ∃ s, s = (createThread 1 0 zeroMachine).2 ∧
    Counted (s.process 0) ∧ (Lawful 0 s (createThread 7 0 s) ↔ Fits 0 s) := by
  have hserves : Serves (numberOfPagesToAlloc threadSize) zeroMachine.buddyArray := by
    by_contra hno
    rw [← allocPage_eq_none_iff (OutOfPages.reachable_shape isNew_zeroMachine.pages)] at hno
    have hfound : (BuddyAllocator.allocPage (numberOfPagesToAlloc threadSize)
        zeroMachine.buddyArray).1 ≠ none := by
      rw [zeroMachine, empty, createHeap_eq]
      decide +kernel
    exact hfound hno
  have hspot : ¬ NoSpot 0 zeroMachine := by decide
  have hfits : Fits 0 zeroMachine := ⟨fun _ => hserves, fun hno => absurd hno hspot⟩
  have hreach : ((slotSystem 0).restrict (Permits 0)).Reachable (createThread 1 0 zeroMachine).2 :=
    (System.Reachable.start isNew_zeroMachine).next (a := .createThread 1 0) ⟨fun _ => hfits, rfl⟩
  exact ⟨_, rfl, createThread_law hreach 7⟩

/-- The fourth call of a process with three threads keeps the blocks that it has asked for; and when
there are no pages a thread without a record is counted. -/
theorem createThread_not_lawful :
    (∃ s, (slotSystem 0).Reachable s ∧ NoSpot 0 s ∧ ¬ FailsCleanly 0 s (createThread 7 0 s)) ∧
      ∃ s, (slotSystem 0).Reachable s ∧ ¬ Counted (s.process 0) := by
  constructor
  · have hrun : (execute step zeroMachine (List.replicate 3 (.createThread 7 0))).any (fun s =>
        NoSpot 0 s ∧ s.buddyArray.mark 1040 ≠ (createThread 7 0 s).2.buddyArray.mark 1040) =
        true := by
      rw [zeroMachine, empty, createHeap_eq]
      decide +kernel
    obtain ⟨s, hs, hrun⟩ := (Option.any_eq_true _ _).mp hrun
    obtain ⟨hspot, hmark⟩ := of_decide_eq_true hrun
    refine ⟨s, reachable_of_execute _ isNew_zeroMachine hs, hspot, fun hclean => hmark ?_⟩
    rw [hclean.buddyArray]
  · have hrun : (execute step zeroMachine
        [.page (.alloc numberOfPages), .createThread 7 0]).any (fun s =>
          ¬ Counted (s.process 0)) = true := by
      rw [zeroMachine, empty, createHeap_eq]
      decide +kernel
    obtain ⟨s, hs, hrun⟩ := (Option.any_eq_true _ _).mp hrun
    exact ⟨s, reachable_of_execute _ isNew_zeroMachine hs, of_decide_eq_true hrun⟩

end GatOS.ThreadSlots
