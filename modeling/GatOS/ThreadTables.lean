import GatOS.Threads

/-!
# The tables of threads

Every block that is handed out stays marked, the records of the threads lie in blocks of their own,
and each holds the stack pointer that its thread was suspended with.
-/
namespace GatOS.Threads
open BuddyAllocator Scheduler Transition HeapTree

/-- Of the processes below the number `n`. The nodes `ns` are those that are handed out. -/
structure Tables (s : Machine) (ns : List ℕ) (n : ℤ) : Prop where
  marks : BuddyAllocator.Invariant s.buddyArray ns
  taken : ∀ a ∈ s.sched.pages ++ s.live, ∃ x ∈ ns, nodeBase x = a
  nodup : (s.sched.pages ++ s.live).Nodup
  owned : ∀ p, ∀ blk ∈ s.owned p, ∃ x ∈ ns, blockOf x = blk
  record : ∀ p, 0 ≤ p → p < n → ∀ i, (s.process p).thread i ≠ null →
    (s.process p).thread i ∈ s.live ∧
      s.saved p i = some (s.record ((s.process p).thread i)).userStack
  apart : ∀ p, 0 ≤ p → p < n → ∀ q, 0 ≤ q → q < n → ∀ i j, (s.process p).thread i ≠ null →
    (s.process p).thread i = (s.process q).thread j → p = q ∧ i = j

/-- The active thread of each process has a record. -/
def Active (s : Machine) (n : ℤ) : Prop :=
  ∀ p, 0 ≤ p → p < n → (s.process p).thread (s.process p).activeThread ≠ null

/-- Only the page allocator and the record of its blocks have changed. -/
structure Grown (s t : Machine) : Prop where
  sched : t.sched = s.sched
  process : t.process = s.process
  record : t.record = s.record
  live : t.live = s.live
  saved : t.saved = s.saved

section

variable {s t u : Machine} {ns : List ℕ} {n : ℤ}

theorem Grown.refl (s : Machine) : Grown s s := ⟨rfl, rfl, rfl, rfl, rfl⟩

theorem Grown.trans (h : Grown s t) (g : Grown t u) : Grown s u :=
  ⟨g.sched.trans h.sched, g.process.trans h.process, g.record.trans h.record,
    g.live.trans h.live, g.saved.trans h.saved⟩

/-! ### Pages -/

theorem nodeBase_isPage {x : ℕ} (hx : IsNode x) : IsPage (nodeBase x) := by
  have hpos := nodePages_pos x
  have hstop := (blockOf_inside hx).2
  rw [blockOf_stop] at hstop
  have hps : pageSize = 4096 := rfl
  have hmem : memory = pageSize * 1024 := rfl
  have hn : numberOfPages = 1024 := by decide
  have hsub : nodeBase x - baseMemory = pageSize * (firstLeaf height x - 2 ^ height) := by
    rw [nodeBase, Nat.add_sub_cancel_left]
  rw [hmem, Nat.add_le_add_iff_left, Nat.mul_le_mul_left_iff (by decide)] at hstop
  refine ⟨Nat.le_add_right _ _, ?_, ?_⟩
  · rw [hsub, Nat.mul_div_cancel_left _ (by decide), hn]
    omega
  · rw [hsub, Nat.mul_mod_right]

/-- Nodes that are handed out begin at different addresses. -/
theorem nodeBase_ne {b : BuddyArray} {x y : ℕ} (h : BuddyAllocator.Invariant b (x :: ns))
    (hy : y ∈ ns) : nodeBase y ≠ nodeBase x := by
  intro he
  have hx := List.mem_cons_self (a := x) (l := ns)
  have hy' := List.mem_cons_of_mem x hy
  have hne : x ≠ y := fun heq => (List.nodup_cons.mp h.nodup).1 (heq ▸ hy)
  have hdisjoint := blockOf_disjoint (h.node x hx) (h.node y hy')
    ⟨fun hb => hne (h.apart x hx y hy' hb), fun hb => hne (h.apart y hy' x hx hb).symm⟩
  have hstop : ∀ z, nodeBase z < (blockOf z).stop := fun z => by
    have := Nat.mul_pos (show 0 < pageSize by decide) (nodePages_pos z)
    rw [Block.stop, blockOf]
    dsimp only
    omega
  have h1 := hstop x
  have h2 := hstop y
  rcases hdisjoint with hd | hd
  · have : (blockOf x).stop ≤ nodeBase y := hd
    omega
  · have : (blockOf y).stop ≤ nodeBase x := hd
    omega

/-- The blocks that were acquired for somebody stay acquired. -/
def Keeps (s t : Machine) : Prop := ∀ p, ∀ blk ∈ s.owned p, blk ∈ t.owned p

theorem Keeps.refl (s : Machine) : Keeps s s := fun _ _ h => h

theorem Keeps.trans (h : Keeps s t) (g : Keeps t u) : Keeps s u := fun p blk hb => g p blk (h p blk hb)

theorem Keeps.of_owned (h : t.owned = s.owned) : Keeps s t := fun p blk hb => by rwa [h]

/-- The page allocator hands out a block that begins where no other one does, or nothing. -/
theorem allocPage_spec (h : Tables s ns n) {owner : ℤ} {pages page : ℕ}
    (halloc : s.allocPage owner pages = (page, t)) :
    ∃ ns', Tables t ns' n ∧ Grown s t ∧ Keeps s t ∧ (∀ x ∈ ns, x ∈ ns') ∧
      (page ≠ null → IsPage page ∧ page ∉ s.sched.pages ++ s.live ∧
        (∃ x ∈ ns', nodeBase x = page) ∧ t.owned owner ≠ []) := by
  unfold Machine.allocPage at halloc
  rcases allocPage_cases h.marks pages with ⟨x, hx, hpages, hrun⟩ | ⟨hrun, -⟩
  · rw [hrun] at halloc
    obtain ⟨rfl, rfl⟩ := Prod.mk.inj halloc
    have hmarks := invariant_alloc h.marks (Nat.sub_le _ _) hx
    have hnode := hmarks.node x List.mem_cons_self
    have hkeeps : Keeps s { s with
        buddyArray := fillUp (height - Nat.clog 2 pages) x s.buddyArray
        owned := Function.update s.owned owner
          (⟨nodeBase x, 2 ^ Nat.clog 2 pages⟩ :: s.owned owner) } := by
      intro p blk hb
      show blk ∈ Function.update s.owned owner _ p
      by_cases hp : p = owner
      · subst hp
        rw [Function.update_self]
        exact List.mem_cons_of_mem _ hb
      · rwa [Function.update_of_ne hp]
    refine ⟨x :: ns, ⟨hmarks, ?_, h.nodup, ?_, h.record, h.apart⟩, ⟨rfl, rfl, rfl, rfl, rfl⟩, hkeeps,
      fun y hy => List.mem_cons_of_mem x hy, fun _ => ⟨nodeBase_isPage hnode, fun hmem => ?_,
        ⟨x, List.mem_cons_self, rfl⟩, ?_⟩⟩
    · intro a ha
      obtain ⟨y, hy, rfl⟩ := h.taken a ha
      exact ⟨y, List.mem_cons_of_mem x hy, rfl⟩
    · intro p blk hb
      have hb : blk ∈ Function.update s.owned owner
        (⟨nodeBase x, 2 ^ Nat.clog 2 pages⟩ :: s.owned owner) p := hb
      have hold : blk ∈ s.owned p → ∃ y ∈ x :: ns, blockOf y = blk := fun hb => by
        obtain ⟨y, hy, rfl⟩ := h.owned p blk hb
        exact ⟨y, List.mem_cons_of_mem x hy, rfl⟩
      by_cases hp : p = owner
      · subst hp
        rw [Function.update_self, List.mem_cons] at hb
        rcases hb with rfl | hb
        · exact ⟨x, List.mem_cons_self, by rw [blockOf, hpages]⟩
        · exact hold hb
      · rw [Function.update_of_ne hp] at hb
        exact hold hb
    · obtain ⟨y, hy, he⟩ := h.taken _ hmem
      exact nodeBase_ne hmarks hy he
    · show Function.update s.owned owner _ owner ≠ []
      rw [Function.update_self]
      exact List.cons_ne_nil _ _
  · rw [hrun] at halloc
    obtain ⟨rfl, rfl⟩ := Prod.mk.inj halloc
    exact ⟨ns, h, Grown.refl s, Keeps.refl s, fun _ hx => hx, fun hne => absurd rfl hne⟩

/-! ### Threads -/

theorem findNextSpot_none {t : ℕ → ℕ} {dim : ℕ} {t' : ℕ → ℕ} (h : findNextSpot t dim = (none, t')) :
    ∀ i < dim, t i ≠ null := by
  unfold findNextSpot at h
  split at h
  · next hnone =>
    intro i hi
    have := List.find?_eq_none.mp hnone i (List.mem_range.mpr hi)
    simpa using this
  · simp at h

theorem findNextSpot_some {t : ℕ → ℕ} {dim i : ℕ} {t' : ℕ → ℕ}
    (h : findNextSpot t dim = (some i, t')) : t i = null ∧ t' = Function.update t i 1 := by
  unfold findNextSpot at h
  split at h
  · simp at h
  · next j hj =>
    obtain ⟨hi, rfl⟩ := Prod.mk.inj h
    obtain rfl := Option.some.inj hi
    have := List.find?_some hj
    exact ⟨by simpa using this, rfl⟩

/-- The search begins at the first place. -/
theorem findNextSpot_first {t : ℕ → ℕ} {i : ℕ} {t' : ℕ → ℕ} (hfirst : t 0 = null)
    (h : findNextSpot t 3 = (some i, t')) : i = 0 := by
  have hzero : (List.range 3).find? (fun i => decide (t i = null)) = some 0 := by
    simp [List.range_succ_eq_map, hfirst]
  rw [findNextSpot, hzero] at h
  exact (Option.some.inj (Prod.mk.inj h).1).symm

/-- What a new thread changes: its entry, its record and the stack pointer it starts from. -/
structure AddsThread (s t : Machine) (pid : ℤ) (index page stack : ℕ) : Prop where
  sched : t.sched = s.sched
  buddyArray : t.buddyArray = s.buddyArray
  owned : t.owned = s.owned
  live : t.live = page :: s.live
  thread : ∀ p i, (t.process p).thread i =
    if p = pid ∧ i = index then page else (s.process p).thread i
  activeThread : ∀ p, (t.process p).activeThread = (s.process p).activeThread
  saved : ∀ p i, t.saved p i = if p = pid ∧ i = index then some stack else s.saved p i
  record : ∀ a, (t.record a).userStack = if a = page then stack else (s.record a).userStack

/-- A record in a block of its own. -/
theorem Tables.addThread (h : Tables s ns n) {pid : ℤ} {index page stack : ℕ}
    (hadd : AddsThread s t pid index page stack) (hfresh : page ∉ s.sched.pages ++ s.live)
    (hnode : ∃ x ∈ ns, nodeBase x = page) : Tables t ns n := by
  have hold : ∀ p, 0 ≤ p → p < n → ∀ i, (s.process p).thread i ≠ null →
      (s.process p).thread i ≠ page := by
    intro p h0 hp i hi he
    exact hfresh (List.mem_append_right _ (he ▸ (h.record p h0 hp i hi).1))
  refine ⟨hadd.buddyArray ▸ h.marks, ?_, ?_, hadd.owned ▸ h.owned, ?_, ?_⟩
  · rw [hadd.sched, hadd.live]
    intro a ha
    rcases List.mem_cons.mp (List.perm_middle.mem_iff.mp ha) with rfl | ha
    · exact hnode
    · exact h.taken a ha
  · rw [hadd.sched, hadd.live, List.perm_middle.nodup_iff, List.nodup_cons]
    exact ⟨hfresh, h.nodup⟩
  · intro p h0 hp i hi
    rw [hadd.thread] at hi ⊢
    rw [hadd.live, hadd.saved, hadd.record]
    split_ifs at hi ⊢ with hnew hpage
    · exact ⟨List.mem_cons_self, rfl⟩
    · exact absurd rfl hpage
    · next he => exact absurd he (hold p h0 hp i hi)
    · obtain ⟨hlive, hsaved⟩ := h.record p h0 hp i hi
      exact ⟨List.mem_cons_of_mem _ hlive, hsaved⟩
  · intro p hp0 hp q hq0 hq i j hi he
    rw [hadd.thread] at hi
    rw [hadd.thread, hadd.thread] at he
    split_ifs at hi he with hnew hnew'
    · exact ⟨hnew.1.trans hnew'.1.symm, hnew.2.trans hnew'.2.symm⟩
    · by_cases hj : (s.process q).thread j = null
      · rw [hj] at he
        exact absurd he hi
      · exact absurd he.symm (hold q hq0 hq j hj)
    · exact absurd he (hold p hp0 hp i hi)
    · exact h.apart p hp0 hp q hq0 hq i j hi he

/-- The process `p` has a thread at `index` whose record is `t`. -/
def writeThread (p : ProcessRecord) (pid : ℤ) (index page : ℕ) (t : Thread) (s : Machine) :
    Machine :=
  { s.setProcess pid { p with thread := Function.update p.thread index page } with
    record := Function.update s.record page t
    live := page :: s.live
    saved := Function.update s.saved pid
      (Function.update (s.saved pid) index (some t.userStack)) }

theorem addsThread_write (s : Machine) (p : ProcessRecord) {pid : ℤ} (index page : ℕ) (t : Thread)
    (hactive : p.activeThread = (s.process pid).activeThread)
    (hthread : p.thread = (s.process pid).thread) :
    AddsThread s (writeThread p pid index page t s) pid index page t.userStack := by
  refine ⟨rfl, rfl, rfl, rfl, fun q i => ?_, fun q => ?_, fun q i => ?_, fun a => ?_⟩
  · show (Function.update s.process pid _ q).thread i = _
    by_cases hq : q = pid
    · subst hq
      rw [Function.update_self]
      dsimp only
      rw [Function.update_apply, hthread]
      simp
    · rw [Function.update_of_ne hq, if_neg fun h => hq h.1]
  · show (Function.update s.process pid _ q).activeThread = _
    by_cases hq : q = pid
    · subst hq
      rw [Function.update_self]
      exact hactive
    · rw [Function.update_of_ne hq]
  · show Function.update s.saved pid _ q i = _
    by_cases hq : q = pid
    · subst hq
      rw [Function.update_self, Function.update_apply]
      simp
    · rw [Function.update_of_ne hq, if_neg fun h => hq h.1]
  · show (Function.update s.record page t a).userStack = _
    by_cases ha : a = page
    · rw [ha, Function.update_self, if_pos rfl]
    · rw [Function.update_of_ne ha, if_neg ha]

/-- There is no place for another thread, or a block for its record. -/
def ProvidesThread (pid : ℤ) (s : Machine) : Prop :=
  (findNextSpot (s.process pid).thread 3).1 = none ∨
    (s.allocPage pid (numberOfPagesToAlloc threadSize)).1 ≠ null

/-- The blocks of a thread have been handed out. -/
def threadBlocks (pid : ℤ) (s : Machine) : Machine :=
  (((s.allocPage pid (numberOfPagesToAlloc threadSize)).2.allocPage pid 2).2.allocPage pid 2).2

/-- The threads that a process has stay as they are, and the first place gets a thread. -/
structure ThreadsKept (s t : Machine) (pid : ℤ) : Prop where
  sched : t.sched = s.sched
  buddyArray : t.buddyArray = (threadBlocks pid s).buddyArray
  keeps : Keeps s t
  process : ∀ p ≠ pid, t.process p = s.process p
  activeThread : (t.process pid).activeThread = (s.process pid).activeThread
  thread : ∀ i, (s.process pid).thread i ≠ null →
    (t.process pid).thread i = (s.process pid).thread i
  first : (t.process pid).thread 0 ≠ null

theorem createThread_spec (h : Tables s ns n) (entryPoint : ℕ) (pid : ℤ) :
    (s.createThread entryPoint pid = .error .record ∧ ¬ ProvidesThread pid s) ∨
    ∃ t ns', s.createThread entryPoint pid = .ok t ∧ ProvidesThread pid s ∧ Tables t ns' n ∧
      ThreadsKept s t pid := by
  rcases hpage : s.allocPage pid (numberOfPagesToAlloc threadSize) with ⟨page, s₁⟩
  rcases hpage1 : s₁.allocPage pid 2 with ⟨page1, s₂⟩
  rcases hpage2 : s₂.allocPage pid 2 with ⟨page2, s₃⟩
  obtain ⟨ns₁, h₁, hg₁, hk₁, -, hfound⟩ := allocPage_spec h hpage
  obtain ⟨ns₂, h₂, hg₂, hk₂, hns₂, -⟩ := allocPage_spec h₁ hpage1
  obtain ⟨ns₃, h₃, hg₃, hk₃, hns₃, -⟩ := allocPage_spec h₂ hpage2
  have hgrown : Grown s s₃ := (hg₁.trans hg₂).trans hg₃
  have hkeeps : Keeps s s₃ := (hk₁.trans hk₂).trans hk₃
  unfold Machine.createThread
  have hblocks : s₃.buddyArray = (threadBlocks pid s).buddyArray := by
    simp only [threadBlocks, hpage, hpage1, hpage2]
  simp only [hpage, hpage1, hpage2, ProvidesThread, hgrown.process]
  rcases hspot : findNextSpot (s.process pid).thread 3 with ⟨spot, thread⟩
  cases spot with
  | none =>
    right
    have hfirst := findNextSpot_none hspot 0 (by decide)
    refine ⟨s₃, ns₃, rfl, Or.inl rfl, h₃, hgrown.sched, hblocks, hkeeps,
      fun p _ => by rw [hgrown.process], ?_, ?_, ?_⟩
    · rw [hgrown.process]
    · exact fun i _ => by rw [hgrown.process]
    · rwa [hgrown.process]
  | some index =>
    obtain ⟨hnull, rfl⟩ := findNextSpot_some hspot
    by_cases hzero : page = null
    · left
      refine ⟨if_pos hzero, ?_⟩
      simp [hzero]
    · right
      obtain ⟨-, hfresh, ⟨x, hx, hnode⟩, -⟩ := hfound hzero
      rw [← hgrown.sched, ← hgrown.live] at hfresh
      dsimp only
      rw [if_neg hzero, Function.update_idem]
      set p : ProcessRecord := { s.process pid with
        numberOfThreads := (s.process pid).numberOfThreads + 1 }
      set record : Thread :=
        ⟨fillStackFrame (page1 + 2 * pageSize), page2 + 2 * pageSize, entryPoint⟩
      have hadd : AddsThread s₃ (writeThread p pid index page record s₃) pid index page
          record.userStack := by
        refine addsThread_write s₃ p index page record ?_ ?_
        · rw [hgrown.process]
        · rw [hgrown.process]
      refine ⟨writeThread p pid index page record s₃, ns₃, rfl, Or.inr hzero,
        h₃.addThread hadd hfresh ⟨x, hns₃ x (hns₂ x hx), hnode⟩, hgrown.sched, hblocks,
        hkeeps.trans (Keeps.of_owned rfl), fun q hq => ?_, ?_, fun i hi => ?_, ?_⟩
      · exact (Machine.setProcess_ne _ _ hq).trans (congrFun hgrown.process q)
      · rw [hadd.activeThread, hgrown.process]
      · rw [hadd.thread, if_neg, hgrown.process]
        rintro ⟨-, rfl⟩
        exact hi hnull
      · rw [hadd.thread, hgrown.process]
        split_ifs with hzeroth
        · exact hzero
        · intro hfirst
          exact hzeroth ⟨rfl, (findNextSpot_first hfirst hspot).symm⟩

/-! ### Processes -/

theorem allocPage_congr (h : s.buddyArray = t.buddyArray) (owner owner' : ℤ) (pages : ℕ) :
    (s.allocPage owner pages).1 = (t.allocPage owner' pages).1 ∧
      (s.allocPage owner pages).2.buddyArray = (t.allocPage owner' pages).2.buddyArray := by
  unfold Machine.allocPage
  rw [h]
  split <;> exact ⟨rfl, rfl⟩

theorem threadBlocks_congr (h : s.buddyArray = t.buddyArray) (pid : ℤ) :
    (threadBlocks pid s).buddyArray = (threadBlocks pid t).buddyArray :=
  (allocPage_congr (allocPage_congr (allocPage_congr h pid pid _).2 pid pid 2).2 pid pid 2).2

/-- There are blocks for the Process record, the Thread record and the slot of a new process. -/
def ProvidesProcess (s : Machine) : Prop :=
  let pid := s.sched.pid
  let info := s.allocPage pid (numberOfPagesToAlloc IPC.processSize)
  let t := info.2.allocPage pid (numberOfPagesToAlloc threadSize)
  let slot := (threadBlocks pid info.2).allocPage pid (numberOfPagesToAlloc processSlotSize)
  info.1 ≠ null ∧ t.1 ≠ null ∧ slot.1 ≠ null

/-- A process without threads. -/
theorem Tables.newProcess (h : Tables s ns n) {p : ProcessRecord} (hp : ∀ i, p.thread i = null) :
    Tables (s.setProcess n p) ns (n + 1) := by
  have hself : ∀ i, ((s.setProcess n p).process n).thread i = null := fun i => by
    rw [Machine.setProcess_self, hp]
  have hother : ∀ q ≠ n, (s.setProcess n p).process q = s.process q := fun q hq =>
    Machine.setProcess_ne p s hq
  refine ⟨h.marks, h.taken, h.nodup, h.owned, fun q h0 hq i hi => ?_,
    fun q hq0 hq r hr0 hr i j hi he => ?_⟩
  · by_cases hqn : q = n
    · exact absurd (hqn ▸ hself i) hi
    · rw [hother q hqn] at hi ⊢
      exact h.record q h0 (by omega) i hi
  · by_cases hqn : q = n
    · exact absurd (hqn ▸ hself i) hi
    by_cases hrn : r = n
    · exact absurd (he.trans (hrn ▸ hself j)) hi
    · rw [hother q hqn] at hi he
      rw [hother r hrn] at he
      exact h.apart q hq0 (by omega) r hr0 (by omega) i j hi he

/-- A slot in a block of its own. -/
theorem Tables.newSlot (h : Tables s ns n) {sched : State} {slot : ℕ}
    (hpages : sched.pages = slot :: s.sched.pages) (hfresh : slot ∉ s.sched.pages ++ s.live)
    (hnode : ∃ x ∈ ns, nodeBase x = slot) : Tables { s with sched } ns n := by
  refine ⟨h.marks, ?_, ?_, h.owned, h.record, h.apart⟩
  · show ∀ a ∈ sched.pages ++ s.live, _
    rw [hpages, List.cons_append]
    exact List.forall_mem_cons.mpr ⟨hnode, h.taken⟩
  · show (sched.pages ++ s.live).Nodup
    rw [hpages, List.cons_append]
    exact List.nodup_cons.mpr ⟨hfresh, h.nodup⟩

theorem createProcess_pages (slot : ℕ) (k : State) :
    (Scheduler.createProcess slot k).2.pages = slot :: k.pages ∧
      (Scheduler.createProcess slot k).2.pid = MachineInt.int32 (k.pid + 1) := by
  unfold Scheduler.createProcess
  dsimp only
  unfold addProcess
  dsimp only
  split_ifs <;> exact ⟨rfl, rfl⟩

theorem createProcess_spec (h : Tables s ns s.sched.pid) (hactive : Active s s.sched.pid)
    (entryPoint : ℕ) :
    (s.createProcess entryPoint = .error .record ∧ ¬ ProvidesProcess s) ∨
    ∃ t ns' slot, s.createProcess entryPoint = .ok t ∧ ProvidesProcess s ∧
      Tables t ns' (s.sched.pid + 1) ∧ Active t (s.sched.pid + 1) ∧
      t.sched = (Scheduler.createProcess slot s.sched).2 ∧ FreshPage s.sched slot ∧
      Keeps s t ∧ t.owned s.sched.pid ≠ [] := by
  rcases hinfo : s.allocPage s.sched.pid (numberOfPagesToAlloc IPC.processSize) with ⟨info, s₁⟩
  obtain ⟨ns₁, h₁, hg₁, hk₁, -, howned⟩ := allocPage_spec h hinfo
  unfold Machine.createProcess ProvidesProcess
  simp only [hinfo]
  by_cases hzero : info = null
  · left
    exact ⟨if_pos hzero, fun hprovides => hprovides.1 hzero⟩
  rw [if_neg hzero]
  set p : ProcessRecord := { s₁.process s.sched.pid with
    page := info
    activeThread := 0
    numberOfThreads := 0
    thread := fun _ => null
    heap := null
    pagesIndex := 0 }
  have h₂ : Tables (s₁.setProcess s.sched.pid p) ns₁ (s.sched.pid + 1) :=
    h₁.newProcess fun _ => rfl
  have hprovide : ProvidesThread s.sched.pid (s₁.setProcess s.sched.pid p) ↔
      (s₁.allocPage s.sched.pid (numberOfPagesToAlloc threadSize)).1 ≠ null := by
    have hspot : (findNextSpot (fun _ => null) 3).1 ≠ none := by decide
    have hcongr := (@allocPage_congr (s₁.setProcess s.sched.pid p) s₁ rfl s.sched.pid s.sched.pid
      (numberOfPagesToAlloc threadSize)).1
    rw [ProvidesThread, Machine.setProcess_self, hcongr]
    exact or_iff_right hspot
  rcases createThread_spec h₂ entryPoint s.sched.pid with ⟨hrun, hnot⟩ |
    ⟨s₂, ns₂, hrun, hprov, h₃, hkept⟩
  · left
    rw [hrun]
    exact ⟨rfl, fun hprovides => hnot (hprovide.mpr hprovides.2.1)⟩
  rcases hslot : s₂.allocPage s.sched.pid (numberOfPagesToAlloc processSlotSize) with ⟨slot, s₃⟩
  obtain ⟨ns₃, h₄, hg₃, hk₃, -, hfound⟩ := allocPage_spec h₃ hslot
  have hblocks : s₂.buddyArray = (threadBlocks s.sched.pid s₁).buddyArray :=
    hkept.buddyArray.trans (@threadBlocks_congr (s₁.setProcess s.sched.pid p) s₁ rfl s.sched.pid)
  have hfst : ((threadBlocks s.sched.pid s₁).allocPage s.sched.pid
      (numberOfPagesToAlloc processSlotSize)).1 = slot := by
    rw [← (allocPage_congr hblocks s.sched.pid s.sched.pid _).1, hslot]
  simp only [hrun, Except.bind, hslot, hfst]
  by_cases hnone : slot = null
  · left
    exact ⟨if_pos hnone, fun hprovides => hprovides.2.2 hnone⟩
  right
  obtain ⟨hpage, hfresh, hnode, -⟩ := hfound hnone
  have hsched : s₃.sched = s.sched := hg₃.sched.trans (hkept.sched.trans hg₁.sched)
  have hkeeps₁ : Keeps s₁ s₃ := Keeps.trans (Keeps.trans (Keeps.of_owned rfl) hkept.keeps) hk₃
  have hpages := (createProcess_pages slot s₃.sched).1
  have hslots : s₃.sched.pages ++ s₃.live = s₂.sched.pages ++ s₂.live := by
    rw [hg₃.sched, hg₃.live]
  refine ⟨_, ns₃, slot, if_neg hnone, ⟨hzero, hprovide.mp hprov, hnone⟩,
    h₄.newSlot hpages (hslots ▸ hfresh) hnode, fun q h0 hq => ?_, by rw [hsched],
    ⟨hpage, fun hmem => hfresh ?_⟩, hk₁.trans hkeeps₁, ?_⟩
  · show (s₃.process q).thread (s₃.process q).activeThread ≠ null
    rw [hg₃.process]
    by_cases hqn : q = s.sched.pid
    · subst hqn
      rw [hkept.activeThread, Machine.setProcess_self]
      exact hkept.first
    · rw [hkept.process q hqn, Machine.setProcess_ne p s₁ hqn, hg₁.process]
      exact hactive q h0 (by omega)
  · rw [hkept.sched]
    exact List.mem_append_left _ (by rwa [← hg₁.sched] at hmem)
  · obtain ⟨blk, hblk⟩ := List.exists_mem_of_ne_nil _ (howned hzero).2.2.2
    exact List.ne_nil_of_mem (hkeeps₁ _ blk hblk)

end

end GatOS.Threads
