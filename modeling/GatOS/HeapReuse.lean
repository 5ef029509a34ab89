import GatOS.BlockRelease

/-!
# Requests after `free`

A request that fits the released block is served from the list, unless the two sizes are the same
and no other free block is larger.
-/
namespace GatOS.ProcessHeaps
open BuddyAllocator DoublyLinkedList LinkedRing Malloc OutOfPages Transition

/-- After `free` of `p` a request of the same process for `n` bytes gets a block of the list, and
`mallock` asks for no pages. -/
def Reuses (m : Machine) (p n : ℕ) : Prop :=
  ∃ N, ∀ fuel ≥ N, ∃ k, OutOfPages.free fuel p m.kernel = some k ∧
    ∀ garbage, ∃ r t, OutOfPages.mallock fuel n garbage k = .ok r t ∧
      (n ≠ 0 → ∃ b, IsBlock m.pid k b ∧ r = dataStart b) ∧ t.toMachine = k.toMachine

/-- The released block is larger than the request or joins a neighbour, or another free block is
larger. -/
def Fits (m : Machine) (p n : ℕ) : Prop :=
  n = 0 ∨ align4 n < (m.kernel.memory (headerOf p)).size ∨
    FreeNeighbour m.kernel.memory (headerOf p) ∨
    ∃ b, IsBlock m.pid m.kernel b ∧ (m.kernel.memory b).free = true ∧
      align4 n < (m.kernel.memory b).size

section

variable {m : Machine} {lists : ℤ → List ℕ} {k t : OutOfPages.State} {fuel size r : ℕ}
  {garbage : ℤ}

/-- A heap with blocks serves a request from its list exactly when a free block is larger. -/
theorem mallock_list_iff (h : Invariant m lists) (hsize : size ≠ 0)
    (hne : m.kernel.heap m.pid ≠ null) (hfuel : (lists m.pid).length < fuel) (garbage : ℤ) :
    (∃ r t, OutOfPages.mallock fuel size garbage m.kernel = .ok r t ∧
      (∃ b, IsBlock m.pid m.kernel b ∧ r = dataStart b) ∧
      t.toMachine = m.kernel.toMachine) ↔
    Available (align4 size) m.kernel.memory (lists m.pid) := by
  have hlisted := h.all.listed m.pid
  obtain ⟨found, hfind, hfound⟩ := @findFirstFreeBlock_total _ _ _ _ (align4 size) hlisted.chain
    (hlisted.null_notMem h.liveDisjoint) hfuel
  have hprepared : ∀ {s₁}, Prepared fuel size m.kernel s₁ → s₁.toMachine = m.kernel.toMachine ∧
      s₁.memory = m.kernel.memory ∧ s₁.heapBase = m.kernel.heap m.pid := by
    rintro s₁ (⟨hnull, -⟩ | ⟨-, rfl⟩)
    · exact absurd hnull hne
    · exact ⟨rfl, rfl, rfl⟩
  constructor
  · rintro ⟨r, t, hrun, -, hsame⟩
    obtain ⟨s₁, found', b, s₂, hs₁, hfind', hcases, -, rfl⟩ := mallock_ok hsize hrun
    obtain ⟨hmachine, hmemory, hbase⟩ := hprepared hs₁
    rw [hmemory, hbase, hfind] at hfind'
    obtain rfl := Option.some.inj hfind'
    rcases hcases with ⟨-, hextend⟩ | ⟨hnull, -, -⟩
    · -- a page block that is acquired is recorded
      have hshape : Shape s₁.buddyArray := by
        rw [hmachine]
        exact h.shape
      have howned := (extendHeap_ok hshape hextend).owned
      rw [show s₂.owned = m.kernel.owned from congrArg Threads.Machine.owned hsame, hmachine]
        at howned
      have hlength := congrArg List.length (congrFun howned m.kernel.pid)
      rw [Function.update_self, List.length_cons] at hlength
      omega
    · exact hfound.mp hnull
  · intro havailable
    have hnull := hfound.mpr havailable
    cases hrun : OutOfPages.mallock fuel size garbage m.kernel with
    | error f t =>
      rcases mallock_error hsize hrun with ⟨hempty, -⟩ | ⟨s₁, hs₁, hcases⟩
      · exact absurd hempty hne
      · obtain ⟨-, hmemory, hbase⟩ := hprepared hs₁
        rw [hmemory, hbase, hfind] at hcases
        rcases hcases with ⟨hnone, -⟩ | ⟨hnull', -⟩
        · exact absurd hnone (by simp)
        · exact absurd (Option.some.inj hnull') hnull
    | ok r t =>
      obtain ⟨s₁, found', b, s₂, hs₁, hfind', hcases, rfl, rfl⟩ := mallock_ok hsize hrun
      obtain ⟨hmachine, hmemory, hbase⟩ := hprepared hs₁
      rw [hmemory, hbase, hfind] at hfind'
      obtain rfl := Option.some.inj hfind'
      rcases hcases with ⟨hnull', -⟩ | ⟨-, rfl, rfl⟩
      · exact absurd hnull' hnull
      · have hmem := ((findFirstFreeBlock_spec hlisted.chain hfind).resolve_left hnull).1
        exact ⟨_, _, rfl, ⟨_, h.isBlock_iff.mpr hmem, rfl⟩, hmachine⟩

theorem Invariant.heap_ne_null {b : ℕ} {q : ℤ} (h : Invariant m lists) (hb : b ∈ lists q) :
    m.kernel.heap q ≠ null := by
  have hlisted := h.all.listed q
  have hnull := hlisted.null_notMem h.liveDisjoint
  have hchain := hlisted.chain
  cases hl : lists q with
  | nil => exact absurd (hl ▸ hb) List.not_mem_nil
  | cons c l =>
    rw [hl] at hchain hnull
    rw [hchain.1]
    exact fun he => hnull (he ▸ List.mem_cons_self)

theorem LiveInvariant.reuses_iff {b : ℕ} (hlive : LiveInvariant m lists)
    (hb : InUse m.kernel.memory (lists m.pid) b) (hfinds : Finds m (dataStart b))
    (hn : align4 size ≤ (m.kernel.memory b).size) :
    Reuses m (dataStart b) size ↔ Fits m (dataStart b) size := by
  obtain ⟨lists', N, hfree, hreleased⟩ := hlive.release hb hfinds
  rw [Fits, headerOf_dataStart]
  set k : OutOfPages.State := { m.kernel with memory := Malloc.release b m.kernel.memory } with hk
  have h' : Invariant { m with kernel := k } lists' :=
    ⟨hlive.shape, hlive.tracks, hreleased.all, hlive.heapBase⟩
  have hne : k.heap m.pid ≠ null := hlive.heap_ne_null hb.1
  have havailable : Available (align4 size) k.memory (lists' m.pid) ↔
      align4 size < (m.kernel.memory b).size ∨ FreeNeighbour m.kernel.memory b ∨
        ∃ c, IsBlock m.pid m.kernel c ∧ (m.kernel.memory c).free = true ∧
          align4 size < (m.kernel.memory c).size := by
    have hold : Available (align4 size) m.kernel.memory (lists m.pid) ↔
        ∃ c, IsBlock m.pid m.kernel c ∧ (m.kernel.memory c).free = true ∧
          align4 size < (m.kernel.memory c).size := by
      simp only [Available, hlive.isBlock_iff]
    rw [hreleased.available _ hn, hold, or_comm, or_assoc]
  rw [← havailable]
  constructor
  · rintro ⟨N', hreuses⟩
    refine or_iff_not_imp_left.mpr fun hsize => ?_
    set fuel := max (max N N') ((lists' m.pid).length + 1)
    have hfuel : (lists' m.pid).length < fuel :=
      Nat.lt_of_lt_of_le (Nat.lt_succ_self _) (le_max_right _ _)
    have hN : N ≤ fuel := (le_max_left N N').trans (le_max_left _ _)
    have hN' : N' ≤ fuel := (le_max_right N N').trans (le_max_left _ _)
    obtain ⟨k', hfree', hmallock⟩ := hreuses fuel hN'
    obtain rfl : k = k' := Option.some.inj ((hfree fuel hN).symm.trans hfree')
    obtain ⟨r, t, hrun, hlist, hsame⟩ := hmallock 0
    exact (mallock_list_iff h' hsize hne hfuel 0).mp ⟨r, t, hrun, hlist hsize, hsame⟩
  · intro hfits
    refine ⟨max N ((lists' m.pid).length + 1), fun fuel hfuel => ⟨k,
      hfree fuel ((le_max_left _ _).trans hfuel), fun garbage => ?_⟩⟩
    have hlength : (lists' m.pid).length < fuel :=
      Nat.lt_of_lt_of_le (Nat.lt_succ_self _) ((le_max_right _ _).trans hfuel)
    by_cases hsize : size = 0
    · rw [hsize, mallock_zero]
      exact ⟨_, _, rfl, fun hne => absurd rfl hne, rfl⟩
    · obtain ⟨r, t, hrun, hlist, hsame⟩ := (mallock_list_iff h' hsize hne hlength
        garbage).mpr (hfits.resolve_left hsize)
      exact ⟨r, t, hrun, fun _ => hlist, hsame⟩

/-- In every run in which `free` releases its argument, the request is served from the list exactly
when it fits. -/
theorem free_reuse_iff {p : ℕ} (h : (system.restrict Exact).Reachable m) (hp : p ∈ m.live m.pid)
    (hfinds : Finds m p) (n : UInt32)
    (hn : align4 n.toNat ≤ (m.kernel.memory (headerOf p)).size) :
    Reuses m p n.toNat ↔ Fits m p n.toNat := by
  obtain ⟨lists, hlive⟩ := reachable_live h
  obtain ⟨b, hb, rfl⟩ := hlive.live m.pid p hp
  rw [headerOf_dataStart] at hn
  exact hlive.reuses_iff hb hfinds hn

/-- The request is smaller than the first block. -/
theorem free_reuse_first : ∃ m, (system.restrict Exact).Reachable m ∧
    dataStart 0x1000000 ∈ m.live m.pid ∧ Reuses m (dataStart 0x1000000) 96 := by
  obtain ⟨m, hreach, hlive, hsize, hfinds⟩ := exists_two_blocks
  refine ⟨m, hreach, hlive, (free_reuse_iff hreach hlive hfinds 96 ?_).mpr (Or.inr (Or.inl ?_))⟩
  · rw [headerOf_dataStart, hsize]
    decide
  · rw [headerOf_dataStart, hsize]
    decide

/-- All of the page block is in use, and the request is as large as the block that is freed. -/
theorem free_reuse_misses_equal : ∃ m,
    system.Path booted [.switchTo 1, .mallock 5 100 0, .mallock 5 3936 0] m ∧
      dataStart 0x1000000 ∈ m.live m.pid ∧
      align4 100 ≤ (m.kernel.memory (headerOf (dataStart 0x1000000))).size ∧
      ¬ Reuses m (dataStart 0x1000000) 100 := by
  have hrun : (execute step booted
      [.switchTo 1, .mallock 5 100 0, .mallock 5 3936 0]).any (fun m =>
        dataStart 0x1000000 ∈ m.live m.pid ∧ m.kernel.heapBase = 0x1000000 ∧
          m.kernel.heap m.pid = 0x1000000 ∧
          (m.kernel.memory 0x1000000).size = 100 ∧
          (m.kernel.memory 0x1000000).next = 0x1000080 ∧
          (m.kernel.memory 0x1000000).prev = 0 ∧
          (m.kernel.memory 0x1000000).free = false ∧
          (m.kernel.memory 0x1000080).free = false ∧
          (m.kernel.memory 0x1000080).next = 0) = true := by
    rw [booted, kernelWith, createHeap_eq]
    decide +kernel
  obtain ⟨m, hm, hfacts⟩ := (Option.any_eq_true _ _).mp hrun
  obtain ⟨hp, hbase, hheap, hsize, hnext, hprev, hfirst, hused, hend⟩ := of_decide_eq_true hfacts
  have hpath := path_of_execute IsBoot hm
  have hreach := reachable_two hpath (by decide) (by decide)
  have hfinds : Finds m (dataStart 0x1000000) :=
    finds_first hbase hheap (by rw [hnext]; decide) hprev (by rwa [hnext])
  have hfits : align4 100 ≤ (m.kernel.memory 0x1000000).size := by
    rw [hsize]
    decide
  refine ⟨m, hpath, hp, by rwa [headerOf_dataStart], ?_⟩
  obtain ⟨lists, hlive⟩ := reachable_live hreach
  obtain ⟨b, hb, hpb⟩ := hlive.live m.pid _ hp
  obtain rfl : 0x1000000 = b := Nat.add_right_cancel hpb
  -- the two blocks of the list
  have hlists : lists m.pid = [0x1000000, 0x1000080] := by
    have hlisted := hlive.all.listed m.pid
    refine hlisted.chain.unique ?_ (hlisted.null_notMem hlive.liveDisjoint) (by decide)
    exact ⟨hheap, hnext, hend⟩
  rw [hlive.reuses_iff hb hfinds hfits, Fits, headerOf_dataStart]
  rintro (hzero | hlt | hneighbour | ⟨c, hc, hfree, -⟩)
  · exact absurd hzero (by decide)
  · rw [hsize] at hlt
    exact absurd hlt (by decide)
  · rw [FreeNeighbour, hnext, hused, hprev] at hneighbour
    rcases hneighbour with ⟨-, hno⟩ | ⟨hne, -⟩
    · cases hno
    · exact hne rfl
  · rw [hlive.isBlock_iff, hlists] at hc
    simp only [List.mem_cons, List.not_mem_nil, or_false] at hc
    rcases hc with rfl | rfl
    · rw [hfirst] at hfree
      cases hfree
    · rw [hused] at hfree
      cases hfree

end

end GatOS.ProcessHeaps
