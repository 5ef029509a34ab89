import GatOS.ProcessHeaps

/-!
# The sizes that `mallock` honours

A request is honoured when its size does not wrap around and when a free block of the heap is larger
or the page allocator has the pages. Else the block is too small, or `extendHeap` stores its header
through `NULL`.
-/
namespace GatOS.ProcessHeaps
open BuddyAllocator LinkedRing Malloc OutOfPages Threads Transition

/-- The header and the data of block `b` lie in the page block. -/
def Block.Holds (blk : Block) (memory : Memory) (b : ℕ) : Prop :=
  blk.base ≤ b ∧ b + extent memory b ≤ blk.stop

/-- `p` is `NULL` and nothing has changed, or `p` is the data of a block that is large enough, in
one page block. -/
def Honoured (m : Machine) (n p : ℕ) (t : OutOfPages.State) : Prop :=
  (p = null ∧ t.memory = m.kernel.memory ∧ t.heap = m.kernel.heap ∧
      t.buddyArray = m.kernel.buddyArray) ∨
    ∃ b, p = dataStart b ∧ n ≤ (t.memory b).size ∧
      ∃ blk ∈ acquired m.pid m.kernel t ++ m.pages, Block.Holds blk t.memory b

/-- `mallock` of the running process returns when its loops get enough turns. -/
def Honours (m : Machine) (n : ℕ) : Prop :=
  ∃ N, ∀ fuel ≥ N, ∀ garbage, ∃ p t,
    OutOfPages.mallock fuel n garbage m.kernel = .ok p t ∧ Honoured m n p t

/-- A new heap needs pages, twice when the first block is not larger than the request. Another heap
needs pages when no free block is larger. -/
def PagesSuffice (m : Machine) (n : ℕ) : Prop :=
  if m.kernel.heap m.pid = null then
    Serves (Machine.heapPages n) m.kernel.buddyArray ∧
      (align4 n < heapBlockSize n ∨ Serves (Machine.heapPages n)
        (BuddyAllocator.allocPage (Machine.heapPages n) m.kernel.buddyArray).2)
  else
    (∃ b, IsBlock m.pid m.kernel b ∧ (m.kernel.memory b).free = true ∧
        align4 n < (m.kernel.memory b).size) ∨
      Serves (Machine.heapPages n) m.kernel.buddyArray

section

variable {m : Machine} {lists lists' : ℤ → List ℕ} {k t : OutOfPages.State} {blks : List Block}
  {fuel n p y : ℕ} {q garbage : ℤ}

/-! ### Requests that return -/

theorem serves_granted {tree tree' : BuddyArray} (h : Shape tree)
    (hgranted : BuddyAllocator.allocPage n tree = (some y, tree')) : Serves n tree := by
  by_contra hno
  rw [← allocPage_eq_none_iff h, hgranted] at hno
  cases hno

theorem Progress.congr (h : Progress m k blks) (heq : t.toMachine = k.toMachine) :
    Progress m t blks := by
  obtain ⟨hshape, htracks, hsched, howned⟩ := h
  rw [← heq] at hshape htracks hsched howned
  exact ⟨hshape, htracks, hsched, howned⟩

/-- Every request that returns has acquired page blocks inside the page heap. -/
theorem Invariant.progress (h : Invariant m lists) (hn : n ≠ 0)
    (hrun : OutOfPages.mallock fuel n garbage m.kernel = .ok p t) :
    ∃ blks, Progress m t blks := by
  obtain ⟨s₁, found, b, s₂, hprepared, -, hfound, -, rfl⟩ := mallock_ok hn hrun
  have hfirst : ∃ blks, Progress m s₁ blks := by
    have hstart := h.stage.toProgress
    rcases hprepared with ⟨-, y, hextend⟩ | ⟨-, rfl⟩
    · have hempty : Progress m { m.kernel with heapBase := null } [] := hstart.congr rfl
      exact ⟨_, hempty.extend (extendHeap_ok hempty.shape hextend)⟩
    · exact ⟨[], hstart⟩
  obtain ⟨blks, hprogress⟩ := hfirst
  rcases hfound with ⟨-, hextend⟩ | ⟨-, -, rfl⟩
  · have hnext := hprogress.extend (extendHeap_ok hprogress.shape hextend)
    exact ⟨_, hnext.congr rfl⟩
  · exact ⟨blks, hprogress.congr rfl⟩

/-- No page block holds the sizes that wrap around. -/
theorem Honoured.no_wrap (h : Honoured m n p t) (hprogress : Progress m t blks)
    (hp : p ≠ null) : n + blockStructSize < 2 ^ 32 := by
  obtain ⟨hnull, -⟩ | ⟨b, -, hsize, blk, hblk, hlo, hhi⟩ := h
  · exact absurd hnull hp
  · rw [hprogress.acquired] at hblk
    obtain ⟨hbase, hstop⟩ := hprogress.liveDisjoint.inside blk hblk
    have hconst : baseMemory + BuddyAllocator.memory < 2 ^ 31 := by decide
    unfold extent at hhi
    omega

/-- What the search for a block begins with. -/
theorem Invariant.searches (h : Invariant m lists) (hpos : 0 < n)
    (hlt : n + blockStructSize < 2 ^ 32) (hprepared : Prepared fuel n m.kernel k) :
    ∃ blks lists', Stage m lists k blks lists' ∧
      (lists' m.pid).length ≤ (lists m.pid).length + 1 ∧
      (PagesSuffice m n ↔ Available (align4 n) k.memory (lists' m.pid) ∨
        Serves (Machine.heapPages n) k.buddyArray) := by
  obtain ⟨-, blks, lists', hstage, hfirst, hrest⟩ := h.prepare hpos hlt hprepared
  refine ⟨blks, lists', hstage, ?_⟩
  unfold PagesSuffice
  rcases hprepared with ⟨hnull, y, hextend⟩ | ⟨hne, -⟩
  · have hnull : m.kernel.heap m.pid = null := hnull
    have hgranted := (extendHeap_ok (s := { m.kernel with heapBase := null }) h.shape
      hextend).granted
    have htree : (BuddyAllocator.allocPage (Machine.heapPages n) m.kernel.buddyArray).2 =
        k.buddyArray := congrArg Prod.snd hgranted
    obtain ⟨c, hlist, hfree, hsize, -⟩ := hfirst hnull
    rw [if_pos hnull, htree, and_iff_right (serves_granted h.shape hgranted), hlist]
    -- the first block is the only one
    refine ⟨Nat.le_add_left _ _, or_congr_left ⟨fun hlarge => ?_, ?_⟩⟩
    · exact ⟨c, List.mem_singleton_self c, hfree, hlarge.trans_eq hsize.symm⟩
    · rintro ⟨d, hd, -, hlarge⟩
      rw [List.mem_singleton.mp hd, hsize] at hlarge
      exact hlarge
  · have hne : m.kernel.heap m.pid ≠ null := hne
    obtain ⟨rfl, -, rfl⟩ := hrest hne
    rw [if_neg hne]
    refine ⟨Nat.le_succ _, or_congr_left (exists_congr fun c => ?_)⟩
    rw [h.isBlock_iff]

theorem Invariant.pagesSuffice (h : Invariant m lists) (hpos : 0 < n)
    (hlt : n + blockStructSize < 2 ^ 32)
    (hrun : OutOfPages.mallock fuel n garbage m.kernel = .ok p t) : PagesSuffice m n := by
  obtain ⟨s₁, found, b, s₂, hprepared, hfind, hfound, -, -⟩ := mallock_ok hpos.ne' hrun
  obtain ⟨blks, lists₁, hstage, -, hiff⟩ := h.searches hpos hlt hprepared
  rw [hiff]
  rcases hfound with ⟨-, hextend⟩ | ⟨hne, -⟩
  · exact Or.inr (serves_granted hstage.shape (extendHeap_ok hstage.shape hextend).granted)
  · have hchain := (hstage.all.listed m.pid).chain
    rw [← hstage.heapBase] at hchain
    exact Or.inl ⟨found, (findFirstFreeBlock_spec hchain hfind).resolve_left hne⟩

/-! ### Requests that are served -/

/-- `extendHeap` returns when it gets the pages and enough turns. -/
theorem Stage.extendHeap_total (h : Stage m lists k blks lists')
    (hserves : Serves (Machine.heapPages n) k.buddyArray)
    (hfuel : (lists' m.pid).length ≤ fuel) :
    ∃ y t, OutOfPages.extendHeap fuel n q k = .ok y t := by
  have hcases := OutOfPages.extendHeap_cases h.shape fuel n q
  cases hrun : OutOfPages.extendHeap fuel n q k with
  | ok y t => exact ⟨y, t, rfl⟩
  | error f t =>
    rw [hrun] at hcases
    cases f with
    | null => exact absurd hserves hcases
    | hang =>
      obtain ⟨hne, y, ⟨tree, hgranted⟩, hnone⟩ := hcases
      obtain ⟨ns, hns⟩ := tracks_granted h.tracks hgranted
      have hlisted := h.all.listed m.pid
      rw [← h.heapBase] at hlisted
      have hnew := hlisted.base_notMem hns.liveDisjoint
        (Nat.lt_add_of_pos_right (Nat.mul_pos (by decide) (Nat.two_pow_pos _)))
      have hnonempty : lists' m.pid ≠ [] := fun hnil => by
        have hchain := hlisted.chain
        rw [hnil] at hchain
        exact hne hchain
      obtain ⟨last, hlast⟩ := findLastInHeap_total (hlisted.chain_update hnew) hnonempty hfuel
      cases hlast.symm.trans hnone

theorem Invariant.mallock_total (h : Invariant m lists) (hpos : 0 < n)
    (hlt : n + blockStructSize < 2 ^ 32) (hpages : PagesSuffice m n)
    (hfuel : (lists m.pid).length + 1 < fuel) (garbage : ℤ) :
    ∃ p t, OutOfPages.mallock fuel n garbage m.kernel = .ok p t := by
  cases hrun : OutOfPages.mallock fuel n garbage m.kernel with
  | ok p t => exact ⟨p, t, rfl⟩
  | error f t =>
    exfalso
    rcases mallock_error hpos.ne' hrun with ⟨hnull, herror⟩ | ⟨s₁, hprepared, hcases⟩
    · have hnull : m.kernel.heap m.pid = null := hnull
      have hstage := h.stage
      rw [hnull] at hstage
      rw [PagesSuffice, if_pos hnull] at hpages
      obtain ⟨y, t', hok⟩ := hstage.extendHeap_total (q := m.kernel.pid) hpages.1
        ((Nat.le_succ _).trans hfuel.le)
      cases herror.symm.trans hok
    · obtain ⟨blks, lists₁, hstage, hlength, hiff⟩ := h.searches hpos hlt hprepared
      have hlength := hlength.trans_lt hfuel
      have hlisted := hstage.all.listed m.pid
      have hnull := hlisted.null_notMem hstage.liveDisjoint
      rw [← hstage.heapBase] at hlisted
      obtain ⟨found, hfind, hfound⟩ :=
        @findFirstFreeBlock_total _ _ _ _ (align4 n) hlisted.chain hnull hlength
      rcases hcases with ⟨hnone, -⟩ | ⟨hempty, herror⟩
      · cases hnone.symm.trans hfind
      · -- no block of the list is larger, so the pages are there
        obtain rfl : null = found := Option.some.inj (hempty.symm.trans hfind)
        have hserves := (hiff.mp hpages).resolve_left fun hyes => hfound.mpr hyes rfl
        obtain ⟨y, t', hok⟩ := hstage.extendHeap_total (q := garbage) hserves hlength.le
        cases herror.symm.trans hok

theorem Invariant.honoured (h : Invariant m lists) (hpos : 0 < n)
    (hlt : n + blockStructSize < 2 ^ 32)
    (hrun : OutOfPages.mallock fuel n garbage m.kernel = .ok p t) : Honoured m n p t := by
  obtain ⟨blks, lists', b, hserved⟩ := h.served hpos hlt hrun
  refine Or.inr ⟨b, hserved.pointer, (align4_ge hpos hlt).1.trans hserved.large, ?_⟩
  rw [hserved.acquired]
  exact (hserved.all.listed m.pid).inside b hserved.mem

theorem mallock_ne_null (hn : n ≠ 0)
    (hrun : OutOfPages.mallock fuel n garbage m.kernel = .ok p t) : p ≠ null := by
  obtain ⟨-, -, b, -, -, -, -, rfl, -⟩ := mallock_ok hn hrun
  exact Nat.succ_ne_zero _

theorem Invariant.honours_iff (h : Invariant m lists) (hn : n ≠ 0) :
    Honours m n ↔ n + blockStructSize < 2 ^ 32 ∧ PagesSuffice m n := by
  have hpos := Nat.pos_of_ne_zero hn
  constructor
  · rintro ⟨N, hhonours⟩
    obtain ⟨p, t, hrun, hhonoured⟩ := hhonours N le_rfl 0
    obtain ⟨blks, hprogress⟩ := h.progress hn hrun
    have hlt := hhonoured.no_wrap hprogress (mallock_ne_null hn hrun)
    exact ⟨hlt, h.pagesSuffice hpos hlt hrun⟩
  · rintro ⟨hlt, hpages⟩
    refine ⟨(lists m.pid).length + 2, fun fuel hfuel garbage => ?_⟩
    obtain ⟨p, t, hrun⟩ := h.mallock_total hpos hlt hpages hfuel garbage
    exact ⟨p, t, hrun, h.honoured hpos hlt hrun⟩

/-- In every run that keeps the heaps apart, a request is honoured exactly when its size does not
wrap around and the pages suffice. -/
theorem mallock_honours_iff (h : (system.restrict Sound).Reachable m) (n : UInt32)
    (hn : n.toNat ≠ 0) : Honours m n.toNat ↔
      n.toNat + blockStructSize < 2 ^ 32 ∧ PagesSuffice m n.toNat := by
  obtain ⟨lists, hinv⟩ := reachable_invariant h
  exact hinv.honours_iff hn

/-- A process that has not called `mallock` yet. -/
theorem path_switchTo (pid : ℤ) : ∃ m, system.Path booted [.switchTo pid] m ∧
    (system.restrict Sound).Reachable m ∧ m.pid = pid ∧ m.kernel.heap m.pid = null ∧
    m.kernel.buddyArray = createHeap :=
  ⟨_, .cons rfl (.nil _), .next (.start isBoot_booted) (a := .switchTo pid) ⟨trivial, rfl⟩, rfl,
    rfl, rfl⟩

/-- The first request of a process. -/
theorem mallock_honours_first : ∃ m, (system.restrict Sound).Reachable m ∧ m.pid = 1 ∧
    Honours m 100 := by
  obtain ⟨m, -, hreach, hpid, hnull, htree⟩ := path_switchTo 1
  have hserves : Serves (Machine.heapPages 100) createHeap := by
    by_contra hno
    rw [← allocPage_eq_none_iff shape_createHeap, createHeap_eq] at hno
    revert hno
    decide +kernel
  refine ⟨m, hreach, hpid, (mallock_honours_iff hreach 100 (by decide)).mpr ⟨by decide, ?_⟩⟩
  rw [PagesSuffice, if_pos hnull, htree]
  exact ⟨hserves, Or.inl (by decide)⟩

/-- The header of a block that is larger than the page heap is stored through `NULL`, and a size
that wraps around gets one page. -/
theorem mallock_honours_misses_large : ∃ m, system.Path booted [.switchTo 1] m ∧
    ¬ Honours m 5000000 ∧ ¬ Honours m 0xFFFFFFF0 := by
  obtain ⟨m, hpath, hreach, -, hnull, -⟩ := path_switchTo 1
  obtain ⟨lists, hinv⟩ := reachable_invariant hreach
  refine ⟨m, hpath, ?_, ?_⟩
  · rw [hinv.honours_iff (by decide), PagesSuffice, if_pos hnull]
    rintro ⟨-, hserves, -⟩
    exact absurd hserves.2.1 (by decide)
  · rw [hinv.honours_iff (by decide)]
    exact fun hno => absurd hno.1 (by decide)

end

end GatOS.ProcessHeaps
