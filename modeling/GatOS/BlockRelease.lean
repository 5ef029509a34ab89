import GatOS.ProcessHeaps

/-!
# What `free` releases

`free` releases the block of its argument when the search for it stops there, in the heap of the
caller, and when it joins only neighbours.
-/
namespace GatOS.ProcessHeaps
open BuddyAllocator DoublyLinkedList LinkedRing Malloc OutOfPages Transition

/-! ### The property -/

/-- The header in front of a pointer. -/
def headerOf (p : ℕ) : ℕ := p - blockStructSize

def UsedBlock (q : ℤ) (k : OutOfPages.State) (b : ℕ) : Prop :=
  IsBlock q k b ∧ (k.memory b).free = false

/-- The addresses in the free blocks of process `q`. -/
def freeBytes (q : ℤ) (k : OutOfPages.State) : Set ℕ :=
  {a | ∃ b, IsBlock q k b ∧ (k.memory b).free = true ∧ a ∈ span k.memory b}

/-- The block in front of `p`, which process `q` has used, becomes free, with its neighbours or
alone. No other block in use becomes free or changes its size. -/
structure FreesExactly (q : ℤ) (p : ℕ) (s t : OutOfPages.State) : Prop where
  wasUsed : UsedBlock q s (headerOf p)
  freed : freeBytes q t = freeBytes q s ∪ span s.memory (headerOf p)
  others : ∀ o, o ≠ q → freeBytes o t = freeBytes o s
  used : ∀ o b, UsedBlock o t b ↔ UsedBlock o s b ∧ ¬ (o = q ∧ b = headerOf p)
  size : ∀ o b, UsedBlock o t b → (t.memory b).size = (s.memory b).size

/-- The call returns when the loop gets enough turns. -/
def Releases (m : Machine) (p : ℕ) : Prop :=
  ∃ n, ∀ fuel ≥ n, ∃ t, OutOfPages.free fuel p m.kernel = some t ∧
    FreesExactly m.pid p m.kernel t

/-! ### The condition -/

/-- The caller has used its heap last. The blocks before the one of `p` lie below it, and there is
a next block, which lies above it. -/
structure Finds (m : Machine) (p : ℕ) : Prop where
  heapBase : m.kernel.heapBase = m.kernel.heap m.pid
  below : ∃ l, Chain (nextOf m.kernel.memory) m.kernel.heapBase l (headerOf p) ∧ null ∉ l ∧
    ∀ c ∈ l, c < headerOf p
  above : headerOf p < nextOf m.kernel.memory (headerOf p)
  joins : Joinable m.pages m.kernel.memory m.kernel.heapBase (headerOf p)

/-- Live pointers are freed, and the steps meet the conditions. -/
def Exact (m : Machine) : Action → Prop
  | .mallock _ size _ => size.toNat + blockStructSize < 2 ^ 32
  | .free _ p => p ∈ m.live m.pid ∧ Finds m p
  | .run _ _ | .allocPage _ _ => True
  | .deallocPage blk => MergeSafe m.pool (.dealloc blk) ∧
      ∀ q b, IsBlock q m.kernel b → ¬ (blk.base ≤ b ∧ b < blk.stop)

/-! ### Live pointers -/

/-- Every live pointer belongs to a block in use. -/
structure LiveInvariant (m : Machine) (lists : ℤ → List ℕ) : Prop extends Invariant m lists where
  live : ∀ q, ∀ p ∈ m.live q, ∃ b, InUse m.kernel.memory (lists q) b ∧ p = dataStart b

variable {m m' : Machine} {lists lists' : ℤ → List ℕ} {q : ℤ} {b p fuel : ℕ} {memory : Memory}
  {pages : List Block} {base : ℕ} {l : List ℕ}

theorem headerOf_dataStart (b : ℕ) : headerOf (dataStart b) = b := Nat.add_sub_cancel ..

/-- An address is in a free block when it is in no block in use. -/
theorem mem_free_iff (h : Listed pages memory base l) {a : ℕ} :
    (∃ b ∈ l, (memory b).free = true ∧ a ∈ span memory b) ↔
      a ∈ bytes memory l ∧ ∀ c, InUse memory l c → a ∉ span memory c := by
  constructor
  · rintro ⟨b, hb, hfree, ha⟩
    refine ⟨mem_bytes.mpr ⟨b, hb, ha⟩, fun c hc hca => ?_⟩
    obtain rfl := h.eq_of_mem hb hc.1 ha hca
    exact absurd (hfree.symm.trans hc.2) (by simp)
  · rintro ⟨ha, hno⟩
    obtain ⟨b, hb, hab⟩ := mem_bytes.mp ha
    refine ⟨b, hb, ?_, hab⟩
    by_contra hfree
    exact hno b ⟨hb, Bool.eq_false_iff.mpr hfree⟩ hab

theorem Invariant.usedBlock_iff (h : Invariant m lists) :
    UsedBlock q m.kernel b ↔ InUse m.kernel.memory (lists q) b := by
  rw [UsedBlock, h.isBlock_iff, InUse]

theorem Invariant.mem_freeBytes (h : Invariant m lists) {a : ℕ} :
    a ∈ freeBytes q m.kernel ↔ a ∈ bytes m.kernel.memory (lists q) ∧
      ∀ c, InUse m.kernel.memory (lists q) c → a ∉ span m.kernel.memory c := by
  rw [← mem_free_iff (h.all.listed q)]
  simp only [freeBytes, Set.mem_ofPred_eq, h.isBlock_iff]

/-- The search stops at the block of the pointer. -/
theorem Invariant.getBlock_of_finds (h : Invariant m lists) (hb : b ∈ lists m.pid)
    (hfinds : Finds m (dataStart b)) : isValidAddress (dataStart b) m.kernel.heaps ∧
      ∃ n, ∀ fuel ≥ n, getBlock m.kernel.memory (dataStart b) fuel m.kernel.heapBase = some b := by
  obtain ⟨hbase, ⟨l, hchain, hnull, hlt⟩, habove, -⟩ := hfinds
  rw [headerOf_dataStart] at hchain hlt habove
  have hlisted := h.all.listed m.pid
  have hdata : b < dataStart b := Nat.lt_add_of_pos_right (by decide)
  -- the next block does not begin inside the block
  have hnext : dataStart b ≤ nextOf m.kernel.memory b := by
    have hne : nextOf m.kernel.memory b ≠ null := Nat.ne_zero_of_lt habove
    obtain ⟨l₁, l₂, hl⟩ := hlisted.chain.next_spec hb hne
    have hmem : nextOf m.kernel.memory b ∈ lists m.pid := by
      rw [hl]
      simp
    by_contra hlow
    have hspan : nextOf m.kernel.memory b ∈ span m.kernel.memory b := by
      refine ⟨habove.le, ?_⟩
      unfold dataStart at hlow
      unfold extent
      omega
    exact habove.ne (hlisted.eq_of_mem hb hmem hspan (mem_span_self _ _))
  refine ⟨?_, l.length + 1, fun fuel hfuel => getBlock_eq hchain hnull
    (fun c hc => (hlt c hc).trans hdata) hdata hnext hfuel⟩
  have hle : m.kernel.heapBase ≤ b := by
    cases l with
    | nil => exact le_of_eq hchain
    | cons c l =>
      rw [hchain.1]
      exact (hlt c List.mem_cons_self).le
  exact fun hcond => hcond.elim (Nat.succ_ne_zero _)
    (not_lt.mpr (Nat.add_le_add_right hle blockStructSize))

theorem Released.inUse_other {heap : ℤ → ℕ} {memory' : Memory} {o : ℤ} {c : ℕ}
    (h : Released q b pages memory memory' heap lists lists') (ho : o ≠ q) :
    InUse memory' (lists' o) c ↔ InUse memory (lists o) c := by
  rw [InUse, InUse, h.list o ho]
  exact and_congr_right fun hc => by rw [h.frame o ho c hc]

/-- The block joins the free space. -/
theorem Invariant.freesExactly (h : Invariant m lists)
    (hb : InUse m.kernel.memory (lists q) b)
    (hr : Released q b m.pages m.kernel.memory memory m.kernel.heap lists lists') :
    FreesExactly q (dataStart b) m.kernel { m.kernel with memory := memory } := by
  have h' : Invariant { m with kernel := { m.kernel with memory := memory } } lists' :=
    ⟨h.shape, h.tracks, hr.all, h.heapBase⟩
  have hlisted := h.all.listed q
  have hspan : ∀ c, InUse m.kernel.memory (lists q) c → c ≠ b →
      span memory c = span m.kernel.memory c := fun c hc hcb => span_congr (hr.size c hc hcb)
  refine ⟨?_, ?_, fun o ho => ?_, fun o c => ?_, fun o c hc => ?_⟩
  · rw [headerOf_dataStart, h.usedBlock_iff]
    exact hb
  · rw [headerOf_dataStart]
    ext a
    rw [Set.mem_union, h.mem_freeBytes, h'.mem_freeBytes]
    show a ∈ bytes memory (lists' q) ∧ (∀ c, InUse memory (lists' q) c → a ∉ span memory c) ↔ _
    rw [hr.covers]
    constructor
    · rintro ⟨ha, hno⟩
      by_cases hab : a ∈ span m.kernel.memory b
      · exact Or.inr hab
      · refine Or.inl ⟨ha, fun c hc hac => ?_⟩
        have hcb : c ≠ b := fun he => hab (he ▸ hac)
        exact hno c ((hr.inUse c).mpr ⟨hc, hcb⟩) (by rwa [hspan c hc hcb])
    · rintro (⟨ha, hno⟩ | hab)
      · refine ⟨ha, fun c hc hac => ?_⟩
        obtain ⟨hc, hcb⟩ := (hr.inUse c).mp hc
        exact hno c hc (by rwa [← hspan c hc hcb])
      · refine ⟨mem_bytes.mpr ⟨b, hb.1, hab⟩, fun c hc hac => ?_⟩
        obtain ⟨hc, hcb⟩ := (hr.inUse c).mp hc
        rw [hspan c hc hcb] at hac
        exact hcb (hlisted.eq_of_mem hc.1 hb.1 hac hab)
  · -- the heap of another process is as before
    ext a
    rw [h.mem_freeBytes, h'.mem_freeBytes]
    show a ∈ bytes memory (lists' o) ∧ (∀ c, InUse memory (lists' o) c → a ∉ span memory c) ↔ _
    have hsame : ∀ c ∈ lists o, span memory c = span m.kernel.memory c := fun c hc =>
      span_congr (by rw [hr.frame o ho c hc])
    refine and_congr ?_ (forall_congr' fun c => ?_)
    · rw [hr.list o ho, bytes_congr hsame]
    · rw [hr.inUse_other ho]
      exact forall_congr' fun hc => by rw [hsame c hc.1]
  · rw [headerOf_dataStart, h.usedBlock_iff, h'.usedBlock_iff]
    show InUse memory (lists' o) c ↔ _
    by_cases ho : o = q
    · subst ho
      rw [hr.inUse]
      simp
    · rw [hr.inUse_other ho]
      simp [ho]
  · rw [h'.usedBlock_iff] at hc
    have hc : InUse memory (lists' o) c := hc
    by_cases ho : o = q
    · subst ho
      obtain ⟨hc, hcb⟩ := (hr.inUse c).mp hc
      exact hr.size c hc hcb
    · rw [hr.inUse_other ho] at hc
      exact congrArg TBlock.size (hr.frame o ho c hc.1)

/-! ### Runs -/

/-- The condition of a step implies that of the heaps. -/
theorem Exact.sound {a : Action} (h : LiveInvariant m lists) (hok : Exact m a) : Sound m a := by
  cases a with
  | mallock fuel size garbage => exact hok
  | free fuel p =>
    obtain ⟨hp, hfinds⟩ := hok
    obtain ⟨b, hb, rfl⟩ := h.live m.pid p hp
    obtain ⟨-, n, hget⟩ := h.getBlock_of_finds hb.1 hfinds
    intro _ c hc _
    have heq : c = b := Option.some.inj
      ((getBlock_mono hc (le_max_left fuel n)).symm.trans (hget _ (le_max_right fuel n)))
    rw [heq]
    simpa only [headerOf_dataStart] using hfinds.joins
  | run sched process => trivial
  | allocPage owner pages => trivial
  | deallocPage blk => exact hok

/-- What the search finds is the block of the pointer, in the heap of the caller. -/
theorem LiveInvariant.found_eq {o : ℤ} {c : ℕ} (h : LiveInvariant m lists)
    (hb : b ∈ lists m.pid) (hfinds : Finds m (dataStart b))
    (hget : getBlock m.kernel.memory (dataStart b) fuel m.kernel.heapBase = some c)
    (hbase : m.kernel.heapBase = m.kernel.heap o) (hc : c ∈ lists o) : o = m.pid ∧ c = b := by
  obtain ⟨-, n, hfind⟩ := h.getBlock_of_finds hb hfinds
  refine ⟨h.owner_unique hc (hbase.symm.trans hfinds.heapBase), Option.some.inj ?_⟩
  exact (getBlock_mono hget (le_max_left fuel n)).symm.trans (hfind _ (le_max_right fuel n))

theorem step_live {a : Action} (h : LiveInvariant m lists) (hok : Exact m a)
    (hstep : step m a = some m') : ∃ lists', LiveInvariant m' lists' := by
  obtain ⟨lists', hinv, heffect⟩ := step_cases h.toInvariant (hok.sound h) hstep
  refine ⟨lists', hinv, fun q p hp => ?_⟩
  cases heffect with
  | quiet hquiet hlists =>
    rw [hquiet.live] at hp
    rw [hquiet.memory, hlists]
    exact h.live q p hp
  | mallock hserved hkernel hlive =>
    rename_i size r k blks b
    rw [hlive] at hp
    rw [hkernel]
    by_cases hq : q = m.pid
    · subst hq
      rw [Function.update_self] at hp
      rcases List.mem_cons.mp hp with rfl | hp
      · exact ⟨b, (hserved.inUse b).mpr (Or.inr rfl), hserved.pointer⟩
      · obtain ⟨c, hc, hpc⟩ := h.live _ p hp
        exact ⟨c, (hserved.inUse c).mpr (Or.inl hc), hpc⟩
    · rw [Function.update_of_ne hq] at hp
      obtain ⟨c, hc, hpc⟩ := h.live q p hp
      rw [hserved.list q hq]
      exact ⟨c, hc.congr (hserved.frame q hq c hc.1), hpc⟩
  | missed ha hkernel hlists hlive =>
    rename_i fuel r
    subst ha
    rw [hlive] at hp
    rw [hkernel, hlists]
    by_cases hq : q = m.pid
    · subst hq
      rw [Function.update_self] at hp
      exact h.live _ p (List.mem_filter.mp hp).1
    · rw [Function.update_of_ne hq] at hp
      exact h.live q p hp
  | free ha hget hbase hmem hreleased hlive =>
    rename_i fuel r o b
    subst ha
    obtain ⟨hr, hfinds⟩ := hok
    obtain ⟨c, hc, rfl⟩ := h.live m.pid r hr
    obtain ⟨rfl, rfl⟩ := h.found_eq hc.1 hfinds hget hbase hmem
    rw [hlive] at hp
    by_cases hq : q = m.pid
    · subst hq
      rw [Function.update_self] at hp
      obtain ⟨hp, hne⟩ := List.mem_filter.mp hp
      obtain ⟨d, hd, rfl⟩ := h.live m.pid p hp
      have hdb : d ≠ b := fun he => of_decide_eq_true hne (by rw [he])
      exact ⟨d, (hreleased.inUse d).mpr ⟨hd, hdb⟩, rfl⟩
    · rw [Function.update_of_ne hq] at hp
      obtain ⟨d, hd, hpd⟩ := h.live q p hp
      exact ⟨d, (hreleased.inUse_other hq).mpr hd, hpd⟩

theorem reachable_live (h : (system.restrict Exact).Reachable m) :
    ∃ lists, LiveInvariant m lists := by
  induction h with
  | start hs =>
    refine ⟨_, invariant_boot hs, fun q p hp => ?_⟩
    rw [hs.live q] at hp
    exact absurd hp List.not_mem_nil
  | next _ hstep ih =>
    obtain ⟨lists, hlive⟩ := ih
    exact step_live hlive hstep.1 hstep.2

/-- The call releases the block and returns. -/
theorem LiveInvariant.release (h : LiveInvariant m lists)
    (hb : InUse m.kernel.memory (lists m.pid) b) (hfinds : Finds m (dataStart b)) :
    ∃ lists' n, (∀ fuel ≥ n, OutOfPages.free fuel (dataStart b) m.kernel =
        some { m.kernel with memory := release b m.kernel.memory }) ∧
      Released m.pid b m.pages m.kernel.memory (release b m.kernel.memory) m.kernel.heap lists
        lists' := by
  obtain ⟨hvalid, n, hget⟩ := h.getBlock_of_finds hb.1 hfinds
  have hjoin := hfinds.joins
  rw [headerOf_dataStart, hfinds.heapBase] at hjoin
  obtain ⟨lists', hreleased⟩ := h.all.release h.liveDisjoint hb.1 hjoin
  have hne : b ≠ null := fun he =>
    (h.all.listed m.pid).null_notMem h.liveDisjoint (he ▸ hb.1)
  refine ⟨lists', n, fun fuel hfuel => ?_, hreleased⟩
  have hfind : getBlock m.kernel.heaps.memory (dataStart b) fuel m.kernel.heaps.heapBase =
      some b := hget fuel hfuel
  rw [OutOfPages.free, Malloc.free, if_pos hvalid, hfind, Option.map_some, if_neg hne]
  rfl

/-- In every run that meets the conditions, `free` releases the block of its argument. -/
theorem free_releases (h : (system.restrict Exact).Reachable m) (hp : p ∈ m.live m.pid)
    (hfinds : Finds m p) : Releases m p := by
  obtain ⟨lists, hlive⟩ := reachable_live h
  obtain ⟨b, hb, rfl⟩ := hlive.live m.pid p hp
  obtain ⟨lists', n, hfree, hreleased⟩ := hlive.release hb hfinds
  exact ⟨n, fun fuel hfuel => ⟨_, hfree fuel hfuel, hlive.freesExactly hb hreleased⟩⟩

/-- The first block of a heap, when the next block is in use. -/
theorem finds_first (hbase : m.kernel.heapBase = b) (hheap : m.kernel.heap m.pid = b)
    (hlt : b < (m.kernel.memory b).next) (hprev : (m.kernel.memory b).prev = null)
    (hused : (m.kernel.memory (m.kernel.memory b).next).free = false) :
    Finds m (dataStart b) := by
  refine ⟨hbase.trans hheap.symm, ⟨[], ?_, List.not_mem_nil, by simp⟩, ?_, ?_, ?_⟩
  · rw [headerOf_dataStart]
    exact hbase
  · rwa [headerOf_dataStart]
  · rw [headerOf_dataStart, hused]
    exact fun _ hno => absurd hno (by simp)
  · rw [headerOf_dataStart]
    exact fun hne => absurd hprev hne

/-- Two requests of process 1. -/
theorem reachable_two {size size' : UInt32}
    (h : system.Path booted [.switchTo 1, .mallock 5 size 0, .mallock 5 size' 0] m)
    (hsize : size.toNat + blockStructSize < 2 ^ 32)
    (hsize' : size'.toNat + blockStructSize < 2 ^ 32) :
    (system.restrict Exact).Reachable m := by
  refine (h.restrict fun a ha s => ?_).reachable (.start isBoot_booted)
  simp only [List.mem_cons, List.not_mem_nil, or_false] at ha
  rcases ha with rfl | rfl | rfl
  · trivial
  · exact hsize
  · exact hsize'

theorem exists_two_blocks : ∃ m, (system.restrict Exact).Reachable m ∧
    dataStart 0x1000000 ∈ m.live m.pid ∧ (m.kernel.memory 0x1000000).size = 100 ∧
    Finds m (dataStart 0x1000000) := by
  have hrun : (execute step booted
      [.switchTo 1, .mallock 5 100 0, .mallock 5 100 0]).any (fun m =>
        dataStart 0x1000000 ∈ m.live m.pid ∧ m.kernel.heapBase = 0x1000000 ∧
          m.kernel.heap m.pid = 0x1000000 ∧
          (m.kernel.memory 0x1000000).size = 100 ∧
          (m.kernel.memory 0x1000000).next = 0x1000080 ∧
          (m.kernel.memory 0x1000000).prev = 0 ∧
          (m.kernel.memory 0x1000080).free = false) = true := by
    rw [booted, kernelWith, createHeap_eq]
    decide +kernel
  obtain ⟨m, hm, hfacts⟩ := (Option.any_eq_true _ _).mp hrun
  obtain ⟨hlive, hbase, hheap, hsize, hnext, hprev, hused⟩ := of_decide_eq_true hfacts
  exact ⟨m, reachable_two (path_of_execute IsBoot hm) (by decide) (by decide), hlive, hsize,
    finds_first hbase hheap (by rw [hnext]; decide) hprev (by rwa [hnext])⟩

/-- The first of two blocks is released. -/
theorem free_releases_first : ∃ m, (system.restrict Exact).Reachable m ∧
    dataStart 0x1000000 ∈ m.live m.pid ∧ Releases m (dataStart 0x1000000) := by
  obtain ⟨m, hreach, hlive, -, hfinds⟩ := exists_two_blocks
  exact ⟨m, hreach, hlive, free_releases hreach hlive hfinds⟩

/-- The only block of a heap is the last one, and `free` does not find it. -/
theorem free_misses_last : ∃ m, system.Path booted [.switchTo 1, .mallock 5 4060 0] m ∧
    dataStart 0x1000000 ∈ m.live m.pid ∧ ¬ Releases m (dataStart 0x1000000) := by
  have hrun : (execute step booted [.switchTo 1, .mallock 5 4060 0]).any (fun m =>
      dataStart 0x1000000 ∈ m.live m.pid ∧ m.kernel.heapBase = 0x1000000 ∧
        (m.kernel.memory 0x1000000).next = 0) = true := by
    rw [booted, kernelWith, createHeap_eq]
    decide +kernel
  obtain ⟨m, hm, hfacts⟩ := (Option.any_eq_true _ _).mp hrun
  obtain ⟨hlive, hbase, hnext⟩ := of_decide_eq_true hfacts
  refine ⟨m, path_of_execute IsBoot hm, hlive, fun ⟨n, hreleases⟩ => ?_⟩
  obtain ⟨t, hfree, hexact⟩ := hreleases (n + 2) (Nat.le_add_right n 2)
  -- the search goes on to the end of the list
  have hget : getBlock m.kernel.heaps.memory (dataStart 0x1000000) (n + 2)
      m.kernel.heaps.heapBase = some null := by
    show getBlock m.kernel.memory _ _ m.kernel.heapBase = _
    rw [hbase, getBlock, if_pos (by rw [hnext]; decide), hnext, getBlock]
    exact if_neg fun hcond => hcond.1 rfl
  have hvalid : isValidAddress (dataStart 0x1000000) m.kernel.heaps := by
    show ¬ (dataStart 0x1000000 = null ∨ dataStart 0x1000000 < dataStart m.kernel.heapBase)
    rw [hbase]
    decide
  rw [OutOfPages.free, Malloc.free, if_pos hvalid, hget, Option.map_some, if_pos rfl] at hfree
  obtain rfl := Option.some.inj hfree
  exact ((hexact.used m.pid _).mp hexact.wasUsed).2 ⟨rfl, rfl⟩

end GatOS.ProcessHeaps
