import GatOS.HeapLists
import GatOS.MallocCalls

/-!
# The heaps of the processes

Any processes call `mallock` and `free`, in any order, while the rest of the kernel uses the page
allocator. Each heap stays a list of blocks of its own, inside the page blocks.
-/
namespace GatOS.ProcessHeaps
open BuddyAllocator DoublyLinkedList LinkedRing Malloc OutOfPages Threads Transition

/-! ### The machine -/

/-- `pages` are the blocks that the page allocator has handed out, `live` the results of each
process that are not yet freed. -/
structure Machine where
  kernel : OutOfPages.State
  pages : List Block
  live : ℤ → List ℕ

namespace Machine

/-- The running process. -/
def pid (m : Machine) : ℤ := m.kernel.pid

def pool (m : Machine) : Heap := ⟨m.kernel.buddyArray, m.pages⟩

end Machine

/-- The blocks that were recorded for `owner` between the two states. -/
def acquired (owner : ℤ) (s t : OutOfPages.State) : List Block :=
  (t.owned owner).take ((t.owned owner).length - (s.owned owner).length)

/-- `mallock` and `free` are calls of the running process; without one, `mallock` serves the kernel
instead. `run` is what the rest of the kernel does to the scheduler and the Process records, apart
from `heap`. -/
inductive Action
  | mallock (fuel : ℕ) (size : UInt32) (garbage : ℤ)
  | free (fuel p : ℕ)
  | run (sched : Scheduler.State) (process : ℤ → ProcessRecord)
  | allocPage (owner : ℤ) (pages : ℕ)
  | deallocPage (blk : Block)

def step (m : Machine) : Action → Option Machine
  | .mallock fuel size garbage =>
    if m.kernel.sched.current = Scheduler.null then none
    else
      match OutOfPages.mallock fuel size.toNat garbage m.kernel with
      | .ok p k => some ⟨k, acquired m.pid m.kernel k ++ m.pages,
          if p = null then m.live else Function.update m.live m.pid (p :: m.live m.pid)⟩
      | .error _ _ => none
  | .free fuel p =>
    (OutOfPages.free fuel p m.kernel).map fun k => { m with
      kernel := k
      live := Function.update m.live m.pid ((m.live m.pid).filter (· ≠ p)) }
  | .run sched process => some { m with kernel := { m.kernel with
      sched := sched
      process := fun q => { process q with heap := m.kernel.heap q } } }
  | .allocPage owner pages =>
    let k := (reply owner pages m.kernel).2
    some { m with kernel := k, pages := acquired owner m.kernel k ++ m.pages }
  | .deallocPage blk =>
    if blk ∈ m.pages then
      match m.kernel.toMachine.deallocPage blk.base with
      | .ok t => some { m with
          kernel := { m.kernel with toMachine := t }
          pages := m.pages.erase blk }
      | .error _ => none
    else none

/-- All pages are free, and no process has a heap. -/
structure IsBoot (m : Machine) : Prop where
  buddyArray : m.kernel.buddyArray = createHeap
  pages : m.pages = []
  heap : ∀ q, m.kernel.heap q = null
  heapBase : m.kernel.heapBase = null
  live : ∀ q, m.live q = []

def system : System Machine Action := ofStep IsBoot step

/-- A block of the heap of process `q` is found over `next`. -/
def IsBlock (q : ℤ) (k : OutOfPages.State) : ℕ → Prop :=
  Visits (nextOf k.memory) null (k.heap q)

/-- The size of a request does not wrap around. `free` joins only neighbours of one page block, and
`deallocPage` gives no page back that is in use. -/
def Sound (m : Machine) : Action → Prop
  | .mallock _ size _ => size.toNat + blockStructSize < 2 ^ 32
  | .free fuel p => isValidAddress p m.kernel.heaps →
      ∀ b ∈ getBlock m.kernel.memory p fuel m.kernel.heapBase, b ≠ null →
        Joinable m.pages m.kernel.memory m.kernel.heapBase b
  | .run _ _ | .allocPage _ _ => True
  | .deallocPage blk => MergeSafe m.pool (.dealloc blk) ∧
      ∀ q b, IsBlock q m.kernel b → ¬ (blk.base ≤ b ∧ b < blk.stop)

/-! ### The heaps of all processes -/

/-- `heap q` is the address at which the heap of process `q` begins, and `l q` are its blocks. -/
structure AllListed (pages : List Block) (memory : Memory) (heap : ℤ → ℕ) (l : ℤ → List ℕ) :
    Prop where
  listed : ∀ q, Listed pages memory (heap q) (l q)
  apart : Pairwise fun q o => Disjoint (bytes memory (l q)) (bytes memory (l o))

/-- A call of process `q` keeps the heaps of the others and the blocks in use of its own heap. -/
structure Advances (q : ℤ) (memory memory' : Memory) (l l' : ℤ → List ℕ) : Prop where
  list : ∀ o, o ≠ q → l' o = l o
  frame : ∀ o, o ≠ q → ∀ c ∈ l o, memory' c = memory c
  inUse : ∀ c, InUse memory' (l' q) c ↔ InUse memory (l q) c
  size : ∀ c, InUse memory (l q) c → (memory' c).size = (memory c).size

section

variable {memory memory' memory'' : Memory} {b : ℕ} {pages : List Block} {l' : List ℕ}
  {heap heap' : ℤ → ℕ} {lists lists' lists'' : ℤ → List ℕ} {q : ℤ} {fresh : Set ℕ}
  {pages' : List Block}

theorem Advances.refl (q : ℤ) (memory : Memory) (lists : ℤ → List ℕ) :
    Advances q memory memory lists lists :=
  ⟨fun _ _ => rfl, fun _ _ _ _ => rfl, fun _ => Iff.rfl, fun _ _ => rfl⟩

theorem Advances.trans (h : Advances q memory memory' lists lists')
    (g : Advances q memory' memory'' lists' lists'') :
    Advances q memory memory'' lists lists'' where
  list o ho := (g.list o ho).trans (h.list o ho)
  frame o ho c hc := (g.frame o ho c (by rwa [h.list o ho])).trans (h.frame o ho c hc)
  inUse c := (g.inUse c).trans (h.inUse c)
  size c hc := (g.size c ((h.inUse c).mpr hc)).trans (h.size c hc)

/-- A call works on the heap of process `q`. -/
theorem AllListed.grow (h : AllListed pages memory heap lists) (hpages : pages ⊆ pages')
    (hlisted : Listed pages' memory' (heap' q) l') (hheap : ∀ o, o ≠ q → heap' o = heap o)
    (hgrown : Grown fresh memory memory' (lists q) l')
    (hfresh : ∀ o, o ≠ q → Disjoint fresh (bytes memory (lists o))) :
    AllListed pages' memory' heap' (Function.update lists q l') ∧
      Advances q memory memory' lists (Function.update lists q l') := by
  have hframe : ∀ o, o ≠ q → ∀ c ∈ lists o, memory' c = memory c := fun o ho c hc => by
    have hmem : c ∈ bytes memory (lists o) := mem_bytes_self hc
    exact hgrown.frame c (Set.disjoint_left.mp (h.apart ho) hmem)
      (Set.disjoint_right.mp (hfresh o ho) hmem)
  have hbytes : ∀ o, o ≠ q → bytes memory' (lists o) = bytes memory (lists o) := fun o ho =>
    bytes_congr fun c hc => span_congr (by rw [hframe o ho c hc])
  have hapart : ∀ o, o ≠ q → Disjoint (bytes memory' l') (bytes memory' (lists o)) := fun o ho => by
    rw [hbytes o ho]
    exact (Set.disjoint_union_left.mpr ⟨h.apart ho.symm, hfresh o ho⟩).mono_left hgrown.covers
  refine ⟨⟨fun o => ?_, fun o o' hne => ?_⟩, ⟨fun o ho => Function.update_of_ne ho _ _, hframe,
    fun c => ?_, hgrown.size⟩⟩
  · by_cases ho : o = q
    · rw [ho, Function.update_self]
      exact hlisted
    · rw [Function.update_of_ne ho, hheap o ho]
      refine ((h.listed o).mono hpages).congr fun c hc => ?_
      rw [hframe o ho c hc]
      exact ⟨rfl, rfl⟩
  · dsimp only
    by_cases ho : o = q
    · subst ho
      rw [Function.update_self, Function.update_of_ne hne.symm]
      exact hapart o' hne.symm
    by_cases ho' : o' = q
    · subst ho'
      rw [Function.update_self, Function.update_of_ne ho]
      exact (hapart o ho).symm
    · rw [Function.update_of_ne ho, Function.update_of_ne ho', hbytes o ho, hbytes o' ho']
      exact h.apart hne
  · rw [Function.update_self]
    exact hgrown.inUse c

theorem AllListed.mark (h : AllListed pages memory heap lists) (free : Bool) :
    AllListed pages (Malloc.mark b free memory) heap lists := by
  refine ⟨fun q => (h.listed q).mark free, fun q o hne => ?_⟩
  dsimp only
  rw [bytes_mark, bytes_mark]
  exact h.apart hne

/-- A page block without blocks of a heap is given back. -/
theorem AllListed.erase {blk : Block} (h : AllListed pages memory heap lists)
    (hout : ∀ q, ∀ b ∈ lists q, ¬ (blk.base ≤ b ∧ b < blk.stop)) :
    AllListed (pages.erase blk) memory heap lists := by
  refine ⟨fun q => ⟨(h.listed q).chain, fun b hb => ?_, (h.listed q).apart⟩, h.apart⟩
  obtain ⟨blk', hblk', hlo, hhi⟩ := (h.listed q).inside b hb
  have hne : blk' ≠ blk := fun he => by
    have hpos := extent_pos memory b
    exact hout q b hb (he ▸ ⟨hlo, by omega⟩)
  exact ⟨blk', (List.mem_erase_of_ne hne).mpr hblk', hlo, hhi⟩

end

/-! ### Calls of `mallock` -/

structure Invariant (m : Machine) (lists : ℤ → List ℕ) : Prop where
  shape : Shape m.kernel.buddyArray
  tracks : ∃ ns, Tracks m.pool ns
  all : AllListed m.pages m.kernel.memory m.kernel.heap lists
  heapBase : m.kernel.heapBase = null ∨ ∃ q, m.kernel.heapBase = m.kernel.heap q

/-- In the course of a call in state `m` the page blocks `blks` have been acquired. -/
structure Progress (m : Machine) (k : OutOfPages.State) (blks : List Block) : Prop where
  shape : Shape k.buddyArray
  tracks : ∃ ns, Tracks ⟨k.buddyArray, blks ++ m.pages⟩ ns
  sched : k.sched = m.kernel.sched
  owned : k.owned m.pid = blks ++ m.kernel.owned m.pid

/-- The heaps in the course of a call. -/
structure Stage (m : Machine) (lists : ℤ → List ℕ) (k : OutOfPages.State) (blks : List Block)
    (lists' : ℤ → List ℕ) : Prop extends Progress m k blks where
  all : AllListed (blks ++ m.pages) k.memory k.heap lists'
  advances : Advances m.pid m.kernel.memory k.memory lists lists'
  heapBase : k.heapBase = k.heap m.pid

section

variable {m m' : Machine} {lists lists' : ℤ → List ℕ} {k t : OutOfPages.State} {blks : List Block}
  {fuel size b p y : ℕ} {q garbage : ℤ}

theorem Progress.liveDisjoint (h : Progress m k blks) :
    LiveDisjoint ⟨k.buddyArray, blks ++ m.pages⟩ := by
  obtain ⟨ns, hns⟩ := h.tracks
  exact hns.liveDisjoint

/-- The page block of `extendHeap`. -/
abbrev heapBlock (size y : ℕ) : Block := ⟨y, 2 ^ Nat.clog 2 (Machine.heapPages size)⟩

theorem tracks_granted {tree tree' : BuddyArray} {pages : List Block} {n : ℕ}
    (h : ∃ ns, Tracks ⟨tree, pages⟩ ns)
    (hgranted : BuddyAllocator.allocPage n tree = (some y, tree')) :
    ∃ ns, Tracks ⟨tree', ⟨y, 2 ^ Nat.clog 2 n⟩ :: pages⟩ ns := by
  obtain ⟨ns, hns⟩ := h
  refine heapStep_tracks hns (mergeSafe_alloc _ n) ?_
  simp only [heapStep, hgranted]

theorem Progress.extend (h : Progress m k blks) (hextend : Extended fuel size q k y t) :
    Progress m t (heapBlock size y :: blks) := by
  have hpid : k.pid = m.pid := congrArg Scheduler.getCurrentPid h.sched
  refine ⟨?_, tracks_granted h.tracks hextend.granted, hextend.sched.trans h.sched, ?_⟩
  · have hserved := h.shape.allocPage (Machine.heapPages size)
    rwa [hextend.granted] at hserved
  · rw [hextend.owned, hpid, Function.update_self, h.owned]
    rfl

/-- What a call has acquired by its end. -/
theorem Progress.acquired (h : Progress m k blks) : acquired m.pid m.kernel k = blks := by
  show (k.owned m.pid).take ((k.owned m.pid).length - _) = blks
  rw [h.owned, List.length_append, Nat.add_sub_cancel]
  exact List.take_left

theorem Invariant.liveDisjoint (h : Invariant m lists) : LiveDisjoint m.pool := by
  obtain ⟨ns, hns⟩ := h.tracks
  exact hns.liveDisjoint

/-- The call has set `heapBase`. -/
theorem Invariant.stage (h : Invariant m lists) :
    Stage m lists { m.kernel with heapBase := m.kernel.heap m.pid } [] lists :=
  ⟨⟨h.shape, h.tracks, rfl, rfl⟩, h.all, Advances.refl _ _ _, rfl⟩

/-- The header of a new page block fits the request. -/
theorem heapBlockSize_spec (hpos : 0 < size) (hlt : size + blockStructSize < 2 ^ 32)
    (hin : pageSize * 2 ^ Nat.clog 2 (Machine.heapPages size) ≤ BuddyAllocator.memory) :
    align4 size ≤ heapBlockSize size ∧
      blockStructSize + heapBlockSize size ≤
        pageSize * 2 ^ Nat.clog 2 (Machine.heapPages size) := by
  have hge : align4 size + blockStructSize ≤ Machine.heapPages size * pageSize :=
    pagesFor_ge hpos hlt
  have hle : Machine.heapPages size * pageSize ≤
      pageSize * 2 ^ Nat.clog 2 (Machine.heapPages size) := by
    rw [Nat.mul_comm]
    exact Nat.mul_le_mul_left _ (Nat.le_pow_clog one_lt_two _)
  have hmemory : BuddyAllocator.memory < 2 ^ 32 := by decide
  rw [heapBlockSize, MachineInt.uint32_eq (by omega),
    MachineInt.uint32Sub_eq (by omega) (by omega)]
  omega

/-- The new block is the last one of the list. -/
theorem extended_listed {pages : List Block} {l : List ℕ} {blk : Block} {tree : BuddyArray}
    (hextend : Extended fuel size q k y t) (h : Listed pages k.memory k.heapBase l)
    (hp : LiveDisjoint ⟨tree, blk :: pages⟩) (hy : blk.base = y)
    (hend : blk.base + (blockStructSize + heapBlockSize size) ≤ blk.stop) :
    Listed (blk :: pages) t.memory t.heapBase (l ++ [y]) ∧
      Grown (Set.Ico blk.base blk.stop) k.memory t.memory l (l ++ [y]) ∧
      (t.memory y).free = true ∧ (t.memory y).size = heapBlockSize size := by
  have hp' : LiveDisjoint ⟨tree, pages⟩ :=
    ⟨(List.pairwise_cons.mp hp.disjoint).2, fun b hb => hp.inside b (List.mem_cons_of_mem _ hb)⟩
  subst hy
  by_cases hnull : k.heapBase = null
  · obtain ⟨htbase, -, htmemory⟩ := hextend.first hnull
    obtain rfl : l = [] := by
      cases l with
      | nil => rfl
      | cons c l => exact absurd (by rw [← hnull, h.chain.1]; simp) (h.null_notMem hp')
    have hat : t.memory blk.base = ⟨heapBlockSize size, null, null, true⟩ := by
      rw [htmemory, Function.update_self]
      rfl
    rw [htbase]
    refine ⟨listed_new hat hend, grown_new hat hend fun b hb => ?_, by rw [hat], by rw [hat]⟩
    rw [htmemory, Function.update_of_ne hb]
  · obtain ⟨htbase, -, last, hlast, hat, hother⟩ := hextend.further hnull
    have hnew : blk.base ∉ l := h.base_notMem hp (by unfold blockStructSize at hend; omega)
    obtain ⟨l', rfl⟩ := findLastInHeap_spec (h.chain_update hnew) (h.null_notMem hp') hnull hlast
    obtain ⟨hy, hx⟩ := hat fun he => hnew (by simp [← he])
    obtain ⟨hlisted, hgrown⟩ := h.concat hp hy hend hx hother
    rw [htbase]
    exact ⟨hlisted, hgrown, by rw [hy], by rw [hy]⟩

theorem Stage.extend (h : Stage m lists k blks lists') (hextend : Extended fuel size q k y t)
    (hq : k.heapBase = null → q = m.pid) (hpos : 0 < size)
    (hlt : size + blockStructSize < 2 ^ 32) :
    Stage m lists t (heapBlock size y :: blks)
        (Function.update lists' m.pid (lists' m.pid ++ [y])) ∧
      (t.memory y).free = true ∧ (t.memory y).size = heapBlockSize size ∧
      align4 size ≤ heapBlockSize size := by
  have hprogress := h.toProgress.extend hextend
  have hp := hprogress.liveDisjoint
  obtain ⟨hbase, hstop⟩ := hp.inside _ List.mem_cons_self
  obtain ⟨hfits, hend⟩ := heapBlockSize_spec hpos hlt (by
    unfold Block.stop at hstop
    dsimp only at hbase hstop
    omega)
  have hl := h.all.listed m.pid
  rw [← h.heapBase] at hl
  obtain ⟨hlisted, hgrown, hfree, hsize⟩ :=
    extended_listed hextend hl hp rfl (Nat.add_le_add_left hend _)
  have hheap : t.heapBase = t.heap m.pid ∧ ∀ o, o ≠ m.pid → t.heap o = k.heap o := by
    by_cases hnull : k.heapBase = null
    · obtain ⟨htbase, htheap, -⟩ := hextend.first hnull
      rw [htbase, htheap, hq hnull]
      exact ⟨by rw [Function.update_self], fun o ho => Function.update_of_ne ho _ _⟩
    · obtain ⟨htbase, htheap, -⟩ := hextend.further hnull
      rw [htbase, htheap]
      exact ⟨h.heapBase, fun _ _ => rfl⟩
  rw [hheap.1] at hlisted
  obtain ⟨hall, hadvances⟩ := h.all.grow (List.subset_cons_self _ _) hlisted hheap.2 hgrown
    fun o _ => (h.all.listed o).notMem_new hp
  exact ⟨⟨hprogress, hall, h.advances.trans hadvances, hheap.1⟩, hfree, hsize, hfits⟩

/-- The first block of a new process is in place. -/
theorem Invariant.prepare (h : Invariant m lists) (hpos : 0 < size)
    (hlt : size + blockStructSize < 2 ^ 32) (hprepared : Prepared fuel size m.kernel k) :
    k.heapBase ≠ null ∧ ∃ blks lists', Stage m lists k blks lists' ∧
      (m.kernel.heap m.pid = null → ∃ y, lists' m.pid = [y] ∧ (k.memory y).free = true ∧
        (k.memory y).size = heapBlockSize size ∧ align4 size ≤ heapBlockSize size) ∧
      (m.kernel.heap m.pid ≠ null → k = { m.kernel with heapBase := m.kernel.heap m.pid } ∧
        blks = [] ∧ lists' = lists) := by
  rcases hprepared with ⟨hnull, y, hrun⟩ | ⟨hne, rfl⟩
  · have hnull : m.kernel.heap m.pid = null := hnull
    have hstage := h.stage
    rw [hnull] at hstage
    have hextend := extendHeap_ok (s := { m.kernel with heapBase := null }) h.shape hrun
    obtain ⟨hstage', hfree, hsize, hfits⟩ := hstage.extend hextend (fun _ => rfl) hpos hlt
    have hempty : lists m.pid = [] := by
      have hlisted := h.all.listed m.pid
      have hnotMem := hlisted.null_notMem h.liveDisjoint
      rw [hnull] at hlisted
      cases hl : lists m.pid with
      | nil => rfl
      | cons c l =>
        rw [hl] at hlisted hnotMem
        exact absurd (by rw [hlisted.chain.1]; exact List.mem_cons_self) hnotMem
    have hlist : Function.update lists m.pid (lists m.pid ++ [y]) m.pid = [y] := by
      rw [Function.update_self, hempty]
      rfl
    refine ⟨?_, _, _, hstage', fun _ => ⟨y, hlist, hfree, hsize, hfits⟩,
      fun hne => absurd hnull hne⟩
    have hlisted := hstage'.all.listed m.pid
    have hnotMem := hlisted.null_notMem hstage'.liveDisjoint
    rw [hstage'.heapBase]
    rw [hlist] at hlisted hnotMem
    rw [hlisted.chain.1]
    exact fun he => hnotMem (by simp [he])
  · exact ⟨hne, [], lists, h.stage, fun hnull => absurd hnull hne, fun _ => ⟨rfl, rfl, rfl⟩⟩

/-- A call has returned `p`, the data of block `b`. -/
structure Served (m : Machine) (lists : ℤ → List ℕ) (size p : ℕ) (k : OutOfPages.State)
    (blks : List Block) (lists' : ℤ → List ℕ) (b : ℕ) : Prop where
  pointer : p = dataStart b
  shape : Shape k.buddyArray
  tracks : ∃ ns, Tracks ⟨k.buddyArray, blks ++ m.pages⟩ ns
  all : AllListed (blks ++ m.pages) k.memory k.heap lists'
  heapBase : k.heapBase = k.heap m.pid
  acquired : acquired m.pid m.kernel k = blks
  mem : b ∈ lists' m.pid
  large : align4 size ≤ (k.memory b).size
  list : ∀ o, o ≠ m.pid → lists' o = lists o
  frame : ∀ o, o ≠ m.pid → ∀ c ∈ lists o, k.memory c = m.kernel.memory c
  inUse : ∀ c, InUse k.memory (lists' m.pid) c ↔ InUse m.kernel.memory (lists m.pid) c ∨ c = b
  unused : ¬ InUse m.kernel.memory (lists m.pid) b
  size : ∀ c, InUse m.kernel.memory (lists m.pid) c →
    (k.memory c).size = (m.kernel.memory c).size

theorem Stage.take (h : Stage m lists k blks lists') (hb : b ∈ lists' m.pid)
    (hfree : (k.memory b).free = true) (hsize : align4 size ≤ (k.memory b).size) :
    ∃ lists'', Served m lists size (dataStart b)
      { k with memory := takeBlock b (align4 size) k.memory } blks lists'' b := by
  obtain ⟨memory₁, l', htake, hlisted, hkeeps, hb', hlarge⟩ :=
    (h.all.listed m.pid).takeBlock h.liveDisjoint hb hfree hsize
  obtain ⟨hall, hadvances⟩ := h.all.grow (List.Subset.refl _) hlisted (fun _ _ => rfl)
    hkeeps.grown fun o _ => Set.empty_disjoint _
  have hadv := h.advances.trans hadvances
  set lists'' := Function.update lists' m.pid l' with hlists''
  have hself : lists'' m.pid = l' := Function.update_self ..
  have hunused : ¬ InUse k.memory (lists' m.pid) b := fun hused => by
    rw [InUse, hfree] at hused
    cases hused.2
  refine ⟨lists'', rfl, h.shape, h.tracks, ?_, h.heapBase, ?_, by rwa [hself], ?_, hadv.list,
    fun o ho c hc => ?_, fun c => ?_, ?_, fun c hc => ?_⟩
  · show AllListed _ (takeBlock b (align4 size) k.memory) _ _
    rw [htake]
    exact hall.mark false
  · exact h.toProgress.acquired
  · show _ ≤ (takeBlock b (align4 size) k.memory b).size
    rw [htake, mark_size]
    exact hlarge
  · show takeBlock b (align4 size) k.memory c = _
    have hcb : c ≠ b := fun he => by
      have hc' : b ∈ bytes memory₁ (lists'' o) := by
        rw [hadv.list o ho, ← he]
        exact mem_bytes_self hc
      have hb'' : b ∈ bytes memory₁ (lists'' m.pid) := mem_bytes_self (by rwa [hself])
      exact Set.disjoint_left.mp (hall.apart ho) hc' hb''
    rw [htake, mark_of_ne hcb]
    exact hadv.frame o ho c hc
  · show InUse (takeBlock b (align4 size) k.memory) _ c ↔ _
    rw [htake, inUse_mark_false (by rwa [hself]), hadv.inUse c]
  · rwa [← h.advances.inUse b]
  · show (takeBlock b (align4 size) k.memory c).size = _
    rw [htake, mark_size]
    exact hadv.size c hc

theorem Invariant.served (h : Invariant m lists) (hpos : 0 < size)
    (hlt : size + blockStructSize < 2 ^ 32)
    (hrun : OutOfPages.mallock fuel size garbage m.kernel = .ok p k) :
    ∃ blks lists' b, Served m lists size p k blks lists' b := by
  obtain ⟨s₁, found, b, s₂, hprepared, hfind, hfound, rfl, rfl⟩ := mallock_ok hpos.ne' hrun
  obtain ⟨hne, blks, lists₁, hstage, -⟩ := h.prepare hpos hlt hprepared
  rcases hfound with ⟨-, hextend⟩ | ⟨hnull, rfl, rfl⟩
  · obtain ⟨hstage', hfree, hsize, hfits⟩ := hstage.extend
      (extendHeap_ok hstage.shape hextend) (fun hnull => absurd hnull hne) hpos hlt
    obtain ⟨lists'', hserved⟩ := hstage'.take (b := b) (by simp) hfree (hfits.trans_eq hsize.symm)
    exact ⟨_, lists'', b, hserved⟩
  · have hl := (hstage.all.listed m.pid).chain
    rw [← hstage.heapBase] at hl
    obtain ⟨hmem, hfree, hsize⟩ := (findFirstFreeBlock_spec hl hfind).resolve_left hnull
    obtain ⟨lists'', hserved⟩ := hstage.take hmem hfree hsize.le
    exact ⟨_, lists'', _, hserved⟩

/-! ### Calls of `free` -/

/-- Block `b` of the heap of process `q` has been released. -/
structure Released (q : ℤ) (b : ℕ) (pages : List Block) (memory memory' : Memory) (heap : ℤ → ℕ)
    (lists lists' : ℤ → List ℕ) : Prop where
  all : AllListed pages memory' heap lists'
  list : ∀ o, o ≠ q → lists' o = lists o
  frame : ∀ o, o ≠ q → ∀ c ∈ lists o, memory' c = memory c
  inUse : ∀ c, InUse memory' (lists' q) c ↔ InUse memory (lists q) c ∧ c ≠ b
  size : ∀ c, InUse memory (lists q) c → c ≠ b → (memory' c).size = (memory c).size
  covers : bytes memory' (lists' q) = bytes memory (lists q)
  available : ∀ n ≤ (memory b).size, Available n memory' (lists' q) ↔
    Available n memory (lists q) ∨ n < (memory b).size ∨ FreeNeighbour memory b

theorem AllListed.release {pages : List Block} {memory : Memory} {heap : ℤ → ℕ}
    {tree : BuddyArray} (h : AllListed pages memory heap lists)
    (hp : LiveDisjoint ⟨tree, pages⟩) (hb : b ∈ lists q)
    (hjoin : Joinable pages memory (heap q) b) :
    ∃ lists', Released q b pages memory (release b memory) heap lists lists' := by
  obtain ⟨l', hlisted, hkeeps, havailable⟩ := (h.listed q).release hp hb hjoin
  obtain ⟨hall, hadvances⟩ := (h.mark true).grow (List.Subset.refl _) hlisted (fun _ _ => rfl)
    hkeeps.grown fun o _ => Set.empty_disjoint _
  have hself : Function.update lists q l' q = l' := Function.update_self ..
  refine ⟨_, hall, hadvances.list, fun o ho c hc => ?_, fun c => ?_, fun c hc hcb => ?_, ?_, ?_⟩
  · have hcb : c ≠ b := fun he => Set.disjoint_left.mp (h.apart ho)
      (mem_bytes_self (he ▸ hc)) (mem_bytes_self hb)
    rw [hadvances.frame o ho c hc, mark_of_ne hcb]
  · rw [hadvances.inUse, inUse_mark_true]
  · rw [hadvances.size c (inUse_mark_true.mpr ⟨hc, hcb⟩), mark_size]
  · rw [hself, hkeeps.covers, bytes_mark]
  · rwa [hself]

/-- What `free` finds is a block of the heap that was used last. -/
theorem Invariant.found (h : Invariant m lists)
    (hget : getBlock m.kernel.memory p fuel m.kernel.heapBase = some b) (hb : b ≠ null) :
    ∃ q, m.kernel.heapBase = m.kernel.heap q ∧ b ∈ lists q := by
  rcases h.heapBase with hnull | ⟨q, hq⟩
  · have hchain : LinkedRing.Chain (nextOf m.kernel.memory) m.kernel.heapBase [] null := hnull
    exact absurd ((getBlock_spec hchain hget).resolve_left hb).1 List.not_mem_nil
  · have hchain := (h.all.listed q).chain
    rw [← hq] at hchain
    exact ⟨q, hq, ((getBlock_spec hchain hget).resolve_left hb).1⟩

/-- Only one process has a heap that begins at a given block. -/
theorem Invariant.owner_unique (h : Invariant m lists) {o : ℤ} (hb : b ∈ lists o)
    (hheap : m.kernel.heap o = m.kernel.heap q) : o = q := by
  by_contra hne
  have ho := h.all.listed o
  have hq := h.all.listed q
  have hchain := ho.chain
  rw [hheap] at hchain
  have heq : lists o = lists q := hchain.unique hq.chain (ho.null_notMem h.liveDisjoint)
    (hq.null_notMem h.liveDisjoint)
  exact Set.disjoint_left.mp (h.all.apart hne) (mem_bytes_self hb) (mem_bytes_self (heq ▸ hb))

/-! ### Runs -/

theorem mallock_zero (fuel : ℕ) (garbage : ℤ) (s : OutOfPages.State) :
    OutOfPages.mallock fuel 0 garbage s = .ok null { s with heapBase := s.current.heap } := rfl

theorem acquired_of_owned {owner : ℤ} (h : t.owned owner = k.owned owner) :
    acquired owner k t = [] := by
  rw [acquired, h, Nat.sub_self, List.take_zero]

theorem reply_owned (owner : ℤ) (pages : ℕ) (s : OutOfPages.State) :
    (reply owner pages s).2.owned =
      match (BuddyAllocator.allocPage pages s.buddyArray).1 with
      | none => s.owned
      | some page => Function.update s.owned owner (⟨page, 2 ^ Nat.clog 2 pages⟩ ::
          s.owned owner) := by
  show (s.toMachine.allocPage owner pages).2.owned = _
  unfold Threads.Machine.allocPage
  split <;> simp_all

/-- A request of the rest of the kernel. -/
theorem reply_heapStep (owner : ℤ) (pages : ℕ) (m : Machine) :
    heapStep m.pool (.alloc pages) = some ⟨(reply owner pages m.kernel).2.buddyArray,
      acquired owner m.kernel (reply owner pages m.kernel).2 ++ m.pages⟩ := by
  have howned := reply_owned owner pages m.kernel
  rw [reply_buddyArray, acquired, howned]
  simp only [heapStep, Machine.pool]
  rcases BuddyAllocator.allocPage pages m.kernel.buddyArray with ⟨_ | page, b⟩
  · simp
  · simp

theorem step_mallock {size : UInt32} (h : step m (.mallock fuel size garbage) = some m') :
    ∃ p k, OutOfPages.mallock fuel size.toNat garbage m.kernel = .ok p k ∧
      m' = ⟨k, acquired m.pid m.kernel k ++ m.pages,
        if p = null then m.live else Function.update m.live m.pid (p :: m.live m.pid)⟩ := by
  simp only [step] at h
  split_ifs at h
  split at h
  · rename_i p k hrun
    exact ⟨p, k, hrun, (Option.some.inj h).symm⟩
  · cases h

theorem step_deallocPage {blk : Block} (h : step m (.deallocPage blk) = some m') :
    blk ∈ m.pages ∧ ∃ r, BuddyAllocator.deallocPage blk.base m.kernel.buddyArray = some r ∧
      m' = { m with
        kernel := { m.kernel with buddyArray := r.2 }
        pages := m.pages.erase blk } := by
  simp only [step, Threads.Machine.deallocPage] at h
  split_ifs at h with hmem
  refine ⟨hmem, ?_⟩
  cases hrun : BuddyAllocator.deallocPage blk.base m.kernel.buddyArray with
  | none =>
    rw [hrun] at h
    cases h
  | some r =>
    rw [hrun] at h
    exact ⟨r, rfl, (Option.some.inj h).symm⟩

/-- The rest of the kernel does nothing to the heaps. -/
structure Quiet (m m' : Machine) : Prop where
  memory : m'.kernel.memory = m.kernel.memory
  live : m'.live = m.live

/-- What a step does to the heaps. -/
inductive Effect (m : Machine) (lists : ℤ → List ℕ) (a : Action) (m' : Machine)
    (lists' : ℤ → List ℕ) : Prop
  | quiet : Quiet m m' → lists' = lists → Effect m lists a m' lists'
  | mallock {size p : ℕ} {k : OutOfPages.State} {blks : List Block} {b : ℕ} :
    Served m lists size p k blks lists' b → m'.kernel = k →
      m'.live = Function.update m.live m.pid (p :: m.live m.pid) → Effect m lists a m' lists'
  | missed {fuel p : ℕ} : a = .free fuel p → m'.kernel = m.kernel → lists' = lists →
      m'.live = Function.update m.live m.pid ((m.live m.pid).filter (· ≠ p)) →
      Effect m lists a m' lists'
  | free {fuel p : ℕ} {q : ℤ} {b : ℕ} : a = .free fuel p →
      getBlock m.kernel.memory p fuel m.kernel.heapBase = some b →
      m.kernel.heapBase = m.kernel.heap q → b ∈ lists q →
      Released q b m.pages m.kernel.memory m'.kernel.memory m.kernel.heap lists lists' →
      m'.live = Function.update m.live m.pid ((m.live m.pid).filter (· ≠ p)) →
      Effect m lists a m' lists'

theorem step_cases {a : Action} (h : Invariant m lists) (hok : Sound m a)
    (hstep : step m a = some m') : ∃ lists', Invariant m' lists' ∧ Effect m lists a m' lists' := by
  cases a with
  | mallock fuel size garbage =>
    obtain ⟨p, k, hrun, rfl⟩ := step_mallock hstep
    by_cases hsize : size.toNat = 0
    · rw [hsize, mallock_zero] at hrun
      have hnil : acquired m.pid m.kernel k = [] := by
        cases hrun
        exact acquired_of_owned rfl
      rw [hnil]
      cases hrun
      exact ⟨lists, ⟨h.shape, h.tracks, h.all, Or.inr ⟨m.pid, rfl⟩⟩, .quiet ⟨rfl, rfl⟩ rfl⟩
    · obtain ⟨blks, lists', b, hserved⟩ := h.served (Nat.pos_of_ne_zero hsize) hok hrun
      have hne : p ≠ null := by
        rw [hserved.pointer]
        exact Nat.succ_ne_zero _
      refine ⟨lists', ⟨hserved.shape, ?_, ?_, Or.inr ⟨m.pid, hserved.heapBase⟩⟩,
        .mallock hserved rfl (if_neg hne)⟩
      · rw [Machine.pool, hserved.acquired]
        exact hserved.tracks
      · rw [hserved.acquired]
        exact hserved.all
  | free fuel p =>
    obtain ⟨k, hfree, rfl⟩ := Option.map_eq_some_iff.mp hstep
    rcases free_cases hfree with rfl | ⟨b, hvalid, hget, hb, rfl⟩
    · exact ⟨lists, ⟨h.shape, h.tracks, h.all, h.heapBase⟩, .missed rfl rfl rfl rfl⟩
    · obtain ⟨q, hq, hmem⟩ := h.found hget hb
      have hjoin := hok hvalid b hget hb
      rw [hq] at hjoin
      obtain ⟨lists', hreleased⟩ := h.all.release h.liveDisjoint hmem hjoin
      exact ⟨lists', ⟨h.shape, h.tracks, hreleased.all, h.heapBase⟩,
        .free rfl hget hq hmem hreleased rfl⟩
  | run sched process =>
    obtain rfl := Option.some.inj hstep
    exact ⟨lists, ⟨h.shape, h.tracks, h.all, h.heapBase⟩, .quiet ⟨rfl, rfl⟩ rfl⟩
  | allocPage owner pages =>
    obtain rfl := Option.some.inj hstep
    have hheap : (reply owner pages m.kernel).2.heap = m.kernel.heap := by
      funext q
      rw [OutOfPages.State.heap, reply_process, OutOfPages.State.heap]
    obtain ⟨ns, hns⟩ := h.tracks
    refine ⟨lists, ⟨?_, heapStep_tracks hns (mergeSafe_alloc _ _) (reply_heapStep owner pages m),
      ?_, ?_⟩, .quiet ⟨rfl, rfl⟩ rfl⟩
    · rw [reply_buddyArray]
      exact h.shape.allocPage pages
    · rw [hheap]
      exact ⟨fun q => (h.all.listed q).mono (List.subset_append_right _ _), h.all.apart⟩
    · rw [hheap]
      exact h.heapBase
  | deallocPage blk =>
    obtain ⟨hsafe, hout⟩ := hok
    obtain ⟨hmem, r, hrun, rfl⟩ := step_deallocPage hstep
    obtain ⟨ns, hns⟩ := h.tracks
    refine ⟨lists, ⟨h.shape.deallocPage hrun, heapStep_tracks hns hsafe ?_, ?_, h.heapBase⟩,
      .quiet ⟨rfl, rfl⟩ rfl⟩
    · have hmem' : blk ∈ m.pool.live := hmem
      simp only [heapStep, if_pos hmem']
      rw [show m.pool.tree = m.kernel.buddyArray from rfl, hrun]
      rfl
    · exact h.all.erase fun q b hb => hout q b
        (((h.all.listed q).visits_iff h.liveDisjoint).mpr hb)

theorem invariant_boot (h : IsBoot m) : Invariant m fun _ => [] := by
  refine ⟨?_, ⟨[], ?_⟩, ⟨fun q => ⟨?_, by simp, by simp⟩, fun q o _ => by simp [bytes]⟩,
    Or.inl h.heapBase⟩
  · rw [h.buddyArray]
    exact shape_createHeap
  · rw [Machine.pool, h.buddyArray, h.pages]
    exact tracks_emptyHeap
  · exact h.heap q

theorem reachable_invariant (h : (system.restrict Sound).Reachable m) :
    ∃ lists, Invariant m lists := by
  induction h with
  | start hs => exact ⟨_, invariant_boot hs⟩
  | next _ hstep ih =>
    obtain ⟨lists, hinv⟩ := ih
    obtain ⟨lists', hinv', -⟩ := step_cases hinv hstep.1 hstep.2
    exact ⟨lists', hinv'⟩

theorem Invariant.isBlock_iff (h : Invariant m lists) :
    IsBlock q m.kernel b ↔ b ∈ lists q := (h.all.listed q).visits_iff h.liveDisjoint

/-- A kernel in which nothing has happened. -/
def booted : Machine := ⟨kernelWith createHeap, [], fun _ => []⟩

/-- The only process is `pid`. -/
def running (pid : ℤ) : Scheduler.State :=
  { Scheduler.boot (fun _ => ⟨1, ⟨pid, .running⟩⟩) with current := 1, cardinalProcesses := 1 }

/-- Process `pid` runs. -/
def Action.switchTo (pid : ℤ) : Action := .run (running pid) booted.kernel.process

theorem isBoot_booted : IsBoot booted := ⟨rfl, rfl, fun _ => rfl, rfl, fun _ => rfl⟩

end

end GatOS.ProcessHeaps
