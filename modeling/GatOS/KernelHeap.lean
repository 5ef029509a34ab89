import GatOS.MallocBlocks
import GatOS.Transition

/-!
# The heap of the kernel

`kmalloc` cuts blocks from one region of the memory and frees none, so the free block is always
the last one.
-/
namespace GatOS.Malloc
open MachineInt BuddyAllocator LinkedRing DoublyLinkedList Tiling Transition

def kernelHeapStart : ℕ := 0x4000

def kernelHeapSize : ℕ := pageSize * 17

/-- The address that `mapModulesLogical` writes eight bytes to. -/
def userEntry : ℕ := 0x10000 + 4 * 8

structure KernelHeap where
  memory : Memory
  kernelBase : ℕ

def initializeKernelHeap (k : KernelHeap) : KernelHeap where
  memory := Function.update k.memory kernelHeapStart
    { size := kernelHeapSize, free := true, next := null, prev := null }
  kernelBase := kernelHeapStart

def kmalloc (fuel size : ℕ) (k : KernelHeap) : Option (ℕ × KernelHeap) :=
  if k.kernelBase = null then some (kernelHeapStart, k)
  else if size = 0 then some (null, k)
  else
    let s := align4 size
    (findFirstFreeBlock k.memory s fuel k.kernelBase).map fun freeBlock =>
      if freeBlock = null then (null, k)
      else (dataStart freeBlock, { k with memory := takeBlock freeBlock s k.memory })

/-! ### Runs -/

structure KernelMachine where
  heap : KernelHeap
  results : List Result

structure KernelRequest where
  fuel : ℕ
  size : UInt32

def kernelCall (m : KernelMachine) (c : KernelRequest) : Option KernelMachine :=
  (kmalloc c.fuel c.size.toNat m.heap).map fun r =>
    ⟨r.2, if r.1 = null then m.results else ⟨r.1, c.size.toNat⟩ :: m.results⟩

def IsInitialized (m : KernelMachine) : Prop :=
  (∃ k, m.heap = initializeKernelHeap k) ∧ m.results = []

def kernelSystem : System KernelMachine KernelRequest := ofStep IsInitialized kernelCall

/-- The result is large enough, inside the region and off the page directory. -/
structure Result.Fits (memory : Memory) (r : Result) : Prop where
  large : r.size ≤ (memory r.block).size
  start : kernelHeapStart ≤ r.pointer
  limit : r.pointer + (memory r.block).size ≤ kernelHeapStart + kernelHeapSize
  entry : Disjoint (Set.Ico userEntry (userEntry + 8)) (r.bytes memory)

/-- A block of the heap is found over `next`. -/
def IsKernelBlock (k : KernelHeap) : ℕ → Prop := Visits (nextOf k.memory) null k.kernelBase

/-- Every result fits and overlaps no other result and no header. -/
structure InRegion (m : KernelMachine) : Prop where
  fits : ∀ r ∈ m.results, r.Fits m.heap.memory
  apart : m.results.Pairwise fun r r' => Disjoint (r.bytes m.heap.memory) (r'.bytes m.heap.memory)
  headers : ∀ r ∈ m.results, ∀ b, IsKernelBlock m.heap b →
    Disjoint (Set.Ico b (dataStart b)) (r.bytes m.heap.memory)

/-- The size can be rounded up, the free block is so large that it is cut, and what is cut off
does not reach over the entry of the page directory. -/
def KernelSound (m : KernelMachine) (c : KernelRequest) : Prop :=
  c.size.toNat = 0 ∨
    ∀ b ∈ findFirstFreeBlock m.heap.memory (align4 c.size.toNat) c.fuel m.heap.kernelBase,
      b ≠ null →
        c.size.toNat + 3 < 2 ^ 32 ∧
        (m.heap.memory b).size > align4 c.size.toNat + 4 + blockStructSize ∧
        (dataStart b + align4 c.size.toNat ≤ userEntry ∨ userEntry + 8 ≤ dataStart b)

instance (m : KernelMachine) (c : KernelRequest) : Decidable (KernelSound m c) :=
  inferInstanceAs (Decidable (_ ∨ ∀ b ∈ findFirstFreeBlock .., _))

/-! ### The blocks of the kernel -/

/-- The header of the first block is not part of the size. -/
def kernelRegion : ℕ × ℕ :=
  (kernelHeapStart, kernelHeapStart + blockStructSize + kernelHeapSize)

theorem bounded_kernelRegion : Bounded [kernelRegion] where
  nonempty := by decide
  apart := List.pairwise_singleton _ _
  small := by decide

structure KernelInvariant (m : KernelMachine) (l : List ℕ) : Prop where
  base : m.heap.kernelBase = kernelHeapStart
  arranged : Arranged m.heap.memory kernelHeapStart [kernelRegion] l
  free : ∀ b ∈ l, (m.heap.memory b).free = true → (m.heap.memory b).next = null
  used : ∀ r ∈ m.results, ∃ b ∈ l, r.pointer = dataStart b ∧ (m.heap.memory b).free = false
  nodup : (m.results.map Result.pointer).Nodup

variable {m m' : KernelMachine} {c : KernelRequest} {l : List ℕ} {b : ℕ}

theorem kernelInvariant_initialized (h : IsInitialized m) :
    KernelInvariant m [kernelHeapStart] := by
  obtain ⟨⟨k, hk⟩, hresults⟩ := h
  have hat : m.heap.memory kernelHeapStart = ⟨kernelHeapSize, null, null, true⟩ := by
    rw [hk]
    exact Function.update_self kernelHeapStart _ k.memory
  refine ⟨by rw [hk]; rfl, ⟨?_, ?_⟩, fun b hb _ => ?_, ?_, ?_⟩
  · exact isList_singleton (by decide) (by rw [nextOf, hat]) (by rw [prevOf, hat])
  · refine fills_singleton.mpr ⟨rfl, ?_⟩
    show kernelHeapStart + extent m.heap.memory kernelHeapStart = kernelRegion.2
    rw [extent, hat]
    rfl
  · rw [List.mem_singleton.mp hb, hat]
  · rw [hresults]
    exact fun r hr => absurd hr List.not_mem_nil
  · rw [hresults]
    exact List.nodup_nil

/-- A call that returns a block takes the first free one that is large enough. -/
theorem kernelCall_cases (hbase : m.heap.kernelBase = kernelHeapStart)
    (h : kernelCall m c = some m') :
    (m' = m ∧ KernelSound m c) ∨ c.size.toNat ≠ 0 ∧
      ∃ b, findFirstFreeBlock m.heap.memory (align4 c.size.toNat) c.fuel kernelHeapStart = some b ∧
        b ≠ null ∧ m' = ⟨{ m.heap with memory := takeBlock b (align4 c.size.toNat) m.heap.memory },
          ⟨dataStart b, c.size.toNat⟩ :: m.results⟩ := by
  have hne : m.heap.kernelBase ≠ null := by
    rw [hbase]
    decide
  obtain ⟨⟨p, k⟩, hmalloc, rfl⟩ := Option.map_eq_some_iff.mp h
  rw [kmalloc, if_neg hne] at hmalloc
  by_cases hsize : c.size.toNat = 0
  · rw [if_pos hsize] at hmalloc
    obtain ⟨rfl, rfl⟩ := Prod.mk.inj (Option.some.inj hmalloc)
    exact Or.inl ⟨rfl, Or.inl hsize⟩
  · rw [if_neg hsize] at hmalloc
    obtain ⟨b, hfind, heq⟩ := Option.map_eq_some_iff.mp hmalloc
    by_cases hb : b = null
    · rw [if_pos hb] at heq
      obtain ⟨rfl, rfl⟩ := Prod.mk.inj heq
      refine Or.inl ⟨rfl, Or.inr fun b' hb' hne' => absurd ?_ hne'⟩
      rw [Option.mem_def] at hb'
      exact (Option.some.inj (hb'.symm.trans hfind)).trans hb
    · rw [if_neg hb] at heq
      obtain ⟨rfl, rfl⟩ := Prod.mk.inj heq
      rw [hbase] at hfind
      have hdata : dataStart b ≠ null := Nat.succ_ne_zero _
      exact Or.inr ⟨hsize, b, hfind, hb, by rw [if_neg hdata]⟩

/-- The free block is the last one and ends where the region ends. -/
theorem KernelInvariant.found (h : KernelInvariant m l) {size fuel : ℕ}
    (hfind : findFirstFreeBlock m.heap.memory size fuel kernelHeapStart = some b)
    (hb : b ≠ null) :
    b ∈ l ∧ (m.heap.memory b).free = true ∧ (m.heap.memory b).next = null ∧
      size < (m.heap.memory b).size ∧ kernelHeapStart ≤ b ∧
      b + (m.heap.memory b).size = kernelHeapStart + kernelHeapSize := by
  obtain ⟨hmem, hfree, hlt⟩ :=
    (findFirstFreeBlock_spec h.arranged.list.forward hfind).resolve_left hb
  have hnext := h.free b hmem hfree
  obtain ⟨l₀, rfl⟩ := h.arranged.list.eq_concat hmem hnext
  have hfills : Fills (extent m.heap.memory) [(kernelRegion.1, kernelRegion.2)] (l₀ ++ [b]) :=
    h.arranged.fills
  obtain ⟨hlo, hhi⟩ := tiles_concat.mp (fills_singleton.mp hfills)
  have hle := Tiles.le hlo
  refine ⟨hmem, hfree, hnext, hlt, hle, ?_⟩
  dsimp only [extent, kernelRegion] at hhi
  omega

theorem call_kernelInvariant {c' : KernelRequest} (h : KernelInvariant m l)
    (hcall : kernelCall m c' = some m') :
    ∃ l', KernelInvariant m' l' ∧ ∀ r ∈ m.results,
      (m'.heap.memory r.block).size = (m.heap.memory r.block).size := by
  rcases kernelCall_cases h.base hcall with ⟨rfl, -⟩ | ⟨hsize, b, hfind, hb, rfl⟩
  · exact ⟨l, h, fun r _ => rfl⟩
  · obtain ⟨hmem, hfree, hnext, hlt, -⟩ := h.found hfind hb
    obtain ⟨l', htake, hl', htaken, -, hkept⟩ :=
      takeBlock_spec (align4 c'.size.toNat) h.arranged bounded_kernelRegion hmem fun _ => hnext
    have hother : ∀ c ∈ l, c ≠ b → c ∈ l.filter (· ≠ b) := fun c hc hcb =>
      List.mem_filter.mpr ⟨hc, decide_eq_true hcb⟩
    have hused : ∀ r ∈ m.results, ∃ c ∈ l, r.pointer = dataStart c ∧
        (m.heap.memory c).free = false ∧ c ≠ b := fun r hr => by
      obtain ⟨c, hc, hpointer, hin⟩ := h.used r hr
      exact ⟨c, hc, hpointer, hin, fun he => by simp [he, hfree] at hin⟩
    have hsub : l ⊆ l' := by
      rcases hl' with rfl | ⟨y, rfl, -⟩
      · exact List.Subset.refl _
      · exact List.subset_append_left l [y]
    -- only the last block was free, and it is in use now
    have hnotfree : ∀ c ∈ l, (takeBlock b (align4 c'.size.toNat) m.heap.memory c).free ≠ true := by
      intro c hc hcfree
      have hcb : c ≠ b := fun he => by simp [he, htaken] at hcfree
      have hcnext := h.free c hc ((hkept c (hother c hc hcb)).1.symm.trans hcfree)
      obtain ⟨l₁, hl₁⟩ := h.arranged.list.eq_concat hc hcnext
      obtain ⟨l₂, hl₂⟩ := h.arranged.list.eq_concat hmem hnext
      rw [hl₁] at hl₂
      exact hcb (List.singleton_inj.mp (List.append_inj' hl₂ rfl).2)
    refine ⟨l', ⟨h.base, htake, fun c hc hcfree => ?_, fun r hr => ?_, ?_⟩, fun r hr => ?_⟩
    · rcases hl' with rfl | ⟨y, rfl, -⟩
      · exact absurd hcfree (hnotfree c hc)
      · rcases List.mem_append.mp hc with hc | hc
        · exact absurd hcfree (hnotfree c hc)
        · obtain rfl := List.mem_singleton.mp hc
          exact htake.list.next_last
    · rcases List.mem_cons.mp hr with rfl | hr
      · exact ⟨b, hsub hmem, rfl, htaken⟩
      · obtain ⟨c, hc, hpointer, hin, hcb⟩ := hused r hr
        exact ⟨c, hsub hc, hpointer, (hkept c (hother c hc hcb)).1.trans hin⟩
    · refine List.nodup_cons.mpr ⟨fun hin => ?_, h.nodup⟩
      obtain ⟨r, hr, hrb⟩ := List.mem_map.mp hin
      obtain ⟨c, -, hpointer, -, hcb⟩ := hused r hr
      exact hcb (dataStart_inj (hpointer.symm.trans hrb))
    · obtain ⟨c, hc, hpointer, -, hcb⟩ := hused r hr
      rw [Result.block_eq hpointer]
      exact (hkept c (hother c hc hcb)).2

/-! ### The results -/

theorem Result.Fits.congr {memory memory' : Memory} {r : Result} (h : r.Fits memory)
    (heq : (memory' r.block).size = (memory r.block).size) : r.Fits memory' := by
  obtain ⟨hlarge, hstart, hlimit, hentry⟩ := h
  have hbytes : r.bytes memory' = r.bytes memory := by rw [Result.bytes, Result.bytes, heq]
  exact ⟨heq ▸ hlarge, hstart, heq ▸ hlimit, hbytes ▸ hentry⟩

/-- Sizes near the end of the type are rounded to zero. -/
theorem align4_large {n : ℕ} (hpos : 0 < n) (hn : n < 2 ^ 32) :
    (n + 3 < 2 ^ 32 → n ≤ align4 n) ∧ (2 ^ 32 ≤ n + 3 → align4 n = 0) := by
  unfold align4
  rw [uint32Sub_eq (by omega) hn]
  unfold uint32
  omega

/-- The bytes that a taken block keeps, against the end of the region and an entry in it. -/
theorem cut_iff {start heap entry n s size b size' : ℕ} (hpos : 0 < n) (hn : n < 2 ^ 32)
    (hround : (n + 3 < 2 ^ 32 → n ≤ s) ∧ (2 ^ 32 ≤ n + 3 → s = 0)) (hlt : s < size)
    (hend : b + size = start + heap) (hheap : heap < 2 ^ 31) (hstart : start ≤ b)
    (hsize : size' = if size > s + 4 + 28 ∧ s ≤ size then s else size) :
    (n ≤ size' ∧ start ≤ b + 28 ∧ b + 28 + size' ≤ start + heap ∧
        min (entry + 8) (b + 28 + size') ≤ max entry (b + 28)) ↔
      n + 3 < 2 ^ 32 ∧ size > s + 4 + 28 ∧ (b + 28 + s ≤ entry ∨ entry + 8 ≤ b + 28) := by
  split_ifs at hsize with hcut
  · subst hsize
    omega
  · subst hsize
    omega

/-- A block that is taken fits exactly when it is cut and lies off the page directory. -/
theorem KernelInvariant.fits_iff (h : KernelInvariant m l) {n fuel : ℕ} (hpos : 0 < n)
    (hn : n < 2 ^ 32)
    (hfind : findFirstFreeBlock m.heap.memory (align4 n) fuel kernelHeapStart = some b)
    (hb : b ≠ null) :
    Result.Fits (takeBlock b (align4 n) m.heap.memory) ⟨dataStart b, n⟩ ↔
      n + 3 < 2 ^ 32 ∧ (m.heap.memory b).size > align4 n + 4 + blockStructSize ∧
        (dataStart b + align4 n ≤ userEntry ∨ userEntry + 8 ≤ dataStart b) := by
  obtain ⟨hmem, -, hnext, hlt, hstart, hend⟩ := h.found hfind hb
  obtain ⟨-, -, -, -, hsize, -⟩ :=
    takeBlock_spec (align4 n) h.arranged bounded_kernelRegion hmem fun _ => hnext
  have hblock : (⟨dataStart b, n⟩ : Result).block = b := Result.block_eq rfl
  have hheap : kernelHeapSize < 2 ^ 31 := by decide
  have hround := align4_large hpos hn
  have huint : uint32 (align4 n + 4 + blockStructSize) = align4 n + 4 + blockStructSize := by
    refine uint32_eq ?_
    unfold blockStructSize
    omega
  rw [huint] at hsize
  have hcut := @cut_iff kernelHeapStart kernelHeapSize userEntry n _ _ b _
    hpos hn hround hlt hend hheap hstart hsize
  refine Iff.trans ?_ hcut
  constructor
  · rintro ⟨hlarge, hlow, hlimit, hentry⟩
    rw [Result.bytes, Set.Ico_disjoint_Ico] at hentry
    rw [hblock] at hlarge hlimit hentry
    exact ⟨hlarge, hlow, hlimit, hentry⟩
  · rintro ⟨hlarge, hlow, hlimit, hentry⟩
    refine ⟨?_, hlow, ?_, ?_⟩
    · rw [hblock]
      exact hlarge
    · rw [hblock]
      exact hlimit
    · rw [Result.bytes, Set.Ico_disjoint_Ico, hblock]
      exact hentry

/-- The results overlap neither each other nor a header, whatever the requests are. -/
theorem KernelInvariant.inRegion_iff (h : KernelInvariant m l) :
    InRegion m ↔ ∀ r ∈ m.results, r.Fits m.heap.memory := by
  refine ⟨InRegion.fits, fun hfits => ⟨hfits, ?_, fun r hr b hb => ?_⟩⟩
  · refine h.arranged.results_pairwise bounded_kernelRegion (fun r hr => ?_) h.nodup
    obtain ⟨b, hb, hpointer, -⟩ := h.used r hr
    exact ⟨b, hb, hpointer⟩
  · obtain ⟨c, hc, hpointer, -⟩ := h.used r hr
    have hbl : b ∈ l := (h.base ▸ h.arranged.list).visits_iff.mp hb
    rw [Result.bytes_eq hpointer]
    refine Set.disjoint_left.mpr fun a ha ha' => ?_
    obtain ⟨halo, hahi⟩ := ha
    obtain ⟨hclo, hchi⟩ := ha'
    have heq : b = c := h.arranged.eq_of_mem bounded_kernelRegion (a := a) hbl hc
      ⟨halo, hahi.trans_le (Nat.add_le_add_left (Nat.le_add_right _ _) b)⟩
      ⟨(Nat.le_add_right c _).trans hclo, hchi⟩
    exact absurd hahi (not_lt.mpr (heq ▸ hclo))

theorem call_inRegion_iff (h : KernelInvariant m l) (hregion : InRegion m)
    (hcall : kernelCall m c = some m') : InRegion m' ↔ KernelSound m c := by
  obtain ⟨l', h', hkept⟩ := call_kernelInvariant h hcall
  rcases kernelCall_cases h.base hcall with ⟨rfl, hsound⟩ | ⟨hsize, b, hfind, hb, rfl⟩
  · exact iff_of_true hregion hsound
  · have hfits := h.fits_iff (Nat.pos_of_ne_zero hsize) c.size.toNat_lt hfind hb
    have hsound : KernelSound m c ↔ c.size.toNat + 3 < 2 ^ 32 ∧
        (m.heap.memory b).size > align4 c.size.toNat + 4 + blockStructSize ∧
        (dataStart b + align4 c.size.toNat ≤ userEntry ∨ userEntry + 8 ≤ dataStart b) := by
      rw [KernelSound, h.base, hfind]
      simp [hsize, hb]
    rw [h'.inRegion_iff, hsound, ← hfits]
    constructor
    · exact fun hall => hall _ List.mem_cons_self
    · intro hnew r hr
      rcases List.mem_cons.mp hr with rfl | hr
      · exact hnew
      · exact (hregion.fits r hr).congr (hkept r hr)

theorem reachable_kernelInvariant (h : kernelSystem.Reachable m) : ∃ l, KernelInvariant m l := by
  induction h with
  | start hs => exact ⟨_, kernelInvariant_initialized hs⟩
  | next _ hstep ih =>
    obtain ⟨l, hl⟩ := ih
    obtain ⟨l', hl', -⟩ := call_kernelInvariant hl hstep
    exact ⟨l', hl'⟩

/-- After sound calls all results lie in the region, and a further call keeps it so exactly when
it is sound too. -/
theorem kernel_heap_in_region (h : (kernelSystem.restrict KernelSound).Reachable m) :
    InRegion m ∧ ∀ c m', kernelCall m c = some m' → (InRegion m' ↔ KernelSound m c) := by
  have hregion : InRegion m := by
    induction h with
    | start hs =>
      refine (kernelInvariant_initialized hs).inRegion_iff.mpr ?_
      rw [hs.2]
      exact fun r hr => absurd hr List.not_mem_nil
    | next hr hstep ih =>
      obtain ⟨l, hl⟩ := reachable_kernelInvariant hr.of_restrict
      exact (call_inRegion_iff hl ih hstep.2).mpr hstep.1
  obtain ⟨l, hl⟩ := reachable_kernelInvariant h.of_restrict
  exact ⟨hregion, fun c m' hcall => call_inRegion_iff hl hregion hcall⟩

def kernelStarted : KernelMachine where
  heap := initializeKernelHeap ⟨fun _ => ⟨0, null, null, false⟩, null⟩
  results := []

theorem isInitialized_kernelStarted : IsInitialized kernelStarted := ⟨⟨_, rfl⟩, rfl⟩

/-- Three blocks below the entry of the page directory, and one above it. -/
theorem kernel_heap_in_region_four : ∃ m,
    (kernelSystem.restrict KernelSound).Reachable m ∧
      m.results = [⟨0x10038, 500⟩, ⟨0x10004, 24⟩, ⟨0x406c, 49020⟩, ⟨0x401c, 50⟩] ∧ InRegion m := by
  obtain ⟨m, hm, hresults⟩ := reachable_restrict_of_execute IsInitialized
    isInitialized_kernelStarted (show (execute (guarded KernelSound kernelCall) kernelStarted
      [⟨9, 50⟩, ⟨9, 49020⟩, ⟨9, 0⟩, ⟨9, 70000⟩, ⟨9, 24⟩, ⟨9, 500⟩]).map KernelMachine.results =
      some [⟨0x10038, 500⟩, ⟨0x10004, 24⟩, ⟨0x406c, 49020⟩, ⟨0x401c, 50⟩] by decide +kernel)
  exact ⟨m, hm, hresults, (kernel_heap_in_region hm).1⟩

/-- A result may cover the page directory, end behind the region or have no bytes at all. -/
theorem kernel_heap_not_in_region :
    (∃ m, kernelSystem.Reachable m ∧ ∃ r ∈ m.results,
      r.pointer ≤ userEntry ∧ userEntry + 8 ≤ r.pointer + r.size) ∧
    (∃ m, kernelSystem.Reachable m ∧ ∃ r ∈ m.results,
      kernelHeapStart + kernelHeapSize < r.pointer + r.size) ∧
    ∃ m, kernelSystem.Reachable m ∧ ∃ r ∈ m.results,
      (m.heap.memory r.block).size < r.size := by
  have hrun : ∀ c r s, (kernelCall kernelStarted c).map
      (fun m => (m.results, (m.heap.memory kernelHeapStart).size)) = some ([r], s) →
      ∃ m, kernelSystem.Reachable m ∧ m.results = [r] ∧
        (m.heap.memory kernelHeapStart).size = s := by
    intro c r s h
    obtain ⟨m, hm, heq⟩ := Option.map_eq_some_iff.mp h
    obtain ⟨hresults, hs⟩ := Prod.mk.inj heq
    exact ⟨m, (System.Reachable.start isInitialized_kernelStarted).next hm, hresults, hs⟩
  refine ⟨?_, ?_, ?_⟩
  · obtain ⟨m, hm, hresults, -⟩ := hrun ⟨1, 50000⟩ ⟨0x401c, 50000⟩ 50000 (by decide +kernel)
    exact ⟨m, hm, _, by rw [hresults]; exact List.mem_cons_self, by decide, by decide⟩
  · obtain ⟨m, hm, hresults, -⟩ := hrun ⟨1, 69628⟩ ⟨0x401c, 69628⟩ 69632 (by decide +kernel)
    exact ⟨m, hm, _, by rw [hresults]; exact List.mem_cons_self, by decide⟩
  · obtain ⟨m, hm, hresults, hsize⟩ := hrun ⟨1, 0xffffffff⟩ ⟨0x401c, 0xffffffff⟩ 0
      (by decide +kernel)
    refine ⟨m, hm, _, by rw [hresults]; exact List.mem_cons_self, ?_⟩
    rw [show (⟨0x401c, 0xffffffff⟩ : Result).block = kernelHeapStart from rfl, hsize]
    decide

end GatOS.Malloc
