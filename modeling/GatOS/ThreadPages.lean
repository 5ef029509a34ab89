import GatOS.OutOfPagesCalls
import GatOS.ProcessTeardown

/-!
# Giving back the pages of a thread

`freeThreadPages` passes stack pointers to `deallocPage`. The one of the kernel stack is the end of
its block, which is the beginning of the pages behind it.
-/
namespace GatOS.Threads
open BuddyAllocator HeapTree Scheduler Transition

/-- The call of `createThread` finds a place for the thread, and `allocPage` returns these
blocks. -/
structure AllocatesThread (pid : ℤ) (s : Machine) (t page1 page2 : ℕ) : Prop where
  spot : (findNextSpot (s.process pid).thread 3).1 ≠ none
  thread : (s.allocPage pid (numberOfPagesToAlloc threadSize)).1 = t
  user : ((s.allocPage pid (numberOfPagesToAlloc threadSize)).2.allocPage pid 2).1 = page1
  kernel : (((s.allocPage pid (numberOfPagesToAlloc threadSize)).2.allocPage pid 2).2.allocPage
    pid 2).1 = page2
  ne_null : t ≠ null ∧ page1 ≠ null ∧ page2 ≠ null

theorem allocatesThread_iff {pid : ℤ} {s : Machine} {t page1 page2 : ℕ} :
    AllocatesThread pid s t page1 page2 ↔
      (findNextSpot (s.process pid).thread 3).1 ≠ none ∧
        (s.allocPage pid (numberOfPagesToAlloc threadSize)).1 = t ∧
          ((s.allocPage pid (numberOfPagesToAlloc threadSize)).2.allocPage pid 2).1 = page1 ∧
            (((s.allocPage pid (numberOfPagesToAlloc threadSize)).2.allocPage pid 2).2.allocPage
              pid 2).1 = page2 ∧ t ≠ null ∧ page1 ≠ null ∧ page2 ≠ null :=
  ⟨fun h => ⟨h.spot, h.thread, h.user, h.kernel, h.ne_null⟩,
    fun h => ⟨h.1, h.2.1, h.2.2.1, h.2.2.2.1, h.2.2.2.2⟩⟩

instance (pid : ℤ) (s : Machine) (t page1 page2 : ℕ) :
    Decidable (AllocatesThread pid s t page1 page2) :=
  decidable_of_iff' _ allocatesThread_iff

/-- The blocks `own`, which were marked, have become free, and no other block that was acquired for
somebody has changed its mark. -/
structure FreesBlocks (own : List Block) (s t : Machine) : Prop where
  freed : ∀ blk ∈ own, ∀ c, IsNode c → blockOf c = blk →
    s.buddyArray.mark c ≠ .empty ∧ t.buddyArray.mark c = .empty
  others : ∀ p, ∀ blk ∈ s.owned p, blk ∉ own → ∀ c, IsNode c → blockOf c = blk →
    t.buddyArray.mark c = s.buddyArray.mark c

/-- The blocks of the Thread record, of the user stack and of the kernel stack. -/
def ownBlocks (t page1 page2 : ℕ) : List Block := [⟨t, 1⟩, ⟨page1, 2⟩, ⟨page2, 2⟩]

/-! ### Freeing at an address -/

/-- The leaf of the page at an address. -/
def leafAt (address : ℕ) : ℕ := 2 ^ height + (address - baseMemory) / pageSize

section

variable {b c : BuddyArray} {address left x y j : ℕ}

theorem leafAt_node (h : leafAt address < 2 ^ (height + 1)) :
    IsNode (leafAt address) ∧ depth (leafAt address) = height := by
  have hle : 2 ^ height ≤ leafAt address := Nat.le_add_right _ _
  have hne : leafAt address ≠ 0 := by
    have := Nat.two_pow_pos height
    omega
  have hdepth : depth (leafAt address) = height := (depth_eq_iff hne).mpr ⟨hle, h⟩
  exact ⟨⟨hne, hdepth.le⟩, hdepth⟩

theorem nodeBase_leafAt (h : leafAt address < 2 ^ (height + 1)) :
    nodeBase (leafAt address) =
      baseMemory + pageSize * ((address - baseMemory) / pageSize) := by
  have hdepth := (leafAt_node h).2
  rw [nodeBase, firstLeaf, hdepth, Nat.sub_self, Nat.pow_zero, Nat.mul_one, leafAt,
    Nat.add_sub_cancel_left]

/-- The page number that `deallocPage` computes. -/
theorem dealloc_index (h : baseMemory ≤ address) :
    ((address : ℤ) - baseMemory).tdiv pageSize = ((address - baseMemory) / pageSize : ℕ) := by
  rw [← Nat.cast_sub h]
  rfl

/-- A call with an address in a page frees at this page; behind the last page it would store outside
the marks. -/
theorem deallocPage_at (h : baseMemory ≤ address) (hle : address ≤ baseMemory + memory) :
    deallocPage address b =
      if leafAt address < 2 ^ (height + 1) then deallocPage (nodeBase (leafAt address)) b
      else none := by
  split_ifs with hlt
  · have hbase := nodeBase_leafAt hlt
    have hindex := dealloc_index (show baseMemory ≤ nodeBase (leafAt address) by omega)
    have hsame : (nodeBase (leafAt address) - baseMemory) / pageSize =
        (address - baseMemory) / pageSize := by
      rw [hbase, Nat.add_sub_cancel_left, Nat.mul_div_cancel_left _ (by decide)]
    rw [hsame] at hindex
    simp only [BuddyAllocator.deallocPage, isValid, dealloc_index h, hindex]
  · have hmax : (address - baseMemory) / pageSize = numberOfPages := by
      have hpages : numberOfPages = 1024 := by decide
      have hmem : memory = 4194304 := by decide
      unfold leafAt height at hlt
      unfold pageSize at *
      omega
    have hlast : ¬ (MachineInt.int32 (numberOfPages : ℕ) + (heapSize : ℤ) / 2 < heapSize) := by
      decide
    simp only [BuddyAllocator.deallocPage, dealloc_index h, hmax, isValid, if_true]
    rw [if_neg fun hin => hlast hin.2]

/-- The nodes that are not above the leaf keep their marks. -/
theorem deallocPage_off {r : ℤ × BuddyArray} (h : baseMemory ≤ address)
    (hle : address ≤ baseMemory + memory) (hrun : deallocPage address b = some r) (hj : j ≠ 0)
    (hoff : leafAt address < 2 ^ (height + 1) → ¬ Below (leafAt address) j) :
    r.2.mark j = b.mark j := by
  rw [deallocPage_at h hle] at hrun
  split_ifs at hrun with hlt
  obtain ⟨hnode, hdepth⟩ := leafAt_node hlt
  obtain ⟨b', hrun', -, -, -, hother, -⟩ := deallocPage_spec hnode b
  rw [hrun'] at hrun
  obtain rfl := Option.some.inj hrun
  apply hother j hj
  rw [firstLeaf, hdepth, Nat.sub_self, Nat.pow_zero, Nat.mul_one]
  exact hoff hlt

/-! ### The blocks of a thread -/

/-- Handing out a node marks it, and its parent, and leaves no node unmarked that was marked. -/
theorem setMark_ne_empty {i : ℕ} {m : Mark} (hm : m ≠ .empty) (h : b.mark j ≠ .empty) :
    (b.setMark i m).mark j ≠ .empty := by
  simp only [BuddyArray.mark, BuddyArray.setMark, Function.update_apply]
  split_ifs
  · exact hm
  · exact h

theorem fillUp_ne_empty (h : b.mark j ≠ .empty) : (fillUp left x b).mark j ≠ .empty := by
  induction left with
  | zero => exact setMark_ne_empty (by simp) h
  | succ left ih =>
    simp only [fillUp]
    split_ifs
    · exact setMark_ne_empty (by simp) ih
    · exact setMark_ne_empty (by simp) ih
    · exact ih

theorem fillUp_parent_ne_empty (hx : x / 2 ^ left ≠ 0) (hleft : 0 < left) :
    (fillUp left x b).mark (x / 2) ≠ .empty := by
  have hpath := fillUp_mark_path b hx hleft
  have hself := fillUp_mark_self b hx
  simp only [Nat.zero_add, pow_one, pow_zero, Nat.div_one, hself, if_true] at hpath
  rw [hpath]
  split_ifs <;> simp

/-- The node of a block that is handed out. -/
theorem exists_node {pages page : ℕ} (hb : Shape b)
    (hrun : BuddyAllocator.allocPage pages b = (some page, c)) :
    ∃ x, IsNode x ∧ depth x = height - Nat.clog 2 pages ∧ page = nodeBase x ∧ b.mark x = .empty ∧
      c = fillUp (height - Nat.clog 2 pages) x b ∧ x / 2 ^ (height - Nat.clog 2 pages) ≠ 0 := by
  rcases allocPage_found_or_none hb pages with ⟨h1, h2, x, hx, -, hrun'⟩ | ⟨-, hrun'⟩
  · rw [hrun] at hrun'
    obtain ⟨hpage, hc⟩ := Prod.mk.inj hrun'
    have hdepth : depth x = height - Nat.clog 2 pages := by
      have hclog : Nat.clog 2 pages ≤ height := Nat.clog_le_of_le_pow h2
      have hlevel := hx.level
      rw [getLevel_eq hb h1] at hlevel
      omega
    refine ⟨x, hx.node, hdepth, Option.some.inj hpage, hx.empty, hc, ?_⟩
    have hone : x / 2 ^ (height - Nat.clog 2 pages) = 1 :=
      div_pow_eq_one_iff.mpr ((depth_eq_iff hx.node.ne_zero).mp hdepth)
    rw [hone]
    exact one_ne_zero
  · rw [hrun] at hrun'
    exact absurd (Prod.mk.inj hrun').1 (by simp)

theorem leafAt_nodeBase (hx : IsNode x) (k : ℕ) :
    leafAt (nodeBase x + k) = firstLeaf height x + k / pageSize := by
  have hle := two_pow_le_firstLeaf hx.ne_zero hx.depth_le
  have hsub : nodeBase x + k - baseMemory = k + pageSize * (firstLeaf height x - 2 ^ height) := by
    rw [nodeBase]
    omega
  rw [leafAt, hsub, Nat.add_mul_div_left _ _ (by decide)]
  omega

/-- The pages under a node that holds two. -/
theorem leafAt_below_iff (hx : IsNode x) (hdepth : depth x = height - 1) (k : ℕ)
    (hlt : leafAt (nodeBase x + k) < 2 ^ (height + 1)) :
    Below (leafAt (nodeBase x + k)) x ↔ k < 2 * pageSize := by
  have hpages : height - depth x = 1 := by
    rw [hdepth]
    decide
  rw [leaf_below_iff hx.ne_zero (leafAt_node hlt).2, leafAt_nodeBase hx, hpages]
  unfold pageSize
  omega

theorem baseMemory_le_nodeBase (x : ℕ) : baseMemory ≤ nodeBase x := by
  unfold nodeBase
  omega

theorem nodeBase_end (hx : IsNode x) :
    nodeBase x + pageSize * nodePages x ≤ baseMemory + memory := by
  have hend := (blockOf_inside hx).2
  rwa [Block.stop, blockOf] at hend

theorem nodePages_two (hdepth : depth x = height - 1) : nodePages x = 2 := by
  rw [nodePages, hdepth]
  rfl

/-- The nodes of the two stacks, and the leaf of the record. -/
structure Placed (t page1 page2 leaf y x : ℕ) : Prop where
  record : IsNode leaf ∧ depth leaf = height ∧ t = nodeBase leaf
  user : IsNode y ∧ depth y = height - 1 ∧ page1 = nodeBase y
  kernel : IsNode x ∧ depth x = height - 1 ∧ page2 = nodeBase x
  record_off : ¬ Below leaf x
  user_off : y ≠ x

end

section

variable {s s₁ u v : Machine} {pid : ℤ} {t page1 page2 entryPoint leaf x y : ℕ}

/-- A call of `allocPage` that returns a block. -/
theorem allocPage_found {owner : ℤ} {pages page : ℕ}
    (h : (s.allocPage owner pages).1 = page) (hne : page ≠ null) :
    BuddyAllocator.allocPage pages s.buddyArray =
      (some page, (s.allocPage owner pages).2.buddyArray) := by
  unfold Machine.allocPage at h ⊢
  cases hrun : BuddyAllocator.allocPage pages s.buddyArray with
  | mk found b =>
    cases found with
    | none =>
      rw [hrun] at h
      exact absurd h.symm hne
    | some a =>
      rw [hrun] at h
      exact congrArg (fun a => (some a, b)) h

theorem AllocatesThread.placed (h : AllocatesThread pid s t page1 page2)
    (hb : OutOfPages.pageSystem.Reachable s.buddyArray) :
    ∃ leaf y x, Placed t page1 page2 leaf y x := by
  have hzero : Nat.clog 2 (numberOfPagesToAlloc threadSize) = 0 := by decide
  have hone : Nat.clog 2 2 = 1 := by decide
  have hheight : 0 < height - 1 := by decide
  have hshape := OutOfPages.reachable_shape hb
  obtain ⟨ht, hpage1, hpage2⟩ := h.ne_null
  have h1 := allocPage_found h.thread ht
  have h2 := allocPage_found h.user hpage1
  have h3 := allocPage_found h.kernel hpage2
  have hshape1 := hshape.allocPage (numberOfPagesToAlloc threadSize)
  rw [h1] at hshape1
  have hshape2 := hshape1.allocPage 2
  rw [h2] at hshape2
  obtain ⟨leaf, hleaf, hdleaf, hbleaf, -, hc1, hroot1⟩ := exists_node hshape h1
  obtain ⟨y, hy, hdy, hby, -, hc2, hroot2⟩ := exists_node hshape1 h2
  obtain ⟨x, hx, hdx, hbx, hempty, -, -⟩ := exists_node hshape2 h3
  rw [hzero, Nat.sub_zero] at hdleaf hc1 hroot1
  rw [hone] at hdy hdx hc2 hroot2
  refine ⟨leaf, y, x, ⟨hleaf, hdleaf, hbleaf⟩, ⟨hy, hdy, hby⟩, ⟨hx, hdx, hbx⟩, fun hbelow => ?_,
    fun he => ?_⟩
  · -- the parent of the record was marked before the search for the kernel stack
    have hparent : x = leaf / 2 := by
      have hdiv := below_eq_div hbelow hx.ne_zero
      rw [hdleaf, hdx] at hdiv
      exact hdiv
    have hmarked := fillUp_parent_ne_empty (b := s.buddyArray) hroot1 (by decide)
    rw [← hc1, ← hparent] at hmarked
    have hmarked2 := @fillUp_ne_empty _ (height - 1) y _ hmarked
    rw [← hc2] at hmarked2
    exact hmarked2 hempty
  · have hfull := fillUp_mark_self (s.allocPage pid (numberOfPagesToAlloc threadSize)).2.buddyArray
      hroot2
    rw [← hc2, he, hempty] at hfull
    exact Mark.noConfusion hfull

theorem allocPage_process (owner : ℤ) (pages : ℕ) (s : Machine) :
    (s.allocPage owner pages).2.process = s.process := by
  unfold Machine.allocPage
  split <;> rfl

theorem createThread_kernelStack (h : AllocatesThread pid s t page1 page2)
    (hcreate : s.createThread entryPoint pid = .ok s₁) :
    (s₁.record t).kernelStack = page2 + 2 * pageSize := by
  obtain ⟨hspot, ht, -, hkernel, hnull, -, -⟩ := h
  have hprocess : (((s.allocPage pid (numberOfPagesToAlloc threadSize)).2.allocPage
      pid 2).2.allocPage pid 2).2.process = s.process := by
    rw [allocPage_process, allocPage_process, allocPage_process]
  unfold Machine.createThread at hcreate
  dsimp only at hcreate
  rw [ht, hkernel, hprocess] at hcreate
  rcases hfind : findNextSpot (s.process pid).thread 3 with ⟨_ | index, thread⟩
  · rw [hfind] at hspot
    exact absurd rfl hspot
  · rw [hfind] at hcreate
    dsimp only at hcreate
    rw [if_neg hnull] at hcreate
    rw [← Except.ok.inj hcreate]
    exact congrArg Thread.kernelStack (@Function.update_self ℕ (fun _ => Thread) _ t _ _)

/-- A call that frees somewhere else. -/
theorem deallocPage_mark {address : ℕ} (hge : baseMemory ≤ address)
    (hle : address ≤ baseMemory + memory) (hx : x ≠ 0)
    (hoff : leafAt address < 2 ^ (height + 1) → ¬ Below (leafAt address) x)
    (hrun : s.deallocPage address = .ok v) : v.buddyArray.mark x = s.buddyArray.mark x := by
  unfold Machine.deallocPage at hrun
  split at hrun
  · simp at hrun
  · next r hdealloc =>
    obtain rfl := Except.ok.inj hrun
    exact deallocPage_off hge hle hdealloc hx hoff

theorem deallocPage_record {address : ℕ} (hrun : s.deallocPage address = .ok v) :
    v.record = s.record := by
  unfold Machine.deallocPage at hrun
  split at hrun
  · simp at hrun
  · rw [← Except.ok.inj hrun]

/-- The three calls, all with what the record says at the beginning. -/
theorem freeThreadPages_calls (hrun : u.freeThreadPages t = .ok v) :
    ∃ u₁ u₂ u₃, u.deallocPage (u.record t).userStack = .ok u₁ ∧
      u₁.deallocPage (u.record t).kernelStack = .ok u₂ ∧ u₂.deallocPage t = .ok u₃ ∧
        v.buddyArray = u₃.buddyArray := by
  unfold Machine.freeThreadPages at hrun
  obtain ⟨u₂, hstacks, hrest⟩ := bind_eq_ok.mp hrun
  obtain ⟨u₃, hrun3, rfl⟩ := map_eq_ok.mp hrest
  unfold Machine.freeStacks at hstacks
  split_ifs at hstacks
  obtain ⟨u₁, hrun1, hrun2⟩ := bind_eq_ok.mp hstacks
  rw [deallocPage_record hrun1] at hrun2
  exact ⟨u₁, u₂, u₃, hrun1, hrun2, hrun3, rfl⟩

/-- The block of the kernel stack keeps its mark. -/
theorem Placed.kernel_mark (h : Placed t page1 page2 leaf y x)
    (hkernel : (u.record t).kernelStack = page2 + 2 * pageSize)
    (huser : page1 ≤ (u.record t).userStack ∧ (u.record t).userStack < page1 + 2 * pageSize)
    (hrun : u.freeThreadPages t = .ok v) : v.buddyArray.mark x = u.buddyArray.mark x := by
  obtain ⟨⟨hleaf, hdleaf, ht⟩, ⟨hy, hdy, hpage1⟩, ⟨hx, hdx, hpage2⟩, hrecord, hyx⟩ := h
  obtain ⟨u₁, u₂, u₃, hrun1, hrun2, hrun3, hv⟩ := freeThreadPages_calls hrun
  rw [hpage1] at huser
  rw [hpage2] at hkernel
  obtain ⟨k, hk⟩ := Nat.exists_eq_add_of_le huser.1
  have hk2 : k < 2 * pageSize := by omega
  have hyend := nodeBase_end hy
  have hxend := nodeBase_end hx
  have hleafend := nodeBase_end hleaf
  rw [nodePages_two hdy] at hyend
  rw [nodePages_two hdx] at hxend
  have h1 : u₁.buddyArray.mark x = u.buddyArray.mark x := by
    have hub := baseMemory_le_nodeBase y
    refine deallocPage_mark (by omega) (by omega) hx.ne_zero (fun hlt hbelow => ?_) hrun1
    rw [hk] at hlt hbelow
    have huser := (leafAt_below_iff hy hdy k hlt).mpr hk2
    rcases huser.comparable hbelow with hb | hb
    · exact hyx (hb.eq_of_depth hx.ne_zero (by rw [hdy, hdx]))
    · exact hyx (hb.eq_of_depth hy.ne_zero (by rw [hdy, hdx])).symm
  have h2 : u₂.buddyArray.mark x = u₁.buddyArray.mark x := by
    have hxb := baseMemory_le_nodeBase x
    rw [hkernel] at hrun2
    refine deallocPage_mark (by omega) (by omega) hx.ne_zero (fun hlt hbelow => ?_) hrun2
    exact lt_irrefl _ ((leafAt_below_iff hx hdx _ hlt).mp hbelow)
  have h3 : u₃.buddyArray.mark x = u₂.buddyArray.mark x := by
    rw [ht] at hrun3
    refine deallocPage_mark (baseMemory_le_nodeBase leaf) (by omega) hx.ne_zero
      (fun _ hbelow => hrecord ?_) hrun3
    have hat := leafAt_nodeBase hleaf 0
    rw [firstLeaf, hdleaf, Nat.sub_self, Nat.pow_zero, Nat.mul_one, Nat.zero_div] at hat
    rw [Nat.add_zero, Nat.add_zero] at hat
    rwa [hat] at hbelow
  calc v.buddyArray.mark x = u₃.buddyArray.mark x := by rw [hv]
    _ = u₂.buddyArray.mark x := h3
    _ = u₁.buddyArray.mark x := h2
    _ = u.buddyArray.mark x := h1

/-- Whatever happens between the creation of a thread and its end, which leaves the pointer to the
kernel stack as it is, the block of the kernel stack is not given back. -/
theorem freeThreadPages_never (hb : OutOfPages.pageSystem.Reachable s.buddyArray)
    (h : AllocatesThread pid s t page1 page2) (hcreate : s.createThread entryPoint pid = .ok s₁)
    (hkernel : (u.record t).kernelStack = (s₁.record t).kernelStack)
    (huser : page1 ≤ (u.record t).userStack ∧ (u.record t).userStack < page1 + 2 * pageSize) :
    ¬ ∃ v, u.freeThreadPages t = .ok v ∧ FreesBlocks (ownBlocks t page1 page2) u v := by
  rintro ⟨v, hrun, hfrees⟩
  obtain ⟨leaf, y, x, hplaced⟩ := h.placed hb
  rw [createThread_kernelStack h hcreate] at hkernel
  have hkeeps := hplaced.kernel_mark hkernel huser hrun
  obtain ⟨hx, hdx, hpage2⟩ := hplaced.kernel
  have hblock : blockOf x = ⟨page2, 2⟩ := by
    rw [blockOf, nodePages_two hdx, hpage2]
  obtain ⟨hfull, hempty⟩ := hfrees.freed ⟨page2, 2⟩ (by simp [ownBlocks]) x hx hblock
  exact hfull (hkeeps.symm.trans hempty)

end

/-! ### Concrete runs -/

/-- The first thread, right after its creation. -/
theorem freeThreadPages_first : ∃ s₁, zeroMachine.createThread 7 0 = .ok s₁ ∧
    ¬ ∃ v, s₁.freeThreadPages 16777216 = .ok v ∧
      FreesBlocks (ownBlocks 16777216 16785408 16793600) s₁ v := by
  have hrun : (zeroMachine.createThread 7 0).toOption.any (fun s₁ =>
      16785408 ≤ (s₁.record 16777216).userStack ∧
        (s₁.record 16777216).userStack < 16785408 + 2 * pageSize) = true := by
    rw [zeroMachine, empty, createHeap_eq]
    decide +kernel
  have hallocates : AllocatesThread 0 zeroMachine 16777216 16785408 16793600 := by
    refine ⟨by decide, ?_, ?_, ?_, by decide⟩
    all_goals
      rw [zeroMachine, empty, createHeap_eq]
      decide +kernel
  obtain ⟨s₁, hcreate, huser⟩ := ok_of_any hrun
  have huser := of_decide_eq_true huser
  have hreach : OutOfPages.pageSystem.Reachable zeroMachine.buddyArray :=
    System.Reachable.start rfl
  exact ⟨s₁, hcreate, freeThreadPages_never hreach hallocates hcreate rfl huser⟩

/-- The init process creates a thread, and the kernel asks for a page. -/
theorem freeThreadPages_frees_neighbour : ∃ s s₁ u v t page1 page2, threadSystem.Reachable s ∧
    AllocatesThread s.pid s t page1 page2 ∧ s.createThread 7 s.pid = .ok s₁ ∧
      threadSystem.Path s₁ [.allocPage 1] u ∧
        (page1 ≤ (u.record t).userStack ∧ (u.record t).userStack < page1 + 2 * pageSize) ∧
          u.freeThreadPages t = .ok v ∧ ⟨page2 + 2 * pageSize, 1⟩ ∈ u.owned kernelOwner ∧
            ¬ FreesBlocks (ownBlocks t page1 page2) u v := by
  have hrun : ((zeroMachine.createProcess 1).toOption.any fun s =>
      (s.createThread 7 s.pid).toOption.any fun s₁ =>
        (execute step s₁ [.allocPage 1]).any fun u =>
          (u.freeThreadPages 16805888).toOption.any fun v =>
            AllocatesThread s.pid s 16805888 16809984 16818176 ∧
              (16809984 ≤ (u.record 16805888).userStack ∧
                (u.record 16805888).userStack < 16809984 + 2 * pageSize) ∧
              ⟨16818176 + 2 * pageSize, 1⟩ ∈ u.owned kernelOwner ∧
                u.buddyArray.mark 1036 = .buddyFull ∧ v.buddyArray.mark 1036 = .empty) =
      true := by
    rw [zeroMachine, empty, createHeap_eq]
    decide +kernel
  obtain ⟨s, hstart, hrun⟩ := ok_of_any hrun
  obtain ⟨s₁, hcreate, hrun⟩ := ok_of_any hrun
  obtain ⟨u, hexecute, hrun⟩ := (Option.any_eq_true _ _).mp hrun
  obtain ⟨v, hfree, hrun⟩ := ok_of_any hrun
  obtain ⟨hallocates, huser, howned, hfull, hempty⟩ := of_decide_eq_true hrun
  have hs : IsStart s := ⟨_, _, _, 1, hstart⟩
  refine ⟨s, s₁, u, v, _, _, _, System.Reachable.start hs, hallocates, hcreate,
    path_of_execute IsStart hexecute, huser, hfree, howned, fun hfrees => ?_⟩
  -- the page of the kernel is behind the kernel stack
  have hnode : IsNode 1036 := by
    rw [isNode_iff]
    decide
  have hkeeps := hfrees.others kernelOwner _ howned (by decide) 1036 hnode (by decide)
  rw [hfull, hempty] at hkeeps
  exact Mark.noConfusion hkeeps

end GatOS.Threads
