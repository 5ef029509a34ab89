import GatOS.BuddyAllocatorRun

/-!
# Freed pages

A node that holds no live block is marked `EMPTY`, also when a free has merged a node that still
holds another block: a mark can be too small, but it is never too large.
-/
namespace GatOS.BuddyAllocator
open HeapTree Transition

/-- The live blocks are blocks of nodes, and where there is none the mark is `EMPTY`. -/
structure Coalesced (s : Heap) : Prop where
  heapLevel : s.tree.heapLevel = height + 1
  base : ∀ x, IsNode x → s.tree.base (x - 1) = nodeBase x
  node : ∀ blk ∈ s.live, ∃ x, IsNode x ∧ blockOf x = blk
  empty : ∀ a, IsNode a → (∀ blk ∈ s.live, ¬ blk.Under a) → s.tree.mark a = .empty

section

variable {s t : Heap}

theorem coalesced_emptyHeap : Coalesced emptyHeap := by
  have hinv : Invariant emptyHeap.tree [] := invariant_createHeap
  refine ⟨hinv.heapLevel, hinv.base, ?_, fun a ha _ => ?_⟩
  · intro blk hblk
    simp [emptyHeap] at hblk
  · exact hinv.empty a ha (by simp)

/-- Only marks of nodes that hold the new block change. -/
theorem Coalesced.alloc (h : Coalesced s) {pages : ℕ} (hstep : heapStep s (.alloc pages) = some t) :
    Coalesced t := by
  simp only [heapStep] at hstep
  rcases allocPage_cases_of h.heapLevel h.base pages with ⟨x, hx, hpages, halloc⟩ | ⟨halloc, -⟩
  · rw [halloc, Option.some.injEq] at hstep
    subst hstep
    have hcand := hx.1
    have hnode := hcand.isNode (Nat.sub_le _ _)
    have htop : x / 2 ^ (height - Nat.clog 2 pages) ≠ 0 := by simp [hcand.under]
    have hblock : blockOf x = ⟨nodeBase x, 2 ^ Nat.clog 2 pages⟩ := by rw [blockOf, hpages]
    refine ⟨by simp [h.heapLevel], fun y hy => by simp [h.base y hy], ?_, fun a ha hnone => ?_⟩
    · exact List.forall_mem_cons.mpr ⟨⟨x, hnode, hblock⟩, h.node⟩
    · rw [← hblock, List.forall_mem_cons, blockOf_under_iff hnode ha] at hnone
      have hoff := fillUp_mark_off s.tree htop ha.ne_zero fun k _ he =>
        hnone.1 (he ▸ below_div x k)
      exact hoff.trans (h.empty a ha hnone.2)
  · rw [halloc, Option.some.injEq] at hstep
    subst hstep
    exact h

/-- Each node above the freed block is rewritten from its own mark and the mark of the other half,
which is `EMPTY` when the node holds no other block. -/
theorem Coalesced.dealloc (h : Coalesced s) {blk : Block}
    (hstep : heapStep s (.dealloc blk) = some t) : Coalesced t := by
  simp only [heapStep] at hstep
  split_ifs at hstep with hmem
  obtain ⟨x, hx, rfl⟩ := h.node blk hmem
  obtain ⟨b, hrun, hbase, hlevel, hleaf, hoff, hpath⟩ := deallocPage_spec hx s.tree
  have hrun : deallocPage (blockOf x).base s.tree = some (0, b) := hrun
  rw [hrun, Option.map_some, Option.some.injEq] at hstep
  subst hstep
  refine ⟨hlevel.trans h.heapLevel, fun y hy => ?_, fun blk hblk => ?_, fun a ha hnone => ?_⟩
  · show b.base (y - 1) = nodeBase y
    rw [hbase, h.base y hy]
  · exact h.node blk (List.mem_of_mem_erase hblk)
  -- the block that was freed is the only live one that the node may hold
  have hother : ∀ other ∈ s.live, other.Under a → other = blockOf x := fun other ho hu => by
    by_contra hne
    exact hnone other ((List.mem_erase_of_ne hne).mpr ho) hu
  show b.mark a = .empty
  by_cases hla : Below (firstLeaf height x) a
  · by_cases heq : firstLeaf height x = a
    · rw [← heq, hleaf]
    obtain ⟨c, hc2, rfl, hc⟩ := hla.exists_child ha.ne_zero heq
    rw [hpath c hc2 hc]
    have hnc := hx.of_path hc (by omega)
    by_cases hxa : Below x (c / 2)
    · have hsibling : s.tree.mark (sibling c) = .empty := by
        refine h.empty _ (hnc.sibling hc2) fun other ho hu => ?_
        obtain ⟨y, hy, rfl⟩ := h.node other ho
        have hys := (blockOf_under_iff hy (hnc.sibling hc2)).mp hu
        have hya : (blockOf y).Under (c / 2) :=
          (blockOf_under_iff hy ha).mpr (hys.trans (below_sibling hc2))
        obtain rfl := blockOf_injective hy hx (hother _ ho hya)
        -- the first leaf of the block is in the half that the walk came through
        exact not_below_sibling hc2 hc ((firstLeaf_below height y).trans hys)
      rw [hsibling, freeUpMark_empty_right]
    · have hmark : s.tree.mark (c / 2) = .empty := by
        refine h.empty _ ha fun other ho hu => hxa ?_
        obtain rfl := hother other ho hu
        exact (blockOf_under_iff hx ha).mp hu
      rw [hmark, freeUpMark_empty_left]
  · rw [hoff a ha.ne_zero hla]
    refine h.empty a ha fun other ho hu => hla ?_
    obtain rfl := hother other ho hu
    exact (firstLeaf_below height x).trans ((blockOf_under_iff hx ha).mp hu)

theorem reachable_coalesced (h : heapSystem.Reachable s) : Coalesced s := by
  refine h.invariant (I := Coalesced) ?_ fun s r t hs hstep => ?_
  · rintro s rfl
    exact coalesced_emptyHeap
  · cases r with
    | alloc pages => exact hs.alloc hstep
    | dealloc blk => exact hs.dealloc hstep

/-- With all marks `EMPTY` the whole heap is handed out. -/
theorem Coalesced.alloc_all (h : Coalesced s)
    (hempty : ∀ i < heapSize, s.tree.occupied i = .empty) :
    (allocPage numberOfPages s.tree).1 = some baseMemory := by
  rw [allocPage_eq h.heapLevel (by decide) le_rfl]
  have hclog : height - Nat.clog 2 numberOfPages = 0 := by decide
  have hroot : s.tree.mark 1 = .empty := hempty 0 (by decide)
  have hbase : s.tree.base 0 = nodeBase 1 := h.base 1 isNode_one
  have hfirst : nodeBase 1 = baseMemory := by decide
  rw [hclog, getNextPageRecursive, hroot, if_neg (by decide), if_neg (by decide), hbase, hfirst]

/-- After every sequence of requests a node that holds no live block is marked `EMPTY`. When
everything has been freed the heap is as it was at the start. -/
theorem freed_coalesces (h : heapSystem.Reachable s) :
    (∀ a, IsNode a → (∀ blk ∈ s.live, ¬ blk.Under a) → s.tree.mark a = .empty) ∧
      (s.live = [] → (∀ i < heapSize, s.tree.occupied i = .empty) ∧
        (allocPage numberOfPages s.tree).1 = some baseMemory) := by
  have hs := reachable_coalesced h
  refine ⟨hs.empty, fun hlive => ?_⟩
  have hempty : ∀ i < heapSize, s.tree.occupied i = .empty := fun i hi => by
    have hnode : IsNode (i + 1) := isNode_iff.mpr ⟨by omega, by omega⟩
    exact hs.empty (i + 1) hnode (by simp [hlive])
  exact ⟨hempty, hs.alloc_all hempty⟩

end

/-- A page that is freed behind another one, and then that one. -/
theorem freed_coalesces_two : ∃ s, heapSystem.Reachable s ∧ s.live = [] ∧
    (∀ i < heapSize, s.tree.occupied i = .empty) ∧
      (allocPage numberOfPages s.tree).1 = some baseMemory := by
  obtain ⟨s, hpath, hlive⟩ := exists_path_of_execute (fun s => s = emptyHeap) (show
    (execute heapStep emptyHeap [.alloc 1, .alloc 3, .dealloc ⟨baseMemory, 1⟩,
      .dealloc ⟨baseMemory + pageSize * 4, 4⟩]).map Heap.live = some [] by
    rw [emptyHeap, createHeap_eq]
    decide +kernel)
  have hs : heapSystem.Reachable s := hpath.reachable (System.Reachable.start rfl)
  exact ⟨s, hs, hlive, (freed_coalesces hs).2 hlive⟩

end GatOS.BuddyAllocator
