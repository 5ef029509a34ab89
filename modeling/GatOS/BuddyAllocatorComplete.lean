import GatOS.BuddyAllocatorRun

/-!
# Free memory is found

A node marked `BUDDY_FULL` hides everything under it from the search. As long as such a mark
is only set and kept over nodes without a free page, a request fails only when no block of its
size is free.
-/
namespace GatOS.BuddyAllocator
open HeapTree Transition

/-- Page `p` of the heap belongs to the block. -/
def Block.HasPage (blk : Block) (p : ℕ) : Prop :=
  blk.base ≤ baseMemory + pageSize * p ∧ baseMemory + pageSize * p < blk.stop

/-- The `j`-th aligned block of `2 ^ k` pages of the heap. -/
def alignedBlock (k j : ℕ) : Block := ⟨baseMemory + pageSize * (j * 2 ^ k), 2 ^ k⟩

/-- A request fails only if each aligned block of its size meets a live block. -/
def Complete (s : Heap) : Prop :=
  ∀ pages, 1 ≤ pages → pages ≤ numberOfPages → (allocPage pages s.tree).1 = none →
    ∀ j, (j + 1) * 2 ^ Nat.clog 2 pages ≤ numberOfPages →
      ∃ blk ∈ s.live, ¬ blk.Disjoint (alignedBlock (Nat.clog 2 pages) j)

/-- Of a request: a node of which the block found is the last part has no other free page.
Of a free: it merges no node that holds another block, and on its way up no node marked
`BUDDY_FULL` has its other half marked `PARTIALLY_FULL`. -/
def FullSafe (s : Heap) : Request → Prop
  | .alloc pages => ∀ x, IsFirstFit s.tree (height - Nat.clog 2 pages) x →
      ∀ k ≤ height - Nat.clog 2 pages, (∀ i < k, x / 2 ^ i % 2 = 1) →
        ∀ p < numberOfPages, (blockOf (x / 2 ^ k)).HasPage p →
          (blockOf x).HasPage p ∨ ∃ blk ∈ s.live, blk.HasPage p
  | .dealloc blk => MergeSafe s (.dealloc blk) ∧ ∀ c, IsNode c → 2 ≤ c → blk.Under c →
      ¬ (s.tree.mark (c / 2) = .buddyFull ∧ s.tree.mark (sibling c) = .partiallyFull)

/-! ### Pages and leaves -/

theorem leaf_depth {p : ℕ} (hp : p < numberOfPages) : depth (2 ^ height + p) = height := by
  have hn : numberOfPages = 2 ^ height := by decide
  rw [depth_eq_iff (by have := Nat.two_pow_pos height; omega), Nat.pow_succ]
  omega

theorem exists_page_of_leaf {l : ℕ} (hl0 : l ≠ 0) (hl : depth l = height) :
    ∃ p < numberOfPages, l = 2 ^ height + p := by
  obtain ⟨h1, h2⟩ := (depth_eq_iff hl0).mp hl
  have hn : numberOfPages = 2 ^ height := by decide
  exact ⟨l - 2 ^ height, by rw [hn]; rw [Nat.pow_succ] at h2; omega, by omega⟩

theorem blockOf_hasPage {x p : ℕ} (hx : IsNode x) (hp : p < numberOfPages) :
    (blockOf x).HasPage p ↔ Below (2 ^ height + p) x := by
  have hps : 0 < pageSize := by decide
  have hlo := two_pow_le_firstLeaf hx.ne_zero hx.depth_le
  rw [leaf_below_iff hx.ne_zero (leaf_depth hp), Block.HasPage, blockOf_stop, blockOf, nodeBase,
    Nat.add_le_add_iff_left, Nat.add_lt_add_iff_left, Nat.mul_le_mul_left_iff hps,
    Nat.mul_lt_mul_left hps, nodePages]
  omega

/-- Every leaf under `a` belongs to a live node. -/
def Covered (ns : List ℕ) (a : ℕ) : Prop :=
  ∀ l, depth l = height → Below l a → ∃ y ∈ ns, Below l y

/-- The live blocks, the marks, and `BUDDY_FULL` only over nodes without a free page. -/
structure TracksFull (s : Heap) (ns : List ℕ) : Prop extends Tracks s ns where
  covered : ∀ a, IsNode a → s.tree.mark a = .buddyFull → Covered ns a

theorem tracksFull_emptyHeap : TracksFull emptyHeap [] := by
  refine ⟨tracks_emptyHeap, fun a _ h => ?_⟩
  have : emptyHeap.tree.mark a = .empty := by
    rw [emptyHeap, createHeap_eq]
    rfl
  simp [this] at h

/-! ### Steps -/

/-- The nodes that an allocation marks `BUDDY_FULL` have no free page left. -/
theorem covered_alloc {s : Heap} {ns : List ℕ} {pages x : ℕ} (h : TracksFull s ns)
    (hx : IsFirstFit s.tree (height - Nat.clog 2 pages) x) (hsafe : FullSafe s (.alloc pages))
    {a : ℕ} (ha : IsNode a)
    (hmark : (fillUp (height - Nat.clog 2 pages) x s.tree).mark a = .buddyFull) :
    Covered (x :: ns) a := by
  have hcand := hx.1
  have hnode := hcand.isNode (Nat.sub_le _ _)
  have htop : x / 2 ^ (height - Nat.clog 2 pages) ≠ 0 := by simp [hcand.under]
  intro l hl hla
  have hl0 : l ≠ 0 := fun h0 => by
    have := hla.le
    have := ha.ne_zero
    omega
  by_cases hxa : Below x a
  · obtain ⟨k, hk, rfl⟩ := hcand.path ha.ne_zero hxa
    obtain ⟨p, hp, rfl⟩ := exists_page_of_leaf hl0 hl
    have hlast := (fillUp_full_iff s.tree htop hk hcand.not_full).mp hmark
    rcases hsafe x hx k hk hlast p hp ((blockOf_hasPage ha hp).mpr hla) with hpage | ⟨blk, hblk, hpage⟩
    · exact ⟨x, List.mem_cons_self, (blockOf_hasPage hnode hp).mp hpage⟩
    · rw [h.live, List.mem_map] at hblk
      obtain ⟨y, hy, rfl⟩ := hblk
      exact ⟨y, List.mem_cons_of_mem x hy, (blockOf_hasPage (h.marks.node y hy) hp).mp hpage⟩
  · have hoff : (fillUp (height - Nat.clog 2 pages) x s.tree).mark a = s.tree.mark a :=
      fillUp_mark_off s.tree htop ha.ne_zero fun k _ he => hxa (he ▸ below_div x k)
    obtain ⟨y, hy, hly⟩ := h.covered a ha (hoff ▸ hmark) l hl hla
    exact ⟨y, List.mem_cons_of_mem x hy, hly⟩

/-- A free leaves no mark `BUDDY_FULL` above the block it gives back. -/
theorem covered_dealloc {s : Heap} {ns : List ℕ} {x : ℕ} {b : BuddyArray} (h : TracksFull s ns)
    (hx : x ∈ ns) (hsafe : FullSafe s (.dealloc (blockOf x)))
    (hrun : deallocPage (nodeBase x) s.tree = some (0, b)) (hinv : Invariant b (ns.erase x))
    {a : ℕ} (ha : IsNode a) (hmark : b.mark a = .buddyFull) : Covered (ns.erase x) a := by
  have hnode := h.marks.node x hx
  obtain ⟨b', hrun', -, -, -, hoff, hpath⟩ := deallocPage_spec hnode s.tree
  obtain rfl : b' = b := by
    rw [hrun, Option.some.injEq, Prod.mk.injEq] at hrun'
    exact hrun'.2.symm
  have hlx := firstLeaf_below height x
  have hmem : ∀ y, y ∈ ns.erase x ↔ y ≠ x ∧ y ∈ ns := fun y => h.marks.nodup.mem_erase_iff
  -- nothing under the freed block is marked
  have hax : ¬ Below a x := fun hax => by
    have hnone : ∀ y ∈ ns.erase x, ¬ Below y a := fun y hy hya =>
      ((hmem y).mp hy).1 (h.marks.apart y ((hmem y).mp hy).2 x hx (hya.trans hax))
    rw [hinv.empty a ha hnone] at hmark
    simp at hmark
  have hxa : ¬ Below x a := fun hxa => by
    have hne : firstLeaf height x ≠ a := fun he => hax (he ▸ hlx)
    obtain ⟨c, hc2, rfl, hc⟩ := (hlx.trans hxa).exists_child ha.ne_zero hne
    have hne' : x ≠ c / 2 := fun he => hax (he ▸ Below.refl x)
    have hxc := hlx.under_child hc hxa hne'
    have hnc := hnode.of_path hc (by omega)
    rw [hpath c hc2 hc, freeUpMark_eq_full] at hmark
    exact hsafe.2 c hnc hc2 ((blockOf_under_iff hnode hnc).mpr hxc) hmark
  have hla : ¬ Below (firstLeaf height x) a := fun hla =>
    (hlx.comparable hla).elim hxa hax
  rw [hoff a ha.ne_zero hla] at hmark
  intro l hl hb
  obtain ⟨y, hy, hly⟩ := h.covered a ha hmark l hl hb
  refine ⟨y, (hmem y).mpr ⟨?_, hy⟩, hly⟩
  rintro rfl
  exact (hly.comparable hb).elim hxa hax

theorem FullSafe.mergeSafe {s : Heap} {r : Request} (h : FullSafe s r) : MergeSafe s r := by
  cases r with
  | alloc pages => trivial
  | dealloc blk => exact h.1

theorem heapStep_tracksFull {s t : Heap} {ns : List ℕ} {r : Request} (h : TracksFull s ns)
    (hsafe : FullSafe s r) (hstep : heapStep s r = some t) : ∃ ns', TracksFull t ns' := by
  rcases h.step_cases hsafe.mergeSafe hstep with
    rfl | ⟨pages, x, rfl, hx, htree, ht⟩ | ⟨x, hx, rfl, hrun, ht⟩
  · exact ⟨ns, h⟩
  · refine ⟨x :: ns, ht, fun a ha hmark => covered_alloc h hx hsafe ha ?_⟩
    rwa [htree] at hmark
  · exact ⟨ns.erase x, ht, fun a ha hmark => covered_dealloc h hx hsafe hrun ht.marks ha hmark⟩

theorem reachable_tracksFull {s : Heap} (h : (heapSystem.restrict FullSafe).Reachable s) :
    ∃ ns, TracksFull s ns := by
  refine h.invariant (I := fun s => ∃ ns, TracksFull s ns) ?_ ?_
  · rintro s rfl
    exact ⟨[], tracksFull_emptyHeap⟩
  · rintro s r t ⟨ns, hns⟩ ⟨hsafe, hstep⟩
    exact heapStep_tracksFull hns hsafe hstep

/-! ### Refused requests -/

theorem blockOf_eq_alignedBlock {k j : ℕ} (hk : k ≤ height) (hj : (j + 1) * 2 ^ k ≤ numberOfPages) :
    depth (2 ^ (height - k) + j) = height - k ∧
      blockOf (2 ^ (height - k) + j) = alignedBlock k j := by
  have hpow : 2 ^ height = 2 ^ (height - k) * 2 ^ k := by
    rw [← Nat.pow_add, Nat.sub_add_cancel hk]
  have hj' : j + 1 ≤ 2 ^ (height - k) := by
    have hn : numberOfPages = 2 ^ height := by decide
    rw [hn, hpow] at hj
    exact Nat.le_of_mul_le_mul_right hj (Nat.two_pow_pos k)
  have hd : depth (2 ^ (height - k) + j) = height - k := by
    rw [depth_eq_iff (by have := Nat.two_pow_pos (height - k); omega), Nat.pow_succ]
    omega
  refine ⟨hd, ?_⟩
  rw [blockOf, alignedBlock, nodeBase, nodePages, firstLeaf, hd, Nat.sub_sub_self hk, Nat.add_mul,
    ← hpow, Nat.add_sub_cancel_left]

theorem not_disjoint_of_below {x y : ℕ} (hx : IsNode x) (hy : IsNode y) (h : Below x y) :
    ¬ (blockOf x).Disjoint (blockOf y) ∧ ¬ (blockOf y).Disjoint (blockOf x) := by
  obtain ⟨h1, h2⟩ := (blockOf_under_iff hx hy).mpr h
  have hstop : (blockOf y).stop = nodeBase y + pageSize * nodePages y := rfl
  have hpos : (blockOf x).base < (blockOf x).stop :=
    Nat.lt_add_of_pos_right (Nat.mul_pos (by decide) (nodePages_pos x))
  have hbase : (blockOf y).base = nodeBase y := rfl
  constructor <;> rintro (h | h) <;> omega

/-- While `BUDDY_FULL` hides no free page, a request that is refused finds each aligned block of
its size in use. -/
theorem alloc_complete {s : Heap} (h : (heapSystem.restrict FullSafe).Reachable s) :
    Complete s := by
  obtain ⟨ns, hns⟩ := reachable_tracksFull h
  intro pages h1 hle hnone j hj
  have hclog : Nat.clog 2 pages ≤ height := Nat.clog_le_of_le_pow hle
  obtain ⟨hdepth, hblock⟩ := blockOf_eq_alignedBlock hclog hj
  set x := 2 ^ (height - Nat.clog 2 pages) + j with hxdef
  have hx : IsNode x := by
    refine ⟨?_, hdepth.trans_le (Nat.sub_le _ _)⟩
    have := Nat.two_pow_pos (height - Nat.clog 2 pages)
    omega
  rcases allocPage_cases hns.marks pages with ⟨y, -, -, halloc⟩ | ⟨-, hfail⟩
  · simp [halloc] at hnone
  by_contra hfree
  -- no live node is comparable with `x`
  have hapart : ∀ y ∈ ns, ¬ Below y x ∧ ¬ Below x y := fun y hy => by
    have hy' := hns.marks.node y hy
    have hdisj : (blockOf y).Disjoint (blockOf x) := by
      by_contra hne
      refine hfree ⟨blockOf y, ?_, hblock ▸ hne⟩
      rw [hns.live]
      exact List.mem_map_of_mem hy
    exact ⟨fun hb => (not_disjoint_of_below hy' hx hb).1 hdisj,
      fun hb => (not_disjoint_of_below hx hy' hb).2 hdisj⟩
  refine hfail h1 hle x ⟨?_, hns.marks.empty x hx fun y hy => (hapart y hy).1, fun i hi hfull => ?_⟩
  · rw [div_pow_eq_one_iff]
    exact (depth_eq_iff hx.ne_zero).mp hdepth
  · have hi0 : x / 2 ^ i ≠ 0 := div_pow_ne_zero (j := height - Nat.clog 2 pages)
      (by rw [div_pow_eq_one_iff.mpr ((depth_eq_iff hx.ne_zero).mp hdepth)]; exact one_ne_zero) hi
    obtain ⟨y, hy, hly⟩ := hns.covered _ (hx.below (below_div x i) hi0) hfull (firstLeaf height x)
      (depth_firstLeaf hx.ne_zero hx.depth_le) ((firstLeaf_below height x).trans (below_div x i))
    exact ((firstLeaf_below height x).comparable hly).elim (hapart y hy).2 (hapart y hy).1

theorem alloc_complete_lowerHalf : ∃ s, s.live = [lowerHalf] ∧ Complete s := by
  obtain ⟨s, hs, hlive⟩ := Option.map_eq_some_iff.mp (show
    (heapStep emptyHeap (.alloc 512)).map Heap.live = some [lowerHalf] by
    rw [emptyHeap, createHeap_eq]
    decide +kernel)
  have hmark : ∀ a, emptyHeap.tree.mark a = .empty := fun a => by
    rw [emptyHeap, createHeap_eq]
    rfl
  have hleft : height - Nat.clog 2 512 = 1 := by decide +kernel
  have hsafe : FullSafe emptyHeap (.alloc 512) := by
    intro x hx k hk hlast p _ hpage
    rw [hleft] at hx hk
    have hx2 : x ≤ 2 := hx.2 2 ⟨rfl, hmark _, fun k _ => by simp [hmark]⟩
    have hroot := hx.1.under
    rcases k with _ | k
    · left
      simpa using hpage
    · have := hlast 0 (Nat.succ_pos k)
      omega
  have hstart : (heapSystem.restrict FullSafe).Reachable emptyHeap := System.Reachable.start rfl
  exact ⟨s, hlive, alloc_complete (hstart.next ⟨hsafe, hs⟩)⟩

/-- One page and then the upper half: the root is marked `BUDDY_FULL`, and a request for one
more page fails with 511 pages free. -/
theorem hidden_free_page :
    ∃ s, heapSystem.Path emptyHeap [.alloc 1, .alloc 512] s ∧ (allocPage 1 s.tree).1 = none ∧
      s.live = [upperHalf, ⟨baseMemory, 1⟩] ∧ ¬ Complete s := by
  obtain ⟨s, hpath, hlive⟩ := exists_path_of_execute (fun s => s = emptyHeap) (show
    (execute heapStep emptyHeap [.alloc 1, .alloc 512]).map
      (fun s => ((allocPage 1 s.tree).1, s.live)) = some (none, [upperHalf, ⟨baseMemory, 1⟩]) by
    rw [emptyHeap, createHeap_eq]
    decide +kernel)
  obtain ⟨hnone, hlive⟩ := Prod.mk.inj hlive
  refine ⟨s, hpath, hnone, hlive, fun h => ?_⟩
  obtain ⟨blk, hblk, hmeet⟩ := h 1 le_rfl (by decide) hnone 1 (by decide)
  rw [hlive] at hblk
  revert hmeet
  revert blk
  decide

end GatOS.BuddyAllocator
