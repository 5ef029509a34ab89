import GatOS.BuddyAllocatorRun

/-!
# The search for a block

What `allocPage` finds in a tree with any marks: only the addresses and the number of levels are
the ones that `createHeap` has set.
-/
namespace GatOS.BuddyAllocator
open HeapTree Transition

/-- Without the marks, the heap is the one that `createHeap` builds. -/
structure Shape (b : BuddyArray) : Prop where
  base : b.base = createHeap.base
  heapLevel : b.heapLevel = createHeap.heapLevel

/-- A node of the level that is marked `EMPTY`, with no node marked `BUDDY_FULL` above it. The root
has level 1. -/
structure IsFree (b : BuddyArray) (level x : ℕ) : Prop where
  node : IsNode x
  level : depth x + 1 = level
  empty : b.mark x = .empty
  above : ∀ a, a ≠ 0 → Below x a → a ≠ x → b.mark a ≠ .buddyFull

/-- A request of `pages` pages that finds a node. -/
def Serves (pages : ℕ) (b : BuddyArray) : Prop :=
  1 ≤ pages ∧ pages ≤ numberOfPages ∧ ∃ x, IsFree b (getLevel pages b) x

section

variable {b c : BuddyArray} {pages x : ℕ}

theorem shape_createHeap : Shape createHeap := ⟨rfl, rfl⟩

theorem Shape.level (h : Shape b) : b.heapLevel = height + 1 :=
  h.heapLevel.trans invariant_createHeap.heapLevel

theorem Shape.address (h : Shape b) (hx : IsNode x) : b.base (x - 1) = nodeBase x := by
  rw [h.base]
  exact invariant_createHeap.base x hx

theorem getLevel_eq (h : Shape b) (h1 : 1 ≤ pages) :
    getLevel pages b = height + 1 - Nat.clog 2 pages := by
  rw [getLevel, h.level, getLevelLoop_eq pages pages 0 h1 le_rfl, Nat.zero_add]

/-- The nodes of a level under the root. -/
theorem candidate_iff_isFree {left : ℕ} (hleft : left ≤ height) :
    Candidate b left 1 x ↔ IsFree b (left + 1) x := by
  constructor
  · intro h
    refine ⟨h.isNode hleft, by rw [h.depth_eq], h.free, fun a ha hb _ => ?_⟩
    obtain ⟨k, hk, rfl⟩ := h.path ha hb
    exact h.not_full k hk
  · intro h
    have hdepth : depth x = left := Nat.succ_injective h.level
    have hunder : x / 2 ^ left = 1 :=
      div_pow_eq_one_iff.mpr ((depth_eq_iff h.node.ne_zero).mp hdepth)
    refine ⟨hunder, h.empty, fun k hk => ?_⟩
    by_cases hself : x / 2 ^ k = x
    · rw [hself, h.empty]
      simp
    · exact h.above _ (div_pow_ne_zero (by rw [hunder]; exact one_ne_zero) hk) (below_div x k) hself

/-- A request finds the leftmost free node of its level, or it changes nothing. -/
theorem allocPage_found_or_none (h : Shape b) (pages : ℕ) :
    (1 ≤ pages ∧ pages ≤ numberOfPages ∧ ∃ x, IsFree b (getLevel pages b) x ∧
      (∀ y, IsFree b (getLevel pages b) y → x ≤ y) ∧
      allocPage pages b = (some (nodeBase x), fillUp (height - Nat.clog 2 pages) x b)) ∨
    (¬ Serves pages b ∧ allocPage pages b = (none, b)) := by
  by_cases hvalid : pages = 0 ∨ pages > numberOfPages
  · refine Or.inr ⟨fun hs => ?_, allocPage_of_invalid hvalid⟩
    have h1 := hs.1
    have h2 := hs.2.1
    omega
  have h1 : 1 ≤ pages := by omega
  have h2 : pages ≤ numberOfPages := by omega
  have hclog : Nat.clog 2 pages ≤ height := Nat.clog_le_of_le_pow h2
  have hlevel : getLevel pages b = height - Nat.clog 2 pages + 1 := by
    rw [getLevel_eq h h1]
    omega
  have hfree : ∀ y, Candidate b (height - Nat.clog 2 pages) 1 y ↔
      IsFree b (getLevel pages b) y := fun y => by
    rw [hlevel]
    exact candidate_iff_isFree (Nat.sub_le _ _)
  rw [allocPage_eq h.level h1 h2]
  rcases getNextPageRecursive_spec (height - Nat.clog 2 pages) 1 b with
    ⟨x, hx, hmin, hget⟩ | ⟨hnone, hget⟩
  · refine Or.inl ⟨h1, h2, x, (hfree x).mp hx, fun y hy => hmin y ((hfree y).mpr hy), ?_⟩
    rw [hget, h.address (hx.isNode (Nat.sub_le _ _))]
  · exact Or.inr ⟨fun ⟨_, _, x, hx⟩ => hnone x ((hfree x).mpr hx), hget⟩

theorem Shape.allocPage (h : Shape b) (pages : ℕ) : Shape (allocPage pages b).2 := by
  rcases allocPage_found_or_none h pages with ⟨-, -, x, -, -, hrun⟩ | ⟨-, hrun⟩
  · rw [hrun]
    exact ⟨by simp [h.base], by simp [h.heapLevel]⟩
  · rw [hrun]
    exact h

theorem Shape.setMark (h : Shape b) (i : ℕ) (m : Mark) : Shape (b.setMark i m) :=
  ⟨h.base, h.heapLevel⟩

theorem Shape.freeUp {fuel index : ℕ} (h : Shape b) (hrun : freeUpRecursive fuel index b = some c) :
    Shape c := by
  induction fuel generalizing index b with
  | zero => simp [freeUpRecursive] at hrun
  | succ fuel ih =>
    simp only [freeUpRecursive] at hrun
    split_ifs at hrun
    · obtain rfl := Option.some.inj hrun
      exact h
    · exact ih (h.setMark _ _) hrun

theorem Shape.deallocPage {page : ℤ} {r : ℤ × BuddyArray} (h : Shape b)
    (hrun : deallocPage page b = some r) : Shape r.2 := by
  simp only [BuddyAllocator.deallocPage, isValid, if_true] at hrun
  split_ifs at hrun
  obtain ⟨d, hd, rfl⟩ := Option.map_eq_some_iff.mp hrun
  exact (h.setMark _ _).freeUp hd

/-- Only a request that finds no node is refused. -/
theorem allocPage_eq_none_iff (h : Shape b) :
    (BuddyAllocator.allocPage pages b).1 = none ↔ ¬ Serves pages b := by
  rcases allocPage_found_or_none h pages with ⟨h1, h2, x, hx, -, hrun⟩ | ⟨hnone, hrun⟩
  · rw [hrun]
    exact iff_of_false (by simp) (not_not_intro ⟨h1, h2, x, hx⟩)
  · rw [hrun]
    exact iff_of_true rfl hnone

/-- A page that is handed out lies in the heap, so its address is not `NULL`. -/
theorem baseMemory_le_of_allocPage {page : ℕ} (h : Shape b)
    (hpage : (BuddyAllocator.allocPage pages b).1 = some page) : baseMemory ≤ page := by
  rcases allocPage_found_or_none h pages with ⟨-, -, x, -, -, hrun⟩ | ⟨-, hrun⟩
  · rw [hrun] at hpage
    obtain rfl := Option.some.inj hpage
    exact Nat.le_add_right _ _
  · rw [hrun] at hpage
    exact absurd hpage (by simp)

/-! ### The result -/

/-- Of any tree: a request without pages, with too many pages or without a free node of its level is
refused and leaves the tree as it is. Any other request gets the leftmost free node, which is full
from then on, and only this node and the nodes above it are marked anew. -/
theorem allocPage_search (h : Shape b) (pages : ℕ) :
    ((pages = 0 ∨ pages > numberOfPages ∨ ∀ x, ¬ IsFree b (getLevel pages b) x) →
      BuddyAllocator.allocPage pages b = (none, b)) ∧
    (¬ (pages = 0 ∨ pages > numberOfPages ∨ ∀ x, ¬ IsFree b (getLevel pages b) x) →
      ∃ x c, IsFree b (getLevel pages b) x ∧ (∀ y, IsFree b (getLevel pages b) y → x ≤ y) ∧
        BuddyAllocator.allocPage pages b = (some (createHeap.base (x - 1)), c) ∧
        c.mark x = .buddyFull ∧ ∀ a, a ≠ 0 → ¬ Below x a → c.mark a = b.mark a) := by
  rcases allocPage_found_or_none h pages with ⟨h1, h2, x, hx, hmin, hrun⟩ | ⟨hnone, hrun⟩
  · refine ⟨fun hno => ?_, fun _ => ?_⟩
    · rcases hno with h0 | hgt | hno
      · omega
      · omega
      · exact absurd hx (hno x)
    · have hclog : Nat.clog 2 pages ≤ height := Nat.clog_le_of_le_pow h2
      have htop : x / 2 ^ (height - Nat.clog 2 pages) ≠ 0 := by
        have hlevel := hx.level
        rw [getLevel_eq h h1] at hlevel
        rw [div_pow_eq_one_iff.mpr ((depth_eq_iff hx.node.ne_zero).mp (by omega))]
        exact one_ne_zero
      refine ⟨x, _, hx, hmin, ?_, fillUp_mark_self b htop, fun a ha hoff => ?_⟩
      · rw [← h.base, h.address hx.node]
        exact hrun
      · exact fillUp_mark_off b htop ha fun k _ he => hoff (he ▸ below_div x k)
  · refine ⟨fun _ => hrun, fun hyes => absurd ?_ hnone⟩
    push Not at hyes
    exact ⟨Nat.pos_of_ne_zero hyes.1, hyes.2.1, hyes.2.2⟩

/-- One page is taken, so the upper half is found. -/
theorem allocPage_search_upperHalf :
    ∃ x c, createHeap.base (x - 1) = baseMemory + pageSize * 512 ∧
      BuddyAllocator.allocPage 512 (BuddyAllocator.allocPage 1 createHeap).2 =
        (some (baseMemory + pageSize * 512), c) ∧ c.mark x = .buddyFull := by
  have hfound : (BuddyAllocator.allocPage 512 (BuddyAllocator.allocPage 1 createHeap).2).1 =
      some (baseMemory + pageSize * 512) := by
    rw [createHeap_eq]
    decide +kernel
  obtain ⟨hrefused, hserved⟩ := allocPage_search (shape_createHeap.allocPage 1) 512
  obtain ⟨x, c, -, -, hrun, hfull, -⟩ := hserved fun hno => by
    rw [hrefused hno] at hfound
    exact absurd hfound (by simp)
  rw [hrun] at hfound
  obtain hbase := Option.some.inj hfound
  exact ⟨x, c, hbase, by rw [hrun, hbase], hfull⟩

end

end GatOS.BuddyAllocator
