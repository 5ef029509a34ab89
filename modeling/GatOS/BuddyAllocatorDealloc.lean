import GatOS.BuddyAllocatorCoalesce
import GatOS.BuddyAllocatorSearch

/-!
# Giving pages back

A free right after the request does not always restore the marks, and no address is refused.
-/
namespace GatOS.BuddyAllocator
open HeapTree Transition

/-! ### A free right after the request -/

section

variable {b c : BuddyArray} {level x : ℕ}

/-- The node on the path from `x` to the root that the free has walked through. -/
theorem IsFree.top (h : IsFree b level x) : x / 2 ^ depth x ≠ 0 := by
  rw [div_pow_eq_one_iff.mpr ((depth_eq_iff h.node.ne_zero).mp rfl)]
  exact one_ne_zero

/-- The positions of the marks that `freeUpRecursive` reads and writes. -/
def freeUpPositions : ℕ → ℕ → List ℕ
  | 0, _ => []
  | fuel + 1, index =>
    if index = 1 then []
    else (parent index - 1) :: (sibling index - 1) :: freeUpPositions fuel (parent index)

/-- The positions of the marks that `deallocPage` accesses, the first one before all others. -/
def deallocPositions (page : ℤ) : List ℤ :=
  let position := MachineInt.int32 ((page - baseMemory).tdiv pageSize) + heapSize / 2
  let node := position.toNat + 1
  position :: (freeUpPositions node node).map fun i : ℕ => (i : ℤ)

/-- All accesses are to marks of the array, the call returns, and an address that is not the base of
a live block is answered with -1 and changes no mark. -/
structure Rejects (s : Heap) (page : ℤ) : Prop where
  inside : ∀ i ∈ deallocPositions page, 0 ≤ i ∧ i < heapSize
  returns : (deallocPage page s.tree).isSome = true
  rejected : (∀ blk ∈ s.live, (blk.base : ℤ) ≠ page) →
    deallocPage page s.tree = some (-1, s.tree)

theorem freeUpPositions_lt {fuel index : ℕ} (h1 : 1 ≤ index) (h2 : index ≤ heapSize) :
    ∀ i ∈ freeUpPositions fuel index, i < heapSize := by
  induction fuel generalizing index with
  | zero => simp [freeUpPositions]
  | succ fuel ih =>
    intro i hi
    simp only [freeUpPositions] at hi
    split_ifs at hi with hone
    · simp at hi
    · have hsize : heapSize = 2047 := by decide
      have hparent : parent index = index / 2 := rfl
      have hsibling := sibling_cases (show 2 ≤ index by omega)
      rw [List.mem_cons, List.mem_cons] at hi
      rcases hi with rfl | rfl | hi
      · omega
      · omega
      · exact ih (by omega) (by omega) i hi

/-- A call that returns has accessed marks of the array only. -/
theorem deallocPositions_lt {page : ℤ} (h : (deallocPage page b).isSome = true) :
    ∀ i ∈ deallocPositions page, 0 ≤ i ∧ i < heapSize := by
  simp only [deallocPage, isValid, if_true] at h
  split_ifs at h with hrange
  · intro i hi
    rw [deallocPositions, List.mem_cons, List.mem_map] at hi
    rcases hi with rfl | ⟨j, hj, rfl⟩
    · exact hrange
    · have hlt := freeUpPositions_lt (by omega) (by omega) j hj
      exact ⟨Int.natCast_nonneg j, by exact_mod_cast hlt⟩
  · simp at h

/-- The answer is never -1. -/
theorem deallocPage_answer {page : ℤ} {r : ℤ × BuddyArray} (h : deallocPage page b = some r) :
    r.1 = 0 := by
  simp only [deallocPage, isValid, if_true] at h
  split_ifs at h
  obtain ⟨d, -, rfl⟩ := Option.map_eq_some_iff.mp h
  rfl

/-- In every reachable heap, only the base of a live block is treated as it should be. -/
theorem rejects_iff {s : Heap} (h : heapSystem.Reachable s) (page : ℤ) :
    Rejects s page ↔ ∃ blk ∈ s.live, (blk.base : ℤ) = page := by
  constructor
  · intro hr
    by_contra hno
    push Not at hno
    have := deallocPage_answer (hr.rejected hno)
    simp at this
  · rintro ⟨blk, hblk, rfl⟩
    obtain ⟨x, hx, rfl⟩ := (reachable_coalesced h).node blk hblk
    obtain ⟨d, hrun, -⟩ := deallocPage_spec hx s.tree
    have hsome : (deallocPage ((blockOf x).base : ℤ) s.tree).isSome = true := by
      show (deallocPage (nodeBase x : ℤ) s.tree).isSome = true
      rw [hrun]
      rfl
    exact ⟨deallocPositions_lt hsome, hsome, fun hno => absurd rfl (hno _ hblk)⟩

/-- The first page is in use. Its base is accepted, the base of the second one should be refused. -/
theorem rejects_iff_first : ∃ s, heapSystem.Reachable s ∧ Rejects s baseMemory ∧
    ¬ Rejects s (baseMemory + pageSize : ℕ) := by
  obtain ⟨s, hpath, hlive⟩ := exists_path_of_execute (fun s => s = emptyHeap) (show
    (execute heapStep emptyHeap [.alloc 1]).map Heap.live = some [⟨baseMemory, 1⟩] by
      rw [emptyHeap, createHeap_eq]
      decide +kernel)
  have hreach : heapSystem.Reachable s := hpath.reachable (System.Reachable.start rfl)
  refine ⟨s, hreach, (rejects_iff hreach _).mpr ⟨_, by rw [hlive]; exact List.mem_singleton_self _,
    rfl⟩, fun hr => ?_⟩
  obtain ⟨blk, hblk, hbase⟩ := (rejects_iff hreach _).mp hr
  rw [hlive, List.mem_singleton] at hblk
  subst hblk
  exact absurd hbase (by decide)

/-- `NULL`: the first store is in front of the array. -/
theorem null_not_rejected : heapSystem.Reachable emptyHeap ∧ -3073 ∈ deallocPositions 0 ∧
    ¬ Rejects emptyHeap 0 := by
  have hfirst : (-3073 : ℤ) ∈ deallocPositions 0 := by decide
  refine ⟨System.Reachable.start rfl, hfirst, fun hr => ?_⟩
  have := (hr.inside _ hfirst).1
  omega

end

end GatOS.BuddyAllocator
