import Mathlib.Logic.Function.Basic
import GatOS.HeapTree
import GatOS.MachineInt

/-!
# The page allocator

`allocPage` and `deallocPage` over the array of marks of a binary tree whose leaves are the
pages of the heap. A node is named by its number, which is its position in the array plus one.
-/
namespace GatOS.BuddyAllocator
open HeapTree MachineInt

def pageSize : ℕ := 1024 * 4

def memory : ℕ := pageSize * 1024

def numberOfPages : ℕ := memory / pageSize

/-- The number of elements in the array. -/
def heapSize : ℕ := numberOfPages * 2 - 1

def baseMemory : ℕ := 0x1000000

/-- Number of pages that hold `size` bytes. -/
def numberOfPagesToAlloc (size : ℕ) : ℕ :=
  if size % pageSize ≠ 0 then size / pageSize + 1 else size / pageSize

inductive Mark
  | empty
  | partiallyFull
  | buddyFull
  deriving DecidableEq, Repr

structure BuddyArray where
  occupied : ℕ → Mark
  base : ℕ → ℕ
  heapLevel : ℕ

namespace BuddyArray

/-- `occupied[index-1]`. -/
def mark (b : BuddyArray) (index : ℕ) : Mark := b.occupied (index - 1)

def setMark (b : BuddyArray) (index : ℕ) (m : Mark) : BuddyArray :=
  { b with occupied := Function.update b.occupied (index - 1) m }

@[simp] theorem setMark_base (b : BuddyArray) (index : ℕ) (m : Mark) :
    (b.setMark index m).base = b.base := rfl

@[simp] theorem setMark_heapLevel (b : BuddyArray) (index : ℕ) (m : Mark) :
    (b.setMark index m).heapLevel = b.heapLevel := rfl

@[simp] theorem mark_setMark_self (b : BuddyArray) (index : ℕ) (m : Mark) :
    (b.setMark index m).mark index = m := by
  simp [mark, setMark]

theorem mark_setMark_ne (b : BuddyArray) {i j : ℕ} (m : Mark) (hi : i ≠ 0) (hj : j ≠ 0)
    (h : j ≠ i) : (b.setMark i m).mark j = b.mark j := by
  simp only [mark, setMark]
  rw [Function.update_of_ne]
  omega

end BuddyArray

def parent (i : ℕ) : ℕ := i / 2

def lchild (i : ℕ) : ℕ := 2 * i

def rchild (i : ℕ) : ℕ := 2 * i + 1

/-- The first position of the array is 1. -/
def getBaseMemoryWithIndex (_i maxElementsInLevel elementNumber : ℕ) : ℕ :=
  memory / maxElementsInLevel * elementNumber + baseMemory

/-- The loop of `createHeap`, with the number of positions still to be filled. -/
def createHeapLoop : ℕ → ℕ → ℕ → ℕ → ℕ → BuddyArray → BuddyArray
  | 0, _, level, _, _, b => { b with heapLevel := level }
  | left + 1, i, level, currentElementsInLevel, maxElementsInLevel, b =>
    let full := maxElementsInLevel = currentElementsInLevel
    let current := if full then 0 else currentElementsInLevel
    let max := if full then maxElementsInLevel * 2 else maxElementsInLevel
    let level := if full then level + 1 else level
    createHeapLoop left (i + 1) level (current + 1) max
      { b with
        occupied := Function.update b.occupied i .empty
        base := Function.update b.base i (getBaseMemoryWithIndex (i + 1) max current) }

def createHeap : BuddyArray :=
  createHeapLoop heapSize 0 1 0 1 ⟨fun _ => .empty, fun _ => 0, 0⟩

/-- Depth-first search for a free node, `left` levels under `index`. The result `none` is
`NULL`; marks are rewritten on the way back up. -/
def getNextPageRecursive : ℕ → ℕ → BuddyArray → Option ℕ × BuddyArray
  | 0, index, b =>
    if b.mark index = .buddyFull then (none, b)
    else if b.mark index = .partiallyFull then (none, b)
    else (some (b.base (index - 1)), b.setMark index .buddyFull)
  | left + 1, index, b =>
    if b.mark index = .buddyFull then (none, b)
    else
      match getNextPageRecursive left (lchild index) b with
      | (none, b) =>
        match getNextPageRecursive left (rchild index) b with
        | (none, b) => (none, b)
        | (some page, b) =>
          (some page, if b.mark (rchild index) = .buddyFull then b.setMark index .buddyFull else b)
      | (some page, b) => (some page, b.setMark index .partiallyFull)

/-- The halvings of `rta`, rounding up, until it is 1. The first argument bounds their number. -/
def getLevelLoop : ℕ → ℕ → ℕ → ℕ
  | 0, _, i => i
  | fuel + 1, rta, i =>
    if rta = 1 then i
    else getLevelLoop fuel (if rta % 2 = 1 then rta / 2 + 1 else rta / 2) (i + 1)

/-- In what level of the tree the amount of pages fit in. -/
def getLevel (pages : ℕ) (b : BuddyArray) : ℕ := b.heapLevel - getLevelLoop pages pages 0

def allocPage (pages : ℕ) (b : BuddyArray) : Option ℕ × BuddyArray :=
  if pages = 0 ∨ pages > numberOfPages then (none, b)
  else
    let level := getLevel pages b
    if level > b.heapLevel then (none, b)
    else getNextPageRecursive (level - 1) 1 b

/-- The new mark of a parent, from its mark and the mark of the other child. -/
def freeUpMark (parent sibling : Mark) : Mark :=
  if parent = .buddyFull ∧ sibling = .empty then .empty
  else if parent = .buddyFull ∧ sibling = .buddyFull then .partiallyFull
  else if parent = .partiallyFull ∧ sibling = .empty then .empty
  else parent

/-- `none` when the bound on the depth of the recursion is used up. -/
def freeUpRecursive : ℕ → ℕ → BuddyArray → Option BuddyArray
  | 0, _, _ => none
  | fuel + 1, index, b =>
    if index = 1 then some b
    else
      freeUpRecursive fuel (parent index)
        (b.setMark (parent index) (freeUpMark (b.mark (parent index)) (b.mark (sibling index))))

def isValid (_page : ℤ) : Bool := true

/-- `none` when the store to `occupied` is outside the array. -/
def deallocPage (page : ℤ) (b : BuddyArray) : Option (ℤ × BuddyArray) :=
  if isValid page then
    let index := int32 ((page - baseMemory).tdiv pageSize)
    let position := index + heapSize / 2
    if 0 ≤ position ∧ position < heapSize then
      let node := position.toNat + 1
      (freeUpRecursive node node (b.setMark node .empty)).map fun b => (0, b)
    else none
  else some (-1, b)

/-! ### The tree that `createHeap` builds -/

/-- The height of the tree: the leaves are the nodes of this depth. -/
def height : ℕ := 10

/-- The number of pages under a node. -/
def nodePages (x : ℕ) : ℕ := 2 ^ (height - depth x)

/-- The address of the first page under a node. -/
def nodeBase (x : ℕ) : ℕ := baseMemory + pageSize * (firstLeaf height x - 2 ^ height)

structure IsNode (x : ℕ) : Prop where
  ne_zero : x ≠ 0
  depth_le : depth x ≤ height

theorem isNode_iff {x : ℕ} : IsNode x ↔ 1 ≤ x ∧ x ≤ heapSize := by
  have hpow : x ≠ 0 → (depth x ≤ height ↔ x < 2 ^ (height + 1)) := fun hx => by
    rw [depth, ← Nat.lt_succ_iff, Nat.log_lt_iff_lt_pow one_lt_two hx]
  constructor
  · intro h
    have := (hpow h.ne_zero).mp h.depth_le
    have hs : heapSize = 2 ^ (height + 1) - 1 := by decide
    have := h.ne_zero
    omega
  · rintro ⟨h1, h2⟩
    have hs : heapSize + 1 = 2 ^ (height + 1) := by decide
    exact ⟨by omega, (hpow (by omega)).mpr (by omega)⟩

theorem IsNode.below {x a : ℕ} (hx : IsNode x) (h : Below x a) (ha : a ≠ 0) : IsNode a :=
  ⟨ha, h.depth_le.trans hx.depth_le⟩

theorem IsNode.sibling {x : ℕ} (hx : IsNode x) (h2 : 2 ≤ x) : IsNode (sibling x) :=
  ⟨sibling_ne_zero h2, by rw [depth_sibling h2]; exact hx.depth_le⟩

theorem isNode_one : IsNode 1 := isNode_iff.mpr (by decide)

theorem memory_div_two_pow {d : ℕ} (hd : d ≤ height) :
    memory / 2 ^ d = pageSize * 2 ^ (height - d) := by
  apply Nat.div_eq_of_eq_mul_left (Nat.two_pow_pos d)
  rw [Nat.mul_assoc, ← Nat.pow_add, Nat.sub_add_cancel hd]
  rfl

/-- The loop of `createHeap` walks the tree level by level. -/
theorem getBaseMemory_eq_nodeBase {x : ℕ} (hx : IsNode x) (i : ℕ) :
    getBaseMemoryWithIndex i (2 ^ depth x) (x - 2 ^ depth x) = nodeBase x := by
  have hpow : 2 ^ height = 2 ^ depth x * 2 ^ (height - depth x) := by
    rw [← Nat.pow_add, Nat.add_sub_cancel' hx.depth_le]
  rw [getBaseMemoryWithIndex, memory_div_two_pow hx.depth_le, nodeBase, firstLeaf, hpow,
    ← Nat.sub_mul, Nat.mul_assoc, Nat.mul_comm (x - 2 ^ depth x), Nat.add_comm]

theorem createHeapLoop_spec (left i level current max : ℕ) (b : BuddyArray)
    (hlevel : 1 ≤ level) (hmax : max = 2 ^ (level - 1)) (hpos : max + current = i + 1)
    (hcurrent : current ≤ max) (hleft : 1 ≤ current ∨ 1 ≤ left) (hsize : i + left ≤ heapSize) :
    createHeapLoop left i level current max b =
      { occupied := fun j => if i ≤ j ∧ j < i + left then .empty else b.occupied j
        base := fun j => if i ≤ j ∧ j < i + left then nodeBase (j + 1) else b.base j
        heapLevel := depth (i + left) + 1 } := by
  induction left generalizing i level current max b with
  | zero =>
    have hd : depth i = level - 1 := by
      rw [depth_eq_iff (by omega), Nat.pow_succ]
      omega
    have hnone : ∀ j, ¬ (i ≤ j ∧ j < i + 0) := by omega
    have hlevel' : depth (i + 0) + 1 = level := by
      rw [Nat.add_zero i, hd]
      omega
    simp only [createHeapLoop, hnone, if_false, hlevel']
  | succ left ih =>
    simp only [createHeapLoop]
    -- the position the loop fills: its level and its place in the level
    obtain ⟨level', current', max', ⟨hl, hc, hm⟩, hlevel', hmax', hpos', hlt⟩ :
        ∃ level' current' max' : ℕ,
          ((if max = current then level + 1 else level) = level' ∧
            (if max = current then 0 else current) = current' ∧
            (if max = current then max * 2 else max) = max') ∧
          1 ≤ level' ∧ max' = 2 ^ (level' - 1) ∧ max' + current' = i + 1 ∧ current' < max' := by
      by_cases hfull : max = current
      · refine ⟨level + 1, 0, max * 2, by simp [hfull], by omega, ?_, by omega, ?_⟩
        · rw [hmax, ← Nat.pow_succ]
          congr 1
          omega
        · have := Nat.two_pow_pos (level - 1)
          omega
      · exact ⟨level, current, max, by simp [hfull], hlevel, hmax, hpos, by omega⟩
    rw [hl, hc, hm]
    have hd : depth (i + 1) = level' - 1 := by
      rw [depth_eq_iff (by omega), Nat.pow_succ]
      omega
    have hnode : IsNode (i + 1) := isNode_iff.mpr ⟨by omega, by omega⟩
    have hbase : getBaseMemoryWithIndex (i + 1) max' current' = nodeBase (i + 1) := by
      rw [← getBaseMemory_eq_nodeBase hnode (i + 1), hd, ← hmax']
      congr 1
      omega
    rw [ih (i + 1) level' (current' + 1) max' _ hlevel' hmax' (by omega) hlt (by omega)
      (by omega), hbase]
    have hin : ∀ j, i ≤ j ∧ j < i + (left + 1) ↔ j = i ∨ (i + 1 ≤ j ∧ j < i + 1 + left) := by
      omega
    congr 1
    · funext j
      rcases eq_or_ne j i with rfl | hj
      · simp
      · simp [hin, hj]
    · funext j
      rcases eq_or_ne j i with rfl | hj
      · simp
      · simp [hin, hj]
    · congr 2
      omega

/-- A new heap has no mark set, and each position holds the address of its node. -/
theorem createHeap_eq :
    createHeap =
      { occupied := fun _ => .empty
        base := fun j => if j < heapSize then nodeBase (j + 1) else 0
        heapLevel := height + 1 } := by
  have hdepth : depth (0 + heapSize) = height :=
    (depth_eq_iff (d := height) (by decide)).mpr (by decide)
  rw [createHeap, createHeapLoop_spec heapSize 0 1 0 1 _ le_rfl rfl rfl (by omega)
    (Or.inr (by decide)) (by omega), hdepth]
  simp

attribute [irreducible] createHeap

theorem getLevelLoop_eq (fuel rta i : ℕ) (h1 : 1 ≤ rta) (hfuel : rta ≤ fuel) :
    getLevelLoop fuel rta i = i + Nat.clog 2 rta := by
  induction fuel generalizing rta i with
  | zero => omega
  | succ fuel ih =>
    simp only [getLevelLoop]
    by_cases hone : rta = 1
    · simp [hone]
    · have hhalf : (if rta % 2 = 1 then rta / 2 + 1 else rta / 2) = (rta + 2 - 1) / 2 := by
        split_ifs <;> omega
      have hclog := Nat.clog_of_two_le one_lt_two (show 2 ≤ rta by omega)
      rw [if_neg hone, hhalf, ih _ _ (by omega) (by omega)]
      omega

/-- A request for `pages` pages is served by nodes `clog 2 pages` levels above the leaves. -/
theorem allocPage_eq {pages : ℕ} {b : BuddyArray} (hb : b.heapLevel = height + 1)
    (h1 : 1 ≤ pages) (h2 : pages ≤ numberOfPages) :
    allocPage pages b = getNextPageRecursive (height - Nat.clog 2 pages) 1 b := by
  have hclog : Nat.clog 2 pages ≤ height := Nat.clog_le_of_le_pow h2
  have hlevel : getLevel pages b = height + 1 - Nat.clog 2 pages := by
    rw [getLevel, hb, getLevelLoop_eq pages pages 0 h1 le_rfl, Nat.zero_add]
  rw [allocPage, if_neg (by omega), hlevel, hb]
  simp only [if_neg (show ¬ height + 1 - Nat.clog 2 pages > height + 1 by omega)]
  congr 1
  omega

theorem allocPage_of_invalid {pages : ℕ} {b : BuddyArray}
    (h : pages = 0 ∨ pages > numberOfPages) : allocPage pages b = (none, b) := by
  rw [allocPage, if_pos h]

end GatOS.BuddyAllocator
