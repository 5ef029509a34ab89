import Mathlib.Data.List.Nodup
import GatOS.BuddyAllocatorMarks
import GatOS.Transition

/-!
# Runs of the page allocator

The blocks handed out and not given back are recorded beside the tree. The marks agree with
them as long as no free merges a node that still holds another block.
-/
namespace GatOS.BuddyAllocator
open HeapTree Transition

/-- A block handed out by `allocPage`. -/
structure Block where
  base : ℕ
  pages : ℕ
  deriving DecidableEq, Repr

namespace Block

def stop (blk : Block) : ℕ := blk.base + pageSize * blk.pages

/-- The two blocks have no page in common. -/
def Disjoint (p q : Block) : Prop := p.stop ≤ q.base ∨ q.stop ≤ p.base

instance (p q : Block) : Decidable (p.Disjoint q) := inferInstanceAs (Decidable (_ ∨ _))

/-- The pages of the block belong to node `c`. -/
def Under (blk : Block) (c : ℕ) : Prop :=
  nodeBase c ≤ blk.base ∧ blk.stop ≤ nodeBase c + pageSize * nodePages c

end Block

structure Heap where
  tree : BuddyArray
  live : List Block

inductive Request
  | alloc (pages : ℕ)
  | dealloc (blk : Block)
  deriving DecidableEq

/-- A block may be given back only while it is live. -/
def heapStep (s : Heap) : Request → Option Heap
  | .alloc pages =>
    match allocPage pages s.tree with
    | (none, b) => some { s with tree := b }
    | (some page, b) => some ⟨b, ⟨page, 2 ^ Nat.clog 2 pages⟩ :: s.live⟩
  | .dealloc blk =>
    if blk ∈ s.live then
      (deallocPage blk.base s.tree).map fun r => ⟨r.2, s.live.erase blk⟩
    else none

def emptyHeap : Heap := ⟨createHeap, []⟩

def heapSystem : System Heap Request := ofStep (fun s => s = emptyHeap) heapStep

/-- No page belongs to two live blocks, and all live blocks lie in the heap. -/
structure LiveDisjoint (s : Heap) : Prop where
  disjoint : s.live.Pairwise Block.Disjoint
  inside : ∀ blk ∈ s.live, baseMemory ≤ blk.base ∧ blk.stop ≤ baseMemory + memory

/-- No free passes, on its way up, a node that still holds another live block while the
sibling of that node is marked `EMPTY`. -/
def MergeSafe (s : Heap) : Request → Prop
  | .alloc _ => True
  | .dealloc blk => ∀ c, IsNode c → 2 ≤ c → blk.Under c →
      (∃ other ∈ s.live.erase blk, other.Under c) → s.tree.mark (sibling c) ≠ .empty

theorem mergeSafe_alloc (s : Heap) (pages : ℕ) : MergeSafe s (.alloc pages) := trivial

/-! ### The marks and the live nodes -/

/-- What the marks say about the nodes that are handed out. -/
structure Invariant (b : BuddyArray) (ns : List ℕ) : Prop where
  heapLevel : b.heapLevel = height + 1
  base : ∀ x, IsNode x → b.base (x - 1) = nodeBase x
  node : ∀ x ∈ ns, IsNode x
  nodup : ns.Nodup
  apart : ∀ x ∈ ns, ∀ y ∈ ns, Below x y → x = y
  full : ∀ x ∈ ns, b.mark x = .buddyFull
  above : ∀ x ∈ ns, ∀ a, a ≠ 0 → Below x a → b.mark a ≠ .empty
  empty : ∀ a, IsNode a → (∀ x ∈ ns, ¬ Below x a) → b.mark a = .empty

theorem invariant_createHeap : Invariant createHeap [] := by
  rw [createHeap_eq]
  refine ⟨rfl, fun x hx => ?_, by simp, List.nodup_nil, by simp, by simp, by simp,
    fun a _ _ => rfl⟩
  obtain ⟨h1, h2⟩ := isNode_iff.mp hx
  simp only [if_pos (show x - 1 < heapSize by omega), Nat.sub_add_cancel h1]

section Alloc

variable {b : BuddyArray} {ns : List ℕ} {left x : ℕ}

theorem Candidate.isNode (hx : Candidate b left 1 x) (hleft : left ≤ height) : IsNode x := by
  have h := div_pow_eq_one_iff.mp hx.under
  have hx0 : x ≠ 0 := by
    have := Nat.two_pow_pos left
    omega
  exact ⟨hx0, ((depth_eq_iff hx0).mpr h).trans_le hleft⟩

theorem Candidate.depth_eq (hx : Candidate b left 1 x) : depth x = left := by
  have h := div_pow_eq_one_iff.mp hx.under
  have := Nat.two_pow_pos left
  exact (depth_eq_iff (by omega)).mpr h

theorem Candidate.path (hx : Candidate b left 1 x) {a : ℕ} (ha : a ≠ 0) (hb : Below x a) :
    ∃ k ≤ left, a = x / 2 ^ k :=
  ⟨depth x - depth a, by rw [hx.depth_eq]; exact Nat.sub_le _ _, below_eq_div hb ha⟩

/-- A free node on an open path has no live block under it or above it. -/
theorem Candidate.apart (h : Invariant b ns) (hx : Candidate b left 1 x) (hx0 : x ≠ 0) {y : ℕ}
    (hy : y ∈ ns) : ¬ Below x y ∧ ¬ Below y x := by
  constructor
  · intro hb
    obtain ⟨k, hk, rfl⟩ := hx.path (h.node y hy).ne_zero hb
    exact hx.not_full k hk (h.full _ hy)
  · exact fun hb => h.above y hy x hx0 hb hx.free

/-- Above the node handed out no mark is `EMPTY`: where the search went right, the left half
holds a live block. -/
theorem fillUp_above (h : Invariant b ns) (hleft : left ≤ height) (hx : IsFirstFit b left x)
    {a : ℕ} (ha : a ≠ 0) (hb : Below x a) : (fillUp left x b).mark a ≠ .empty := by
  obtain ⟨hcand, hmin⟩ := hx
  have htop : x / 2 ^ left ≠ 0 := by simp [hcand.under]
  have hnode := hcand.isNode hleft
  obtain ⟨k, hk, rfl⟩ := hcand.path ha hb
  rcases k with _ | k
  · simp [fillUp_mark_self b htop]
  rw [fillUp_mark_path b htop hk]
  split_ifs with h0 hf
  · simp
  · simp
  · -- the search went to the right child of a node whose mark it did not change
    intro hempty
    have hnone : ∀ y ∈ ns, ¬ Below y (x / 2 ^ (k + 1)) := fun y hy hby =>
      h.above y hy _ ha hby hempty
    have hc : x / 2 ^ k = 2 * (x / 2 ^ (k + 1)) + 1 := by
      rw [div_two_pow_succ]
      omega
    -- the node to the left of `x` would have been found first
    have hy : ∀ i ≤ k, (x - 2 ^ k) / 2 ^ i = x / 2 ^ i - 2 ^ (k - i) := fun i hi => by
      have hpow : 2 ^ k = 2 ^ i * 2 ^ (k - i) := by
        rw [← Nat.pow_add]
        congr 1
        omega
      rw [hpow, Nat.sub_mul_div]
    have hyk : (x - 2 ^ k) / 2 ^ (k + 1) = x / 2 ^ (k + 1) := by
      rw [div_two_pow_succ, hy k le_rfl, Nat.sub_self, pow_zero, div_two_pow_succ]
      omega
    have hyup : ∀ i, k + 1 ≤ i → (x - 2 ^ k) / 2 ^ i = x / 2 ^ i := fun i hi => by
      obtain ⟨d, rfl⟩ := Nat.exists_eq_add_of_le hi
      rw [div_two_pow_add, div_two_pow_add x, hyk]
    have hmark : ∀ i ≤ k, b.mark ((x - 2 ^ k) / 2 ^ i) = .empty := fun i hi => by
      have hbelow : Below ((x - 2 ^ k) / 2 ^ i) (x / 2 ^ (k + 1)) := by
        obtain ⟨d, hd⟩ := Nat.exists_eq_add_of_le (show i ≤ k + 1 by omega)
        exact ⟨d, by rw [← div_two_pow_add, ← hd, hyk]⟩
      refine h.empty _ ?_ fun y hy' hby => hnone y hy' (hby.trans hbelow)
      have hne : (x - 2 ^ k) / 2 ^ i ≠ 0 := fun h0 => by
        have := hbelow.le
        omega
      refine ⟨hne, ?_⟩
      have hle : (x - 2 ^ k) / 2 ^ i ≤ x := (Nat.div_le_self _ _).trans (Nat.sub_le _ _)
      exact (Nat.log_mono_right hle).trans hnode.depth_le
    have hycand : Candidate b left 1 (x - 2 ^ k) := by
      refine ⟨(hyup left hk).trans hcand.under, by simpa using hmark 0 (Nat.zero_le _),
        fun i hi => ?_⟩
      rcases Nat.lt_or_ge k i with hki | hki
      · rw [hyup i hki]
        exact hcand.not_full i hi
      · simp [hmark i hki]
    have := hmin _ hycand
    have := Nat.two_pow_pos k
    have := Nat.pos_of_ne_zero hnode.ne_zero
    omega

theorem invariant_alloc (h : Invariant b ns) (hleft : left ≤ height) (hx : IsFirstFit b left x) :
    Invariant (fillUp left x b) (x :: ns) := by
  have hcand := hx.1
  have hnode := hcand.isNode hleft
  have htop : x / 2 ^ left ≠ 0 := by simp [hcand.under]
  have hapart : ∀ y ∈ ns, ¬ Below x y ∧ ¬ Below y x := fun y hy =>
    hcand.apart h hnode.ne_zero hy
  have hoff : ∀ j, j ≠ 0 → ¬ Below x j → (fillUp left x b).mark j = b.mark j := fun j hj hb =>
    fillUp_mark_off b htop hj fun k _ he => hb (he ▸ below_div x k)
  refine ⟨by simp [h.heapLevel], fun y hy => by simp [h.base y hy], ?_, ?_, ?_, ?_, ?_, ?_⟩
  · exact List.forall_mem_cons.mpr ⟨hnode, h.node⟩
  · exact List.nodup_cons.mpr ⟨fun hmem => (hapart x hmem).1 (Below.refl x), h.nodup⟩
  · rintro y hy z hz hb
    rw [List.mem_cons] at hy hz
    rcases hy with rfl | hy <;> rcases hz with rfl | hz
    · rfl
    · exact absurd hb (hapart z hz).1
    · exact absurd hb (hapart y hy).2
    · exact h.apart y hy z hz hb
  · refine List.forall_mem_cons.mpr ⟨fillUp_mark_self b htop, fun y hy => ?_⟩
    rw [hoff y (h.node y hy).ne_zero (hapart y hy).1]
    exact h.full y hy
  · refine List.forall_mem_cons.mpr ⟨fun a ha hb => fillUp_above h hleft hx ha hb,
      fun y hy a ha hb => ?_⟩
    by_cases hxa : Below x a
    · exact fillUp_above h hleft hx ha hxa
    · rw [hoff a ha hxa]
      exact h.above y hy a ha hb
  · intro a ha hnone
    rw [hoff a ha.ne_zero (hnone x List.mem_cons_self)]
    exact h.empty a ha fun y hy => hnone y (List.mem_cons_of_mem x hy)

end Alloc

section Dealloc

variable {b : BuddyArray} {ns : List ℕ} {x : ℕ}

theorem IsNode.of_path (hx : IsNode x) {c : ℕ} (hc : Below (firstLeaf height x) c) (hc0 : c ≠ 0) :
    IsNode c :=
  ⟨hc0, hc.depth_le.trans (depth_firstLeaf hx.ne_zero hx.depth_le).le⟩

/-- A free starts at the first page of the block. -/
theorem deallocPage_eq (hx : IsNode x) (b : BuddyArray) :
    deallocPage (nodeBase x) b =
      (freeUpRecursive (firstLeaf height x) (firstLeaf height x)
        (b.setMark (firstLeaf height x) .empty)).map fun b => (0, b) := by
  have hlo := two_pow_le_firstLeaf hx.ne_zero hx.depth_le
  have hhi := firstLeaf_add_le (h := height) hx.depth_le
  have hpos := Nat.two_pow_pos (height - depth x)
  obtain ⟨i, hi⟩ := Nat.exists_eq_add_of_le hlo
  have hi' : i < 1024 := by
    simp only [height] at hi hhi hlo hpos ⊢
    omega
  have hquot : ((nodeBase x : ℤ) - baseMemory).tdiv pageSize = i := by
    rw [nodeBase, hi, Nat.add_sub_cancel_left]
    push_cast
    rw [add_sub_cancel_left]
    exact Int.mul_tdiv_cancel_left _ (by decide)
  have hindex : MachineInt.int32 i = i :=
    MachineInt.int32_eq (by unfold MachineInt.intMin; omega) (by unfold MachineInt.intMax; omega)
  have hhalf : ((heapSize / 2 : ℕ) : ℤ) = 1023 := by decide
  have hsize : ((heapSize : ℕ) : ℤ) = 2047 := by decide
  have hnode : ((i : ℤ) + 1023).toNat + 1 = firstLeaf height x := by
    rw [hi]
    simp only [height]
    omega
  have hrange : 0 ≤ (i : ℤ) + 1023 ∧ (i : ℤ) + 1023 < 2047 := by omega
  simp only [deallocPage, isValid, ↓reduceIte, hquot, hindex]
  push_cast at hhalf ⊢
  rw [hhalf, hsize, if_pos hrange, hnode]

/-- What a free does to the marks: the first leaf becomes `EMPTY`, each node above it is
rewritten from its own mark and the mark of the child off the path. -/
theorem deallocPage_spec (hx : IsNode x) (b : BuddyArray) :
    ∃ b', deallocPage (nodeBase x) b = some (0, b') ∧ b'.base = b.base ∧
      b'.heapLevel = b.heapLevel ∧ b'.mark (firstLeaf height x) = .empty ∧
      (∀ j, j ≠ 0 → ¬ Below (firstLeaf height x) j → b'.mark j = b.mark j) ∧
      (∀ c, 2 ≤ c → Below (firstLeaf height x) c →
        b'.mark (c / 2) = freeUpMark (b.mark (c / 2)) (b.mark (sibling c))) := by
  have hl0 : firstLeaf height x ≠ 0 := by
    have := two_pow_le_firstLeaf hx.ne_zero hx.depth_le
    have := Nat.two_pow_pos height
    omega
  obtain ⟨b', hrun, hbase, hlevel, hoff, hpath⟩ := freeUpRecursive_spec (firstLeaf height x)
    (firstLeaf height x) (b.setMark (firstLeaf height x) .empty) hl0 (Nat.log_lt_self 2 hl0)
  refine ⟨b', by rw [deallocPage_eq hx, hrun]; rfl, hbase, hlevel, ?_, fun j hj hb => ?_,
    fun c hc hb => ?_⟩
  · rw [hoff _ hl0 fun k he => ?_]
    · simp
    · exact (Nat.div_lt_self (Nat.pos_of_ne_zero hl0)
        (Nat.one_lt_two_pow (Nat.succ_ne_zero k))).ne he.symm
  · rw [hoff j hj fun k he => hb (he ▸ below_div _ _)]
    exact b.mark_setMark_ne _ hl0 hj fun he => hb (he ▸ Below.refl _)
  · obtain ⟨k, rfl⟩ := hb
    have hne : firstLeaf height x / 2 ^ (k + 1) ≠ 0 := by
      rw [div_two_pow_succ]
      exact Nat.div_ne_zero_iff.mpr ⟨two_ne_zero, hc⟩
    have hsib : sibling (firstLeaf height x / 2 ^ k) ≠ firstLeaf height x := fun he =>
      not_below_sibling hc (below_div _ _) (by rw [he])
    have hlt : firstLeaf height x / 2 ^ (k + 1) ≠ firstLeaf height x := by
      have := div_pow_lt hne (Nat.succ_pos k)
      simpa using this.ne
    have := hpath k hne
    rwa [b.mark_setMark_ne _ hl0 hne hlt, b.mark_setMark_ne _ hl0 (sibling_ne_zero hc) hsib,
      div_two_pow_succ] at this

/-- Under a live node nothing is marked. -/
theorem Invariant.mark_under (h : Invariant b ns) (hx : x ∈ ns) {a : ℕ} (ha : IsNode a)
    (hb : Below a x) (hne : a ≠ x) : b.mark a = .empty := by
  refine h.empty a ha fun y hy hya => hne ?_
  obtain rfl := h.apart y hy x hx (hya.trans hb)
  exact hb.antisymm hya

/-- What a free of the node does to the marks. -/
structure Freed (x : ℕ) (b b' : BuddyArray) : Prop where
  leaf : b'.mark (firstLeaf height x) = .empty
  off : ∀ j, j ≠ 0 → ¬ Below (firstLeaf height x) j → b'.mark j = b.mark j
  path : ∀ c, 2 ≤ c → Below (firstLeaf height x) c →
    b'.mark (c / 2) = freeUpMark (b.mark (c / 2)) (b.mark (sibling c))

section Freed

variable {b' : BuddyArray} {y a : ℕ}

/-- Nothing is marked under the node that was freed. -/
theorem Freed.mark_under (hfreed : Freed x b b') (h : Invariant b ns) (hx : x ∈ ns)
    (ha : IsNode a) (hax : Below a x) : b'.mark a = .empty := by
  have hnode := h.node x hx
  have hlx := firstLeaf_below height x
  by_cases hla : Below (firstLeaf height x) a
  · by_cases heq : firstLeaf height x = a
    · rw [← heq, hfreed.leaf]
    · obtain ⟨c, hc2, rfl, hc⟩ := hla.exists_child ha.ne_zero heq
      rw [hfreed.path c hc2 hc]
      by_cases hcx : c / 2 = x
      · -- both children of `x` are empty
        have hs : b.mark (sibling c) = .empty := by
          have hup : Below (sibling c) x := hcx ▸ below_sibling hc2
          have hnc := hnode.of_path hc (by omega)
          refine h.mark_under hx (hnc.sibling hc2) hup fun he => ?_
          have h1 := sibling_cases hc2
          omega
        rw [hs, freeUpMark_empty_right]
      · rw [h.mark_under hx ha hax hcx, freeUpMark_empty_left]
  · rw [hfreed.off a ha.ne_zero hla]
    exact h.mark_under hx ha hax fun he => hla (he ▸ hlx)

/-- The other live nodes do not lie on the path. -/
theorem Freed.mark_other (hfreed : Freed x b b') (h : Invariant b ns) (hx : x ∈ ns)
    (hy : y ∈ ns) (hyx : y ≠ x) : b'.mark y = .buddyFull := by
  have hoff : ¬ Below (firstLeaf height x) y := by
    intro hly
    cases hly.comparable (firstLeaf_below height x) with
    | inl hyx' => exact hyx (h.apart y hy x hx hyx')
    | inr hxy => exact hyx (h.apart x hx y hy hxy).symm
  rw [hfreed.off y (h.node y hy).ne_zero hoff]
  exact h.full y hy

/-- Above another live node no mark becomes `EMPTY`. -/
theorem Freed.mark_above (hfreed : Freed x b b') (h : Invariant b ns) (hx : x ∈ ns)
    (hsafe : ∀ c, IsNode c → 2 ≤ c → Below x c → (∃ y ∈ ns, y ≠ x ∧ Below y c) →
      b.mark (sibling c) ≠ .empty)
    (hy : y ∈ ns) (hyx : y ≠ x) (ha : a ≠ 0) (hya : Below y a) : b'.mark a ≠ .empty := by
  have hlx := firstLeaf_below height x
  have hmark := h.above y hy a ha hya
  by_cases hla : Below (firstLeaf height x) a
  · have hxa : Below x a := by
      cases hla.comparable hlx with
      | inl hax => exact absurd (h.apart y hy x hx (hya.trans hax)) hyx
      | inr hxa => exact hxa
    have hne : firstLeaf height x ≠ a := fun he => by
      have hle : Below x (firstLeaf height x) := he ▸ hxa
      have hxl := hlx.antisymm hle
      exact hyx (h.apart y hy x hx (by rw [← hxl, he]; exact hya))
    obtain ⟨c, hc2, rfl, hc⟩ := hla.exists_child ha hne
    rw [hfreed.path c hc2 hc]
    apply freeUpMark_ne_empty hmark
    -- the other block lies under the sibling, or under the child on the path
    by_cases hys : Below y (sibling c)
    · exact h.above y hy _ (sibling_ne_zero hc2) hys
    · have hne' : x ≠ c / 2 := fun he => hyx (h.apart y hy x hx (he ▸ hya))
      have hxc : Below x c := hlx.under_child hc hxa hne'
      have hyc : Below y c := by
        rcases eq_or_ne y (c / 2) with he | he
        · exact absurd (h.apart x hx y hy (he ▸ hxa)).symm hyx
        · exact (hya.cases_sibling hc2 he).resolve_right hys
      exact hsafe c ((h.node x hx).below hxc (by omega)) hc2 hxc ⟨y, hy, hyx, hyc⟩
  · rw [hfreed.off a ha hla]
    exact hmark

/-- A node without another live node under it is free. -/
theorem Freed.mark_free (hfreed : Freed x b b') (h : Invariant b ns) (hx : x ∈ ns)
    (ha : IsNode a) (hnone : ∀ y ∈ ns, y ≠ x → ¬ Below y a) : b'.mark a = .empty := by
  have hlx := firstLeaf_below height x
  by_cases hax : Below a x
  · exact hfreed.mark_under h hx ha hax
  by_cases hla : Below (firstLeaf height x) a
  · have hne : firstLeaf height x ≠ a := fun he => hax (he ▸ hlx)
    obtain ⟨c, hc2, rfl, hc⟩ := hla.exists_child ha.ne_zero hne
    have hsib : b.mark (sibling c) = .empty := by
      have hnc := (h.node x hx).of_path hc (by omega)
      refine h.empty _ (hnc.sibling hc2) fun y hy hys => ?_
      have hyx : y = x := by
        by_contra hyx
        exact hnone y hy hyx (hys.trans (below_sibling hc2))
      exact not_below_sibling hc2 hc (hlx.trans (hyx ▸ hys))
    rw [hfreed.path c hc2 hc, hsib, freeUpMark_empty_right]
  · rw [hfreed.off a ha.ne_zero hla]
    refine h.empty a ha fun y hy hya => ?_
    have hyx : y = x := by
      by_contra hyx
      exact hnone y hy hyx hya
    exact hla (hlx.trans (hyx ▸ hya))

end Freed

theorem invariant_dealloc (h : Invariant b ns) (hx : x ∈ ns)
    (hsafe : ∀ c, IsNode c → 2 ≤ c → Below x c → (∃ y ∈ ns, y ≠ x ∧ Below y c) →
      b.mark (sibling c) ≠ .empty) :
    ∃ b', deallocPage (nodeBase x) b = some (0, b') ∧ Invariant b' (ns.erase x) := by
  obtain ⟨b', hrun, hbase, hlevel, hleaf, hoff, hpath⟩ := deallocPage_spec (h.node x hx) b
  have hfreed : Freed x b b' := ⟨hleaf, hoff, hpath⟩
  have hmem : ∀ y, y ∈ ns.erase x ↔ y ≠ x ∧ y ∈ ns := fun y => h.nodup.mem_erase_iff
  refine ⟨b', hrun, by rw [hlevel, h.heapLevel], fun y hy => by rw [hbase, h.base y hy],
    fun y hy => h.node y ((hmem y).mp hy).2, h.nodup.erase x, ?_, ?_, ?_, ?_⟩
  · exact fun y hy z hz hb => h.apart y ((hmem y).mp hy).2 z ((hmem z).mp hz).2 hb
  · intro y hy
    obtain ⟨hyx, hy⟩ := (hmem y).mp hy
    exact hfreed.mark_other h hx hy hyx
  · intro y hy a ha hya
    obtain ⟨hyx, hy⟩ := (hmem y).mp hy
    exact hfreed.mark_above h hx hsafe hy hyx ha hya
  · intro a ha hnone
    exact hfreed.mark_free h hx ha fun y hy hyx => hnone y ((hmem y).mpr ⟨hyx, hy⟩)

end Dealloc

/-! ### Blocks and nodes -/

def blockOf (x : ℕ) : Block := ⟨nodeBase x, nodePages x⟩

theorem blockOf_stop (x : ℕ) :
    (blockOf x).stop = baseMemory + pageSize * (firstLeaf height x - 2 ^ height + nodePages x) := by
  rw [Block.stop, blockOf, nodeBase, Nat.mul_add, Nat.add_assoc]

theorem blockOf_inside {x : ℕ} (hx : IsNode x) :
    baseMemory ≤ (blockOf x).base ∧ (blockOf x).stop ≤ baseMemory + memory := by
  have hlo := two_pow_le_firstLeaf hx.ne_zero hx.depth_le
  have hhi := firstLeaf_add_le (h := height) hx.depth_le
  refine ⟨Nat.le_add_right _ _, ?_⟩
  rw [blockOf_stop x]
  have hmem : memory = pageSize * 2 ^ height := rfl
  rw [hmem, nodePages]
  refine Nat.add_le_add_left (Nat.mul_le_mul_left _ ?_) _
  rw [Nat.pow_succ] at hhi
  omega

theorem nodePages_pos (x : ℕ) : 0 < nodePages x := Nat.two_pow_pos _

theorem blockOf_under_iff {x c : ℕ} (hx : IsNode x) (hc : IsNode c) :
    (blockOf x).Under c ↔ Below x c := by
  have hps : 0 < pageSize := by decide
  have hlx := two_pow_le_firstLeaf hx.ne_zero hx.depth_le
  have hlc := two_pow_le_firstLeaf hc.ne_zero hc.depth_le
  rw [below_iff_leaves hx.ne_zero hc.ne_zero hx.depth_le hc.depth_le, Block.Under,
    blockOf_stop x, blockOf, nodeBase, nodeBase, Nat.add_assoc, ← Nat.mul_add,
    Nat.add_le_add_iff_left, Nat.add_le_add_iff_left, Nat.mul_le_mul_left_iff hps,
    Nat.mul_le_mul_left_iff hps]
  simp only [nodePages]
  omega

theorem blockOf_disjoint {x y : ℕ} (hx : IsNode x) (hy : IsNode y)
    (h : ¬ Below x y ∧ ¬ Below y x) : (blockOf x).Disjoint (blockOf y) := by
  by_contra hne
  have hps : 0 < pageSize := by decide
  have hlx := two_pow_le_firstLeaf hx.ne_zero hx.depth_le
  have hly := two_pow_le_firstLeaf hy.ne_zero hy.depth_le
  rw [Block.Disjoint, blockOf_stop x, blockOf_stop y, blockOf, blockOf, nodeBase, nodeBase,
    Nat.add_le_add_iff_left, Nat.add_le_add_iff_left, Nat.mul_le_mul_left_iff hps,
    Nat.mul_le_mul_left_iff hps, nodePages, nodePages] at hne
  rcases comparable_of_leaves_overlap hx.ne_zero hy.ne_zero hx.depth_le hy.depth_le
    (by omega) (by omega) with hb | hb
  · exact h.1 hb
  · exact h.2 hb

theorem blockOf_injective {x y : ℕ} (hx : IsNode x) (hy : IsNode y) (h : blockOf x = blockOf y) :
    x = y := by
  have hunder : ∀ z, (blockOf z).Under z := fun z => ⟨le_rfl, le_rfl⟩
  have h1 := (blockOf_under_iff hx hy).mp (by rw [h]; exact hunder y)
  have h2 := (blockOf_under_iff hy hx).mp (by rw [← h]; exact hunder x)
  exact h1.antisymm h2

theorem erase_map_blockOf {ns : List ℕ} (h : ∀ x ∈ ns, IsNode x) {x : ℕ} (hx : IsNode x) :
    (ns.map blockOf).erase (blockOf x) = (ns.erase x).map blockOf := by
  induction ns with
  | nil => rfl
  | cons y ns ih =>
    obtain ⟨hy, hns⟩ := List.forall_mem_cons.mp h
    by_cases he : y = x
    · simp [he]
    · have hne : blockOf y ≠ blockOf x := fun hb => he (blockOf_injective hy hx hb)
      rw [List.map_cons, List.erase_cons_tail (by simpa using hne),
        List.erase_cons_tail (by simpa using he), List.map_cons, ih hns]

/-- The live blocks are those of the nodes `ns`, and the marks agree with them. -/
structure Tracks (s : Heap) (ns : List ℕ) : Prop where
  live : s.live = ns.map blockOf
  marks : Invariant s.tree ns

theorem tracks_emptyHeap : Tracks emptyHeap [] := ⟨rfl, invariant_createHeap⟩

theorem Tracks.under_iff {s : Heap} {ns : List ℕ} (h : Tracks s ns) {x c : ℕ} (hx : x ∈ ns)
    (hc : IsNode c) : (∃ other ∈ s.live.erase (blockOf x), other.Under c) ↔
      ∃ y ∈ ns, y ≠ x ∧ Below y c := by
  rw [h.live, erase_map_blockOf h.marks.node (h.marks.node x hx)]
  simp only [List.mem_map, exists_exists_and_eq_and, h.marks.nodup.mem_erase_iff]
  constructor
  · rintro ⟨y, ⟨hyx, hy⟩, hb⟩
    exact ⟨y, hy, hyx, (blockOf_under_iff (h.marks.node y hy) hc).mp hb⟩
  · rintro ⟨y, hy, hyx, hb⟩
    exact ⟨y, ⟨hyx, hy⟩, (blockOf_under_iff (h.marks.node y hy) hc).mpr hb⟩

/-- A request is served by the leftmost node that can, or refused because there is none. Only the
addresses of the nodes matter, not the marks. -/
theorem allocPage_cases_of {b : BuddyArray} (hlevel : b.heapLevel = height + 1)
    (hbase : ∀ x, IsNode x → b.base (x - 1) = nodeBase x) (pages : ℕ) :
    (∃ x, IsFirstFit b (height - Nat.clog 2 pages) x ∧ nodePages x = 2 ^ Nat.clog 2 pages ∧
      allocPage pages b =
        (some (nodeBase x), fillUp (height - Nat.clog 2 pages) x b)) ∨
    (allocPage pages b = (none, b) ∧ (1 ≤ pages → pages ≤ numberOfPages →
      ∀ x, ¬ Candidate b (height - Nat.clog 2 pages) 1 x)) := by
  by_cases hvalid : pages = 0 ∨ pages > numberOfPages
  · exact Or.inr ⟨allocPage_of_invalid hvalid, by omega⟩
  have hle : pages ≤ numberOfPages := by omega
  have hclog : Nat.clog 2 pages ≤ height := Nat.clog_le_of_le_pow hle
  rw [allocPage_eq hlevel (by omega) hle]
  rcases getNextPageRecursive_spec (height - Nat.clog 2 pages) 1 b with
    ⟨x, hx, hmin, hget⟩ | ⟨hnone, hget⟩
  · have hnode := hx.isNode (Nat.sub_le _ _)
    refine Or.inl ⟨x, ⟨hx, hmin⟩, ?_, ?_⟩
    · rw [nodePages, hx.depth_eq, Nat.sub_sub_self hclog]
    · rw [hget, hbase x hnode]
  · exact Or.inr ⟨hget, fun _ _ => hnone⟩

theorem allocPage_cases {b : BuddyArray} {ns : List ℕ} (h : Invariant b ns) (pages : ℕ) :
    (∃ x, IsFirstFit b (height - Nat.clog 2 pages) x ∧ nodePages x = 2 ^ Nat.clog 2 pages ∧
      allocPage pages b =
        (some (nodeBase x), fillUp (height - Nat.clog 2 pages) x b)) ∨
    (allocPage pages b = (none, b) ∧ (1 ≤ pages → pages ≤ numberOfPages →
      ∀ x, ¬ Candidate b (height - Nat.clog 2 pages) 1 x)) :=
  allocPage_cases_of h.heapLevel h.base pages

/-- A step refuses a request, hands out the first node that fits, or takes a block back; the marks
and the live blocks stay in agreement. -/
theorem Tracks.step_cases {s t : Heap} {ns : List ℕ} {r : Request} (h : Tracks s ns)
    (hsafe : MergeSafe s r) (hstep : heapStep s r = some t) :
    t = s ∨
    (∃ pages x, r = .alloc pages ∧ IsFirstFit s.tree (height - Nat.clog 2 pages) x ∧
      t.tree = fillUp (height - Nat.clog 2 pages) x s.tree ∧ Tracks t (x :: ns)) ∨
    ∃ x ∈ ns, r = .dealloc (blockOf x) ∧ deallocPage (nodeBase x) s.tree = some (0, t.tree) ∧
      Tracks t (ns.erase x) := by
  cases r with
  | alloc pages =>
    simp only [heapStep] at hstep
    rcases allocPage_cases h.marks pages with ⟨x, hx, hpages, halloc⟩ | ⟨halloc, -⟩
    · rw [halloc, Option.some.injEq] at hstep
      subst hstep
      refine Or.inr (Or.inl ⟨pages, x, rfl, hx, rfl, ?_,
        invariant_alloc h.marks (Nat.sub_le _ _) hx⟩)
      rw [List.map_cons, h.live, blockOf, hpages]
    · rw [halloc, Option.some.injEq] at hstep
      exact Or.inl hstep.symm
  | dealloc blk =>
    simp only [heapStep] at hstep
    split_ifs at hstep with hmem
    have hmem' := hmem
    rw [h.live, List.mem_map] at hmem'
    obtain ⟨x, hx, rfl⟩ := hmem'
    have hnode := h.marks.node x hx
    obtain ⟨b', hrun, hinv⟩ := invariant_dealloc h.marks hx fun c hc hc2 hxc hother =>
      hsafe c hc hc2 ((blockOf_under_iff hnode hc).mpr hxc) ((h.under_iff hx hc).mpr hother)
    have hrun' : deallocPage (blockOf x).base s.tree = some (0, b') := hrun
    rw [hrun', Option.map_some, Option.some.injEq] at hstep
    subst hstep
    refine Or.inr (Or.inr ⟨x, hx, rfl, hrun, ?_, hinv⟩)
    rw [h.live, erase_map_blockOf h.marks.node hnode]

/-- Every step keeps the marks and the live blocks in agreement. -/
theorem heapStep_tracks {s t : Heap} {ns : List ℕ} {r : Request} (h : Tracks s ns)
    (hsafe : MergeSafe s r) (hstep : heapStep s r = some t) : ∃ ns', Tracks t ns' := by
  rcases h.step_cases hsafe hstep with rfl | ⟨pages, x, -, -, -, ht⟩ | ⟨x, -, -, -, ht⟩
  · exact ⟨ns, h⟩
  · exact ⟨x :: ns, ht⟩
  · exact ⟨ns.erase x, ht⟩

theorem Tracks.liveDisjoint {s : Heap} {ns : List ℕ} (h : Tracks s ns) : LiveDisjoint s := by
  refine ⟨?_, fun blk hblk => ?_⟩
  · rw [h.live, List.pairwise_map]
    refine List.Nodup.pairwise_of_forall_ne h.marks.nodup fun x hx y hy hne => ?_
    refine blockOf_disjoint (h.marks.node x hx) (h.marks.node y hy) ⟨?_, ?_⟩
    · exact fun hb => hne (h.marks.apart x hx y hy hb)
    · exact fun hb => hne (h.marks.apart y hy x hx hb).symm
  · rw [h.live, List.mem_map] at hblk
    obtain ⟨x, hx, rfl⟩ := hblk
    exact blockOf_inside (h.marks.node x hx)

theorem reachable_tracks {s : Heap} (h : (heapSystem.restrict MergeSafe).Reachable s) :
    ∃ ns, Tracks s ns := by
  refine h.invariant (I := fun s => ∃ ns, Tracks s ns) ?_ ?_
  · rintro s rfl
    exact ⟨[], tracks_emptyHeap⟩
  · rintro s r t ⟨ns, hns⟩ ⟨hsafe, hstep⟩
    exact heapStep_tracks hns hsafe hstep

/-- While no free merges a node that still holds another block, no page is handed out twice. -/
theorem live_disjoint {s : Heap} (h : (heapSystem.restrict MergeSafe).Reachable s) :
    LiveDisjoint s := by
  obtain ⟨ns, hns⟩ := reachable_tracks h
  exact hns.liveDisjoint

/-- The two halves of the heap. -/
def lowerHalf : Block := ⟨baseMemory, 512⟩

def upperHalf : Block := ⟨baseMemory + pageSize * 512, 512⟩

theorem live_disjoint_upperHalf : ∃ s, s.live = [upperHalf] ∧ LiveDisjoint s := by
  obtain ⟨s, hs, hlive⟩ := Option.map_eq_some_iff.mp (show
    (execute heapStep emptyHeap [.alloc 512, .alloc 512]).map Heap.live =
      some [upperHalf, lowerHalf] by
    rw [emptyHeap, createHeap_eq]
    decide +kernel)
  obtain ⟨t, ht, hlive'⟩ := Option.map_eq_some_iff.mp (show
    (execute heapStep emptyHeap ([.alloc 512, .alloc 512] ++ [.dealloc lowerHalf])).map
      Heap.live = some [upperHalf] by
    rw [emptyHeap, createHeap_eq]
    decide +kernel)
  rw [execute_concat, hs, Option.bind_some] at ht
  have hreach : (heapSystem.restrict MergeSafe).Reachable s := by
    cases path_of_execute (fun s => s = emptyHeap) hs with
    | cons h1 h => cases h with
      | cons h2 h =>
        cases h
        have hstart : (heapSystem.restrict MergeSafe).Reachable emptyHeap :=
          System.Reachable.start rfl
        exact (hstart.next ⟨mergeSafe_alloc _ 512, h1⟩).next ⟨mergeSafe_alloc _ 512, h2⟩
  -- only the root holds both halves
  have hsafe : MergeSafe s (.dealloc lowerHalf) := by
    rintro c hc hc2 hp ⟨other, hother, hq⟩
    obtain rfl : other = upperHalf := by
      rw [hlive, show [upperHalf, lowerHalf].erase lowerHalf = [upperHalf] by decide] at hother
      exact List.mem_singleton.mp hother
    have h1 : 1 ≤ depth c := depth_pos_iff.mpr hc2
    have hpages : nodePages c ≤ 2 ^ 9 := Nat.pow_le_pow_right two_pos (by rw [height]; omega)
    have hlo : nodeBase c ≤ baseMemory := hp.1
    have hhi : baseMemory + pageSize * 512 + pageSize * 512 ≤
      nodeBase c + pageSize * nodePages c := hq.2
    have hmul : pageSize * nodePages c ≤ pageSize * 512 := Nat.mul_le_mul_left _ hpages
    have hpos : 0 < pageSize * 512 := by decide
    omega
  exact ⟨t, hlive', live_disjoint (hreach.next ⟨hsafe, ht⟩)⟩

/-- Two requests for one page, a free of the first and a request for four pages: the free
marks the whole heap `EMPTY`, and the page still in use is handed out again. -/
theorem double_allocation :
    ∃ s, heapSystem.Path emptyHeap
        [.alloc 1, .alloc 1, .dealloc ⟨baseMemory, 1⟩, .alloc 4] s ∧
      s.live = [⟨baseMemory, 4⟩, ⟨baseMemory + pageSize, 1⟩] ∧ ¬ LiveDisjoint s := by
  obtain ⟨s, hpath, hlive⟩ := exists_path_of_execute (fun s => s = emptyHeap) (show
    (execute heapStep emptyHeap [.alloc 1, .alloc 1, .dealloc ⟨baseMemory, 1⟩, .alloc 4]).map
      Heap.live = some [⟨baseMemory, 4⟩, ⟨baseMemory + pageSize, 1⟩] by
    rw [emptyHeap, createHeap_eq]
    decide +kernel)
  refine ⟨s, hpath, hlive, fun h => ?_⟩
  have := h.disjoint
  rw [hlive] at this
  revert this
  decide

end GatOS.BuddyAllocator
