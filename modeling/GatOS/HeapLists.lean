import GatOS.BuddyAllocatorRun
import GatOS.MallocBlocks

/-!
# Blocks that are cut and joined anywhere

A heap is read over `next` alone, since `prev` can be out of date. Its blocks lie in page blocks
and do not overlap.
-/
namespace GatOS.Malloc
open MachineInt BuddyAllocator LinkedRing DoublyLinkedList Tiling

/-- The addresses of a block. -/
def span (memory : Memory) (b : ℕ) : Set ℕ := Set.Ico b (b + extent memory b)

/-- `l` are the blocks of the heap that begins at `base`, each inside one of the page blocks. -/
structure Listed (pages : List Block) (memory : Memory) (base : ℕ) (l : List ℕ) : Prop where
  chain : Chain (nextOf memory) base l null
  inside : ∀ b ∈ l, ∃ blk ∈ pages, blk.base ≤ b ∧ b + extent memory b ≤ blk.stop
  apart : {b | b ∈ l}.PairwiseDisjoint (span memory)

def bytes (memory : Memory) (l : List ℕ) : Set ℕ := ⋃ b ∈ {b | b ∈ l}, span memory b

def InUse (memory : Memory) (l : List ℕ) (b : ℕ) : Prop := b ∈ l ∧ (memory b).free = false

/-- A free block serves requests for `size` bytes. -/
def Available (size : ℕ) (memory : Memory) (l : List ℕ) : Prop :=
  ∃ b ∈ l, (memory b).free = true ∧ size < (memory b).size

/-- The free blocks are arranged anew; the blocks in use and all other headers stay. -/
structure Keeps (memory memory' : Memory) (l l' : List ℕ) : Prop where
  covers : bytes memory' l' = bytes memory l
  frame : ∀ c ∉ bytes memory l, memory' c = memory c
  inUse : ∀ c, InUse memory' l' c ↔ InUse memory l c
  size : ∀ c, InUse memory l c → (memory' c).size = (memory c).size

variable {memory memory' memory'' : Memory} {base b c x y : ℕ} {pages : List Block}
  {tree : BuddyArray} {l l' l'' l₁ l₂ : List ℕ}

/-! ### The list -/

theorem extent_pos (memory : Memory) (b : ℕ) : 0 < extent memory b :=
  Nat.add_pos_left (by decide) _

theorem mem_span_self (memory : Memory) (b : ℕ) : b ∈ span memory b :=
  ⟨le_rfl, Nat.lt_add_of_pos_right (extent_pos memory b)⟩

theorem mem_bytes {a : ℕ} : a ∈ bytes memory l ↔ ∃ b ∈ l, a ∈ span memory b := by
  simp [bytes]

theorem mem_bytes_self (hb : b ∈ l) : b ∈ bytes memory l :=
  mem_bytes.mpr ⟨b, hb, mem_span_self memory b⟩

theorem span_congr (h : (memory' b).size = (memory b).size) : span memory' b = span memory b := by
  rw [span, span, extent, extent, h]

theorem bytes_congr (h : ∀ c ∈ l, span memory' c = span memory c) :
    bytes memory' l = bytes memory l := Set.iUnion₂_congr h

theorem Listed.bounds (h : Listed pages memory base l) (hp : LiveDisjoint ⟨tree, pages⟩)
    (hb : b ∈ l) :
    baseMemory ≤ b ∧ b + extent memory b ≤ baseMemory + BuddyAllocator.memory := by
  obtain ⟨blk, hblk, hlo, hhi⟩ := h.inside b hb
  obtain ⟨hbase, hstop⟩ := hp.inside blk hblk
  exact ⟨hbase.trans hlo, hhi.trans hstop⟩

theorem Listed.size_lt (h : Listed pages memory base l) (hp : LiveDisjoint ⟨tree, pages⟩)
    (hb : b ∈ l) : (memory b).size + blockStructSize < 2 ^ 31 := by
  obtain ⟨hlo, hhi⟩ := h.bounds hp hb
  have hconst : baseMemory + BuddyAllocator.memory < 2 ^ 31 := by decide
  unfold extent at hhi
  omega

theorem Listed.null_notMem (h : Listed pages memory base l) (hp : LiveDisjoint ⟨tree, pages⟩) :
    null ∉ l := fun hmem => by
  have hlo := (h.bounds hp hmem).1
  exact absurd hlo (by decide)

theorem Listed.nodup (h : Listed pages memory base l) (hp : LiveDisjoint ⟨tree, pages⟩) :
    l.Nodup := h.chain.nodup (h.null_notMem hp)

theorem Listed.visits_iff (h : Listed pages memory base l) (hp : LiveDisjoint ⟨tree, pages⟩) :
    Visits (nextOf memory) null base b ↔ b ∈ l :=
  visits_iff_of_chain h.chain (h.null_notMem hp)

/-- Blocks that share an address are the same. -/
theorem Listed.eq_of_mem {a : ℕ} (h : Listed pages memory base l) (hb : b ∈ l) (hc : c ∈ l)
    (hba : a ∈ span memory b) (hca : a ∈ span memory c) : b = c :=
  h.apart.elim_set hb hc a hba hca

/-- Only the links and the sizes count. -/
theorem Listed.congr (h : Listed pages memory base l)
    (heq : ∀ b ∈ l, (memory' b).next = (memory b).next ∧ (memory' b).size = (memory b).size) :
    Listed pages memory' base l := by
  have hspan : ∀ b ∈ l, span memory' b = span memory b := fun b hb => span_congr (heq b hb).2
  refine ⟨h.chain.congr fun b hb => (heq b hb).1, fun b hb => ?_,
    h.apart.mono_on fun b hb => (hspan b hb).subset⟩
  rw [extent, (heq b hb).2]
  exact h.inside b hb

theorem Listed.mono {pages' : List Block} (h : Listed pages memory base l)
    (hsub : pages ⊆ pages') : Listed pages' memory base l := by
  refine ⟨h.chain, fun b hb => ?_, h.apart⟩
  obtain ⟨blk, hblk, hbounds⟩ := h.inside b hb
  exact ⟨blk, hsub hblk, hbounds⟩

theorem InUse.congr (h : InUse memory l c) (heq : memory' c = memory c) : InUse memory' l c :=
  ⟨h.1, by rw [heq]; exact h.2⟩

theorem Keeps.refl (memory : Memory) (l : List ℕ) : Keeps memory memory l l :=
  ⟨rfl, fun _ _ => rfl, fun _ => Iff.rfl, fun _ _ => rfl⟩

theorem Keeps.trans (h : Keeps memory memory' l l') (g : Keeps memory' memory'' l' l'') :
    Keeps memory memory'' l l'' where
  covers := g.covers.trans h.covers
  frame c hc := (g.frame c (h.covers ▸ hc)).trans (h.frame c hc)
  inUse c := (g.inUse c).trans (h.inUse c)
  size c hc := (g.size c ((h.inUse c).mpr hc)).trans (h.size c hc)

/-! ### One block and its two parts -/

theorem Keeps.symm (h : Keeps memory memory' l l') : Keeps memory' memory l' l where
  covers := h.covers.symm
  frame c hc := (h.frame c (h.covers ▸ hc)).symm
  inUse c := (h.inUse c).symm
  size c hc := (h.size c ((h.inUse c).mp hc)).symm

/-- The free block `x` of `whole` is cut at `y` in `parts`. -/
structure CutAt (whole parts : Memory) (x y : ℕ) : Prop where
  first : x + extent parts x = y
  second : y + extent parts y = x + extent whole x
  next : (parts x).next = y
  last : (parts y).next = (whole x).next
  freeWhole : (whole x).free = true
  freeFirst : (parts x).free = true
  freeSecond : (parts y).free = true
  other : ∀ b, b ≠ x → b ≠ y → parts b = whole b

section

variable {whole parts : Memory}

theorem CutAt.lt (h : CutAt whole parts x y) : x < y ∧ y < x + extent whole x := by
  have hfirst := h.first
  have hsecond := h.second
  have hx := extent_pos parts x
  have hy := extent_pos parts y
  omega

theorem CutAt.span_other (h : CutAt whole parts x y) (hx : b ≠ x) (hy : b ≠ y) :
    span parts b = span whole b := span_congr (by rw [h.other b hx hy])

theorem CutAt.span_union (h : CutAt whole parts x y) :
    span parts x ∪ span parts y = span whole x := by
  rw [span, span, span, h.first, h.second]
  exact Set.Ico_union_Ico_eq_Ico h.lt.1.le h.lt.2.le

theorem CutAt.span_disjoint (h : CutAt whole parts x y) :
    Disjoint (span parts x) (span parts y) := by
  rw [span, span, h.first]
  exact Set.Ico_disjoint_Ico_same

theorem mem_cut (l₁ l₂ : List ℕ) (x y b : ℕ) :
    b ∈ l₁ ++ x :: y :: l₂ ↔ b = y ∨ b ∈ l₁ ++ x :: l₂ := by
  simp only [List.mem_append, List.mem_cons]
  tauto

/-- What is outside the two parts. -/
theorem notMem_cut (hnodup : (l₁ ++ x :: y :: l₂).Nodup) :
    y ∉ l₁ ++ x :: l₂ ∧ x ∉ l₁ ++ l₂ := by
  rw [List.append_cons, List.nodup_middle, List.nodup_cons, ← List.append_cons,
    List.nodup_middle, List.nodup_cons] at hnodup
  exact ⟨hnodup.1, hnodup.2.1⟩

theorem CutAt.keeps (h : CutAt whole parts x y) (hy : y ∉ l₁ ++ x :: l₂) :
    Keeps whole parts (l₁ ++ x :: l₂) (l₁ ++ x :: y :: l₂) := by
  have hx : x ∈ l₁ ++ x :: l₂ := by simp
  have hset : {b | b ∈ l₁ ++ x :: y :: l₂} = insert y {b | b ∈ l₁ ++ x :: l₂} :=
    Set.ext fun b => mem_cut l₁ l₂ x y b
  have hout : ∀ b ∈ l₁ ++ x :: l₂, b ≠ y := fun b hb he => hy (he ▸ hb)
  refine ⟨?_, fun c hc => ?_, fun c => ?_, fun c hc => ?_⟩
  · rw [bytes, hset]
    exact biUnion_cut hx h.span_union fun b hb hbx => h.span_other hbx (hout b hb)
  · refine h.other c (fun he => hc ?_) fun he => hc ?_
    · rw [he]
      exact mem_bytes_self hx
    · rw [he]
      exact mem_bytes.mpr ⟨x, hx, h.lt.1.le, h.lt.2⟩
  · rw [InUse, InUse, mem_cut]
    by_cases hcx : c = x
    · rw [hcx, h.freeFirst, h.freeWhole]
      simp
    by_cases hcy : c = y
    · rw [hcy, h.freeSecond]
      simp [hy]
    · rw [h.other c hcx hcy, or_iff_right hcy]
  · obtain ⟨hc, hused⟩ := hc
    have hcx : c ≠ x := fun he => by simp [he, h.freeWhole] at hused
    rw [h.other c hcx (hout c hc)]

theorem CutAt.listed (h : CutAt whole parts x y) (hlisted : Listed pages whole base (l₁ ++ x :: l₂))
    (hnodup : (l₁ ++ x :: y :: l₂).Nodup) :
    Listed pages parts base (l₁ ++ x :: y :: l₂) := by
  have hx : x ∈ l₁ ++ x :: l₂ := by simp
  obtain ⟨hy, hxl⟩ := notMem_cut hnodup
  have hother : ∀ b ∈ l₁ ++ l₂, parts b = whole b := fun b hb =>
    h.other b (fun he => hxl (he ▸ hb)) fun he => hy (he ▸ by
      simp only [List.mem_append, List.mem_cons] at hb ⊢
      tauto)
  refine ⟨?_, fun b hb => ?_, ?_⟩
  · refine hlisted.chain.link (fun z hz => ?_) (fun z hz => ?_) h.next h.last
    · rw [nextOf, nextOf, hother z (List.mem_append_left _ hz)]
    · rw [nextOf, nextOf, hother z (List.mem_append_right _ hz)]
  · obtain ⟨blk, hblk, hlo, hhi⟩ := hlisted.inside x hx
    have hlt := h.lt
    by_cases hbx : b = x
    · rw [hbx, h.first]
      exact ⟨blk, hblk, hlo, by omega⟩
    by_cases hby : b = y
    · rw [hby, h.second]
      exact ⟨blk, hblk, by omega, hhi⟩
    · rw [extent, h.other b hbx hby]
      exact hlisted.inside b (((mem_cut _ _ _ _ _).mp hb).resolve_left hby)
  · rw [show {b | b ∈ l₁ ++ x :: y :: l₂} = insert y {b | b ∈ l₁ ++ x :: l₂} from
      Set.ext fun b => mem_cut l₁ l₂ x y b]
    exact pairwiseDisjoint_cut hlisted.apart hx h.span_disjoint h.span_union fun b hb hbx =>
      h.span_other hbx fun he => hy (he ▸ hb)

/-- The parts are joined when they are in one page block. -/
theorem CutAt.listed_whole (h : CutAt whole parts x y)
    (hlisted : Listed pages parts base (l₁ ++ x :: y :: l₂))
    (hnodup : (l₁ ++ x :: y :: l₂).Nodup)
    (hpage : ∃ blk ∈ pages, blk.base ≤ x ∧ y + extent parts y ≤ blk.stop) :
    Listed pages whole base (l₁ ++ x :: l₂) := by
  obtain ⟨hy, -⟩ := notMem_cut hnodup
  refine ⟨?_, fun b hb => ?_, ?_⟩
  · refine hlisted.chain.unlink hnodup (fun z hzx hzy => ?_) h.last.symm
    rw [nextOf, nextOf, h.other z hzx hzy]
  · by_cases hbx : b = x
    · obtain ⟨blk, hblk, hlo, hhi⟩ := hpage
      rw [hbx, ← h.second]
      exact ⟨blk, hblk, hlo, hhi⟩
    · rw [extent, ← h.other b hbx fun he => hy (he ▸ hb)]
      exact hlisted.inside b ((mem_cut _ _ _ _ _).mpr (Or.inr hb))
  · rw [show {b | b ∈ l₁ ++ x :: l₂} = {b | b ∈ l₁ ++ x :: y :: l₂} \ {y} by
      ext b
      simp only [Set.mem_ofPred_eq, Set.mem_sdiff, Set.mem_singleton_iff, mem_cut]
      exact ⟨fun hb => ⟨Or.inr hb, fun he => hy (he ▸ hb)⟩, fun hb => hb.1.resolve_left hb.2⟩]
    exact pairwiseDisjoint_join hlisted.apart (by simp) (by simp) h.span_union.symm
      fun b _ hbx hby => (h.span_other hbx hby).symm

theorem CutAt.available (h : CutAt whole parts x y) (hy : y ∉ l₁ ++ x :: l₂) (n : ℕ) :
    Available n whole (l₁ ++ x :: l₂) ↔
      Available n parts (l₁ ++ x :: y :: l₂) ∨ n < (whole x).size := by
  have hx : x ∈ l₁ ++ x :: l₂ := by simp
  have hle : (parts x).size ≤ (whole x).size ∧ (parts y).size ≤ (whole x).size := by
    have hfirst := h.first
    have hsecond := h.second
    unfold extent at hfirst hsecond
    omega
  constructor
  · rintro ⟨b, hb, hfree, hlt⟩
    by_cases hbx : b = x
    · rw [hbx] at hlt
      exact Or.inr hlt
    · rw [← h.other b hbx fun he => hy (he ▸ hb)] at hfree hlt
      exact Or.inl ⟨b, (mem_cut _ _ _ _ _).mpr (Or.inr hb), hfree, hlt⟩
  · rintro (⟨b, hb, hfree, hlt⟩ | hlt)
    · by_cases hbx : b = x
      · exact ⟨x, hx, h.freeWhole, by rw [hbx] at hlt; omega⟩
      by_cases hby : b = y
      · exact ⟨x, hx, h.freeWhole, by rw [hby] at hlt; omega⟩
      · rw [h.other b hbx hby] at hfree hlt
        exact ⟨b, ((mem_cut _ _ _ _ _).mp hb).resolve_left hby, hfree, hlt⟩
    · exact ⟨x, hx, h.freeWhole, hlt⟩

end

/-! ### Cutting a block -/

theorem Listed.splitBlock {size : ℕ} (h : Listed pages memory base l)
    (hp : LiveDisjoint ⟨tree, pages⟩) (hx : x ∈ l) (hfree : (memory x).free = true)
    (hsize : size + blockStructSize ≤ (memory x).size) :
    ∃ l', Listed pages (splitBlock x size memory) base l' ∧
      Keeps memory (splitBlock x size memory) l l' ∧ x ∈ l' ∧
      (splitBlock x size memory x).size = size := by
  have hlt := h.size_lt hp hx
  have hsplit := splitBlock_eq hsize (by omega)
  set y := dataStart x + size with hy
  set parts := Malloc.splitBlock x size memory
  have hne : y ≠ x := by
    unfold dataStart blockStructSize at hy
    omega
  have hatx : parts x = { memory x with next := y, size := size } := by
    rw [hsplit, Function.update_self]
  have haty : parts y =
      ⟨(memory x).size - (size + blockStructSize), (memory x).next, x, true⟩ := by
    rw [hsplit, Function.update_of_ne hne, Function.update_self]
  have hcut : CutAt memory parts x y := by
    refine ⟨?_, ?_, by rw [hatx], by rw [haty], hfree, by rw [hatx]; exact hfree, by rw [haty],
      fun b hbx hby => ?_⟩
    · rw [extent, hatx, hy, dataStart, Nat.add_assoc]
    · rw [extent, extent, haty, hy, dataStart]
      dsimp only
      omega
    · rw [hsplit, Function.update_of_ne hbx, Function.update_of_ne hby]
  have hfresh : y ∉ l := fun hmem =>
    hne (h.eq_of_mem hmem hx (mem_span_self memory y) ⟨hcut.lt.1.le, hcut.lt.2⟩)
  have hnodup := h.nodup hp
  obtain ⟨l₁, l₂, rfl⟩ := List.append_of_mem hx
  have hnodup' : (l₁ ++ x :: y :: l₂).Nodup := by
    rw [List.append_cons, List.nodup_middle, List.nodup_cons, ← List.append_cons]
    exact ⟨hfresh, hnodup⟩
  exact ⟨l₁ ++ x :: y :: l₂, hcut.listed h hnodup', hcut.keeps hfresh, by simp, by rw [hatx]⟩

/-! ### Joining two blocks -/

theorem eq_of_mem_pages (hp : LiveDisjoint ⟨tree, pages⟩) {p q : Block} (hmem : p ∈ pages)
    (hmem' : q ∈ pages) {a : ℕ} (ha : p.base ≤ a ∧ a < p.stop) (ha' : q.base ≤ a ∧ a < q.stop) :
    p = q := by
  by_contra hne
  have : Std.Symm Block.Disjoint := ⟨fun _ _ h => Or.symm h⟩
  have hdisj : p.Disjoint q := hp.disjoint.forall hmem hmem' hne
  unfold Block.Disjoint at hdisj
  omega

/-- `y` is the block behind `x`, and both are in the same page block. -/
structure Adjoins (pages : List Block) (memory : Memory) (x y : ℕ) : Prop where
  next : (memory x).next = y
  adjacent : y = x + extent memory x
  first : ∀ blk ∈ pages, blk.base ≠ y

theorem Listed.mergeBlocks (h : Listed pages memory base l) (hp : LiveDisjoint ⟨tree, pages⟩)
    (hx : x ∈ l) (hxy : Adjoins pages memory x y) (hfx : (memory x).free = true)
    (hfy : (memory y).free = true) :
    ∃ l', Listed pages (mergeBlocks x memory) base l' ∧
      Keeps memory (mergeBlocks x memory) l l' ∧ (∀ c ∈ l, c ≠ y → c ∈ l') ∧
      mergeBlocks x memory x = { memory x with
        size := (memory x).size + (memory y).size + blockStructSize
        next := (memory y).next } ∧
      ∀ n, Available n (mergeBlocks x memory) l' ↔
        Available n memory l ∨ n < (memory x).size + (memory y).size + blockStructSize := by
  obtain ⟨hnext, hadj, hfirst⟩ := hxy
  have hpos := extent_pos memory x
  have hnull : y ≠ null := Nat.ne_zero_of_lt (show 0 < y by omega)
  have hnodup := h.nodup hp
  have hsplit := h.chain.next_spec hx (by rw [nextOf, hnext]; exact hnull)
  rw [nextOf, hnext] at hsplit
  obtain ⟨l₁, l₂, rfl⟩ := hsplit
  have hy : y ∈ l₁ ++ x :: y :: l₂ := by simp
  have hxne : y ≠ x := by omega
  -- both blocks are in one page block, so their sizes do not wrap around
  obtain ⟨blk, hblk, hlo, hhi⟩ := h.inside x hx
  obtain ⟨blk', hblk', hlo', hhi'⟩ := h.inside y hy
  have hbase : blk'.base ≠ y := hfirst blk' hblk'
  have hpos' := extent_pos memory y
  obtain rfl : blk = blk' := eq_of_mem_pages hp (a := y - 1) hblk hblk' (by omega) (by omega)
  have hstop : blk.stop < 2 ^ 32 := (hp.inside blk hblk).2.trans_lt (by decide)
  have hsize : uint32 ((memory x).size + (memory y).size + blockStructSize) =
      (memory x).size + (memory y).size + blockStructSize := by
    refine uint32_eq ?_
    unfold extent at *
    omega
  have hat : Malloc.mergeBlocks x memory x = { memory x with
      size := (memory x).size + (memory y).size + blockStructSize
      next := (memory y).next } := by
    rw [Malloc.mergeBlocks, Function.update_self]
    simp only [hnext, hsize]
  set whole := Malloc.mergeBlocks x memory
  have hother : ∀ b, b ≠ x → whole b = memory b := fun b hb => Function.update_of_ne hb _ _
  have hcut : CutAt whole memory x y := by
    refine ⟨hadj.symm, ?_, hnext, by rw [hat], by rw [hat]; exact hfx, hfx, hfy,
      fun b hb _ => (hother b hb).symm⟩
    have hextent : extent whole x = extent memory x + extent memory y := by
      rw [extent, hat]
      unfold extent
      dsimp only
      omega
    rw [hextent]
    omega
  obtain ⟨hyl, -⟩ := notMem_cut hnodup
  refine ⟨l₁ ++ x :: l₂, hcut.listed_whole h hnodup ⟨blk, hblk, hlo, hhi'⟩, (hcut.keeps hyl).symm,
    fun c hc hcy => ((mem_cut _ _ _ _ _).mp hc).resolve_left hcy, hat, fun n => ?_⟩
  rw [hcut.available hyl, hat]

/-! ### Marking a block -/

def mark (b : ℕ) (free : Bool) (memory : Memory) : Memory :=
  Function.update memory b { memory b with free := free }

theorem mark_self (free : Bool) : mark b free memory b = { memory b with free := free } :=
  Function.update_self ..

theorem mark_of_ne {free : Bool} (h : c ≠ b) : mark b free memory c = memory c :=
  Function.update_of_ne h _ _

@[simp] theorem mark_next (free : Bool) : (mark b free memory c).next = (memory c).next := by
  by_cases h : c = b
  · rw [h, mark_self]
  · rw [mark_of_ne h]

@[simp] theorem mark_prev (free : Bool) : (mark b free memory c).prev = (memory c).prev := by
  by_cases h : c = b
  · rw [h, mark_self]
  · rw [mark_of_ne h]

@[simp] theorem mark_size (free : Bool) : (mark b free memory c).size = (memory c).size := by
  by_cases h : c = b
  · rw [h, mark_self]
  · rw [mark_of_ne h]

theorem Listed.mark (h : Listed pages memory base l) (free : Bool) :
    Listed pages (mark b free memory) base l :=
  h.congr fun _ _ => ⟨mark_next free, mark_size free⟩

@[simp] theorem bytes_mark (free : Bool) : bytes (mark b free memory) l = bytes memory l :=
  bytes_congr fun _ _ => span_congr (mark_size free)

theorem inUse_mark_true : InUse (mark b true memory) l c ↔ InUse memory l c ∧ c ≠ b := by
  unfold InUse
  by_cases h : c = b
  · rw [h, mark_self]
    simp
  · simp [mark_of_ne h, h]

theorem inUse_mark_false (hb : b ∈ l) :
    InUse (mark b false memory) l c ↔ InUse memory l c ∨ c = b := by
  unfold InUse
  by_cases h : c = b
  · rw [h, mark_self]
    simp [hb]
  · simp [mark_of_ne h, h]

theorem available_mark_true {n : ℕ} (hb : b ∈ l) :
    Available n (mark b true memory) l ↔ Available n memory l ∨ n < (memory b).size := by
  constructor
  · rintro ⟨c, hc, hfree, hlt⟩
    rw [mark_size] at hlt
    by_cases hcb : c = b
    · exact Or.inr (hcb ▸ hlt)
    · rw [mark_of_ne hcb] at hfree
      exact Or.inl ⟨c, hc, hfree, hlt⟩
  · rintro (⟨c, hc, hfree, hlt⟩ | hlt)
    · refine ⟨c, hc, ?_, by rwa [mark_size]⟩
      by_cases hcb : c = b
      · rw [hcb, mark_self]
      · rwa [mark_of_ne hcb]
    · exact ⟨b, hb, by rw [mark_self], by rwa [mark_size]⟩

/-! ### Taking and releasing a block -/

/-- A free block serves a request, and what is too much is cut off. -/
theorem Listed.takeBlock {size : ℕ} (h : Listed pages memory base l)
    (hp : LiveDisjoint ⟨tree, pages⟩) (hb : b ∈ l) (hfree : (memory b).free = true)
    (hsize : size ≤ (memory b).size) :
    ∃ memory₁ l', takeBlock b size memory = Malloc.mark b false memory₁ ∧
      Listed pages memory₁ base l' ∧ Keeps memory memory₁ l l' ∧ b ∈ l' ∧
      size ≤ (memory₁ b).size := by
  by_cases hbig : (memory b).size > uint32 (size + 4 + blockStructSize)
  · have hlt := h.size_lt hp hb
    have hroom : size + blockStructSize ≤ (memory b).size := by
      unfold blockStructSize at *
      rw [uint32_eq (by omega)] at hbig
      omega
    obtain ⟨l', hlisted, hkeeps, hb', hsize'⟩ := h.splitBlock hp hb hfree hroom
    refine ⟨_, l', ?_, hlisted, hkeeps, hb', hsize'.ge⟩
    rw [Malloc.takeBlock, if_pos hbig]
    rfl
  · refine ⟨memory, l, ?_, h, Keeps.refl memory l, hb, hsize⟩
    rw [Malloc.takeBlock, if_neg hbig]
    rfl

/-- A free block joins the next block when that one is free, too. -/
theorem Listed.joinNext (h : Listed pages memory base l) (hp : LiveDisjoint ⟨tree, pages⟩)
    (hx : x ∈ l) (hfx : (memory x).free = true)
    (hadj : (memory x).next ≠ null → (memory (memory x).next).free = true →
      Adjoins pages memory x (memory x).next)
    (hmemory : memory' = if (memory x).next ≠ null ∧ (memory (memory x).next).free = true then
      Malloc.mergeBlocks x memory else memory) :
    ∃ l', Listed pages memory' base l' ∧ Keeps memory memory' l l' ∧
      (∀ c ∈ l, c ≤ x → c ∈ l') ∧ (∀ c, c ≠ x → memory' c = memory c) ∧
      (memory' x).free = true ∧ (memory' x).prev = (memory x).prev ∧
      (memory x).size ≤ (memory' x).size ∧
      ∀ n ≤ (memory x).size, Available n memory' l' ↔ Available n memory l ∨
        ((memory x).next ≠ null ∧ (memory (memory x).next).free = true) := by
  by_cases hcond : (memory x).next ≠ null ∧ (memory (memory x).next).free = true
  · rw [if_pos hcond] at hmemory
    have hxy := hadj hcond.1 hcond.2
    obtain ⟨l', hlisted, hkeeps, hmem, hat, havailable⟩ := h.mergeBlocks hp hx hxy hfx hcond.2
    rw [hmemory]
    refine ⟨l', hlisted, hkeeps, fun c hc hle => hmem c hc ?_,
      fun c hc => Function.update_of_ne hc _ _, by rw [hat]; exact hfx, by rw [hat], ?_,
      fun n hn => ?_⟩
    · have hlt := hxy.adjacent
      have hpos := extent_pos memory x
      omega
    · rw [hat]
      dsimp only
      omega
    · rw [havailable]
      refine iff_of_true (Or.inr ?_) (Or.inr hcond)
      unfold blockStructSize
      omega
  · rw [if_neg hcond] at hmemory
    rw [hmemory]
    exact ⟨l, h, Keeps.refl memory l, fun c hc _ => hc, fun _ _ => rfl, hfx, rfl, le_rfl,
      fun n _ => (or_iff_left hcond).symm⟩

/-- What `free` joins are neighbours in one page block. `prev` leads to another block of the list
that begins at `base`. -/
structure Joinable (pages : List Block) (memory : Memory) (base b : ℕ) : Prop where
  next : (memory b).next ≠ null → (memory (memory b).next).free = true →
    Adjoins pages memory b (memory b).next
  prev : (memory b).prev ≠ null → (memory b).prev ≠ b ∧
    Visits (nextOf memory) null base (memory b).prev ∧
    ((memory (memory b).prev).free = true → Adjoins pages memory (memory b).prev b)

/-- A neighbour of the block is free. -/
def FreeNeighbour (memory : Memory) (b : ℕ) : Prop :=
  ((memory b).next ≠ null ∧ (memory (memory b).next).free = true) ∨
    ((memory b).prev ≠ null ∧ (memory (memory b).prev).free = true)

theorem Listed.release (h : Listed pages memory base l) (hp : LiveDisjoint ⟨tree, pages⟩)
    (hb : b ∈ l) (hjoin : Joinable pages memory base b) :
    ∃ l', Listed pages (release b memory) base l' ∧
      Keeps (Malloc.mark b true memory) (release b memory) l l' ∧
      ∀ n ≤ (memory b).size, Available n (release b memory) l' ↔
        Available n memory l ∨ n < (memory b).size ∨ FreeNeighbour memory b := by
  set memory₁ := Malloc.mark b true memory with hmemory₁
  have h₁ : Listed pages memory₁ base l := h.mark true
  have hextent : ∀ c, extent memory₁ c = extent memory c := fun c => by
    rw [extent, extent, hmemory₁, mark_size]
  have hfree₁ : (memory₁ b).free = true := by rw [hmemory₁, mark_self]
  have hnext : (memory b).next ≠ b := h.chain.next_ne (h.null_notMem hp) hb
  have hcond : ((memory₁ b).next ≠ null ∧ (memory₁ (memory₁ b).next).free = true) ↔
      ((memory b).next ≠ null ∧ (memory (memory b).next).free = true) := by
    rw [hmemory₁, mark_next]
    rw [mark_of_ne hnext]
  set memory₂ := if (memory₁ b).next ≠ null ∧ (memory₁ (memory₁ b).next).free = true then
    Malloc.mergeBlocks b memory₁ else memory₁ with hmemory₂
  obtain ⟨l₂, h₂, hkeeps₂, hmem₂, hother₂, hfree₂, hprev₂, hsize₂, havailable₂⟩ :=
    h₁.joinNext hp hb hfree₁ (fun hnull hfree => by
      obtain ⟨hnull', hfree'⟩ := hcond.mp ⟨hnull, hfree⟩
      obtain ⟨-, hadjacent, hfirst⟩ := hjoin.next hnull' hfree'
      rw [hmemory₁, mark_next]
      exact ⟨mark_next true, by rwa [← hmemory₁, hextent], hfirst⟩) hmemory₂
  rw [hmemory₁, mark_prev] at hprev₂
  have hsize₁ : (memory₁ b).size = (memory b).size := by rw [hmemory₁, mark_size]
  rw [hsize₁] at hsize₂ havailable₂
  have hrelease : Malloc.release b memory =
      if (memory b).prev ≠ null ∧ (memory₂ (memory b).prev).free = true then
        Malloc.mergeBlocks (memory b).prev memory₂ else memory₂ := by
    rw [← hprev₂]
    rfl
  have havailable : ∀ n ≤ (memory b).size, Available n memory₂ l₂ ↔
      Available n memory l ∨ n < (memory b).size ∨
        ((memory b).next ≠ null ∧ (memory (memory b).next).free = true) := fun n hn => by
    rw [havailable₂ n hn, hcond, hmemory₁, available_mark_true hb, or_assoc]
  have hold : (memory b).prev ≠ null → memory₂ (memory b).prev = memory (memory b).prev :=
    fun hnull => by
      have hne := (hjoin.prev hnull).1
      rw [hother₂ _ hne, hmemory₁, mark_of_ne hne]
  by_cases hprev : (memory b).prev ≠ null ∧ (memory (memory b).prev).free = true
  · obtain ⟨hnull, hfree⟩ := hprev
    obtain ⟨hne, hvisits, hadjoins⟩ := hjoin.prev hnull
    obtain ⟨hlink, hadjacent, hfirst⟩ := hadjoins hfree
    rw [if_pos ⟨hnull, by rwa [hold hnull]⟩] at hrelease
    rw [hrelease]
    set a := (memory b).prev
    have hle : a ≤ b := by omega
    have ha : a ∈ l₂ := hmem₂ a ((h.visits_iff hp).mp hvisits) hle
    have hadjoins₂ : Adjoins pages memory₂ a b :=
      ⟨by rw [hold hnull, hlink], by rwa [extent, hold hnull, ← extent], hfirst⟩
    obtain ⟨l₃, h₃, hkeeps₃, -, -, havailable₃⟩ :=
      h₂.mergeBlocks hp ha hadjoins₂ (by rwa [hold hnull]) hfree₂
    refine ⟨l₃, h₃, hkeeps₂.trans hkeeps₃, fun n hn => ?_⟩
    rw [havailable₃]
    refine iff_of_true (Or.inr ?_) (Or.inr (Or.inr (Or.inr ⟨hnull, hfree⟩)))
    unfold blockStructSize
    omega
  · have hno : ¬ ((memory b).prev ≠ null ∧ (memory₂ (memory b).prev).free = true) :=
      fun hcond => hprev ⟨hcond.1, hold hcond.1 ▸ hcond.2⟩
    rw [if_neg hno] at hrelease
    rw [hrelease]
    refine ⟨l₂, h₂, hkeeps₂, fun n hn => ?_⟩
    rw [havailable n hn, FreeNeighbour, or_iff_left hprev]

/-! ### A new page block -/

section

variable {blk : Block}

theorem Listed.notMem_new (h : Listed pages memory base l)
    (hp : LiveDisjoint ⟨tree, blk :: pages⟩) :
    Disjoint (Set.Ico blk.base blk.stop) (bytes memory l) := by
  refine Set.disjoint_left.mpr fun a ha hmem => ?_
  obtain ⟨b, hb, hab⟩ := mem_bytes.mp hmem
  obtain ⟨blk', hblk', hlo, hhi⟩ := h.inside b hb
  have hdisj := (List.pairwise_cons.mp hp.disjoint).1 blk' hblk'
  obtain ⟨ha, hstop⟩ := ha
  obtain ⟨hab, hend⟩ := hab
  unfold Block.Disjoint at hdisj
  omega

theorem Listed.base_notMem (h : Listed pages memory base l)
    (hp : LiveDisjoint ⟨tree, blk :: pages⟩) (hlt : blk.base < blk.stop) : blk.base ∉ l :=
  fun hb => Set.disjoint_left.mp (h.notMem_new hp) ⟨le_rfl, hlt⟩ (mem_bytes_self hb)

/-- A header outside the list is written. -/
theorem Listed.chain_update {block : TBlock} (h : Listed pages memory base l) (hy : y ∉ l) :
    Chain (nextOf (Function.update memory y block)) base l null :=
  h.chain.congr fun b hb => by
    have hne : b ≠ y := fun he => hy (he ▸ hb)
    rw [nextOf, Function.update_of_ne hne, nextOf]

/-- What a call adds lies in `fresh`. The blocks in use stay. -/
structure Grown (fresh : Set ℕ) (memory memory' : Memory) (l l' : List ℕ) : Prop where
  covers : bytes memory' l' ⊆ bytes memory l ∪ fresh
  frame : ∀ c ∉ bytes memory l, c ∉ fresh → memory' c = memory c
  inUse : ∀ c, InUse memory' l' c ↔ InUse memory l c
  size : ∀ c, InUse memory l c → (memory' c).size = (memory c).size

theorem Keeps.grown (h : Keeps memory memory' l l') : Grown ∅ memory memory' l l' :=
  ⟨by rw [h.covers, Set.union_empty], fun c hc _ => h.frame c hc, h.inUse, h.size⟩

/-- The first page block of a heap. -/
theorem listed_new {blk : Block} {v : ℕ} (hy : memory' blk.base = ⟨v, null, null, true⟩)
    (hend : blk.base + (blockStructSize + v) ≤ blk.stop) :
    Listed (blk :: pages) memory' blk.base [blk.base] := by
  refine ⟨⟨rfl, by rw [nextOf, hy]; rfl⟩, fun b hb => ?_, ?_⟩
  · obtain rfl := List.mem_singleton.mp hb
    exact ⟨blk, List.mem_cons_self, le_rfl, by rwa [extent, hy]⟩
  · have hset : {b | b ∈ [blk.base]} = {blk.base} := by
      ext b
      simp
    rw [hset]
    exact Set.pairwiseDisjoint_singleton _ _

theorem grown_new {v : ℕ} (hy : memory' blk.base = ⟨v, null, null, true⟩)
    (hend : blk.base + (blockStructSize + v) ≤ blk.stop)
    (hother : ∀ b, b ≠ blk.base → memory' b = memory b) :
    Grown (Set.Ico blk.base blk.stop) memory memory' [] [blk.base] := by
  refine ⟨fun a ha => Or.inr ?_, fun c _ hc => hother c fun he => hc ?_, fun c => ?_,
    fun c hc => absurd hc.1 List.not_mem_nil⟩
  · obtain ⟨b, hb, hlo, hhi⟩ := mem_bytes.mp ha
    obtain rfl := List.mem_singleton.mp hb
    rw [extent, hy] at hhi
    exact ⟨hlo, hhi.trans_le hend⟩
  · rw [he]
    unfold blockStructSize at hend
    exact ⟨le_rfl, by omega⟩
  · unfold InUse
    constructor
    · rintro ⟨hc, hused⟩
      rw [List.mem_singleton.mp hc, hy] at hused
      cases hused
    · exact fun hc => absurd hc.1 List.not_mem_nil

/-- A further page block is put behind the last block. -/
theorem Listed.concat {v : ℕ} (h : Listed pages memory base (l ++ [x]))
    (hp : LiveDisjoint ⟨tree, blk :: pages⟩) (hy : memory' blk.base = ⟨v, null, x, true⟩)
    (hend : blk.base + (blockStructSize + v) ≤ blk.stop)
    (hx : memory' x = { memory x with next := blk.base })
    (hother : ∀ b, b ≠ blk.base → b ≠ x → memory' b = memory b) :
    Listed (blk :: pages) memory' base (l ++ [x] ++ [blk.base]) ∧
      Grown (Set.Ico blk.base blk.stop) memory memory' (l ++ [x]) (l ++ [x] ++ [blk.base]) := by
  have hnew := h.notMem_new hp
  have hmem : blk.base ∈ Set.Ico blk.base blk.stop := by
    unfold blockStructSize at hend
    exact ⟨le_rfl, by omega⟩
  have hfresh : blk.base ∉ l ++ [x] := fun hb =>
    Set.disjoint_left.mp hnew hmem (mem_bytes_self hb)
  have hp' : LiveDisjoint ⟨tree, pages⟩ :=
    ⟨(List.pairwise_cons.mp hp.disjoint).2, fun b hb => hp.inside b (List.mem_cons_of_mem _ hb)⟩
  have hnodup := h.nodup hp'
  have hsame : ∀ b ∈ l ++ [x], (memory' b).size = (memory b).size ∧
      (memory' b).free = (memory b).free := fun b hb => by
    by_cases hbx : b = x
    · rw [hbx, hx]
      exact ⟨rfl, rfl⟩
    · rw [hother b (fun he => hfresh (he ▸ hb)) hbx]
      exact ⟨rfl, rfl⟩
  have hset : {b | b ∈ l ++ [x] ++ [blk.base]} = insert blk.base {b | b ∈ l ++ [x]} := by
    ext b
    simp only [Set.mem_ofPred_eq, Set.mem_insert_iff, List.mem_append, List.mem_singleton]
    tauto
  have hspan : span memory' blk.base ⊆ Set.Ico blk.base blk.stop := fun a ha => by
    obtain ⟨hlo, hhi⟩ := ha
    rw [extent, hy] at hhi
    exact ⟨hlo, hhi.trans_le hend⟩
  have hold : ∀ b ∈ l ++ [x], span memory' b = span memory b := fun b hb =>
    span_congr (hsame b hb).1
  refine ⟨⟨?_, fun b hb => ?_, ?_⟩, ⟨?_, fun c hc hnot => ?_, fun c => ?_, fun c hc => ?_⟩⟩
  · obtain ⟨d, hchain, hd, -⟩ := chain_append.mp h.chain
    rw [List.append_assoc]
    refine chain_append.mpr ⟨d, hchain.congr fun b hb => ?_, hd, ?_, ?_⟩
    · have hbx := (List.nodup_append.mp hnodup).2.2 b hb x (by simp)
      rw [nextOf, nextOf, hother b (fun he => hfresh (by simp [← he, hb])) hbx]
    · rw [nextOf, hx]
    · rw [nextOf, hy]
      rfl
  · rcases List.mem_append.mp hb with hb | hb
    · obtain ⟨blk', hblk', hbounds⟩ := h.inside b hb
      rw [extent, (hsame b hb).1]
      exact ⟨blk', List.mem_cons_of_mem _ hblk', hbounds⟩
    · obtain rfl := List.mem_singleton.mp hb
      exact ⟨blk, List.mem_cons_self, le_rfl, by rwa [extent, hy]⟩
  · rw [hset, Set.pairwiseDisjoint_insert]
    refine ⟨h.apart.mono_on fun b hb => (hold b hb).subset, fun b hb _ => ?_⟩
    rw [hold b hb]
    exact hnew.mono hspan (Set.subset_biUnion_of_mem (u := span memory) hb)
  · rw [bytes, hset, Set.biUnion_insert]
    refine Set.union_subset (hspan.trans Set.subset_union_right) ?_
    exact (bytes_congr hold).subset.trans Set.subset_union_left
  · refine hother c (fun he => hnot (he ▸ hmem)) fun he => hc ?_
    rw [he]
    exact mem_bytes_self (by simp)
  · unfold InUse
    constructor
    · rintro ⟨hc, hused⟩
      rcases List.mem_append.mp hc with hc | hc
      · exact ⟨hc, (hsame c hc).2 ▸ hused⟩
      · rw [List.mem_singleton.mp hc, hy] at hused
        cases hused
    · exact fun hc => ⟨List.mem_append_left _ hc.1, (hsame c hc.1).2.trans hc.2⟩
  · exact (hsame c hc.1).1

end

/-! ### The loops end -/

section

variable {fuel size p : ℕ}

theorem findFirstFreeBlock_total (h : Chain (nextOf memory) base l null) (hnull : null ∉ l)
    (hfuel : l.length < fuel) : ∃ b, findFirstFreeBlock memory size fuel base = some b ∧
      (b ≠ null ↔ Available size memory l) := by
  induction fuel generalizing base l with
  | zero => exact absurd hfuel (Nat.not_lt_zero _)
  | succ fuel ih =>
    rw [findFirstFreeBlock]
    cases l with
    | nil =>
      obtain rfl : base = null := h
      refine ⟨null, if_neg fun hcond => hcond.1 rfl, fun hne => absurd rfl hne, ?_⟩
      rintro ⟨c, hc, -⟩
      exact absurd hc List.not_mem_nil
    | cons c l =>
      obtain ⟨rfl, h⟩ := h
      have hbase : base ≠ null := fun he => hnull (he ▸ List.mem_cons_self)
      by_cases hfits : (memory base).free = true ∧ (memory base).size > size
      · refine ⟨base, if_neg fun hcond => hcond.2 hfits, iff_of_true hbase ?_⟩
        exact ⟨base, List.mem_cons_self, hfits.1, hfits.2⟩
      · obtain ⟨b, hfind, hiff⟩ := ih h (fun hmem => hnull (List.mem_cons_of_mem _ hmem))
          (Nat.lt_of_succ_lt_succ hfuel)
        refine ⟨b, by rw [if_pos ⟨hbase, hfits⟩]; exact hfind, hiff.trans ⟨?_, ?_⟩⟩
        · rintro ⟨c, hc, hfree⟩
          exact ⟨c, List.mem_cons_of_mem _ hc, hfree⟩
        · rintro ⟨c, hc, hfree⟩
          rcases List.mem_cons.mp hc with rfl | hc
          · exact absurd hfree hfits
          · exact ⟨c, hc, hfree⟩

theorem findLastInHeap_total (h : Chain (nextOf memory) base l null) (hne : l ≠ [])
    (hfuel : l.length ≤ fuel) : ∃ b, findLastInHeap memory fuel base = some b := by
  induction fuel generalizing base l with
  | zero => exact absurd (List.length_eq_zero_iff.mp (Nat.le_zero.mp hfuel)) hne
  | succ fuel ih =>
    rw [findLastInHeap]
    cases l with
    | nil => exact absurd rfl hne
    | cons c l =>
      obtain ⟨rfl, h⟩ := h
      by_cases hnext : (memory base).next ≠ null
      · rw [if_pos hnext]
        refine ih h (fun hnil => hnext ?_) (Nat.le_of_succ_le_succ hfuel)
        subst hnil
        exact h
      · exact ⟨base, if_neg hnext⟩

theorem getBlock_mono {n : ℕ} (h : getBlock memory p fuel base = some b) (hle : fuel ≤ n) :
    getBlock memory p n base = some b := by
  induction fuel generalizing base n with
  | zero => cases h
  | succ fuel ih =>
    obtain ⟨n, rfl⟩ := Nat.exists_eq_add_of_le' (Nat.one_le_of_lt hle)
    rw [getBlock] at h ⊢
    split_ifs at h ⊢ with hcond
    · exact ih h (Nat.le_of_succ_le_succ hle)
    · exact h

/-- The list runs through lower addresses to the block `b`, and goes on above it. -/
theorem getBlock_eq (h : Chain (nextOf memory) base l b) (hnull : null ∉ l)
    (hlt : ∀ c ∈ l, c < p) (hb : b < p) (hnext : p ≤ nextOf memory b) (hfuel : l.length < fuel) :
    getBlock memory p fuel base = some b := by
  induction fuel generalizing base l with
  | zero => exact absurd hfuel (Nat.not_lt_zero _)
  | succ fuel ih =>
    rw [getBlock]
    cases l with
    | nil =>
      obtain rfl : base = b := h
      exact if_neg fun hcond => absurd hcond.2 (not_lt.mpr hnext)
    | cons c l =>
      obtain ⟨rfl, h⟩ := h
      have hbase : base ≠ null := fun he => hnull (he ▸ List.mem_cons_self)
      -- the block behind `base` lies below the pointer
      have hlow : (memory base).next < p := by
        cases l with
        | nil => exact (show (memory base).next = b from h).trans_lt hb
        | cons d l => exact (show (memory base).next = d from h.1).trans_lt (hlt d (by simp))
      rw [if_pos ⟨hbase, hlow⟩]
      exact ih h (fun hmem => hnull (List.mem_cons_of_mem _ hmem))
        (fun d hd => hlt d (List.mem_cons_of_mem _ hd)) (Nat.lt_of_succ_lt_succ hfuel)

end

end GatOS.Malloc
