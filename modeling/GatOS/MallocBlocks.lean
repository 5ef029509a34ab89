import Mathlib.Data.List.Pairwise
import GatOS.DoublyLinkedList
import GatOS.Malloc
import GatOS.Tiling

/-!
# The blocks of a heap

The blocks form a doubly linked list that tiles the page blocks one after the other. Blocks are
cut, joined and added at the end of the list.
-/
namespace GatOS.Malloc
open MachineInt BuddyAllocator LinkedRing DoublyLinkedList Tiling

def nextOf (memory : Memory) (b : ℕ) : ℕ := (memory b).next

def prevOf (memory : Memory) (b : ℕ) : ℕ := (memory b).prev

/-- The header and the bytes. -/
def extent (memory : Memory) (b : ℕ) : ℕ := blockStructSize + (memory b).size

namespace PageBlock

def limit (pg : PageBlock) : ℕ := pg.base + pg.pages * pageSize

def region (pg : PageBlock) : ℕ × ℕ := (pg.base, pg.limit)

end PageBlock

/-- What is assumed of the allocator: it hands out disjoint page blocks. -/
def Granted (pageBlocks : List PageBlock) : Prop :=
  (∀ pg ∈ pageBlocks, pg.base ≠ null ∧ 0 < pg.pages ∧ pg.pages ≤ numberOfPages) ∧
    pageBlocks.Pairwise fun a b => a.limit ≤ b.base ∨ b.limit ≤ a.base

instance (pageBlocks : List PageBlock) : Decidable (Granted pageBlocks) :=
  inferInstanceAs (Decidable (_ ∧ _))

def State.regions (s : State) : List (ℕ × ℕ) := s.pageBlocks.map PageBlock.region

/-- Separate regions whose sizes fit the fields of the headers. -/
structure Bounded (regions : List (ℕ × ℕ)) : Prop extends Separate regions where
  small : ∀ r ∈ regions, r.2 ≤ r.1 + 2 ^ 31

/-- `l` are the blocks of the heap that begins at `base`. -/
structure Arranged (memory : Memory) (base : ℕ) (regions : List (ℕ × ℕ)) (l : List ℕ) :
    Prop where
  list : IsList (nextOf memory) (prevOf memory) null base l
  fills : Fills (extent memory) regions l

variable {memory memory' : Memory} {base b p x y : ℕ} {pageBlocks : List PageBlock}
  {regions : List (ℕ × ℕ)} {l : List ℕ}

theorem Granted.bounded (h : Granted pageBlocks) :
    Bounded (pageBlocks.map PageBlock.region) := by
  obtain ⟨heach, hapart⟩ := h
  refine ⟨⟨fun r hr => ?_, List.pairwise_map.mpr hapart⟩, fun r hr => ?_⟩
  · obtain ⟨pg, hpg, rfl⟩ := List.mem_map.mp hr
    have hpages := (heach pg hpg).2.1
    exact Nat.lt_add_of_pos_right (Nat.mul_pos hpages (by decide))
  · obtain ⟨pg, hpg, rfl⟩ := List.mem_map.mp hr
    have hpages := Nat.mul_le_mul_right pageSize (heach pg hpg).2.2
    exact Nat.add_le_add_left (hpages.trans (by decide)) pg.base

theorem Granted.init {pg : PageBlock} (h : Granted (pageBlocks ++ [pg])) : Granted pageBlocks :=
  ⟨fun a ha => h.1 a (List.mem_append_left _ ha), (List.pairwise_append.mp h.2).1⟩

theorem arranged_nil : Arranged memory null [] [] := ⟨isList_nil, fills_nil⟩

theorem Arranged.pairwise (h : Arranged memory base regions l) (hg : Bounded regions) :
    l.Pairwise fun b c =>
      Disjoint (Set.Ico b (b + extent memory b)) (Set.Ico c (c + extent memory c)) :=
  h.fills.pairwise hg.toSeparate

theorem Arranged.extent_le (h : Arranged memory base regions l) (hg : Bounded regions)
    (hb : b ∈ l) : extent memory b ≤ 2 ^ 31 := by
  obtain ⟨r, hr, hlo, hhi⟩ := h.fills.region hb
  have := hg.small r hr
  omega

/-- Blocks that share an address are the same. -/
theorem Arranged.eq_of_mem (h : Arranged memory base regions l) (hg : Bounded regions)
    {c a : ℕ} (hb : b ∈ l) (hc : c ∈ l) (hba : b ≤ a ∧ a < b + extent memory b)
    (hca : c ≤ a ∧ a < c + extent memory c) : b = c := by
  by_contra hne
  have : Std.Symm fun b c =>
      Disjoint (Set.Ico b (b + extent memory b)) (Set.Ico c (c + extent memory c)) :=
    ⟨fun _ _ hd => hd.symm⟩
  have hdisj := (h.pairwise hg).forall hb hc hne
  exact Set.disjoint_left.mp hdisj hba hca

theorem Arranged.congr (h : Arranged memory base regions l)
    (heq : ∀ b ∈ l, (memory' b).next = (memory b).next ∧ (memory' b).prev = (memory b).prev ∧
      (memory' b).size = (memory b).size) : Arranged memory' base regions l where
  list := h.list.congr (fun b hb => (heq b hb).1) fun b hb => (heq b hb).2.1
  fills := h.fills.congr fun b hb => by rw [extent, extent, (heq b hb).2.2]

/-- Only the mark of a block changes. -/
theorem Arranged.setFree (h : Arranged memory base regions l) (free : Bool) :
    Arranged (Function.update memory x { memory x with free := free }) base regions l := by
  refine h.congr fun b _ => ?_
  by_cases hb : b = x
  · subst hb
    simp
  · simp [Function.update_of_ne hb]

/-- The block is large enough for a second header. -/
theorem splitBlock_eq {size : ℕ} (hsize : size + blockStructSize ≤ (memory x).size)
    (hbound : (memory x).size < 2 ^ 32) :
    splitBlock x size memory = Function.update (Function.update memory (dataStart x + size)
      ⟨(memory x).size - (size + blockStructSize), (memory x).next, x, true⟩) x
      { memory x with next := dataStart x + size, size := size } := by
  have hne : x ≠ dataStart x + size := by
    unfold dataStart blockStructSize
    omega
  rw [splitBlock, if_neg (by omega), uint32_eq (by omega), uint32Sub_eq (by omega) (by omega)]
  simp only
  rw [Function.update_of_ne hne]

/-- The last block is cut in two. -/
theorem splitBlock_spec {size : ℕ} (h : Arranged memory base regions (l ++ [x]))
    (hg : Bounded regions) (hsize : size + blockStructSize ≤ (memory x).size) :
    Arranged (splitBlock x size memory) base regions (l ++ [x, dataStart x + size]) ∧
      (dataStart x + size ∉ l ++ [x]) ∧
      (splitBlock x size memory (dataStart x + size)).free = true ∧
      splitBlock x size memory x =
        { memory x with next := dataStart x + size, size := size } ∧
      ∀ b, b ≠ x → b ≠ dataStart x + size → splitBlock x size memory b = memory b := by
  set y := dataStart x + size with hy
  have hbound := h.extent_le hg (b := x) (by simp)
  have hxy : x < y ∧ y + blockStructSize ≤ x + extent memory x := by
    unfold dataStart extent blockStructSize at *
    omega
  have hsplit : splitBlock x size memory = Function.update (Function.update memory y
      ⟨(memory x).size - (size + blockStructSize), (memory x).next, x, true⟩) x
      { memory x with next := y, size := size } :=
    splitBlock_eq hsize (by unfold extent at hbound; omega)
  have hatx : splitBlock x size memory x = { memory x with next := y, size := size } := by
    rw [hsplit, Function.update_self]
  have haty : splitBlock x size memory y =
      ⟨(memory x).size - (size + blockStructSize), (memory x).next, x, true⟩ := by
    rw [hsplit, Function.update_of_ne (by omega), Function.update_self]
  have hother : ∀ b, b ≠ x → b ≠ y → splitBlock x size memory b = memory b := fun b hbx hby => by
    rw [hsplit, Function.update_of_ne hbx, Function.update_of_ne hby]
  have hmem : y ∉ l ++ [x] := fun hmem => by
    have heq := h.eq_of_mem hg (b := x) (c := y) (a := y) (by simp) hmem (by
      unfold blockStructSize at hxy
      omega) ⟨le_rfl, by unfold extent blockStructSize; omega⟩
    omega
  have hl : ∀ b ∈ l, splitBlock x size memory b = memory b := fun b hb => by
    have hbx := (List.nodup_append.mp h.list.nodup).2.2 b hb x (by simp)
    exact hother b hbx fun hby => hmem (hby ▸ List.mem_append_left _ hb)
  refine ⟨⟨?_, ?_⟩, hmem, by rw [haty], hatx, hother⟩
  · refine h.list.push hmem (Nat.ne_zero_of_lt hxy.1) ?_ ?_ ?_ ?_ ?_
    · rw [nextOf, hatx]
    · rw [nextOf, haty]
      exact h.list.next_last
    · rw [prevOf, haty]
    · intro b hb
      rw [nextOf, nextOf, hl b hb]
    · intro b hb
      rcases List.mem_append.mp hb with hb | hb
      · rw [prevOf, prevOf, hl b hb]
      · obtain rfl := List.mem_singleton.mp hb
        rw [prevOf, hatx, prevOf]
  · refine h.fills.split hg.toSeparate (fun b hb => by rw [extent, extent, hl b hb]) ?_ ?_
    · simp only [extent, hatx, hy, dataStart]
      omega
    · simp only [extent, hatx, haty]
      omega

/-- The last two blocks become one. -/
theorem mergeBlocks_spec (h : Arranged memory base regions (l ++ [x, y]))
    (hg : Bounded regions) (hfirst : ∀ r ∈ regions, r.1 ≠ y) :
    Arranged (mergeBlocks x memory) base regions (l ++ [x]) ∧
      (mergeBlocks x memory x).free = (memory x).free ∧
      ∀ b, b ≠ x → mergeBlocks x memory b = memory b := by
  have heq : l ++ [x, y] = l ++ [x] ++ [y] := by simp
  obtain ⟨hnext, -⟩ := h.list.links
  have hlast : nextOf memory y = null := by
    have := h.list
    rw [heq] at this
    exact this.next_last
  have hat : mergeBlocks x memory x = { memory x with
      size := uint32 ((memory x).size + (memory y).size + blockStructSize)
      next := null } := by
    rw [mergeBlocks, Function.update_self]
    simp only [nextOf] at hnext hlast
    rw [hnext, hlast]
  have hother : ∀ b, b ≠ x → mergeBlocks x memory b = memory b := fun b hb =>
    Function.update_of_ne hb _ _
  have hnodup := h.list.nodup
  have hne : ∀ b ∈ l, b ≠ x := fun b hb =>
    (List.nodup_append.mp hnodup).2.2 b hb x (by simp)
  have hl : ∀ b ∈ l, mergeBlocks x memory b = memory b := fun b hb => hother b (hne b hb)
  -- the two blocks lie in one page block, so their sizes do not wrap around
  have hsize : uint32 ((memory x).size + (memory y).size + blockStructSize) =
      (memory x).size + (memory y).size + blockStructSize := by
    have hfills : Fills (Function.update (extent memory) x (extent memory x + extent memory y))
        regions (l ++ [x]) :=
      h.fills.join hg.toSeparate hfirst (fun b hb => Function.update_of_ne (hne b hb) _ _)
        (Function.update_self ..)
    obtain ⟨r, hr, hbounds⟩ := hfills.region (b := x) (by simp)
    have hsmall := hg.small r hr
    rw [Function.update_self] at hbounds
    refine uint32_eq ?_
    unfold extent at hbounds
    omega
  refine ⟨⟨?_, ?_⟩, by rw [hat], hother⟩
  · refine h.list.pop ?_ (fun b hb => by rw [nextOf, nextOf, hl b hb]) fun b hb => ?_
    · rw [nextOf, hat]
    · rcases List.mem_append.mp hb with hb | hb
      · rw [prevOf, prevOf, hl b hb]
      · obtain rfl := List.mem_singleton.mp hb
        rw [prevOf, hat, prevOf]
  · refine h.fills.join hg.toSeparate hfirst (fun b hb => by rw [extent, extent, hl b hb]) ?_
    rw [extent, hat, hsize, extent, extent]
    dsimp only
    omega

/-! ### The loops -/

theorem findFirstFreeBlock_spec {fuel size : ℕ} (h : Chain (nextOf memory) base l null)
    (hfind : findFirstFreeBlock memory size fuel base = some b) :
    b = null ∨ b ∈ l ∧ (memory b).free = true ∧ size < (memory b).size := by
  induction fuel generalizing base l with
  | zero => cases hfind
  | succ fuel ih =>
    rw [findFirstFreeBlock] at hfind
    split_ifs at hfind with hcond
    · cases l with
      | nil => exact absurd h hcond.1
      | cons c l =>
        obtain ⟨rfl, h⟩ := h
        exact (ih h hfind).imp_right fun hb => ⟨List.mem_cons_of_mem _ hb.1, hb.2⟩
    · obtain rfl := Option.some.inj hfind
      by_cases hbase : base = null
      · exact Or.inl hbase
      · cases l with
        | nil => exact Or.inl h
        | cons c l =>
          obtain ⟨rfl, -⟩ := h
          exact Or.inr ⟨List.mem_cons_self, not_not.mp fun hno => hcond ⟨hbase, hno⟩⟩

theorem findLastInHeap_spec {fuel : ℕ} (h : Chain (nextOf memory) base l null)
    (hnull : null ∉ l) (hbase : base ≠ null) (hfind : findLastInHeap memory fuel base = some x) :
    ∃ l', l = l' ++ [x] := by
  induction fuel generalizing base l with
  | zero => cases hfind
  | succ fuel ih =>
    cases l with
    | nil => exact absurd h hbase
    | cons c l =>
      obtain ⟨rfl, h⟩ := h
      have hnull' : null ∉ l := fun hmem => hnull (List.mem_cons_of_mem _ hmem)
      rw [findLastInHeap] at hfind
      split_ifs at hfind with hcond
      · obtain ⟨l', rfl⟩ := ih h hnull' hcond hfind
        exact ⟨base :: l', rfl⟩
      · obtain rfl := Option.some.inj hfind
        cases l with
        | nil => exact ⟨[], rfl⟩
        | cons d l =>
          obtain rfl : nextOf memory base = d := h.1
          exact absurd List.mem_cons_self (not_not.mp hcond ▸ hnull')

theorem getBlock_spec {fuel : ℕ} (h : Chain (nextOf memory) base l null)
    (hfind : getBlock memory p fuel base = some b) :
    b = null ∨ b ∈ l ∧ p ≤ nextOf memory b := by
  induction fuel generalizing base l with
  | zero => cases hfind
  | succ fuel ih =>
    rw [getBlock] at hfind
    split_ifs at hfind with hcond
    · cases l with
      | nil => exact absurd h hcond.1
      | cons c l =>
        obtain ⟨rfl, h⟩ := h
        exact (ih h hfind).imp_right fun hb => ⟨List.mem_cons_of_mem _ hb.1, hb.2⟩
    · obtain rfl := Option.some.inj hfind
      by_cases hbase : base = null
      · exact Or.inl hbase
      · cases l with
        | nil => exact Or.inl h
        | cons c l =>
          obtain ⟨rfl, -⟩ := h
          exact Or.inr ⟨List.mem_cons_self, not_lt.mp fun hlt => hcond ⟨hbase, hlt⟩⟩

/-! ### Taking and releasing a block -/

/-- The blocks keep their marks and their sizes. -/
def Kept (memory memory' : Memory) (l : List ℕ) : Prop :=
  ∀ b ∈ l, (memory' b).free = (memory b).free ∧ (memory' b).size = (memory b).size

/-- A block that serves a request is cut only if it is the last one. -/
theorem takeBlock_spec (size : ℕ) (h : Arranged memory base regions l) (hg : Bounded regions)
    (hb : b ∈ l)
    (hlast : (memory b).size > uint32 (size + 4 + blockStructSize) → (memory b).next = null) :
    ∃ l', Arranged (takeBlock b size memory) base regions l' ∧
      (l' = l ∨ ∃ y, l' = l ++ [y] ∧ (takeBlock b size memory y).free = true) ∧
      (takeBlock b size memory b).free = false ∧
      (takeBlock b size memory b).size = (if (memory b).size > uint32 (size + 4 + blockStructSize) ∧
        size ≤ (memory b).size then size else (memory b).size) ∧
      Kept memory (takeBlock b size memory) (l.filter (· ≠ b)) := by
  have hbound := h.extent_le hg hb
  unfold extent at hbound
  by_cases hcut : (memory b).size > uint32 (size + 4 + blockStructSize) ∧ size ≤ (memory b).size
  · obtain ⟨hbig, hle⟩ := hcut
    obtain ⟨l₀, rfl⟩ := h.list.eq_concat hb (hlast hbig)
    have hroom : size + blockStructSize ≤ (memory b).size := by
      unfold blockStructSize at *
      rw [uint32_eq (by omega)] at hbig
      omega
    obtain ⟨harranged, hfresh, hfree, hatb, hother⟩ := splitBlock_spec h hg hroom
    set y := dataStart b + size
    have hyb : y ≠ b := fun he => hfresh (he ▸ by simp)
    have htake : takeBlock b size memory = Function.update (splitBlock b size memory) b
        { splitBlock b size memory b with free := false } := by
      rw [takeBlock, if_pos hbig]
    rw [htake]
    refine ⟨l₀ ++ [b, y], harranged.setFree false, Or.inr ⟨y, by simp, ?_⟩, by simp, ?_,
      fun c hc => ?_⟩
    · rw [Function.update_of_ne hyb]
      exact hfree
    · rw [if_pos ⟨hbig, hle⟩, Function.update_self, hatb]
    · obtain ⟨hc, hcb⟩ := List.mem_filter.mp hc
      have hcb : c ≠ b := of_decide_eq_true hcb
      rw [Function.update_of_ne hcb, hother c hcb fun he => hfresh (he ▸ hc)]
      exact ⟨rfl, rfl⟩
  · have htake : takeBlock b size memory =
        Function.update memory b { memory b with free := false } := by
      rw [takeBlock]
      split_ifs with hbig
      · rw [splitBlock, if_pos (lt_of_not_ge fun hle => hcut ⟨hbig, hle⟩)]
      · rfl
    rw [htake]
    refine ⟨l, h.setFree false, Or.inl rfl, by simp, by rw [if_neg hcut, Function.update_self],
      fun c hc => ?_⟩
    obtain ⟨-, hcb⟩ := List.mem_filter.mp hc
    rw [Function.update_of_ne (of_decide_eq_true hcb)]
    exact ⟨rfl, rfl⟩

/-- The blocks that `release` joins are the last ones of the list and of one region. -/
structure MergesAtEnd (regions : List (ℕ × ℕ)) (memory : Memory) (b : ℕ) : Prop where
  next : (memory (memory b).next).free = true → (memory (memory b).next).next = null ∧
    ∀ r ∈ regions, r.1 ≠ (memory b).next
  prev : (memory b).prev ≠ null → (memory (memory b).prev).free = true →
    (memory (memory b).next).free = true ∧ ∀ r ∈ regions, r.1 ≠ b

/-- A released block joins its free neighbours; the blocks that are in use stay as they are. -/
theorem release_spec (h : Arranged memory base regions l) (hg : Bounded regions) (hb : b ∈ l)
    (hnext : (memory b).next ≠ null) (hend : MergesAtEnd regions memory b) :
    ∃ l', Arranged (release b memory) base regions l' ∧
      ∀ c ∈ l, c ≠ b → (memory c).free = false → c ∈ l' ∧
        (release b memory c).free = false ∧ (release b memory c).size = (memory c).size := by
  set memory₁ := Function.update memory b { memory b with free := true } with hmemory₁
  have hat : memory₁ b = { memory b with free := true } := Function.update_self ..
  have hother : ∀ c, c ≠ b → memory₁ c = memory c := fun c hc => Function.update_of_ne hc _ _
  have h₁ : Arranged memory₁ base regions l := h.setFree true
  obtain ⟨l₁, l₂, rfl⟩ := h.list.next_spec hb hnext
  have hcb := h.list.next_ne hb
  have hab := h.list.prev_ne hb
  rw [nextOf] at *
  rw [prevOf] at hab
  set c := (memory b).next
  have hrelease : release b memory =
      let memory₂ := if (memory c).free = true then mergeBlocks b memory₁ else memory₁
      if (memory₂ b).prev ≠ null ∧ (memory₂ (memory₂ b).prev).free = true then
        mergeBlocks (memory₂ b).prev memory₂ else memory₂ := by
    have hnext₁ : (memory₁ b).next = c := by rw [hat]
    simp only [release, ← hmemory₁, hnext₁, hother c hcb, hnext, ne_eq, not_false_eq_true,
      true_and]
  by_cases hc : (memory c).free = true
  · obtain ⟨hlast, hfirst⟩ := hend.next hc
    obtain rfl : l₂ = [] := by
      have hlist := h.list
      rw [List.append_cons] at hlist
      exact hlist.eq_nil_behind hlast
    obtain ⟨h₂, -, hother₂⟩ := mergeBlocks_spec h₁ hg hfirst
    set memory₂ := mergeBlocks b memory₁ with hmemory₂
    have hprev₂ : (memory₂ b).prev = (memory b).prev := by
      rw [hmemory₂, mergeBlocks, Function.update_self, hat]
    simp only [if_pos hc, hprev₂, hother₂ _ hab, hother _ hab] at hrelease
    by_cases ha : (memory b).prev ≠ null ∧ (memory (memory b).prev).free = true
    · rw [if_pos ha] at hrelease
      obtain ⟨-, hbase⟩ := hend.prev ha.1 ha.2
      rcases List.eq_nil_or_concat l₁ with rfl | ⟨l₀, a, rfl⟩
      · exact absurd h.list.prev_first ha.1
      · rw [List.concat_eq_append] at *
        have hlist := h.list
        rw [List.append_assoc] at hlist
        obtain ⟨-, hab'⟩ := hlist.links
        rw [prevOf] at hab'
        rw [hab'] at hrelease ha hab
        rw [List.append_assoc] at h₂
        obtain ⟨h₃, -, hother₃⟩ := mergeBlocks_spec h₂ hg hbase
        rw [hrelease]
        refine ⟨_, h₃, fun d hd hdb hfree => ?_⟩
        have hda : d ≠ a := fun he => by simp [he, ha.2] at hfree
        have hdc : d ≠ c := fun he => by simp [he, hc] at hfree
        have hd : d ∈ l₀ := by simpa [hda, hdb, hdc] using hd
        rw [hother₃ d hda, hother₂ d hdb, hother d hdb]
        exact ⟨List.mem_append_left _ hd, hfree, rfl⟩
    · rw [if_neg ha] at hrelease
      rw [hrelease]
      refine ⟨_, h₂, fun d hd hdb hfree => ?_⟩
      have hdc : d ≠ c := fun he => by simp [he, hc] at hfree
      have hd : d ∈ l₁ := by simpa [hdb, hdc] using hd
      rw [hother₂ d hdb, hother d hdb]
      exact ⟨List.mem_append_left _ hd, hfree, rfl⟩
  · have hkeep : release b memory = memory₁ := by
      rw [hrelease]
      simp only [if_neg hc, hat]
      refine if_neg fun hcond => hc (hend.prev hcond.1 ?_).1
      rw [← hother _ hab]
      exact hcond.2
    rw [hkeep]
    exact ⟨_, h₁, fun d hd hdb hfree => ⟨hd, by rw [hother d hdb]; exact ⟨hfree, rfl⟩⟩⟩

/-! ### Results -/

/-- A pointer that has been returned, with the number of bytes that was asked for. -/
structure Result where
  pointer : ℕ
  size : ℕ
  deriving DecidableEq

namespace Result

/-- The block in front of the pointer. -/
def block (r : Result) : ℕ := r.pointer - blockStructSize

/-- The bytes of the block. -/
def bytes (memory : Memory) (r : Result) : Set ℕ :=
  Set.Ico r.pointer (r.pointer + (memory r.block).size)

theorem block_eq {r : Result} (h : r.pointer = dataStart b) : r.block = b := by
  rw [block, h, dataStart, Nat.add_sub_cancel]

theorem bytes_eq {r : Result} (h : r.pointer = dataStart b) :
    r.bytes memory = Set.Ico (dataStart b) (b + extent memory b) := by
  rw [bytes, block_eq h, h, dataStart, extent, Nat.add_assoc]

theorem bytes_subset {r : Result} (h : r.pointer = dataStart b) :
    r.bytes memory ⊆ Set.Ico b (b + extent memory b) := by
  rw [bytes_eq h]
  exact Set.Ico_subset_Ico_left (Nat.le_add_right b _)

end Result

theorem dataStart_inj {c : ℕ} (h : dataStart b = dataStart c) : b = c := Nat.add_right_cancel h

/-- Results at different blocks do not overlap. -/
theorem Arranged.results_pairwise {results : List Result} (h : Arranged memory base regions l)
    (hg : Bounded regions) (hblock : ∀ r ∈ results, ∃ b ∈ l, r.pointer = dataStart b)
    (hnodup : (results.map Result.pointer).Nodup) :
    results.Pairwise fun r r' => Disjoint (r.bytes memory) (r'.bytes memory) := by
  have hne := List.pairwise_map.mp hnodup
  refine hne.imp_of_mem fun {r r'} hr hr' hpointer => ?_
  obtain ⟨b, hb, hrb⟩ := hblock r hr
  obtain ⟨b', hb', hrb'⟩ := hblock r' hr'
  refine Set.disjoint_of_subset (Result.bytes_subset hrb) (Result.bytes_subset hrb') ?_
  refine Set.disjoint_left.mpr fun a ha ha' => hpointer ?_
  rw [hrb, hrb', h.eq_of_mem hg hb hb' ha ha']

/-! ### Extending the heap -/

/-- A new page block has no address in common with the blocks. -/
theorem Arranged.base_notMem (h : Arranged memory base (pageBlocks.map PageBlock.region) l) {pg : PageBlock}
    (hg : Granted (pageBlocks ++ [pg])) : pg.base ∉ l := fun hmem => by
  obtain ⟨r, hr, hlo, hhi⟩ := h.fills.region hmem
  obtain ⟨pg', hpg', rfl⟩ := List.mem_map.mp hr
  have hapart := (List.pairwise_append.mp hg.2).2.2 pg' hpg' pg (by simp)
  have hpages := Nat.mul_le_mul_right pageSize (hg.1 pg (by simp)).2.1
  have hpos : 0 < pageSize := by decide
  unfold PageBlock.region PageBlock.limit extent blockStructSize at *
  omega

/-- The first page block of the heap. -/
theorem Arranged.extend_nil (h : Arranged memory base (pageBlocks.map PageBlock.region) []) {pg : PageBlock} {size : ℕ}
    (hg : Granted (pageBlocks ++ [pg])) (hy : memory' pg.base = ⟨size, null, null, true⟩)
    (hsize : size + blockStructSize = pg.pages * pageSize) :
    Arranged memory' pg.base ((pageBlocks ++ [pg]).map PageBlock.region) ([] ++ [pg.base]) where
  list := isList_singleton (hg.1 pg (by simp)).1 (by rw [nextOf, hy]) (by rw [prevOf, hy])
  fills := by
    rw [List.map_append]
    refine (h.fills.congr fun b hb => absurd hb List.not_mem_nil).append (fills_singleton.mpr ?_)
    refine ⟨rfl, ?_⟩
    show pg.base + extent memory' pg.base = pg.limit
    simp only [extent, hy, PageBlock.limit]
    omega

/-- A further page block is put behind the last block. -/
theorem Arranged.extend_concat (h : Arranged memory base (pageBlocks.map PageBlock.region) (l ++ [x]))
    {pg : PageBlock} {size : ℕ} (hg : Granted (pageBlocks ++ [pg]))
    (hy : memory' pg.base = ⟨size, null, x, true⟩)
    (hsize : size + blockStructSize = pg.pages * pageSize)
    (hx : memory' x = { memory x with next := pg.base })
    (hother : ∀ b, b ≠ pg.base → b ≠ x → memory' b = memory b) :
    Arranged memory' base ((pageBlocks ++ [pg]).map PageBlock.region) (l ++ [x] ++ [pg.base]) := by
  have hfresh := h.base_notMem hg
  have hsame : ∀ b ∈ l ++ [x],
      (memory' b).prev = (memory b).prev ∧ (memory' b).size = (memory b).size := fun b hb => by
    by_cases hbx : b = x
    · rw [hbx, hx]
      exact ⟨rfl, rfl⟩
    · rw [hother b (fun he => hfresh (he ▸ hb)) hbx]
      exact ⟨rfl, rfl⟩
  constructor
  · rw [List.append_assoc]
    refine h.list.push hfresh (hg.1 pg (by simp)).1 (by rw [nextOf, hx]) (by rw [nextOf, hy])
      (by rw [prevOf, hy]) (fun b hb => ?_) fun b hb => (hsame b hb).1
    have hbx := (List.nodup_append.mp h.list.nodup).2.2 b hb x (by simp)
    have hbl := List.mem_append_left [x] hb
    rw [nextOf, nextOf, hother b (fun he => hfresh (he ▸ hbl)) hbx]
  · rw [List.map_append]
    have hfills : Fills (extent memory') (pageBlocks.map PageBlock.region) (l ++ [x]) :=
      h.fills.congr fun b hb => by rw [extent, extent, (hsame b hb).2]
    refine hfills.append (fills_singleton.mpr ⟨rfl, ?_⟩)
    show pg.base + extent memory' pg.base = pg.limit
    simp only [extent, hy, PageBlock.limit]
    omega

variable {fuel size reply : ℕ} {q : ℤ} {s t : State}

/-- The pages that `extendHeap` asks for. -/
def pagesFor (size : ℕ) : ℕ := numberOfPagesToAlloc (uint32 (size + blockStructSize))

theorem extendHeap_cases (h : extendHeap fuel size reply q s = some (y, t)) :
    y = reply ∧ t.pageBlocks = s.pageBlocks ++ [⟨reply, pagesFor size⟩] ∧
      ∃ v, v = uint32Sub (uint32 (pagesFor size * pageSize)) blockStructSize ∧
        (s.heapBase = null ∧ t.heapBase = reply ∧ t.heap = Function.update s.heap q reply ∧
            t.memory reply = ⟨v, null, null, true⟩ ∧ (∀ b, b ≠ reply → t.memory b = s.memory b) ∨
          s.heapBase ≠ null ∧ t.heapBase = s.heapBase ∧ t.heap = s.heap ∧
            ∃ last, findLastInHeap (Function.update s.memory reply
                ⟨v, null, (s.memory reply).prev, true⟩) fuel s.heapBase = some last ∧
              (last ≠ reply → t.memory reply = ⟨v, null, last, true⟩ ∧
                t.memory last = { s.memory last with next := reply }) ∧
              ∀ b, b ≠ reply → b ≠ last → t.memory b = s.memory b) := by
  have hpages : numberOfPagesToAlloc (uint32 (size + blockStructSize)) = pagesFor size := rfl
  simp only [extendHeap, allocPage, hpages] at h
  split_ifs at h with hnull
  · obtain ⟨rfl, rfl⟩ := Prod.mk.inj (Option.some.inj h)
    refine ⟨rfl, rfl, _, rfl, Or.inl ⟨hnull, rfl, rfl, by simp, fun b hb => ?_⟩⟩
    simp [Function.update_of_ne hb]
  · obtain ⟨last, hlast, heq⟩ := Option.map_eq_some_iff.mp h
    obtain ⟨rfl, rfl⟩ := Prod.mk.inj heq
    refine ⟨rfl, rfl, _, rfl, Or.inr ⟨hnull, rfl, rfl, last, hlast, fun hne => ⟨?_, ?_⟩,
      fun b hb hbl => ?_⟩⟩
    · simp [Function.update_of_ne hne.symm]
    · simp [Function.update_of_ne hne]
    · simp [Function.update_of_ne hb, Function.update_of_ne hbl]

/-- A new page block becomes the last block of the list. -/
theorem extendHeap_spec (h : Arranged s.memory s.heapBase s.regions l)
    (hbase : s.heapBase = s.heap q) (hextend : extendHeap fuel size reply q s = some (y, t))
    (hg : Granted t.pageBlocks) :
    t.heapBase = t.heap q ∧ Arranged t.memory t.heapBase t.regions (l ++ [y]) ∧ y ∉ l ∧
      y ≠ null ∧ (t.memory y).free = true ∧
      (t.memory y).size + blockStructSize = pagesFor size * pageSize ∧
      Kept s.memory t.memory l := by
  obtain ⟨rfl, hpages, v, hv, hcases⟩ := extendHeap_cases hextend
  rw [State.regions, hpages]
  rw [hpages] at hg
  have hpg := hg.1 ⟨y, pagesFor size⟩ (by simp)
  have hsize : v + blockStructSize = pagesFor size * pageSize := by
    have hle := Nat.mul_le_mul_right pageSize hpg.2.2
    have hge := Nat.mul_le_mul_right pageSize hpg.2.1
    have hmax : numberOfPages * pageSize < 2 ^ 32 := by decide
    have hmin : blockStructSize ≤ 1 * pageSize := by decide
    dsimp only at hle hge
    rw [hv, uint32_eq (by omega), uint32Sub_eq (by omega) (by omega)]
    omega
  have hfresh : y ∉ l := h.base_notMem hg
  rcases hcases with ⟨hnull, htbase, htheap, hy, hother⟩ |
    ⟨hnull, htbase, htheap, x, hfind, hat, hother⟩
  · obtain rfl := h.list.eq_nil_iff.mpr hnull
    refine ⟨by rw [htbase, htheap, Function.update_self], ?_, hfresh, hpg.1, by rw [hy],
      by rw [hy]; exact hsize, fun b hb => absurd hb List.not_mem_nil⟩
    rw [htbase]
    exact h.extend_nil hg hy hsize
  · have hchain : Chain (nextOf (Function.update s.memory y ⟨v, null, (s.memory y).prev, true⟩))
        s.heapBase l null := h.list.forward.congr fun b hb => by
      have hne : b ≠ y := fun he => hfresh (he ▸ hb)
      rw [nextOf, Function.update_of_ne hne, nextOf]
    obtain ⟨l', rfl⟩ := findLastInHeap_spec hchain h.list.null_notMem hnull hfind
    have hne : x ≠ y := fun he => hfresh (he ▸ by simp)
    obtain ⟨hy, hx⟩ := hat hne
    refine ⟨by rw [htbase, htheap, hbase], ?_, hfresh, hpg.1, by rw [hy], by rw [hy]; exact hsize,
      fun b hb => ?_⟩
    · rw [htbase]
      exact h.extend_concat hg hy hsize hx hother
    · by_cases hbx : b = x
      · rw [hbx, hx]
        exact ⟨rfl, rfl⟩
      · rw [hother b (fun he => hfresh (he ▸ hb)) hbx]
        exact ⟨rfl, rfl⟩

end GatOS.Malloc
