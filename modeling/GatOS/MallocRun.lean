import GatOS.MallocBlocks
import GatOS.Transition

/-!
# The heap of a process over a run

The calls of one process keep its heap in order as long as no block is cut or joined in the
middle of the list, no blocks of different page blocks are joined and `free` does not take a
block of another pointer.
-/
namespace GatOS.Malloc
open MachineInt BuddyAllocator LinkedRing DoublyLinkedList Tiling Transition

section

variable {b p : ℕ} {l : List ℕ} {fuel size first second : ℕ} {q : ℤ} {s t : State}

/-! ### One call -/

theorem align4_ge (hpos : 0 < size) (hsize : size + blockStructSize < 2 ^ 32) :
    size ≤ align4 size ∧ align4 size < size + 4 := by
  unfold align4 blockStructSize at *
  rw [uint32Sub_eq (by omega) (by omega), uint32_eq (by omega)]
  omega

theorem align4_mod : align4 size % 4 = 0 := by
  unfold align4 uint32
  omega

/-- The new block is large enough for the request. -/
theorem pagesFor_ge (hpos : 0 < size) (hsize : size + blockStructSize < 2 ^ 32) :
    align4 size + blockStructSize ≤ pagesFor size * pageSize := by
  have hle := align4_ge hpos hsize
  have hmod : align4 size % 4 = 0 := align4_mod
  have hpages : size + blockStructSize ≤ pagesFor size * pageSize := by
    unfold pagesFor numberOfPagesToAlloc
    rw [uint32_eq hsize]
    unfold pageSize
    split_ifs <;> omega
  unfold blockStructSize pageSize at *
  omega

theorem mallock_cases (hsize : size ≠ 0) (h : mallock fuel size first second q s = some (p, t)) :
    ∃ s₁ found b s₂,
      (s.heap q = null ∧
          (∃ y, extendHeap fuel size first q { s with heapBase := s.heap q } = some (y, s₁)) ∨
        s.heap q ≠ null ∧ s₁ = { s with heapBase := s.heap q }) ∧
      findFirstFreeBlock s₁.memory (align4 size) fuel s₁.heapBase = some found ∧
      (found = null ∧ extendHeap fuel size second q s₁ = some (b, s₂) ∨
        found ≠ null ∧ b = found ∧ s₂ = s₁) ∧
      p = dataStart b ∧ t = { s₂ with memory := takeBlock b (align4 size) s₂.memory } := by
  simp only [mallock, hsize, if_false, Option.bind_eq_bind, Option.bind_eq_some_iff,
    Option.pure_def] at h
  obtain ⟨s₁, hs₁, found, hfind, ⟨b, s₂⟩, hs₂, heq⟩ := h
  obtain ⟨rfl, rfl⟩ := Prod.mk.inj (Option.some.inj heq)
  refine ⟨s₁, found, b, s₂, ?_, hfind, ?_, rfl, rfl⟩
  · split_ifs at hs₁ with hnull
    · obtain ⟨⟨y, u⟩, hextend, rfl⟩ := Option.map_eq_some_iff.mp hs₁
      exact Or.inl ⟨hnull, y, hextend⟩
    · exact Or.inr ⟨hnull, (Option.some.inj hs₁).symm⟩
  · split_ifs at hs₂ with hnull
    · exact Or.inl ⟨hnull, hs₂⟩
    · obtain ⟨rfl, rfl⟩ := Prod.mk.inj (Option.some.inj hs₂)
      exact Or.inr ⟨hnull, rfl, rfl⟩

/-- The block that serves the request, with the heap from which it is taken. -/
structure Served (q : ℤ) (size : ℕ) (s t : State) (l l' : List ℕ) (b : ℕ) : Prop where
  heapBase : t.heapBase = t.heap q
  arranged : Arranged t.memory (t.heap q) t.regions l'
  mem : b ∈ l'
  taken : (t.memory b).free = false
  large : size + blockStructSize < 2 ^ 32 → size ≤ (t.memory b).size
  others : ∀ c ∈ l, (s.memory c).free = false →
    c ≠ b ∧ c ∈ l' ∧ (t.memory c).free = false ∧ (t.memory c).size = (s.memory c).size

/-- The blocks of `l` that are in use stay blocks of the heap and in use. -/
def UsedKept (memory memory' : Memory) (l l' : List ℕ) : Prop :=
  ∀ c ∈ l, (memory c).free = false →
    c ∈ l' ∧ (memory' c).free = false ∧ (memory' c).size = (memory c).size

theorem UsedKept.trans {memory memory' memory'' : Memory} {l l' l'' : List ℕ}
    (h : UsedKept memory memory' l l') (h' : UsedKept memory' memory'' l' l'') :
    UsedKept memory memory'' l l'' := fun c hc hfree => by
  obtain ⟨hc', hfree', hsize⟩ := h c hc hfree
  obtain ⟨hc'', hfree'', hsize'⟩ := h' c hc' hfree'
  exact ⟨hc'', hfree'', hsize'.trans hsize⟩

theorem Kept.usedKept {memory memory' : Memory} {l l' : List ℕ} (h : Kept memory memory' l)
    (hl : l ⊆ l') : UsedKept memory memory' l l' := fun c hc hfree =>
  ⟨hl hc, (h c hc).1.trans hfree, (h c hc).2⟩

/-- The heap before the search: it has a block. -/
theorem mallock_first {s₁ : State} (h : Arranged s.memory (s.heap q) s.regions l)
    (hg : Granted s₁.pageBlocks)
    (hs₁ : s.heap q = null ∧
        (∃ y, extendHeap fuel size first q { s with heapBase := s.heap q } = some (y, s₁)) ∨
      s.heap q ≠ null ∧ s₁ = { s with heapBase := s.heap q }) :
    ∃ l₁, s₁.heapBase = s₁.heap q ∧ Arranged s₁.memory s₁.heapBase s₁.regions l₁ ∧
      UsedKept s.memory s₁.memory l l₁ ∧
      ((∃ y, l₁ = [y]) ∨ s₁.memory = s.memory ∧ s₁.heapBase = s.heap q) := by
  rcases hs₁ with ⟨hnull, y, hextend⟩ | ⟨-, rfl⟩
  · obtain ⟨hbase, harranged, -, -, -, -, hkept⟩ :=
      extendHeap_spec (s := { s with heapBase := s.heap q }) h rfl hextend hg
    refine ⟨l ++ [y], hbase, harranged, hkept.usedKept (List.subset_append_left l [y]), Or.inl ?_⟩
    rw [h.list.eq_nil_iff.mpr hnull]
    exact ⟨y, rfl⟩
  · exact ⟨l, rfl, h, fun c hc hfree => ⟨hc, hfree, rfl⟩, Or.inr ⟨rfl, rfl⟩⟩

/-- `mallock` returns a block that was free or new. -/
theorem mallock_spec (h : Arranged s.memory (s.heap q) s.regions l) (hsize : size ≠ 0)
    (hsplit : ∀ b, findFirstFreeBlock s.memory (align4 size) fuel (s.heap q) = some b → b ≠ null →
      (s.memory b).size > uint32 (align4 size + 4 + blockStructSize) → (s.memory b).next = null)
    (hcall : mallock fuel size first second q s = some (p, t)) (hg : Granted t.pageBlocks) :
    ∃ l' b, p = dataStart b ∧ Served q size s t l l' b := by
  obtain ⟨s₁, found, b, s₂, hs₁, hfind, hs₂, rfl, rfl⟩ := mallock_cases hsize hcall
  have hg₁ : Granted s₁.pageBlocks := by
    rcases hs₂ with ⟨-, hextend⟩ | ⟨-, -, rfl⟩
    · have hpages := (extendHeap_cases hextend).2.1
      exact Granted.init (hpages ▸ hg)
    · exact hg
  obtain ⟨l₁, hbase₁, h₁, hused₁, hsame⟩ := mallock_first h hg₁ hs₁
  have hready : ∃ l₂, s₂.heapBase = s₂.heap q ∧ Arranged s₂.memory s₂.heapBase s₂.regions l₂ ∧
      b ∈ l₂ ∧ (s₂.memory b).free = true ∧
      ((s₂.memory b).size > uint32 (align4 size + 4 + blockStructSize) →
        (s₂.memory b).next = null) ∧
      (size + blockStructSize < 2 ^ 32 → align4 size ≤ (s₂.memory b).size) ∧
      UsedKept s₁.memory s₂.memory l₁ l₂ := by
    rcases hs₂ with ⟨-, hextend⟩ | ⟨hnull, rfl, rfl⟩
    · obtain ⟨hbase, harranged, -, -, hfree, hbytes, hkept⟩ :=
        extendHeap_spec h₁ hbase₁ hextend hg
      refine ⟨l₁ ++ [b], hbase, harranged, by simp, hfree, fun _ => harranged.list.next_last,
        fun hlt => ?_, hkept.usedKept (List.subset_append_left l₁ [b])⟩
      have := pagesFor_ge (Nat.pos_of_ne_zero hsize) hlt
      omega
    · obtain ⟨hmem, hfree, hlt⟩ :=
        (findFirstFreeBlock_spec h₁.list.forward hfind).resolve_left hnull
      refine ⟨l₁, hbase₁, h₁, hmem, hfree, fun hbig => ?_, fun _ => hlt.le,
        fun c hc hfree => ⟨hc, hfree, rfl⟩⟩
      rcases hsame with ⟨y, rfl⟩ | ⟨hmemory, hheap⟩
      · obtain rfl := List.mem_singleton.mp hmem
        exact h₁.list.next_last (l := [])
      · rw [hmemory] at hbig hfind ⊢
        exact hsplit b (hheap ▸ hfind) hnull hbig
  obtain ⟨l₂, hbase₂, h₂, hmem, hfree, hlast, hlarge, hused₂⟩ := hready
  obtain ⟨l', htake, hl', htaken, hsize', hkept⟩ := takeBlock_spec _ h₂ hg.bounded hmem hlast
  have hsub : l₂ ⊆ l' := by
    rcases hl' with rfl | ⟨y, rfl, -⟩
    · exact List.Subset.refl _
    · exact List.subset_append_left l₂ [y]
  refine ⟨l', b, rfl, hbase₂, hbase₂ ▸ htake, hsub hmem, htaken, fun hlt => ?_,
    fun c hc hused => ?_⟩
  · refine (align4_ge (Nat.pos_of_ne_zero hsize) hlt).1.trans ?_
    rw [hsize']
    have hle := hlarge hlt
    split_ifs
    · exact le_rfl
    · exact hle
  · obtain ⟨hc₂, hfree₂, hsize₂⟩ := (hused₁.trans hused₂) c hc hused
    have hcb : c ≠ b := fun he => by simp [he, hfree] at hfree₂
    obtain ⟨hfree', hsize''⟩ := hkept c (List.mem_filter.mpr ⟨hc₂, decide_eq_true hcb⟩)
    exact ⟨hcb, hsub hc₂, hfree'.trans hfree₂, hsize''.trans hsize₂⟩

theorem free_cases (h : free fuel p s = some t) :
    t = s ∨ ∃ b, isValidAddress p s ∧ getBlock s.memory p fuel s.heapBase = some b ∧ b ≠ null ∧
      t = { s with memory := release b s.memory } := by
  rw [free] at h
  split_ifs at h with hvalid
  · obtain ⟨b, hget, rfl⟩ := Option.map_eq_some_iff.mp h
    by_cases hb : b = null
    · exact Or.inl (if_pos hb)
    · exact Or.inr ⟨b, hvalid, hget, hb, if_neg hb⟩
  · exact Or.inl (Option.some.inj h).symm

end

/-! ### Runs -/

/-- `live` are the results that are not yet freed. -/
structure Machine where
  state : State
  live : List Result

inductive Call
  | mallock (fuel : ℕ) (size : UInt32) (first second : ℕ)
  | free (fuel p : ℕ)

/-- A call of process `q` that returns. The allocator hands out disjoint page blocks, and only
live pointers are freed. -/
def call (q : ℤ) (m : Machine) : Call → Option Machine
  | .mallock fuel size first second => do
    let (p, s) ← mallock fuel size.toNat first second q m.state
    if Granted s.pageBlocks then
      some ⟨s, if p = null then m.live else ⟨p, size.toNat⟩ :: m.live⟩
    else none
  | .free fuel p =>
    if p ∈ m.live.map Result.pointer then
      (free fuel p m.state).map fun s => ⟨s, m.live.filter (·.pointer ≠ p)⟩
    else none

def IsCreated (q : ℤ) (m : Machine) : Prop :=
  m.state.heap q = null ∧ m.state.pageBlocks = [] ∧ m.live = []

def heapSystem (q : ℤ) : System Machine Call := ofStep (IsCreated q) (call q)

/-- A block that is cut is the last one of the list. A block that `free` takes is not the one of
another live pointer, and it is joined with others only at the end of the list and inside one
page block. -/
def Sound (q : ℤ) (m : Machine) : Call → Prop
  | .mallock fuel size _ _ =>
    ∀ b ∈ findFirstFreeBlock m.state.memory (align4 size.toNat) fuel (m.state.heap q),
      b ≠ null →
        (m.state.memory b).size > uint32 (align4 size.toNat + 4 + blockStructSize) →
          (m.state.memory b).next = null
  | .free fuel p =>
    isValidAddress p m.state → ∀ b ∈ getBlock m.state.memory p fuel m.state.heapBase, b ≠ null →
      (∀ r ∈ m.live, r.pointer = dataStart b → r.pointer = p) ∧
        MergesAtEnd m.state.regions m.state.memory b

instance (regions : List (ℕ × ℕ)) (memory : Memory) (b : ℕ) :
    Decidable (MergesAtEnd regions memory b) :=
  decidable_of_iff
    (((memory (memory b).next).free = true → (memory (memory b).next).next = null ∧
        ∀ r ∈ regions, r.1 ≠ (memory b).next) ∧
      ((memory b).prev ≠ null → (memory (memory b).prev).free = true →
        (memory (memory b).next).free = true ∧ ∀ r ∈ regions, r.1 ≠ b))
    ⟨fun h => ⟨h.1, h.2⟩, fun h => ⟨h.next, h.prev⟩⟩

instance (q : ℤ) (m : Machine) : (c : Call) → Decidable (Sound q m c)
  | .mallock .. => inferInstanceAs (Decidable (∀ b ∈ findFirstFreeBlock .., _))
  | .free .. => inferInstanceAs (Decidable (isValidAddress _ _ → _))

structure Invariant (q : ℤ) (m : Machine) (l : List ℕ) : Prop where
  arranged : Arranged m.state.memory (m.state.heap q) m.state.regions l
  granted : Granted m.state.pageBlocks
  heapBase : m.state.heap q ≠ null → m.state.heapBase = m.state.heap q
  live : ∀ r ∈ m.live, ∃ b ∈ l, r.pointer = dataStart b ∧ (m.state.memory b).free = false ∧
    (r.size + blockStructSize < 2 ^ 32 → r.size ≤ (m.state.memory b).size)
  nodup : (m.live.map Result.pointer).Nodup

variable {q : ℤ} {m m' : Machine} {l : List ℕ}

theorem invariant_created (h : IsCreated q m) : Invariant q m [] := by
  obtain ⟨hheap, hpages, hlive⟩ := h
  refine ⟨?_, ?_, fun hne => absurd hheap hne, ?_, ?_⟩
  · rw [hheap, State.regions, hpages]
    exact arranged_nil
  · rw [hpages]
    exact ⟨fun pg hpg => absurd hpg List.not_mem_nil, List.Pairwise.nil⟩
  · rw [hlive]
    exact fun r hr => absurd hr List.not_mem_nil
  · rw [hlive]
    exact List.nodup_nil

theorem call_mallock {fuel first second : ℕ} {size : UInt32}
    (h : call q m (.mallock fuel size first second) = some m') :
    ∃ p t, mallock fuel size.toNat first second q m.state = some (p, t) ∧ Granted t.pageBlocks ∧
      m' = ⟨t, if p = null then m.live else ⟨p, size.toNat⟩ :: m.live⟩ := by
  simp only [call, Option.bind_eq_bind, Option.bind_eq_some_iff] at h
  obtain ⟨⟨p, t⟩, hmallock, h⟩ := h
  by_cases hg : Granted t.pageBlocks
  · rw [if_pos hg] at h
    exact ⟨p, t, hmallock, hg, (Option.some.inj h).symm⟩
  · rw [if_neg hg] at h
    cases h

theorem call_invariant (h : Invariant q m l) {c : Call} (hok : Sound q m c)
    (hcall : call q m c = some m') : ∃ l', Invariant q m' l' := by
  cases c with
  | mallock fuel size first second =>
    obtain ⟨p, t, hmallock, hg, rfl⟩ := call_mallock hcall
    by_cases hsize : size.toNat = 0
    · have heq : (null, { m.state with heapBase := m.state.heap q }) = (p, t) := by
        simpa [mallock, hsize] using hmallock
      obtain ⟨rfl, rfl⟩ := Prod.mk.inj heq
      exact ⟨l, h.arranged, h.granted, fun _ => rfl, h.live, h.nodup⟩
    · obtain ⟨l', b, rfl, hserved⟩ := mallock_spec h.arranged hsize hok hmallock hg
      have hne : dataStart b ≠ null := Nat.succ_ne_zero _
      rw [if_neg hne]
      refine ⟨l', hserved.arranged, hg, fun _ => hserved.heapBase, fun r hr => ?_, ?_⟩
      · rcases List.mem_cons.mp hr with rfl | hr
        · exact ⟨b, hserved.mem, rfl, hserved.taken, hserved.large⟩
        · obtain ⟨c, hc, hpointer, hused, hlarge⟩ := h.live r hr
          obtain ⟨-, hc', hused', hbytes⟩ := hserved.others c hc hused
          exact ⟨c, hc', hpointer, hused', fun hlt => hbytes ▸ hlarge hlt⟩
      · refine List.nodup_cons.mpr ⟨fun hmem => ?_, h.nodup⟩
        obtain ⟨r, hr, hrb⟩ := List.mem_map.mp hmem
        obtain ⟨c, hc, hpointer, hused, -⟩ := h.live r hr
        exact (hserved.others c hc hused).1 (dataStart_inj (hpointer.symm.trans hrb))
  | free fuel p =>
    rw [call] at hcall
    split_ifs at hcall with hp
    obtain ⟨t, hfree, rfl⟩ := Option.map_eq_some_iff.mp hcall
    have hnodup : ((m.live.filter (·.pointer ≠ p)).map Result.pointer).Nodup :=
      h.nodup.sublist (List.filter_sublist.map _)
    rcases free_cases hfree with rfl | ⟨b, hvalid, hget, hb, rfl⟩
    · exact ⟨l, h.arranged, h.granted, h.heapBase,
        fun r hr => h.live r (List.mem_filter.mp hr).1, hnodup⟩
    · obtain ⟨hother, hend⟩ := hok hvalid b hget hb
      have hlist := h.arranged.list
      -- the pointer is live, so the heap has a block
      obtain ⟨r, hr, hrp⟩ := List.mem_map.mp hp
      obtain ⟨c, hc, hpointer, -⟩ := h.live r hr
      have hbase := h.heapBase fun hnull => by
        rw [hlist.eq_nil_iff.mpr hnull] at hc
        exact List.not_mem_nil hc
      obtain ⟨hmem, hle⟩ := (getBlock_spec (hbase ▸ hlist.forward) hget).resolve_left hb
      have hnext : (m.state.memory b).next ≠ null := by
        have hpos : 0 < p := by
          rw [← hrp, hpointer]
          exact Nat.succ_pos _
        exact (hpos.trans_le hle).ne'
      obtain ⟨l', harranged, hkept⟩ :=
        release_spec h.arranged h.granted.bounded hmem hnext hend
      refine ⟨l', harranged, h.granted, h.heapBase, fun r hr => ?_, hnodup⟩
      obtain ⟨hr, hrp⟩ := List.mem_filter.mp hr
      obtain ⟨c, hc, hpointer, hused, hlarge⟩ := h.live r hr
      have hcb : c ≠ b := fun he => of_decide_eq_true hrp (hother r hr (he ▸ hpointer))
      obtain ⟨hc', hused', hbytes⟩ := hkept c hc hcb hused
      exact ⟨c, hc', hpointer, hused', fun hlt => hbytes ▸ hlarge hlt⟩

theorem reachable_invariant (h : ((heapSystem q).restrict (Sound q)).Reachable m) :
    ∃ l, Invariant q m l := by
  induction h with
  | start hs => exact ⟨[], invariant_created hs⟩
  | next _ hstep ih =>
    obtain ⟨l, hl⟩ := ih
    exact call_invariant hl hstep.1 hstep.2

/-! ### The list of the blocks -/

/-- A block of the heap is found over `next`. -/
def IsBlock (q : ℤ) (s : State) : ℕ → Prop := Visits (nextOf s.memory) null (s.heap q)

theorem Invariant.isBlock_iff (h : Invariant q m l) {b : ℕ} : IsBlock q m.state b ↔ b ∈ l :=
  h.arranged.list.visits_iff

theorem Invariant.live_pairwise (h : Invariant q m l) :
    m.live.Pairwise fun r r' => Disjoint (r.bytes m.state.memory) (r'.bytes m.state.memory) := by
  refine h.arranged.results_pairwise h.granted.bounded (fun r hr => ?_) h.nodup
  obtain ⟨b, hb, hpointer, -⟩ := h.live r hr
  exact ⟨b, hb, hpointer⟩

/-- The blocks in a page block follow each other in the list and tile the page block. -/
theorem Invariant.part (h : Invariant q m l) {pg : PageBlock} (hpg : pg ∈ m.state.pageBlocks) :
    ∃ part, Tiles (extent m.state.memory) pg.base part pg.limit ∧
      (∀ b, b ∈ part ↔ IsBlock q m.state b ∧ pg.base ≤ b ∧ b < pg.limit) ∧
      part.IsChain fun b c => nextOf m.state.memory b = c := by
  have hpos (b : ℕ) : 0 < extent m.state.memory b := Nat.add_pos_left (by decide) _
  obtain ⟨part, hpart, htiles⟩ := h.arranged.fills.part (List.mem_map_of_mem hpg)
  have hchain := List.IsChain.infix h.arranged.list.isChain hpart
  refine ⟨part, htiles, fun b => ?_, hchain.imp fun _ _ hl => hl.1⟩
  rw [h.isBlock_iff]
  constructor
  · intro hb
    obtain ⟨hlo, hhi⟩ := htiles.bounds hb
    exact ⟨hpart.subset hb, hlo, (Nat.lt_add_of_pos_right (hpos b)).trans_le hhi⟩
  · rintro ⟨hb, hlo, hhi⟩
    obtain ⟨c, hc, hcb⟩ := htiles.cover hlo hhi
    have heq := h.arranged.eq_of_mem h.granted.bounded hb (hpart.subset hc)
      ⟨le_rfl, Nat.lt_add_of_pos_right (hpos b)⟩ hcb
    exact heq ▸ hc

/-- Blocks are linked in both directions, lie inside one page block each and tile the page
blocks; live results have the bytes they asked for and do not overlap. -/
theorem heap_wellFormed (h : ((heapSystem q).restrict (Sound q)).Reachable m) :
    (∀ b, IsBlock q m.state b → nextOf m.state.memory b ≠ null →
      prevOf m.state.memory (nextOf m.state.memory b) = b) ∧
    (∀ b, IsBlock q m.state b → ∃ pg ∈ m.state.pageBlocks,
      pg.base ≤ b ∧ dataStart b + (m.state.memory b).size ≤ pg.limit) ∧
    (∀ pg ∈ m.state.pageBlocks, ∃ part, Tiles (extent m.state.memory) pg.base part pg.limit ∧
      (∀ b, b ∈ part ↔ IsBlock q m.state b ∧ pg.base ≤ b ∧ b < pg.limit) ∧
      part.IsChain fun b c => nextOf m.state.memory b = c) ∧
    (∀ r ∈ m.live, r.size + blockStructSize < 2 ^ 32 →
      r.size ≤ (m.state.memory r.block).size) ∧
    m.live.Pairwise fun r r' => Disjoint (r.bytes m.state.memory) (r'.bytes m.state.memory) := by
  obtain ⟨l, hinv⟩ := reachable_invariant h
  refine ⟨fun b hb hnext => ?_, fun b hb => ?_, fun pg hpg => hinv.part hpg, fun r hr hlt => ?_,
    hinv.live_pairwise⟩
  · exact hinv.arranged.list.prev_next (hinv.isBlock_iff.mp hb) hnext
  · obtain ⟨r, hr, hlo, hhi⟩ := hinv.arranged.fills.region (hinv.isBlock_iff.mp hb)
    obtain ⟨pg, hpg, rfl⟩ := List.mem_map.mp hr
    rw [extent, ← Nat.add_assoc] at hhi
    exact ⟨pg, hpg, hlo, hhi⟩
  · obtain ⟨b, -, hpointer, -, hlarge⟩ := hinv.live r hr
    rw [Result.block_eq hpointer]
    exact hlarge hlt

/-- A process without a heap. -/
def created : Machine := ⟨⟨fun _ => ⟨0, 0, 0, false⟩, null, fun _ => null, []⟩, []⟩

theorem isCreated_created : IsCreated 1 created := ⟨rfl, rfl, rfl⟩

/-- The heap gets a second page block, and freed blocks are joined and cut again. -/
theorem heap_wellFormed_two_pageBlocks : ∃ m, ((heapSystem 1).restrict (Sound 1)).Reachable m ∧
    m.live = [⟨0x1003000 + 28, 8000⟩, ⟨0x1000000 + 156, 3920⟩, ⟨0x1000000 + 28, 100⟩] ∧
      m.live.Pairwise fun r r' => Disjoint (r.bytes m.state.memory) (r'.bytes m.state.memory) := by
  obtain ⟨m, hm, hlive⟩ := reachable_restrict_of_execute (IsCreated 1) isCreated_created
    (show (execute (guarded (Sound 1) (call 1)) created
      [.mallock 9 100 0x1000000 0, .mallock 9 200 0 0, .free 9 (0x1000000 + 156),
        .mallock 9 3920 0 0, .mallock 9 5000 0 0x1003000, .free 9 (0x1003000 + 28),
        .mallock 9 8000 0 0]).map Machine.live =
      some [⟨0x1003000 + 28, 8000⟩, ⟨0x1000000 + 156, 3920⟩, ⟨0x1000000 + 28, 100⟩]
      by decide +kernel)
  exact ⟨m, hm, hlive, (heap_wellFormed hm).2.2.2.2⟩

/-- After the second cut of a block in the middle of the list the block behind it keeps the old
link; later two live results overlap. -/
theorem heap_not_wellFormed :
    (∃ m, (heapSystem 1).Reachable m ∧ ∃ b, IsBlock 1 m.state b ∧ nextOf m.state.memory b ≠ null ∧
      prevOf m.state.memory (nextOf m.state.memory b) ≠ b) ∧
    ∃ m, (heapSystem 1).Reachable m ∧ ∃ r ∈ m.live, ∃ r' ∈ m.live,
      r.pointer < r'.pointer ∧ r'.pointer < r.pointer + r.size := by
  constructor
  · obtain ⟨m, hm, hf⟩ := Option.map_eq_some_iff.mp
      (show (execute (call 1) created
        [.mallock 9 100 0x1000000 0, .mallock 9 100 0 0, .free 9 (0x1000000 + 28),
          .mallock 9 20 0 0]).map
        (fun m =>
          let next := nextOf m.state.memory
          let b := next (m.state.heap 1)
          (m.state.heap 1, b, next b, prevOf m.state.memory (next b))) =
        some (0x1000000, 0x1000000 + 48, 0x1000000 + 128, 0x1000000) by decide +kernel)
    have hreach := reachable_of_execute (IsCreated 1) isCreated_created hm
    obtain ⟨hheap, hf⟩ := Prod.mk.inj hf
    obtain ⟨hb, hf⟩ := Prod.mk.inj hf
    obtain ⟨hnext, hprev⟩ := Prod.mk.inj hf
    have hfirst : IsBlock 1 m.state (m.state.heap 1) := Visits.first (by rw [hheap]; decide)
    refine ⟨m, hreach, _, hfirst.next (by rw [hb]; decide), by rw [hnext]; decide, ?_⟩
    rw [hprev, hb]
    decide
  · obtain ⟨m, hm, hlive⟩ := Option.map_eq_some_iff.mp
      (show (execute (call 1) created
        [.mallock 9 100 0x1000000 0, .mallock 9 100 0 0, .free 9 (0x1000000 + 28),
          .mallock 9 20 0 0, .mallock 9 40 0 0, .free 9 (0x1000000 + 28),
          .free 9 (0x1000000 + 156), .mallock 9 90 0 0]).map Machine.live =
        some [⟨0x1000000 + 28, 90⟩, ⟨0x1000000 + 76, 40⟩] by decide +kernel)
    refine ⟨m, reachable_of_execute (IsCreated 1) isCreated_created hm,
      ⟨0x1000000 + 28, 90⟩, ?_, ⟨0x1000000 + 76, 40⟩, ?_, by decide, by decide⟩
    · rw [hlive]
      simp
    · rw [hlive]
      simp

end GatOS.Malloc
