import GatOS.BuddyAllocator

/-!
# The marks left by a search and by a free

The recursive search finds the leftmost node that can serve the request; its effect on the
marks is described along the path from that node to the root, and so is the effect of
`freeUpRecursive`.
-/
namespace GatOS.BuddyAllocator
open HeapTree

theorem div_pow_lt {x i j : ℕ} (hx : x / 2 ^ j ≠ 0) (hij : i < j) : x / 2 ^ j < x / 2 ^ i := by
  obtain ⟨d, rfl⟩ := Nat.exists_eq_add_of_lt hij
  rw [Nat.add_assoc, div_two_pow_add] at hx ⊢
  have hpos : 0 < x / 2 ^ i := by
    by_contra h0
    simp [Nat.eq_zero_of_not_pos h0] at hx
  exact Nat.div_lt_self hpos (Nat.one_lt_two_pow (by omega))

theorem div_pow_ne_zero {x i j : ℕ} (hx : x / 2 ^ j ≠ 0) (hij : i ≤ j) : x / 2 ^ i ≠ 0 := by
  rcases Nat.eq_or_lt_of_le hij with rfl | hij
  · exact hx
  · exact Nat.ne_zero_of_lt (div_pow_lt hx hij)

/-! ### The search -/

/-- Node `x`, `left` levels under `index`, is free and no node on the way to it is full. -/
structure Candidate (b : BuddyArray) (left index x : ℕ) : Prop where
  under : x / 2 ^ left = index
  free : b.mark x = .empty
  not_full : ∀ k ≤ left, b.mark (x / 2 ^ k) ≠ .buddyFull

/-- The leftmost node that can serve a request `left` levels under the root. -/
def IsFirstFit (b : BuddyArray) (left x : ℕ) : Prop :=
  Candidate b left 1 x ∧ ∀ y, Candidate b left 1 y → x ≤ y

/-- The marks after node `x` was handed out, rewritten up to the node `left` levels above. -/
def fillUp : ℕ → ℕ → BuddyArray → BuddyArray
  | 0, x, b => b.setMark x .buddyFull
  | left + 1, x, b =>
    let b := fillUp left x b
    if x / 2 ^ left % 2 = 0 then b.setMark (x / 2 ^ (left + 1)) .partiallyFull
    else if b.mark (x / 2 ^ left) = .buddyFull then b.setMark (x / 2 ^ (left + 1)) .buddyFull
    else b

theorem candidate_zero {b : BuddyArray} {index x : ℕ} :
    Candidate b 0 index x ↔ x = index ∧ b.mark index = .empty := by
  constructor
  · intro h
    obtain rfl : x = index := by simpa using h.under
    exact ⟨rfl, h.free⟩
  · rintro ⟨rfl, he⟩
    refine ⟨by simp, he, fun k hk => ?_⟩
    obtain rfl : k = 0 := by omega
    simp [he]

theorem candidate_succ {b : BuddyArray} {left index x : ℕ} :
    Candidate b (left + 1) index x ↔ b.mark index ≠ .buddyFull ∧
      (Candidate b left (lchild index) x ∨ Candidate b left (rchild index) x) := by
  constructor
  · intro h
    have hroot := h.not_full (left + 1) le_rfl
    rw [h.under] at hroot
    have hpath : ∀ k ≤ left, b.mark (x / 2 ^ k) ≠ .buddyFull := fun k hk =>
      h.not_full k (by omega)
    have hdiv := h.under
    rw [div_two_pow_succ] at hdiv
    refine ⟨hroot, ?_⟩
    rcases Nat.mod_two_eq_zero_or_one (x / 2 ^ left) with h0 | h1
    · exact Or.inl ⟨by rw [lchild]; omega, h.free, hpath⟩
    · exact Or.inr ⟨by rw [rchild]; omega, h.free, hpath⟩
  · rintro ⟨hroot, h⟩
    obtain ⟨c, hc, h⟩ : ∃ c, c / 2 = index ∧ Candidate b left c x := by
      rcases h with h | h
      · exact ⟨_, by rw [lchild]; omega, h⟩
      · exact ⟨_, by rw [rchild]; omega, h⟩
    have hunder : x / 2 ^ (left + 1) = index := by rw [div_two_pow_succ, h.under, hc]
    refine ⟨hunder, h.free, fun k hk => ?_⟩
    rcases Nat.eq_or_lt_of_le hk with rfl | hk
    · rwa [hunder]
    · exact h.not_full k (by omega)

/-- Candidates under the left child come before those under the right child. -/
theorem candidate_left_lt {b : BuddyArray} {left index x y : ℕ}
    (hx : Candidate b left (lchild index) x) (hy : Candidate b left (rchild index) y) : x < y := by
  have h1 := hx.under
  have h2 := hy.under
  by_contra hle
  have := Nat.div_le_div_right (c := 2 ^ left) (Nat.not_lt.mp hle)
  rw [lchild] at h1
  rw [rchild] at h2
  omega

/-- The search returns the leftmost candidate, and fails without an effect if there is none. -/
theorem getNextPageRecursive_spec (left index : ℕ) (b : BuddyArray) :
    (∃ x, Candidate b left index x ∧ (∀ y, Candidate b left index y → x ≤ y) ∧
      getNextPageRecursive left index b = (some (b.base (x - 1)), fillUp left x b)) ∨
    ((∀ x, ¬ Candidate b left index x) ∧ getNextPageRecursive left index b = (none, b)) := by
  induction left generalizing index b with
  | zero =>
    simp only [candidate_zero, getNextPageRecursive]
    cases h : b.mark index with
    | empty => exact Or.inl ⟨index, ⟨rfl, rfl⟩, fun y hy => hy.1.ge, by simp [fillUp]⟩
    | partiallyFull => exact Or.inr (by simp)
    | buddyFull => exact Or.inr (by simp)
  | succ left ih =>
    simp only [candidate_succ, getNextPageRecursive]
    by_cases hfull : b.mark index = .buddyFull
    · exact Or.inr (by simp [hfull])
    rw [if_neg hfull]
    rcases ih (lchild index) b with ⟨x, hx, hmin, hget⟩ | ⟨hnone, hget⟩
    · -- the left child serves the request
      refine Or.inl ⟨x, ⟨hfull, Or.inl hx⟩, ?_, ?_⟩
      · rintro y ⟨-, hy | hy⟩
        · exact hmin y hy
        · exact (candidate_left_lt hx hy).le
      · have hindex : x / 2 ^ (left + 1) = index := by
          rw [div_two_pow_succ, hx.under, lchild]
          omega
        have heven : x / 2 ^ left % 2 = 0 := by
          rw [hx.under, lchild]
          omega
        simp [hget, fillUp, heven, hindex]
    · rcases ih (rchild index) b with ⟨x, hx, hmin, hget'⟩ | ⟨hnone', hget'⟩
      · refine Or.inl ⟨x, ⟨hfull, Or.inr hx⟩, ?_, ?_⟩
        · rintro y ⟨-, hy | hy⟩
          · exact absurd hy (hnone y)
          · exact hmin y hy
        · have hindex : x / 2 ^ (left + 1) = index := by
            rw [div_two_pow_succ, hx.under, rchild]
            omega
          have hodd : rchild index % 2 ≠ 0 := by
            rw [rchild]
            omega
          simp [hget, hget', fillUp, hodd, hindex, hx.under]
      · exact Or.inr ⟨by rintro y ⟨-, hy | hy⟩; exacts [hnone y hy, hnone' y hy],
          by simp [hget, hget']⟩

@[simp] theorem fillUp_base (left x : ℕ) (b : BuddyArray) : (fillUp left x b).base = b.base := by
  induction left with
  | zero => rfl
  | succ left ih =>
    simp only [fillUp]
    split_ifs <;> simp [ih]

@[simp] theorem fillUp_heapLevel (left x : ℕ) (b : BuddyArray) :
    (fillUp left x b).heapLevel = b.heapLevel := by
  induction left with
  | zero => rfl
  | succ left ih =>
    simp only [fillUp]
    split_ifs <;> simp [ih]

/-- Marks off the path from `x` upwards do not change. -/
theorem fillUp_mark_off {left x j : ℕ} (b : BuddyArray) (hx : x / 2 ^ left ≠ 0) (hj : j ≠ 0)
    (hoff : ∀ k ≤ left, j ≠ x / 2 ^ k) : (fillUp left x b).mark j = b.mark j := by
  induction left with
  | zero =>
    have h0 := hoff 0 le_rfl
    simp only [pow_zero, Nat.div_one] at h0 hx
    exact BuddyArray.mark_setMark_ne b _ hx hj h0
  | succ left ih =>
    have ih := ih (div_pow_ne_zero hx (Nat.le_succ _)) (fun k hk => hoff k (by omega))
    have hset : ∀ m, ((fillUp left x b).setMark (x / 2 ^ (left + 1)) m).mark j = b.mark j :=
      fun m => (BuddyArray.mark_setMark_ne _ m hx hj (hoff _ le_rfl)).trans ih
    simp only [fillUp]
    split_ifs
    · exact hset _
    · exact hset _
    · exact ih

theorem fillUp_mark_self {left x : ℕ} (b : BuddyArray) (hx : x / 2 ^ left ≠ 0) :
    (fillUp left x b).mark x = .buddyFull := by
  induction left with
  | zero => simp [fillUp]
  | succ left ih =>
    have ih := ih (div_pow_ne_zero hx (Nat.le_succ _))
    have hlt : x / 2 ^ (left + 1) < x := by simpa using div_pow_lt hx (Nat.succ_pos left)
    have hset : ∀ m, ((fillUp left x b).setMark (x / 2 ^ (left + 1)) m).mark x = .buddyFull :=
      fun m => (BuddyArray.mark_setMark_ne _ m hx (Nat.ne_zero_of_lt hlt) hlt.ne').trans ih
    simp only [fillUp]
    split_ifs
    · exact hset _
    · exact hset _
    · exact ih

/-- The mark of a node above `x` depends on the side of the child through which it was reached. -/
theorem fillUp_mark_path {left x k : ℕ} (b : BuddyArray) (hx : x / 2 ^ left ≠ 0) (hk : k < left) :
    (fillUp left x b).mark (x / 2 ^ (k + 1)) =
      if x / 2 ^ k % 2 = 0 then .partiallyFull
      else if (fillUp left x b).mark (x / 2 ^ k) = .buddyFull then .buddyFull
      else b.mark (x / 2 ^ (k + 1)) := by
  induction left with
  | zero => omega
  | succ left ih =>
    have hx' := div_pow_ne_zero hx (Nat.le_succ left)
    rcases Nat.eq_or_lt_of_le (Nat.lt_succ_iff.mp hk) with rfl | hlt
    · -- the topmost node: the mark of its child is final
      have hne := div_pow_lt hx (Nat.lt_succ_self k)
      have hchild : ∀ m, ((fillUp k x b).setMark (x / 2 ^ (k + 1)) m).mark (x / 2 ^ k) =
          (fillUp k x b).mark (x / 2 ^ k) :=
        fun m => BuddyArray.mark_setMark_ne _ m hx hx' hne.ne'
      have htop : (fillUp k x b).mark (x / 2 ^ (k + 1)) = b.mark (x / 2 ^ (k + 1)) :=
        fillUp_mark_off b hx' hx fun i hi => (div_pow_lt hx (Nat.lt_succ_of_le hi)).ne
      by_cases h0 : x / 2 ^ k % 2 = 0
      · simp [fillUp, h0]
      · by_cases hf : (fillUp k x b).mark (x / 2 ^ k) = .buddyFull
        · simp [fillUp, h0, hf, hchild]
        · simp [fillUp, h0, hf, htop]
    · have hbelow : ∀ i ≤ left, ∀ m,
          ((fillUp left x b).setMark (x / 2 ^ (left + 1)) m).mark (x / 2 ^ i) =
            (fillUp left x b).mark (x / 2 ^ i) := fun i hi m =>
        BuddyArray.mark_setMark_ne _ m hx (div_pow_ne_zero hx (by omega))
          (div_pow_lt hx (Nat.lt_succ_of_le hi)).ne'
      have hpath : ∀ i ≤ left,
          (fillUp (left + 1) x b).mark (x / 2 ^ i) = (fillUp left x b).mark (x / 2 ^ i) := by
        intro i hi
        simp only [fillUp]
        split_ifs
        · exact hbelow i hi _
        · exact hbelow i hi _
        · rfl
      rw [hpath _ hlt, hpath _ (by omega)]
      exact ih hx' hlt

/-- A node above `x` is full afterwards exactly when `x` is the last node of its level under it. -/
theorem fillUp_full_iff {left x k : ℕ} (b : BuddyArray) (hx : x / 2 ^ left ≠ 0) (hk : k ≤ left)
    (hopen : ∀ i ≤ left, b.mark (x / 2 ^ i) ≠ .buddyFull) :
    (fillUp left x b).mark (x / 2 ^ k) = .buddyFull ↔ ∀ i < k, x / 2 ^ i % 2 = 1 := by
  induction k with
  | zero => simp [fillUp_mark_self b hx]
  | succ k ih =>
    have ih := ih (by omega)
    rw [fillUp_mark_path b hx hk]
    rcases Nat.mod_two_eq_zero_or_one (x / 2 ^ k) with h0 | h1
    · simp only [h0, ↓reduceIte, reduceCtorEq, false_iff]
      intro h
      have := h k (Nat.lt_succ_self k)
      omega
    · by_cases hf : (fillUp left x b).mark (x / 2 ^ k) = .buddyFull
      · simp only [h1, hf, one_ne_zero, ↓reduceIte, true_iff]
        intro i hi
        rcases Nat.eq_or_lt_of_le (Nat.lt_succ_iff.mp hi) with rfl | hi
        · exact h1
        · exact ih.mp hf i hi
      · simp only [h1, hf, one_ne_zero, ↓reduceIte, hopen _ hk, false_iff]
        exact fun h => hf (ih.mpr fun i hi => h i (by omega))

/-! ### The walk up after a free -/

theorem freeUpMark_empty_left (m : Mark) : freeUpMark .empty m = .empty := by
  cases m <;> rfl

theorem freeUpMark_empty_right {m : Mark} : freeUpMark m .empty = .empty := by
  cases m <;> rfl

theorem freeUpMark_ne_empty {p s : Mark} (hp : p ≠ .empty) (hs : s ≠ .empty) :
    freeUpMark p s ≠ .empty := by
  cases p <;> cases s <;> simp_all [freeUpMark]

/-- The combination of marks that `freeUpRecursive` does not treat. -/
theorem freeUpMark_eq_full {p s : Mark} :
    freeUpMark p s = .buddyFull ↔ p = .buddyFull ∧ s = .partiallyFull := by
  cases p <;> cases s <;> simp [freeUpMark]

/-- The walk rewrites the nodes properly above `index`, each from its own mark and the mark
of the sibling of the child it was reached through. -/
theorem freeUpRecursive_spec (fuel index : ℕ) (b : BuddyArray) (hindex : index ≠ 0)
    (hfuel : depth index < fuel) :
    ∃ b', freeUpRecursive fuel index b = some b' ∧ b'.base = b.base ∧
      b'.heapLevel = b.heapLevel ∧
      (∀ j, j ≠ 0 → (∀ k, j ≠ index / 2 ^ (k + 1)) → b'.mark j = b.mark j) ∧
      (∀ k, index / 2 ^ (k + 1) ≠ 0 → b'.mark (index / 2 ^ (k + 1)) =
        freeUpMark (b.mark (index / 2 ^ (k + 1))) (b.mark (sibling (index / 2 ^ k)))) := by
  induction fuel generalizing index b with
  | zero => omega
  | succ fuel ih =>
    simp only [freeUpRecursive]
    by_cases hone : index = 1
    · subst hone
      refine ⟨b, by simp, rfl, rfl, fun _ _ _ => rfl, fun k hk => absurd ?_ hk⟩
      exact Nat.div_eq_of_lt (Nat.one_lt_two_pow (Nat.succ_ne_zero k))
    rw [if_neg hone]
    have h2 : 2 ≤ index := by omega
    have hp0 : parent index ≠ 0 := by rw [parent]; omega
    have hpar : ∀ k, parent index / 2 ^ k = index / 2 ^ (k + 1) := fun k => by
      rw [parent, Nat.add_comm, div_two_pow_add, pow_one]
    have hdepth : depth (parent index) < fuel := by
      have hpos := depth_pos_iff.mpr h2
      have : depth (parent index) = depth index - 1 := depth_half
      omega
    obtain ⟨b', hrun, hbase, hlevel, hoff, hpath⟩ := ih (parent index)
      (b.setMark (parent index) (freeUpMark (b.mark (parent index)) (b.mark (sibling index))))
      hp0 hdepth
    simp only [hpar] at hoff hpath
    have hparent : parent index = index / 2 ^ (0 + 1) := by simp [parent]
    refine ⟨b', hrun, hbase, hlevel, fun j hj hjoff => ?_, fun k hk => ?_⟩
    · rw [hoff j hj fun k => hjoff (k + 1)]
      exact BuddyArray.mark_setMark_ne b _ hp0 hj (hparent ▸ hjoff 0)
    · cases k with
      | zero =>
        rw [← hparent, hoff _ hp0 fun k hk' => ?_]
        · simp
        · have hlt := div_pow_lt (x := index) (i := 1) (j := k + 1 + 1) (by rw [← hk']; exact hp0)
            (by omega)
          rw [← hk', hparent] at hlt
          simp at hlt
      | succ k =>
        have hc2 : 2 ≤ index / 2 ^ (k + 1) := by
          rw [div_two_pow_succ] at hk
          by_contra hlt
          exact hk (Nat.div_eq_of_lt (Nat.not_le.mp hlt))
        have hne : index / 2 ^ (k + 1 + 1) ≠ parent index := by
          have := div_pow_lt hk (show 0 + 1 < k + 1 + 1 by omega)
          rw [hparent]
          exact this.ne
        have hsib : sibling (index / 2 ^ (k + 1)) ≠ parent index := by
          intro he
          refine not_below_sibling (x := parent index) hc2 ?_ ?_
          · rw [← hpar]
            exact below_div _ _
          · rw [he]
        rw [hpath k hk, BuddyArray.mark_setMark_ne b _ hp0 hk hne,
          BuddyArray.mark_setMark_ne b _ hp0 (sibling_ne_zero hc2) hsib]

end GatOS.BuddyAllocator
