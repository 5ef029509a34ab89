import Mathlib.Data.Nat.Log
import Mathlib.Tactic.Linarith

/-!
# Binary trees stored in an array

Node `i` has the children `2 * i` and `2 * i + 1`, the root is node `1`. The ancestors of a
node are its quotients by powers of two; the leaves of a tree of height `h` are the numbers
from `2 ^ h` to `2 ^ (h + 1)`.
-/
namespace GatOS.HeapTree

/-- Node `x` is `a` or one of the nodes under `a`. -/
def Below (x a : ℕ) : Prop := ∃ k, x / 2 ^ k = a

/-- The other child of the parent of `i`. -/
def sibling (i : ℕ) : ℕ := if i % 2 = 1 then i - 1 else i + 1

def depth (i : ℕ) : ℕ := Nat.log 2 i

theorem div_two_pow_succ (x k : ℕ) : x / 2 ^ (k + 1) = x / 2 ^ k / 2 := by
  rw [Nat.pow_succ, Nat.div_div_eq_div_mul]

theorem div_two_pow_add (x j k : ℕ) : x / 2 ^ (j + k) = x / 2 ^ j / 2 ^ k := by
  rw [Nat.pow_add, Nat.div_div_eq_div_mul]

@[refl] theorem Below.refl (x : ℕ) : Below x x := ⟨0, by simp⟩

theorem below_div (x k : ℕ) : Below x (x / 2 ^ k) := ⟨k, rfl⟩

theorem Below.trans {x y z : ℕ} (h : Below x y) (g : Below y z) : Below x z := by
  obtain ⟨j, rfl⟩ := h
  obtain ⟨k, rfl⟩ := g
  exact ⟨j + k, div_two_pow_add x j k⟩

theorem Below.le {x a : ℕ} (h : Below x a) : a ≤ x := by
  obtain ⟨k, rfl⟩ := h
  exact Nat.div_le_self x _

theorem Below.antisymm {x y : ℕ} (h : Below x y) (g : Below y x) : x = y :=
  le_antisymm g.le h.le

/-- The nodes above a given node form a chain. -/
theorem Below.comparable {x a b : ℕ} (ha : Below x a) (hb : Below x b) :
    Below a b ∨ Below b a := by
  obtain ⟨j, rfl⟩ := ha
  obtain ⟨k, rfl⟩ := hb
  rcases le_total j k with hjk | hkj
  · obtain ⟨d, rfl⟩ := Nat.exists_eq_add_of_le hjk
    exact Or.inl ⟨d, (div_two_pow_add x j d).symm⟩
  · obtain ⟨d, rfl⟩ := Nat.exists_eq_add_of_le hkj
    exact Or.inr ⟨d, (div_two_pow_add x k d).symm⟩

/-- A node under `a` is `a` itself or lies under one of its children. -/
theorem Below.cases_child {x a : ℕ} (h : Below x a) :
    x = a ∨ Below x (2 * a) ∨ Below x (2 * a + 1) := by
  obtain ⟨k, rfl⟩ := h
  cases k with
  | zero => left; simp
  | succ k =>
    right
    have hk := div_two_pow_succ x k
    rcases Nat.mod_two_eq_zero_or_one (x / 2 ^ k) with h0 | h1
    · exact Or.inl ⟨k, by omega⟩
    · exact Or.inr ⟨k, by omega⟩

/-- The path from `x` to a node above it enters that node through one of its children. -/
theorem Below.exists_child {x a : ℕ} (h : Below x a) (ha : a ≠ 0) (hne : x ≠ a) :
    ∃ c, 2 ≤ c ∧ c / 2 = a ∧ Below x c := by
  rcases h.cases_child with rfl | h | h
  · exact absurd rfl hne
  · exact ⟨2 * a, by omega, by omega, h⟩
  · exact ⟨2 * a + 1, by omega, by omega, h⟩

/-- On a path upwards from `l`, a node properly under the parent of `c` lies under `c`. -/
theorem Below.under_child {l x c : ℕ} (hlx : Below l x) (hlc : Below l c) (hxc : Below x (c / 2))
    (hne : x ≠ c / 2) : Below x c := by
  rcases hlx.comparable hlc with h | ⟨k, hk⟩
  · exact h
  cases k with
  | zero =>
    obtain rfl : c = x := by simpa using hk
    exact Below.refl c
  | succ k =>
    have hcx : Below (c / 2) x := ⟨k, by rw [← hk, Nat.add_comm, div_two_pow_add, pow_one]⟩
    exact absurd (hxc.antisymm hcx) hne

theorem lt_two_pow_depth (x : ℕ) : x < 2 ^ (depth x + 1) :=
  Nat.lt_pow_succ_log_self one_lt_two x

theorem depth_div (x k : ℕ) : depth (x / 2 ^ k) = depth x - k := Nat.log_div_base_pow 2 x k

theorem Below.depth_le {x a : ℕ} (h : Below x a) : depth a ≤ depth x := by
  obtain ⟨k, rfl⟩ := h
  rw [depth_div]
  exact Nat.sub_le _ _

theorem below_eq_div {x a : ℕ} (h : Below x a) (ha : a ≠ 0) :
    a = x / 2 ^ (depth x - depth a) := by
  obtain ⟨k, rfl⟩ := h
  have hx : x ≠ 0 := by rintro rfl; simp at ha
  have hk : k ≤ depth x := by
    by_contra hlt
    apply ha
    apply Nat.div_eq_of_lt
    exact (lt_two_pow_depth x).trans_le (Nat.pow_le_pow_right two_pos (by omega))
  rw [depth_div, Nat.sub_sub_self hk]

theorem Below.eq_of_depth {x a : ℕ} (h : Below x a) (ha : a ≠ 0) (hd : depth x = depth a) :
    x = a := by
  have := below_eq_div h ha
  simpa [hd] using this.symm

theorem depth_pos_iff {x : ℕ} : 0 < depth x ↔ 2 ≤ x := by
  simp [depth, Nat.log_pos_iff]

theorem depth_eq_iff {x d : ℕ} (hx : x ≠ 0) : depth x = d ↔ 2 ^ d ≤ x ∧ x < 2 ^ (d + 1) :=
  Nat.log_eq_iff (Or.inr ⟨one_lt_two, hx⟩)

theorem div_pow_eq_one_iff {x d : ℕ} : x / 2 ^ d = 1 ↔ 2 ^ d ≤ x ∧ x < 2 ^ (d + 1) := by
  rw [Nat.div_eq_iff (Nat.two_pow_pos d), Nat.pow_succ]
  have := Nat.two_pow_pos d
  omega

theorem depth_half {x : ℕ} : depth (x / 2) = depth x - 1 := Nat.log_div_base 2 x

/-! ### Siblings -/

theorem sibling_div_two {i : ℕ} (hi : 2 ≤ i) : sibling i / 2 = i / 2 := by
  unfold sibling
  split_ifs <;> omega

theorem sibling_ne {i : ℕ} (hi : 1 ≤ i) : sibling i ≠ i := by
  unfold sibling
  split_ifs <;> omega

theorem sibling_ne_zero {i : ℕ} (hi : 2 ≤ i) : sibling i ≠ 0 := by
  unfold sibling
  split_ifs <;> omega

theorem sibling_cases {i : ℕ} (hi : 2 ≤ i) :
    (i = 2 * (i / 2) ∧ sibling i = 2 * (i / 2) + 1) ∨
      (i = 2 * (i / 2) + 1 ∧ sibling i = 2 * (i / 2)) := by
  unfold sibling
  split_ifs <;> omega

theorem depth_sibling {i : ℕ} (hi : 2 ≤ i) : depth (sibling i) = depth i := by
  have h1 : depth (sibling i / 2) = depth (i / 2) := by rw [sibling_div_two hi]
  have h2 : 0 < depth i := depth_pos_iff.mpr hi
  have h3 : 0 < depth (sibling i) := depth_pos_iff.mpr (by
    unfold sibling
    split_ifs <;> omega)
  rw [depth_half, depth_half] at h1
  omega

theorem below_sibling {i : ℕ} (hi : 2 ≤ i) : Below (sibling i) (i / 2) :=
  ⟨1, by rw [pow_one, sibling_div_two hi]⟩

/-- The subtrees of two siblings have no node in common. -/
theorem not_below_sibling {x i : ℕ} (hi : 2 ≤ i) (hx : Below x i) : ¬ Below x (sibling i) := by
  intro hs
  have hd := depth_sibling hi
  rcases hx.comparable hs with h | h
  · exact sibling_ne (by omega) (h.eq_of_depth (sibling_ne_zero hi) hd.symm).symm
  · exact sibling_ne (by omega) (h.eq_of_depth (by omega) hd)

/-- A node properly under the parent of `i` lies under `i` or under its sibling. -/
theorem Below.cases_sibling {x i : ℕ} (hi : 2 ≤ i) (h : Below x (i / 2)) (hne : x ≠ i / 2) :
    Below x i ∨ Below x (sibling i) := by
  rcases h.cases_child with rfl | h | h
  · exact absurd rfl hne
  all_goals rcases sibling_cases hi with ⟨h1, h2⟩ | ⟨h1, h2⟩
  · exact Or.inl (h1 ▸ h)
  · exact Or.inr (h2 ▸ h)
  · exact Or.inr (h2 ▸ h)
  · exact Or.inl (h1 ▸ h)

/-! ### Leaves -/

/-- The first leaf under `x` in a tree of height `h`. -/
def firstLeaf (h x : ℕ) : ℕ := x * 2 ^ (h - depth x)

theorem firstLeaf_below (h x : ℕ) : Below (firstLeaf h x) x :=
  ⟨h - depth x, Nat.mul_div_cancel _ (Nat.two_pow_pos _)⟩

theorem depth_firstLeaf {h x : ℕ} (hx : x ≠ 0) (hd : depth x ≤ h) : depth (firstLeaf h x) = h := by
  have hne : firstLeaf h x ≠ 0 := Nat.mul_ne_zero hx (Nat.two_pow_pos _).ne'
  rw [depth_eq_iff hne]
  obtain ⟨hlo, hhi⟩ := (depth_eq_iff hx).mp rfl
  have hh : 2 ^ h = 2 ^ depth x * 2 ^ (h - depth x) := by
    rw [← Nat.pow_add]
    congr 1
    omega
  have hpos := Nat.two_pow_pos (h - depth x)
  constructor
  · rw [hh]
    exact Nat.mul_le_mul_right _ hlo
  · rw [Nat.pow_succ, hh, firstLeaf]
    rw [Nat.pow_succ] at hhi
    nlinarith

theorem two_pow_le_firstLeaf {h x : ℕ} (hx : x ≠ 0) (hd : depth x ≤ h) :
    2 ^ h ≤ firstLeaf h x := by
  have hne : firstLeaf h x ≠ 0 := Nat.mul_ne_zero hx (Nat.two_pow_pos _).ne'
  exact ((depth_eq_iff hne).mp (depth_firstLeaf hx hd)).1

theorem firstLeaf_add_le {h x : ℕ} (hd : depth x ≤ h) :
    firstLeaf h x + 2 ^ (h - depth x) ≤ 2 ^ (h + 1) := by
  have hsucc : firstLeaf h x + 2 ^ (h - depth x) = (x + 1) * 2 ^ (h - depth x) := by
    rw [firstLeaf, Nat.succ_mul]
  have hpow : 2 ^ (h + 1) = 2 ^ (depth x + 1) * 2 ^ (h - depth x) := by
    rw [← Nat.pow_add]
    congr 1
    omega
  rw [hsucc, hpow]
  exact Nat.mul_le_mul_right _ (lt_two_pow_depth x)

/-- The leaves under `x` are consecutive. -/
theorem leaf_below_iff {h x l : ℕ} (hx : x ≠ 0) (hl : depth l = h) :
    Below l x ↔ firstLeaf h x ≤ l ∧ l < firstLeaf h x + 2 ^ (h - depth x) := by
  have hpos := Nat.two_pow_pos (h - depth x)
  have hdiv : l / 2 ^ (h - depth x) = x ↔
      firstLeaf h x ≤ l ∧ l < firstLeaf h x + 2 ^ (h - depth x) := by
    rw [Nat.div_eq_iff hpos, firstLeaf]
    omega
  rw [← hdiv]
  constructor
  · intro hb
    have := below_eq_div hb hx
    rw [hl] at this
    exact this.symm
  · intro he
    exact ⟨_, he⟩

/-- Two nodes whose ranges of leaves overlap lie one under the other. -/
theorem comparable_of_leaves_overlap {h x y : ℕ} (hx : x ≠ 0) (hy : y ≠ 0)
    (hdx : depth x ≤ h) (hdy : depth y ≤ h)
    (h1 : firstLeaf h y < firstLeaf h x + 2 ^ (h - depth x))
    (h2 : firstLeaf h x < firstLeaf h y + 2 ^ (h - depth y)) : Below x y ∨ Below y x := by
  rcases le_total (firstLeaf h x) (firstLeaf h y) with hle | hle
  · have := (leaf_below_iff hx (depth_firstLeaf hy hdy)).mpr ⟨hle, h1⟩
    exact this.comparable (firstLeaf_below h y)
  · have := (leaf_below_iff hy (depth_firstLeaf hx hdx)).mpr ⟨hle, h2⟩
    exact (firstLeaf_below h x).comparable this

/-- A node lies under another exactly when its range of leaves lies inside the other's. -/
theorem below_iff_leaves {h x a : ℕ} (hx : x ≠ 0) (ha : a ≠ 0) (hdx : depth x ≤ h)
    (hda : depth a ≤ h) : Below x a ↔ firstLeaf h a ≤ firstLeaf h x ∧
      firstLeaf h x + 2 ^ (h - depth x) ≤ firstLeaf h a + 2 ^ (h - depth a) := by
  have hpx := Nat.two_pow_pos (h - depth x)
  constructor
  · intro hb
    have hleaf : ∀ l, depth l = h → firstLeaf h x ≤ l → l < firstLeaf h x + 2 ^ (h - depth x) →
        firstLeaf h a ≤ l ∧ l < firstLeaf h a + 2 ^ (h - depth a) := fun l hl h1 h2 =>
      (leaf_below_iff ha hl).mp (((leaf_below_iff hx hl).mpr ⟨h1, h2⟩).trans hb)
    have hfirst := hleaf _ (depth_firstLeaf hx hdx) le_rfl (by omega)
    have hlo := two_pow_le_firstLeaf hx hdx
    have hhi := firstLeaf_add_le (h := h) hdx
    have hlast := hleaf (firstLeaf h x + 2 ^ (h - depth x) - 1)
      ((depth_eq_iff (by omega)).mpr (by omega)) (by omega) (by omega)
    omega
  · rintro ⟨h1, h2⟩
    have hpa := Nat.two_pow_pos (h - depth a)
    rcases comparable_of_leaves_overlap hx ha hdx hda (by omega) (by omega) with hb | hb
    · exact hb
    · -- `a` lies under `x` and is at least as wide: they are the same node
      have hle : 2 ^ (h - depth x) ≤ 2 ^ (h - depth a) := by omega
      have hdepth := (Nat.pow_le_pow_iff_right one_lt_two).mp hle
      have := hb.depth_le
      rw [hb.eq_of_depth hx (by omega)]

end GatOS.HeapTree
