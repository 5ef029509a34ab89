import Mathlib.Data.List.Basic
import Mathlib.Order.Bounds.Basic

/-!
# First fit

Free space between areas that lie one behind the other. An area is its start and its length.
-/
namespace GatOS.FirstFit

/-- `n` places from `a` on are free between `lo` and `hi`. -/
structure Fits (areas : List (ℕ × ℕ)) (lo hi n a : ℕ) : Prop where
  lo : lo ≤ a
  hi : a + n ≤ hi
  free : ∀ x ∈ areas, x.1 + x.2 ≤ a ∨ a + n ≤ x.1

/-- The areas follow each other between `lo` and `hi`. -/
def Ordered (hi : ℕ) : ℕ → List (ℕ × ℕ) → Prop
  | lo, [] => lo ≤ hi
  | lo, x :: xs => lo ≤ x.1 ∧ Ordered hi (x.1 + x.2) xs

/-- The first gap with room for `n` places. -/
def firstFit (hi n : ℕ) : ℕ → List (ℕ × ℕ) → Option ℕ
  | lo, [] => if lo + n ≤ hi then some lo else none
  | lo, x :: xs => if lo + n ≤ x.1 then some lo else firstFit hi n (x.1 + x.2) xs

/-- One area lies behind the other. -/
def Apart (x y : ℕ × ℕ) : Prop := x.1 + x.2 ≤ y.1 ∨ y.1 + y.2 ≤ x.1

section

variable {lo hi n a : ℕ} {x : ℕ × ℕ} {xs : List (ℕ × ℕ)}

theorem Ordered.le (h : Ordered hi lo xs) : lo ≤ hi := by
  induction xs generalizing lo with
  | nil => exact h
  | cons x xs ih =>
    have hrest := ih h.2
    have hlo := h.1
    omega

theorem Ordered.bounds (h : Ordered hi lo xs) (hx : x ∈ xs) : lo ≤ x.1 ∧ x.1 + x.2 ≤ hi := by
  induction xs generalizing lo with
  | nil => cases hx
  | cons y ys ih =>
    have hlo := h.1
    cases hx with
    | head => exact ⟨hlo, h.2.le⟩
    | tail _ hx =>
      have hrest := ih h.2 hx
      omega

/-- Areas that are sorted by their starts and do not overlap. -/
theorem ordered_of_sorted (hsorted : xs.Pairwise fun x y => x.1 ≤ y.1) (hapart : xs.Pairwise Apart)
    (hbounds : ∀ x ∈ xs, lo ≤ x.1 ∧ x.1 + x.2 ≤ hi ∧ 0 < x.2) (hle : lo ≤ hi) :
    Ordered hi lo xs := by
  induction xs generalizing lo with
  | nil => exact hle
  | cons x xs ih =>
    rw [List.pairwise_cons] at hsorted hapart
    have hx := hbounds x List.mem_cons_self
    refine ⟨hx.1, ih hsorted.2 hapart.2 (fun y hy => ?_) hx.2.1⟩
    have hy' := hbounds y (List.mem_cons_of_mem _ hy)
    have hstart := hsorted.1 y hy
    have hbehind := hapart.1 y hy
    unfold Apart at hbehind
    omega

/-- What is found is the lowest free place. -/
theorem firstFit_some (h : Ordered hi lo xs) (hfit : firstFit hi n lo xs = some a) :
    IsLeast {a | Fits xs lo hi n a} a := by
  induction xs generalizing lo with
  | nil =>
    simp only [firstFit, Option.ite_none_right_eq_some, Option.some.injEq] at hfit
    obtain ⟨hroom, rfl⟩ := hfit
    exact ⟨⟨le_rfl, hroom, fun x hx => absurd hx List.not_mem_nil⟩, fun b hb => hb.lo⟩
  | cons x xs ih =>
    unfold firstFit at hfit
    have hle := h.2.le
    split_ifs at hfit with hroom
    · obtain rfl := Option.some.inj hfit
      refine ⟨⟨le_rfl, by omega, fun y hy => ?_⟩, fun b hb => hb.lo⟩
      cases hy with
      | head => exact Or.inr hroom
      | tail _ hy =>
        have hbehind := (h.2.bounds hy).1
        omega
    · obtain ⟨hfits, hleast⟩ := ih h.2 hfit
      have hlo := hfits.lo
      refine ⟨⟨le_trans h.1 (by omega), hfits.hi, fun y hy => ?_⟩, fun b hb => hleast ?_⟩
      · cases hy with
        | head => exact Or.inl hlo
        | tail _ hy => exact hfits.free y hy
      · -- no place in front of the first area is free
        have hb' := hb.free x List.mem_cons_self
        have hlo' := hb.lo
        exact ⟨by omega, hb.hi, fun y hy => hb.free y (List.mem_cons_of_mem _ hy)⟩

theorem firstFit_none (h : Ordered hi lo xs) (hfit : firstFit hi n lo xs = none) (a : ℕ) :
    ¬ Fits xs lo hi n a := by
  induction xs generalizing lo with
  | nil =>
    intro hfits
    have hlo := hfits.lo
    have hhi := hfits.hi
    simp only [firstFit, ite_eq_right_iff, reduceCtorEq, imp_false] at hfit
    omega
  | cons x xs ih =>
    intro hfits
    unfold firstFit at hfit
    split_ifs at hfit with hroom
    have hx := hfits.free x List.mem_cons_self
    have hlo := hfits.lo
    exact ih h.2 hfit ⟨by omega, hfits.hi, fun y hy => hfits.free y (List.mem_cons_of_mem _ hy)⟩

theorem fits_congr {ys : List (ℕ × ℕ)} (h : ∀ x, x ∈ xs ↔ x ∈ ys) :
    Fits xs lo hi n a ↔ Fits ys lo hi n a :=
  ⟨fun hf => ⟨hf.lo, hf.hi, fun x hx => hf.free x ((h x).mpr hx)⟩,
    fun hf => ⟨hf.lo, hf.hi, fun x hx => hf.free x ((h x).mp hx)⟩⟩

end

end GatOS.FirstFit
