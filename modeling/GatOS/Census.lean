import Mathlib.Data.List.Count
import Mathlib.Data.List.Nodup

/-!
# Counting the members of a group

How many members of a group are in a state that meets a condition, while the members change
their states one at a time.
-/
namespace GatOS

variable {ι α : Type*} {members : List ι} {f : ι → α} {q : α → Bool} {i j : ι} {a : α}

def census (members : List ι) (f : ι → α) (q : α → Bool) : ℕ := members.countP fun i => q (f i)

theorem exists_of_census_pos (h : 0 < census members f q) :
    ∃ i ∈ members, q (f i) = true := List.countP_pos_iff.mp h

theorem census_pos (hi : i ∈ members) (hq : q (f i) = true) : 0 < census members f q :=
  List.countP_pos_iff.mpr ⟨i, hi, hq⟩

theorem census_congr {g : ι → α} (h : ∀ i ∈ members, f i = g i) :
    census members f q = census members g q :=
  List.countP_congr fun i hi => by rw [h i hi]

section Update

variable [DecidableEq ι]

/-- A new state of somebody who is not a member. -/
theorem census_update_notMem (hi : i ∉ members) :
    census members (Function.update f i a) q = census members f q := by
  refine census_congr fun j hj => Function.update_of_ne ?_ a f
  rintro rfl
  exact hi hj

/-- A new member. -/
theorem census_cons_update (hi : i ∉ members) :
    census (i :: members) (Function.update f i a) q = census members f q + (q a).toNat := by
  have hrest := census_update_notMem (f := f) (q := q) (a := a) hi
  unfold census at *
  rw [List.countP_cons, hrest, Function.update_self]
  cases q a <;> rfl

/-- A member changes its state. -/
theorem census_update (hn : members.Nodup) (hi : i ∈ members) :
    census members (Function.update f i a) q + (q (f i)).toNat =
      census members f q + (q a).toNat := by
  induction members with
  | nil => exact absurd hi List.not_mem_nil
  | cons j members ih =>
    obtain ⟨hj, hn⟩ := List.nodup_cons.mp hn
    by_cases hij : i = j
    · subst hij
      have hrest := census_update_notMem (f := f) (q := q) (a := a) hj
      unfold census at *
      simp only [List.countP_cons, hrest, Function.update_self]
      cases q a <;> cases q (f i) <;> simp
    · have hrest := ih hn ((List.mem_cons.mp hi).resolve_left hij)
      unfold census at *
      simp only [List.countP_cons, Function.update_of_ne (Ne.symm hij)]
      omega

end Update

/-- When at most one member meets the condition it is always the same. -/
theorem eq_of_census_le_one (hn : members.Nodup) (hone : census members f q ≤ 1)
    (hi : i ∈ members) (hqi : q (f i) = true) (hj : j ∈ members) (hqj : q (f j) = true) :
    i = j := by
  induction members with
  | nil => exact absurd hi List.not_mem_nil
  | cons k members ih =>
    obtain ⟨hk, hn⟩ := List.nodup_cons.mp hn
    have hcount : census (k :: members) f q = census members f q + (q (f k)).toNat := by
      unfold census
      rw [List.countP_cons]
      cases q (f k) <;> rfl
    -- the first member and another one make two
    have htwo : ∀ x ∈ members, q (f x) = true → q (f k) = true → False := fun x hx hqx hqk => by
      have hpos : 0 < census members f q := census_pos hx hqx
      rw [hcount, hqk] at hone
      simp only [Bool.toNat_true] at hone
      omega
    rcases List.mem_cons.mp hi with rfl | hi'
    · rcases List.mem_cons.mp hj with rfl | hj'
      · rfl
      · exact (htwo j hj' hqj hqi).elim
    · rcases List.mem_cons.mp hj with rfl | hj'
      · exact (htwo i hi' hqi hqj).elim
      · exact ih hn (by omega) hi' hj'

end GatOS
