import Mathlib.Data.List.Basic
import Mathlib.Data.List.Perm.Basic

/-!
# Arrays of slots

A fixed number of slots, each of which holds a value or the mark `e` of an empty slot. A value
is stored in the first empty slot, and the value in the first occupied slot is taken out.
-/
namespace GatOS

structure SlotArray (α : Type*) (n : ℕ) where
  cells : List α
  size : cells.length = n

namespace SlotArray

variable {α : Type*} {n : ℕ}

/-- An index that the search returns splits the list at the first hit. -/
theorem exists_split_of_findIdx? {p : α → Bool} {l : List α} {i : ℕ}
    (h : l.findIdx? p = some i) :
    ∃ l₁ x l₂, l = l₁ ++ x :: l₂ ∧ l₁.length = i ∧ p x = true ∧ ∀ y ∈ l₁, p y = false := by
  induction l generalizing i with
  | nil => simp at h
  | cons x l ih =>
    rw [List.findIdx?_cons] at h
    cases hp : p x with
    | true =>
      simp only [hp, if_true, Option.some.injEq] at h
      exact ⟨[], x, l, rfl, h, hp, by simp⟩
    | false =>
      simp only [hp, Bool.false_eq_true, if_false, Option.map_eq_some_iff] at h
      obtain ⟨j, hj, rfl⟩ := h
      obtain ⟨l₁, y, l₂, rfl, rfl, hy, hall⟩ := ih hj
      exact ⟨x :: l₁, y, l₂, rfl, rfl, hy, List.forall_mem_cons.mpr ⟨hp, hall⟩⟩

variable [DecidableEq α]

def replicate (n : ℕ) (e : α) : SlotArray α n := ⟨List.replicate n e, List.length_replicate⟩

def set (q : SlotArray α n) (i : ℕ) (v : α) : SlotArray α n :=
  ⟨q.cells.set i v, by rw [List.length_set, q.size]⟩

/-- The first empty slot. -/
def firstFree (e : α) (q : SlotArray α n) : Option ℕ := q.cells.findIdx? (· = e)

/-- The first occupied slot, with its value. -/
def firstTaken (e : α) (q : SlotArray α n) : Option (ℕ × α) :=
  (q.cells.findIdx? (· ≠ e)).bind fun i => q.cells[i]?.map (i, ·)

/-- The values in the occupied slots. -/
def values (e : α) (q : SlotArray α n) : List α := q.cells.filter (· ≠ e)

@[simp] theorem values_replicate (n : ℕ) (e : α) : (replicate n e).values e = [] := by
  simp [values, replicate]

theorem values_set (q : SlotArray α n) (i : ℕ) (e v : α) :
    (q.set i v).values e = (q.cells.set i v).filter (· ≠ e) := rfl

theorem values_length_le (e : α) (q : SlotArray α n) : (q.values e).length ≤ n := by
  exact Nat.le_trans (List.length_filter_le _ _) (Nat.le_of_eq q.size)

theorem firstFree_eq_none {e : α} {q : SlotArray α n} (h : q.firstFree e = none) :
    (q.values e).length = n := by
  rw [firstFree, List.findIdx?_eq_none_iff] at h
  rw [values, List.filter_eq_self.mpr fun x hx => ?_, q.size]
  simpa using h x hx

/-- A value stored in the first empty slot joins the others. -/
theorem values_set_firstFree {e v : α} {q : SlotArray α n} {i : ℕ} (h : q.firstFree e = some i)
    (hv : v ≠ e) : ((q.set i v).values e).Perm (v :: q.values e) := by
  obtain ⟨l₁, x, l₂, hl, rfl, hx, -⟩ := exists_split_of_findIdx? h
  obtain rfl : x = e := by simpa using hx
  have hset : q.cells.set l₁.length v = l₁ ++ v :: l₂ := by
    rw [hl, List.set_append_right _ _ (Nat.le_refl _)]
    simp
  rw [values_set, hset, values, hl, List.filter_append, List.filter_append,
    List.filter_cons_of_pos (by simpa using hv), List.filter_cons_of_neg (by simp)]
  exact List.perm_middle

theorem firstFree_isSome {e : α} {q : SlotArray α n} (h : (q.values e).length < n) :
    ∃ i, q.firstFree e = some i := by
  cases hf : q.firstFree e with
  | none => exact absurd (firstFree_eq_none hf) (by omega)
  | some i => exact ⟨i, rfl⟩

theorem values_of_firstTaken_eq_none {e : α} {q : SlotArray α n} (h : q.firstTaken e = none) :
    q.values e = [] := by
  rw [values, List.filter_eq_nil_iff]
  cases hf : q.cells.findIdx? (· ≠ e) with
  | none =>
    rw [List.findIdx?_eq_none_iff] at hf
    intro x hx
    simp only [hf x hx, Bool.false_eq_true, not_false_eq_true]
  | some i =>
    obtain ⟨l₁, x, l₂, hl, rfl, -, -⟩ := exists_split_of_findIdx? hf
    rw [firstTaken, hf, Option.bind_some, hl] at h
    simp at h

/-- The value in the first occupied slot is the first of the values, and clearing the slot
leaves the others. -/
theorem values_of_firstTaken {e v : α} {q : SlotArray α n} {i : ℕ}
    (h : q.firstTaken e = some (i, v)) : q.values e = v :: (q.set i e).values e := by
  rw [firstTaken, Option.bind_eq_some_iff] at h
  obtain ⟨j, hj, hv⟩ := h
  obtain ⟨w, hw, hpair⟩ := Option.map_eq_some_iff.mp hv
  obtain ⟨rfl, rfl⟩ := Prod.mk.inj hpair
  obtain ⟨l₁, x, l₂, hl, rfl, hx, hall⟩ := exists_split_of_findIdx? hj
  rw [hl, List.getElem?_append_right (Nat.le_refl _), Nat.sub_self] at hw
  obtain rfl : x = w := by simpa using hw
  have hset : q.cells.set l₁.length e = l₁ ++ e :: l₂ := by
    rw [hl, List.set_append_right _ _ (Nat.le_refl _)]
    simp
  have hnil : l₁.filter (· ≠ e) = [] := by
    rw [List.filter_eq_nil_iff]
    intro y hy
    rw [hall y hy]
    simp
  rw [values_set, hset, values, hl, List.filter_append, List.filter_append, hnil,
    List.filter_cons_of_pos (by simpa using hx), List.filter_cons_of_neg (by simp)]
  rfl

/-! ### Arrays without gaps -/

/-- The occupied slots come first. -/
def Packed (e : α) (q : SlotArray α n) : Prop :=
  q.cells = q.values e ++ List.replicate (n - (q.values e).length) e

instance (e : α) (q : SlotArray α n) : Decidable (q.Packed e) := inferInstanceAs (Decidable (_ = _))

/-- The first empty slot of an array without gaps is behind all occupied ones. -/
theorem values_set_of_packed {e v : α} {q : SlotArray α n} {i : ℕ} (hq : q.Packed e)
    (h : q.firstFree e = some i) (hv : v ≠ e) : (q.set i v).values e = q.values e ++ [v] := by
  obtain ⟨l₁, x, l₂, hl, rfl, hx, hall⟩ := exists_split_of_findIdx? h
  obtain rfl : x = e := by simpa using hx
  have hset : q.cells.set l₁.length v = l₁ ++ v :: l₂ := by
    rw [hl, List.set_append_right _ _ (Nat.le_refl _)]
    simp
  have hfull : l₁.filter (· ≠ x) = l₁ := by
    rw [List.filter_eq_self]
    intro y hy
    simpa using hall y hy
  have hvalues : q.values x = l₁ ++ l₂.filter (· ≠ x) := by
    rw [values, hl, List.filter_append, hfull, List.filter_cons_of_neg (by simp)]
  -- what follows the first empty slot is empty
  have hempty : l₂.filter (· ≠ x) = [] := by
    rw [Packed, hvalues, hl, List.append_assoc, List.append_cancel_left_eq] at hq
    cases hrest : l₂.filter (· ≠ x) with
    | nil => rfl
    | cons y l =>
      rw [hrest, List.cons_append] at hq
      have hne := (List.mem_filter.mp (hrest ▸ List.mem_cons_self : y ∈ l₂.filter (· ≠ x))).2
      exact absurd (List.cons.inj hq).1.symm (by simpa using hne)
  rw [values_set, hset, hvalues, hempty, List.append_nil, List.filter_append, hfull,
    List.filter_cons_of_pos (by simpa using hv), hempty]

end SlotArray

end GatOS
