import Mathlib.Data.List.Nodup
import GatOS.Transition

/-!
# Bounded waiting

Somebody waits in a line. A step serves them, or it brings them forward by what it costs and back
by what it gains for others. So a run that is long enough serves them.
-/
namespace GatOS.Transition

/-- The sum of the amounts of the actions. -/
def total {A : Type*} (amount : A → ℕ) : List A → ℕ
  | [] => 0
  | a :: as => amount a + total amount as

section

variable {A : Type*} (amount : A → ℕ)

@[simp] theorem total_nil : total amount [] = 0 := rfl

@[simp] theorem total_cons (a : A) (as : List A) :
    total amount (a :: as) = amount a + total amount as := rfl

end

namespace System

variable {S A : Type*} {M : System S A}

/-- A state on the path in which `served` holds. -/
def Path.Passes (M : System S A) (served : S → Prop) (s : S) (as : List A) (t : S) : Prop :=
  ∃ as₁ as₂ u, as = as₁ ++ as₂ ∧ M.Path s as₁ u ∧ M.Path u as₂ t ∧ served u

theorem Path.Passes.prepend {served : S → Prop} {s t u : S} {as bs : List A}
    (hpath : M.Path s as t) (h : Path.Passes M served t bs u) :
    Path.Passes M served s (as ++ bs) u := by
  obtain ⟨bs₁, bs₂, v, rfl, h₁, h₂, hv⟩ := h
  exact ⟨as ++ bs₁, bs₂, v, (List.append_assoc _ _ _).symm, hpath.append h₁, h₂, hv⟩

/-- What each step of a path serves or brings forward, the whole path serves or brings forward. -/
theorem Path.passes_or_rank {waits served : S → Prop} {rank : S → ℕ} {cost gain : A → ℕ}
    {keeps : A → Prop}
    (hstep : ∀ s a t, waits s → keeps a → M.step s a t →
      served t ∨ (waits t ∧ rank t + cost a ≤ rank s + gain a))
    {s t : S} {as : List A} (h : M.Path s as t) (hs : waits s) (hkeeps : ∀ a ∈ as, keeps a) :
    Path.Passes M served s as t ∨
      (waits t ∧ rank t + total cost as ≤ rank s + total gain as) := by
  induction h with
  | nil s => exact Or.inr ⟨hs, by simp⟩
  | @cons s t u a as hst hpath ih =>
    rcases hstep s a t hs (hkeeps a List.mem_cons_self) hst with hserved | ⟨ht, hrank⟩
    · exact Or.inl ⟨[a], as, t, rfl, .cons hst (.nil t), hpath, hserved⟩
    · rcases ih ht fun b hb => hkeeps b (List.mem_cons_of_mem a hb) with
        ⟨as₁, as₂, v, rfl, h₁, h₂, hv⟩ | ⟨hu, hle⟩
      · exact Or.inl ⟨a :: as₁, as₂, v, rfl, .cons hst h₁, h₂, hv⟩
      · refine Or.inr ⟨hu, ?_⟩
        simp only [total_cons]
        omega

end System

/-- A list is cut at an occurrence of `a`. -/
theorem exists_split_count {α : Type*} [DecidableEq α] {a : α} {l : List α} {n : ℕ}
    (h : n < l.count a) : ∃ l₁ l₂, l = l₁ ++ a :: l₂ ∧ l₁.count a = n := by
  induction l generalizing n with
  | nil => simp at h
  | cons b l ih =>
    by_cases hb : b = a
    · subst hb
      cases n with
      | zero => exact ⟨[], l, rfl, rfl⟩
      | succ n =>
        obtain ⟨l₁, l₂, rfl, hcount⟩ := ih (n := n) (by simpa using h)
        exact ⟨b :: l₁, l₂, rfl, by simp [hcount]⟩
    · obtain ⟨l₁, l₂, rfl, hcount⟩ := ih (n := n) (by simpa [List.count_cons_of_ne hb] using h)
      exact ⟨b :: l₁, l₂, rfl, by simp [List.count_cons_of_ne hb, hcount]⟩

/-- When the line is cut before `x` and the front part goes to the end, those behind `x` come
nearer to the front. -/
theorem idxOf_turn {α : Type*} [DecidableEq α] {l₁ l₂ : List α} {x a : α}
    (hn : (l₁ ++ x :: l₂).Nodup) (ha : a ∈ l₂) :
    (l₂ ++ l₁).idxOf a + 1 ≤ (l₁ ++ x :: l₂).idxOf a := by
  have hout : a ∉ l₁ := fun hmem =>
    (List.disjoint_of_nodup_append hn) hmem (List.mem_cons_of_mem x ha)
  have hne : x ≠ a := by
    rintro rfl
    exact (List.nodup_cons.mp (List.nodup_append.mp hn).2.1).1 ha
  rw [List.idxOf_append_of_mem ha, List.idxOf_append_of_notMem hout, List.idxOf_cons_ne _ hne]
  omega

/-- When somebody leaves the line, those behind come nearer to the front. -/
theorem idxOf_filter_le {α : Type*} [DecidableEq α] (l : List α) {q : α → Bool} {a : α}
    (ha : q a = true) : (l.filter q).idxOf a ≤ l.idxOf a := by
  induction l with
  | nil => simp
  | cons b l ih =>
    by_cases hb : b = a
    · subst hb
      simp [ha]
    · by_cases hq : q b = true
      · rw [List.filter_cons_of_pos hq, List.idxOf_cons_ne _ hb, List.idxOf_cons_ne _ hb]
        omega
      · rw [List.filter_cons_of_neg hq, List.idxOf_cons_ne _ hb]
        omega

end GatOS.Transition
