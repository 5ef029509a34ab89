import Mathlib.Data.Set.Card
import GatOS.FirstFit

/-!
# Stores of files

A store gives each name at most one file. A file has consecutive blocks of a disk, and its content
fills the first of them.
-/
namespace GatOS.FileStore
open FirstFit

structure File (β : Type*) where
  start : ℕ
  reserved : ℕ
  content : List β

/-- The blocks of a file. -/
def File.area {β : Type*} (f : File β) : ℕ × ℕ := (f.start, f.reserved)

abbrev Store (ν β : Type*) := ν → Option (File β)

namespace Store

section

variable {ν β : Type*} {s : Store ν β} {f g : File β} {name name' : ν} {data : List β}
  {blockSize first last n a : ℕ}

def empty : Store ν β := fun _ => none

/-- The number of files. -/
noncomputable def count (s : Store ν β) : ℕ := Set.ncard {name | s name ≠ none}

/-- `n` blocks from `a` on belong to no file. -/
structure Free (first last n a : ℕ) (s : Store ν β) : Prop where
  first : first ≤ a
  last : a + n ≤ last
  apart : ∀ name f, s name = some f → f.start + f.reserved ≤ a ∨ a + n ≤ f.start

/-- The files have blocks of their own between `first` and `last`, with room for the contents. -/
structure Sound (blockSize first last : ℕ) (s : Store ν β) : Prop where
  first : ∀ name f, s name = some f → first ≤ f.start
  last : ∀ name f, s name = some f → f.start + f.reserved ≤ last
  reserved : ∀ name f, s name = some f → 0 < f.reserved
  content : ∀ name f, s name = some f → f.content.length ≤ f.reserved * blockSize
  apart : ∀ name name' f g, name ≠ name' → s name = some f → s name' = some g →
    Apart f.area g.area

theorem sound_empty : Sound blockSize first last (empty : Store ν β) := by
  constructor
  all_goals intros
  all_goals contradiction

variable [DecidableEq ν]

/-- An empty file. -/
def create (name : ν) (a n : ℕ) (s : Store ν β) : Store ν β :=
  Function.update s name (some ⟨a, n, []⟩)

def write (name : ν) (data : List β) (s : Store ν β) : Store ν β :=
  Function.update s name ((s name).map fun f => { f with content := data })

def delete (name : ν) (s : Store ν β) : Store ν β := Function.update s name none

theorem create_some (h : s.create name a n name' = some f) :
    name' = name ∧ f = ⟨a, n, []⟩ ∨ name' ≠ name ∧ s name' = some f := by
  unfold create at h
  by_cases hname : name' = name
  · rw [hname, Function.update_self] at h
    exact Or.inl ⟨hname, (Option.some.inj h).symm⟩
  · rw [Function.update_of_ne hname] at h
    exact Or.inr ⟨hname, h⟩

theorem write_some (h : s.write name data name' = some g) :
    name' = name ∧ (∃ f, s name = some f ∧ g = { f with content := data }) ∨
      name' ≠ name ∧ s name' = some g := by
  unfold write at h
  by_cases hname : name' = name
  · rw [hname, Function.update_self] at h
    obtain ⟨f, hf, hg⟩ := Option.map_eq_some_iff.mp h
    exact Or.inl ⟨hname, f, hf, hg.symm⟩
  · rw [Function.update_of_ne hname] at h
    exact Or.inr ⟨hname, h⟩

theorem delete_some (h : s.delete name name' = some f) : name' ≠ name ∧ s name' = some f := by
  unfold delete at h
  by_cases hname : name' = name
  · rw [hname, Function.update_self] at h
    cases h
  · rw [Function.update_of_ne hname] at h
    exact ⟨hname, h⟩

/-- A free area becomes a file. -/
theorem Sound.create (h : s.Sound blockSize first last) (hfree : s.Free first last n a)
    (hn : 0 < n) : (s.create name a n).Sound blockSize first last := by
  constructor
  · intro name' f hf
    rcases create_some hf with ⟨-, rfl⟩ | ⟨-, hf⟩
    · exact hfree.first
    · exact h.first _ _ hf
  · intro name' f hf
    rcases create_some hf with ⟨-, rfl⟩ | ⟨-, hf⟩
    · exact hfree.last
    · exact h.last _ _ hf
  · intro name' f hf
    rcases create_some hf with ⟨-, rfl⟩ | ⟨-, hf⟩
    · exact hn
    · exact h.reserved _ _ hf
  · intro name' f hf
    rcases create_some hf with ⟨-, rfl⟩ | ⟨-, hf⟩
    · exact Nat.zero_le _
    · exact h.content _ _ hf
  · intro name₁ name₂ f g hne hf hg
    rcases create_some hf with ⟨h₁, rfl⟩ | ⟨-, hf⟩
    · rcases create_some hg with ⟨h₂, -⟩ | ⟨-, hg⟩
      · exact absurd (h₁.trans h₂.symm) hne
      · exact (hfree.apart _ _ hg).symm
    · rcases create_some hg with ⟨-, rfl⟩ | ⟨-, hg⟩
      · exact hfree.apart _ _ hf
      · exact h.apart _ _ _ _ hne hf hg

/-- A file keeps its blocks when it is written. -/
theorem Sound.write (h : s.Sound blockSize first last) (hf : s name = some f)
    (hroom : data.length ≤ f.reserved * blockSize) :
    (s.write name data).Sound blockSize first last := by
  have hold : ∀ name' g, s.write name data name' = some g →
      ∃ g', s name' = some g' ∧ g.area = g'.area ∧ g.content.length ≤ g.reserved * blockSize := by
    intro name' g hg
    rcases write_some hg with ⟨rfl, f', hf', rfl⟩ | ⟨-, hg⟩
    · obtain rfl := Option.some.inj (hf.symm.trans hf')
      exact ⟨f, hf, rfl, hroom⟩
    · exact ⟨g, hg, rfl, h.content _ _ hg⟩
  constructor
  · intro name' g hg
    obtain ⟨g', hg', harea, -⟩ := hold _ _ hg
    rw [show g.start = g'.start from congrArg Prod.fst harea]
    exact h.first _ _ hg'
  · intro name' g hg
    obtain ⟨g', hg', harea, -⟩ := hold _ _ hg
    rw [show g.start = g'.start from congrArg Prod.fst harea,
      show g.reserved = g'.reserved from congrArg Prod.snd harea]
    exact h.last _ _ hg'
  · intro name' g hg
    obtain ⟨g', hg', harea, -⟩ := hold _ _ hg
    rw [show g.reserved = g'.reserved from congrArg Prod.snd harea]
    exact h.reserved _ _ hg'
  · intro name' g hg
    obtain ⟨-, -, -, hcontent⟩ := hold _ _ hg
    exact hcontent
  · intro name₁ name₂ g₁ g₂ hne hg₁ hg₂
    obtain ⟨g₁', hg₁', harea₁, -⟩ := hold _ _ hg₁
    obtain ⟨g₂', hg₂', harea₂, -⟩ := hold _ _ hg₂
    rw [harea₁, harea₂]
    exact h.apart _ _ _ _ hne hg₁' hg₂'

theorem Sound.delete (h : s.Sound blockSize first last) :
    (s.delete name).Sound blockSize first last where
  first _ _ hf := h.first _ _ (delete_some hf).2
  last _ _ hf := h.last _ _ (delete_some hf).2
  reserved _ _ hf := h.reserved _ _ (delete_some hf).2
  content _ _ hf := h.content _ _ (delete_some hf).2
  apart _ _ _ _ hne hf hg := h.apart _ _ _ _ hne (delete_some hf).2 (delete_some hg).2

end

end Store
end GatOS.FileStore
