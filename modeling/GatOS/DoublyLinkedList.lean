import Mathlib.Data.List.Chain
import Mathlib.Data.List.Induction
import GatOS.LinkedRing

/-!
# Doubly linked lists

A list whose nodes know the node behind them and the node before them; both directions end in
`null`. Nodes are added and taken away at the end.
-/
namespace GatOS.DoublyLinkedList
open LinkedRing

variable {α : Type*} {next next' prev prev' : α → α} {null a : α}

structure IsList (next prev : α → α) (null a : α) (l : List α) : Prop where
  forward : Chain next a l null
  backward : ∃ z, Chain prev z l.reverse null
  nodup : l.Nodup
  null_notMem : null ∉ l

/-- What following `next` from `a` visits. -/
inductive Visits (next : α → α) (null a : α) : α → Prop
  | first : a ≠ null → Visits next null a a
  | next {b} : Visits next null a b → next b ≠ null → Visits next null a (next b)

theorem visits_iff_of_chain {b : α} {l : List α} (h : Chain next a l null) (hnull : null ∉ l) :
    Visits next null a b ↔ b ∈ l := by
  constructor
  · intro hv
    induction hv with
    | first ha =>
      cases l with
      | nil => exact absurd h ha
      | cons x l =>
        rw [h.1]
        exact List.mem_cons_self
    | next _ hne ih =>
      obtain ⟨l₁, l₂, heq⟩ := h.next_spec ih hne
      rw [heq]
      simp
  · intro hb
    obtain ⟨l₁, l₂, rfl⟩ := List.append_of_mem hb
    induction l₁ using List.reverseRecOn generalizing b l₂ with
    | nil =>
      obtain ⟨rfl, -⟩ := h
      exact Visits.first fun ha => hnull (ha ▸ hb)
    | append_singleton l₁ c ih =>
      rw [List.append_assoc] at h hb hnull
      have hvisit := ih (b :: l₂) h hnull (by simp)
      have hnext := Chain.next_eq h
      rw [← hnext]
      exact hvisit.next fun he => hnull (by simp [← hnext.symm.trans he])

section

variable {l m : List α}

theorem isList_nil : IsList next prev null null [] :=
  ⟨rfl, ⟨null, rfl⟩, List.nodup_nil, List.not_mem_nil⟩

theorem isList_singleton (ha : a ≠ null) (hnext : next a = null) (hprev : prev a = null) :
    IsList next prev null a [a] :=
  ⟨⟨rfl, hnext⟩, ⟨a, rfl, hprev⟩, List.nodup_singleton a,
    fun hmem => ha (List.mem_singleton.mp hmem).symm⟩

theorem IsList.eq_nil_iff (h : IsList next prev null a l) : l = [] ↔ a = null := by
  cases l with
  | nil => exact iff_of_true rfl h.forward
  | cons x l =>
    obtain ⟨rfl, -⟩ := h.forward
    exact iff_of_false (List.cons_ne_nil a l) fun ha =>
      h.null_notMem (ha ▸ List.mem_cons_self)

/-- Neighbours are linked in both directions. -/
theorem IsList.links {b c : α} (h : IsList next prev null a (l ++ b :: c :: m)) :
    next b = c ∧ prev c = b := by
  obtain ⟨z, hback⟩ := h.backward
  simp only [List.reverse_append, List.reverse_cons, List.append_assoc, List.cons_append,
    List.nil_append] at hback
  obtain ⟨e, -, -, hprev, -⟩ := chain_append.mp hback
  exact ⟨h.forward.next_eq, hprev⟩

theorem IsList.next_last {x : α} (h : IsList next prev null a (l ++ [x])) : next x = null :=
  h.forward.next_last

theorem IsList.prev_first {x : α} (h : IsList next prev null a (x :: l)) : prev x = null := by
  obtain ⟨z, hback⟩ := h.backward
  rw [List.reverse_cons] at hback
  obtain ⟨e, -, -, hprev⟩ := chain_append.mp hback
  exact hprev

/-- The node behind a node is its neighbour in the list. -/
theorem IsList.next_spec {b : α} (h : IsList next prev null a l) (hb : b ∈ l)
    (hnext : next b ≠ null) : ∃ l₁ l₂, l = l₁ ++ b :: next b :: l₂ :=
  h.forward.next_spec hb hnext

/-- The node before a node is its neighbour in the list. -/
theorem IsList.prev_spec {b : α} (h : IsList next prev null a l) (hb : b ∈ l)
    (hprev : prev b ≠ null) : ∃ l₁ l₂, l = l₁ ++ prev b :: b :: l₂ := by
  obtain ⟨l₁, l₂, rfl⟩ := List.append_of_mem hb
  induction l₁ using List.reverseRecOn with
  | nil => exact absurd h.prev_first hprev
  | append_singleton l₁ c =>
    rw [List.append_assoc] at h ⊢
    obtain ⟨-, hc⟩ := h.links
    exact ⟨l₁, l₂, by rw [hc]; rfl⟩

theorem IsList.next_ne {b : α} (h : IsList next prev null a l) (hb : b ∈ l) : next b ≠ b :=
  h.forward.next_ne h.null_notMem hb

theorem IsList.prev_ne {b : α} (h : IsList next prev null a l) (hb : b ∈ l) : prev b ≠ b := by
  intro he
  have hnull : prev b ≠ null := fun hnull => h.null_notMem (hnull ▸ he.symm ▸ hb)
  obtain ⟨l₁, l₂, rfl⟩ := h.prev_spec hb hnull
  have hnodup := (List.nodup_append.mp h.nodup).2.1
  rw [he] at hnodup
  simp at hnodup

/-- Behind a node with a `null` link there is none. -/
theorem IsList.eq_nil_behind {b : α} (h : IsList next prev null a (l ++ b :: m))
    (hnext : next b = null) : m = [] := by
  cases m with
  | nil => rfl
  | cons c m =>
    obtain ⟨hc, -⟩ := h.links
    have hmem : null ∈ l ++ b :: c :: m := by simp [← hc.symm.trans hnext]
    exact absurd hmem h.null_notMem

/-- The node without a node behind it is the last one. -/
theorem IsList.eq_concat {b : α} (h : IsList next prev null a l) (hb : b ∈ l)
    (hnext : next b = null) : ∃ l', l = l' ++ [b] := by
  obtain ⟨l₁, l₂, rfl⟩ := List.append_of_mem hb
  rw [h.eq_nil_behind hnext]
  exact ⟨l₁, rfl⟩

theorem IsList.isChain (h : IsList next prev null a l) :
    l.IsChain fun b c => next b = c ∧ prev c = b := by
  rw [List.isChain_iff_forall_rel_of_append_cons_cons]
  rintro b c l₁ l₂ rfl
  exact h.links

theorem IsList.prev_next {b : α} (h : IsList next prev null a l) (hb : b ∈ l)
    (hnext : next b ≠ null) : prev (next b) = b := by
  obtain ⟨l₁, l₂, rfl⟩ := h.next_spec hb hnext
  exact h.links.2

theorem IsList.visits_iff {b : α} (h : IsList next prev null a l) :
    Visits next null a b ↔ b ∈ l := visits_iff_of_chain h.forward h.null_notMem

/-- A list only reads the links of its nodes. -/
theorem IsList.congr (h : IsList next prev null a l) (hnext : ∀ x ∈ l, next' x = next x)
    (hprev : ∀ x ∈ l, prev' x = prev x) : IsList next' prev' null a l := by
  obtain ⟨z, hback⟩ := h.backward
  exact ⟨h.forward.congr hnext, ⟨z, hback.congr fun x hx => hprev x (List.mem_reverse.mp hx)⟩,
    h.nodup, h.null_notMem⟩

/-- A node `y` is put behind the last node `x`. -/
theorem IsList.push {x y : α} (h : IsList next prev null a (l ++ [x])) (hy : y ∉ l ++ [x])
    (hne : y ≠ null) (hx : next' x = y) (hlast : next' y = null) (hback : prev' y = x)
    (hnext : ∀ b ∈ l, next' b = next b) (hprev : ∀ b ∈ l ++ [x], prev' b = prev b) :
    IsList next' prev' null a (l ++ [x, y]) := by
  have heq : l ++ [x, y] = l ++ [x] ++ [y] := by simp
  obtain ⟨d, hl, hd, -⟩ := chain_append.mp h.forward
  obtain ⟨z, hchain⟩ := h.backward
  have hz : z = x := by
    rw [List.reverse_append] at hchain
    exact hchain.1
  refine ⟨?_, ⟨y, ?_⟩, ?_, ?_⟩
  · exact chain_append.mpr ⟨d, hl.congr hnext, hd, hx, hlast⟩
  · rw [heq, List.reverse_append]
    subst hz
    refine ⟨rfl, ?_⟩
    rw [hback]
    exact hchain.congr fun b hb => hprev b (List.mem_reverse.mp hb)
  · rw [heq, List.nodup_append]
    refine ⟨h.nodup, List.nodup_singleton y, fun b hb c hc => ?_⟩
    obtain rfl := List.mem_singleton.mp hc
    exact fun he => hy (he ▸ hb)
  · rw [heq, List.mem_append, List.mem_singleton, not_or]
    exact ⟨h.null_notMem, fun he => hne he.symm⟩

/-- The last node is taken away. -/
theorem IsList.pop {x y : α} (h : IsList next prev null a (l ++ [x, y])) (hx : next' x = null)
    (hnext : ∀ b ∈ l, next' b = next b) (hprev : ∀ b ∈ l ++ [x], prev' b = prev b) :
    IsList next' prev' null a (l ++ [x]) := by
  have heq : l ++ [x, y] = l ++ [x] ++ [y] := by simp
  obtain ⟨d, hl, hd, -⟩ := chain_append.mp h.forward
  obtain ⟨z, hchain⟩ := h.backward
  rw [heq, List.reverse_append] at hchain
  refine ⟨?_, ⟨prev y, ?_⟩, ?_, ?_⟩
  · exact chain_append.mpr ⟨d, hl.congr hnext, hd, hx⟩
  · exact hchain.2.congr fun b hb => hprev b (List.mem_reverse.mp hb)
  · have hnodup := h.nodup
    rw [heq] at hnodup
    exact (List.nodup_append.mp hnodup).1
  · have hnull := h.null_notMem
    rw [heq, List.mem_append, not_or] at hnull
    exact hnull.1

end

end GatOS.DoublyLinkedList
