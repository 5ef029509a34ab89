import Mathlib.Data.List.Iterate
import Mathlib.Data.List.Nodup
import Mathlib.Logic.Function.Iterate

/-!
# Singly linked rings

A memory of links is a function `next`. A chain lists the nodes that following the links
visits; a ring is a chain that comes back to its first node and visits no node twice.
-/
namespace GatOS.LinkedRing

variable {α : Type*} {next next' : α → α}

/-- Following `next` from `a` visits the nodes of the list and arrives at `b`. -/
def Chain (next : α → α) : α → List α → α → Prop
  | a, [], b => a = b
  | a, x :: l, b => a = x ∧ Chain next (next x) l b

@[simp] theorem chain_nil {a b : α} : Chain next a [] b ↔ a = b := Iff.rfl

@[simp] theorem chain_cons {a b x : α} {l : List α} :
    Chain next a (x :: l) b ↔ a = x ∧ Chain next (next x) l b := Iff.rfl

theorem chain_append {a b : α} {l m : List α} :
    Chain next a (l ++ m) b ↔ ∃ c, Chain next a l c ∧ Chain next c m b := by
  induction l generalizing a with
  | nil => simp
  | cons x l ih => simp [ih, and_assoc]

/-- A chain only reads the links of the nodes it visits. -/
theorem Chain.congr {a b : α} {l : List α} (h : Chain next a l b)
    (heq : ∀ x ∈ l, next' x = next x) : Chain next' a l b := by
  induction l generalizing a with
  | nil => exact h
  | cons x l ih =>
    obtain ⟨rfl, h⟩ := h
    refine ⟨rfl, ?_⟩
    rw [heq a List.mem_cons_self]
    exact ih h fun y hy => heq y (List.mem_cons_of_mem a hy)

/-- A chain is what iterating `next` visits. -/
theorem chain_iff_iterate {a b : α} {l : List α} :
    Chain next a l b ↔ l = List.iterate next a l.length ∧ next^[l.length] a = b := by
  induction l generalizing a with
  | nil => simp
  | cons x l ih =>
    simp only [chain_cons, List.length_cons, List.iterate, List.cons.injEq,
      Function.iterate_succ_apply]
    constructor
    · rintro ⟨rfl, h⟩
      exact ⟨⟨rfl, (ih.mp h).1⟩, (ih.mp h).2⟩
    · rintro ⟨⟨rfl, h1⟩, h2⟩
      exact ⟨rfl, ih.mpr ⟨h1, h2⟩⟩

theorem Chain.eq_iterate {a b : α} {l : List α} (h : Chain next a l b) :
    l = List.iterate next a l.length := (chain_iff_iterate.mp h).1

theorem Chain.iterate_length {a b : α} {l : List α} (h : Chain next a l b) :
    next^[l.length] a = b := (chain_iff_iterate.mp h).2

/-- The links form a ring through the nodes of the list, the first of which is `a`. -/
structure IsRing (next : α → α) (a : α) (l : List α) : Prop where
  chain : Chain next a l a
  ne_nil : l ≠ []
  nodup : l.Nodup

theorem IsRing.eq_cons {a : α} {l : List α} (h : IsRing next a l) : ∃ m, l = a :: m := by
  obtain ⟨h1, h2, -⟩ := h
  cases l with
  | nil => exact absurd rfl h2
  | cons x m =>
    obtain ⟨rfl, -⟩ := h1
    exact ⟨m, rfl⟩

theorem isRing_singleton {a : α} (h : next a = a) : IsRing next a [a] :=
  ⟨⟨rfl, h⟩, by simp, List.nodup_singleton a⟩

/-- A ring can be entered at any of its nodes. -/
theorem IsRing.rotate {a x : α} {l m : List α} (h : IsRing next a (l ++ x :: m)) :
    IsRing next x (x :: m ++ l) := by
  obtain ⟨h1, -, h3⟩ := h
  obtain ⟨c, hl, rfl, hm⟩ := chain_append.mp h1
  refine ⟨chain_append.mpr ⟨a, ⟨rfl, hm⟩, hl⟩, by simp, ?_⟩
  exact List.nodup_append_comm.mp h3

/-- Starting one node later visits the same nodes, the first one at the end. -/
theorem IsRing.tail {a : α} {l : List α} (h : IsRing next a (a :: l)) :
    Chain next (next a) (l ++ [a]) (next a) := by
  obtain ⟨⟨-, h1⟩, -, -⟩ := h
  exact chain_append.mpr ⟨a, h1, rfl, rfl⟩

/-- A node `p` is put behind node `a`. -/
theorem IsRing.insert {a p : α} {l : List α} (h : IsRing next a (a :: l)) (hp : p ∉ a :: l)
    (hother : ∀ x, x ≠ a → x ≠ p → next' x = next x) (ha : next' a = p)
    (hnext : next' p = next a) : IsRing next' a (a :: p :: l) := by
  obtain ⟨⟨-, hchain⟩, -, hnodup⟩ := h
  rw [List.mem_cons, not_or] at hp
  have hal := (List.nodup_cons.mp hnodup).1
  refine ⟨⟨rfl, ha, ?_⟩, by simp, ?_⟩
  · rw [hnext]
    refine hchain.congr fun x hx => hother x ?_ ?_
    · rintro rfl
      exact hal hx
    · rintro rfl
      exact hp.2 hx
  · refine List.nodup_cons.mpr ⟨?_, List.nodup_cons.mpr ⟨hp.2, (List.nodup_cons.mp hnodup).2⟩⟩
    rw [List.mem_cons, not_or]
    exact ⟨fun he => hp.1 he.symm, hal⟩

theorem Chain.next_eq {a b x y : α} {l m : List α} (h : Chain next a (l ++ x :: y :: m) b) :
    next x = y := by
  obtain ⟨c, -, -, hnext, -⟩ := chain_append.mp h
  exact hnext

theorem Chain.next_last {a b x : α} {l : List α} (h : Chain next a (l ++ [x]) b) :
    next x = b := by
  obtain ⟨c, -, -, hnext⟩ := chain_append.mp h
  exact hnext

/-- The node behind a node is its neighbour in the chain. -/
theorem Chain.next_spec {a b x : α} {l : List α} (h : Chain next a l b) (hx : x ∈ l)
    (hne : next x ≠ b) : ∃ l₁ l₂, l = l₁ ++ x :: next x :: l₂ := by
  obtain ⟨l₁, l₂, rfl⟩ := List.append_of_mem hx
  cases l₂ with
  | nil => exact absurd h.next_last hne
  | cons y l₂ => exact ⟨l₁, l₂, by rw [h.next_eq]⟩

/-- The first node and the links decide which nodes a chain visits on its way to `b`. -/
theorem Chain.unique {a b : α} {l m : List α} (h : Chain next a l b) (g : Chain next a m b)
    (hl : b ∉ l) (hm : b ∉ m) : l = m := by
  induction l generalizing a m with
  | nil =>
    cases m with
    | nil => rfl
    | cons y m => exact absurd (by rw [← g.1, h]; exact List.mem_cons_self) hm
  | cons x l ih =>
    obtain ⟨rfl, h⟩ := h
    cases m with
    | nil => exact absurd (by rw [← show a = b from g]; exact List.mem_cons_self) hl
    | cons y m =>
      obtain ⟨rfl, g⟩ := g
      rw [ih h g (fun hb => hl (List.mem_cons_of_mem a hb))
        fun hb => hm (List.mem_cons_of_mem a hb)]

/-- No node is visited twice on the way to a node that is not visited. -/
theorem Chain.nodup {a b : α} {l : List α} (h : Chain next a l b) (hb : b ∉ l) : l.Nodup := by
  induction l generalizing a with
  | nil => exact List.nodup_nil
  | cons x l ih =>
    obtain ⟨rfl, h⟩ := h
    have hl : b ∉ l := fun hmem => hb (List.mem_cons_of_mem a hmem)
    refine List.nodup_cons.mpr ⟨fun hmem => ?_, ih h hl⟩
    obtain ⟨l₁, l₂, rfl⟩ := List.append_of_mem hmem
    obtain ⟨c, -, rfl, h2⟩ := chain_append.mp h
    -- from the second visit on the chain is the same as from the first
    have heq : l₁ ++ c :: l₂ = l₂ := h.unique h2 hl fun hmem => hl (by simp [hmem])
    have hlen := congrArg List.length heq
    rw [List.length_append, List.length_cons] at hlen
    omega

theorem Chain.next_ne {a b x : α} {l : List α} (h : Chain next a l b) (hb : b ∉ l) (hx : x ∈ l) :
    next x ≠ x := by
  intro he
  obtain ⟨l₁, l₂, rfl⟩ := h.next_spec hx fun hlast => hb (hlast ▸ he.symm ▸ hx)
  have hnodup := (List.nodup_append.mp (h.nodup hb)).2.1
  rw [he] at hnodup
  simp at hnodup

/-- A node `y` is put behind node `x` of a chain. -/
theorem Chain.link {a b x y : α} {l m : List α} (h : Chain next a (l ++ x :: m) b)
    (hl : ∀ z ∈ l, next' z = next z) (hm : ∀ z ∈ m, next' z = next z) (hx : next' x = y)
    (hy : next' y = next x) : Chain next' a (l ++ x :: y :: m) b := by
  obtain ⟨c, hfirst, rfl, hrest⟩ := chain_append.mp h
  refine chain_append.mpr ⟨c, hfirst.congr hl, rfl, hx, ?_⟩
  rw [hy]
  exact hrest.congr hm

/-- Node `x` is taken out of a chain: its predecessor `p` is linked to its successor. -/
theorem Chain.unlink {a b p x : α} {l m : List α} (h : Chain next a (l ++ p :: x :: m) b)
    (hnodup : (l ++ p :: x :: m).Nodup) (hother : ∀ y, y ≠ p → y ≠ x → next' y = next y)
    (hp : next' p = next x) : Chain next' a (l ++ p :: m) b := by
  obtain ⟨c, hl, rfl, rfl, hm⟩ := chain_append.mp h
  obtain ⟨-, hnodup', hdisj⟩ := List.nodup_append.mp hnodup
  obtain ⟨hcm, hnodup''⟩ := List.nodup_cons.mp hnodup'
  have hxm := (List.nodup_cons.mp hnodup'').1
  refine chain_append.mpr ⟨c, hl.congr fun y hy => hother y ?_ ?_, rfl, ?_⟩
  · exact hdisj y hy c List.mem_cons_self
  · exact hdisj y hy _ (List.mem_cons_of_mem _ List.mem_cons_self)
  · rw [hp]
    exact hm.congr fun y hy => hother y (fun he => hcm (he ▸ List.mem_cons_of_mem _ hy))
      fun he => hxm (he ▸ hy)

end GatOS.LinkedRing
