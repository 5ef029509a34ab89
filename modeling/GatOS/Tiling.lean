import Mathlib.Data.List.Forall2
import Mathlib.Data.List.Induction
import Mathlib.Data.Set.Pairwise.Lattice
import Mathlib.Order.CompletePartialOrder
import Mathlib.Order.Interval.Set.Disjoint
import GatOS.LinkedRing

/-!
# Tilings

Pieces of memory that follow each other without gap or overlap: each begins where the one before
it ends. A piece is named by its address, and `len` is its length.
-/
namespace GatOS.Tiling
open LinkedRing

/-- The pieces fill the addresses from `lo` up to `hi`. -/
def Tiles (len : ℕ → ℕ) (lo : ℕ) (l : List ℕ) (hi : ℕ) : Prop :=
  Chain (fun b => b + len b) lo l hi

variable {len len' : ℕ → ℕ} {lo hi : ℕ} {l : List ℕ}

theorem Tiles.le (h : Tiles len lo l hi) : lo ≤ hi := by
  induction l generalizing lo with
  | nil => exact le_of_eq h
  | cons b l ih =>
    obtain ⟨rfl, h⟩ := h
    exact (Nat.le_add_right lo _).trans (ih h)

theorem Tiles.bounds (h : Tiles len lo l hi) {b : ℕ} (hb : b ∈ l) :
    lo ≤ b ∧ b + len b ≤ hi := by
  induction l generalizing lo with
  | nil => exact absurd hb List.not_mem_nil
  | cons c l ih =>
    obtain ⟨rfl, h⟩ := h
    rcases List.mem_cons.mp hb with rfl | hb
    · exact ⟨le_rfl, Tiles.le h⟩
    · obtain ⟨hlo, hhi⟩ := ih h hb
      exact ⟨(Nat.le_add_right lo _).trans hlo, hhi⟩

/-- There is no gap between the pieces. -/
theorem Tiles.cover (h : Tiles len lo l hi) {x : ℕ} (hlo : lo ≤ x) (hhi : x < hi) :
    ∃ b ∈ l, b ≤ x ∧ x < b + len b := by
  induction l generalizing lo with
  | nil =>
    obtain rfl : lo = hi := h
    exact absurd hhi (not_lt.mpr hlo)
  | cons c l ih =>
    obtain ⟨rfl, h⟩ := h
    rcases Nat.lt_or_ge x (lo + len lo) with hlt | hge
    · exact ⟨lo, List.mem_cons_self, hlo, hlt⟩
    · obtain ⟨b, hb, hx⟩ := ih h hge
      exact ⟨b, List.mem_cons_of_mem _ hb, hx⟩

/-- There are no more pieces than addresses. -/
theorem Tiles.length_le (h : Tiles len lo l hi) (hpos : ∀ b ∈ l, 0 < len b) :
    lo + l.length ≤ hi := by
  induction l generalizing lo with
  | nil => exact le_of_eq h
  | cons b l ih =>
    obtain ⟨rfl, h⟩ := h
    have hb := hpos lo List.mem_cons_self
    have hle : lo + len lo + l.length ≤ hi :=
      ih h fun c hc => hpos c (List.mem_cons_of_mem lo hc)
    rw [List.length_cons]
    omega

theorem Tiles.ne_nil (h : Tiles len lo l hi) (hlt : lo < hi) : l ≠ [] := by
  rintro rfl
  exact hlt.ne h

/-- The pieces do not overlap. -/
theorem Tiles.pairwise (h : Tiles len lo l hi) :
    l.Pairwise fun b c => Disjoint (Set.Ico b (b + len b)) (Set.Ico c (c + len c)) := by
  induction l generalizing lo with
  | nil => exact List.Pairwise.nil
  | cons b l ih =>
    obtain ⟨rfl, h⟩ := h
    refine List.Pairwise.cons (fun c hc => ?_) (ih h)
    have hle := (Tiles.bounds h hc).1
    exact Set.Ico_disjoint_Ico.mpr ((min_le_left _ _).trans (hle.trans (le_max_right _ _)))

theorem Tiles.congr (h : Tiles len lo l hi) (heq : ∀ b ∈ l, len' b = len b) :
    Tiles len' lo l hi :=
  Chain.congr h fun b hb => by rw [heq b hb]

theorem tiles_concat {x : ℕ} :
    Tiles len lo (l ++ [x]) hi ↔ Tiles len lo l x ∧ x + len x = hi := by
  rw [Tiles, chain_append]
  constructor
  · rintro ⟨c, hl, rfl, hlast⟩
    exact ⟨hl, hlast⟩
  · rintro ⟨hl, hlast⟩
    exact ⟨x, hl, rfl, hlast⟩

theorem tiles_pair {x y : ℕ} :
    Tiles len lo (l ++ [x, y]) hi ↔ Tiles len lo l x ∧ x + len x = y ∧ y + len y = hi := by
  have heq : l ++ [x, y] = l ++ [x] ++ [y] := by simp
  rw [heq, tiles_concat, tiles_concat, and_assoc]

/-- The last piece is cut in two. -/
theorem Tiles.split {x y : ℕ} (h : Tiles len lo (l ++ [x]) hi) (hl : ∀ b ∈ l, len' b = len b)
    (hx : x + len' x = y) (hy : len' x + len' y = len x) : Tiles len' lo (l ++ [x, y]) hi := by
  obtain ⟨hfirst, hlast⟩ := tiles_concat.mp h
  exact tiles_pair.mpr ⟨hfirst.congr hl, hx, by omega⟩

/-- The last two pieces become one. -/
theorem Tiles.join {x y : ℕ} (h : Tiles len lo (l ++ [x, y]) hi)
    (hl : ∀ b ∈ l, len' b = len b) (hx : len' x = len x + len y) :
    Tiles len' lo (l ++ [x]) hi := by
  obtain ⟨hfirst, hmid, hlast⟩ := tiles_pair.mp h
  exact tiles_concat.mpr ⟨hfirst.congr hl, by omega⟩

/-! ### Pieces in any order -/

section Pieces

variable {ι α : Type*} {s : Set ι} {f g : ι → Set α} {x y : ι}

/-- The piece `x` is cut in two, and `y` names the second part. -/
theorem pairwiseDisjoint_cut (h : s.PairwiseDisjoint f) (hx : x ∈ s)
    (hparts : Disjoint (g x) (g y)) (hunion : g x ∪ g y = f x)
    (hother : ∀ b ∈ s, b ≠ x → g b = f b) : (insert y s).PairwiseDisjoint g := by
  have hsub : ∀ b ∈ s, g b ⊆ f b := fun b hb => by
    by_cases hbx : b = x
    · rw [hbx, ← hunion]
      exact Set.subset_union_left
    · exact (hother b hb hbx).subset
  have hy : g y ⊆ f x := by
    rw [← hunion]
    exact Set.subset_union_right
  rw [Set.pairwiseDisjoint_insert]
  refine ⟨h.mono_on hsub, fun b hb _ => ?_⟩
  by_cases hbx : b = x
  · rw [hbx]
    exact hparts.symm
  · exact (h hx hb (Ne.symm hbx)).mono hy (hsub b hb)

theorem biUnion_cut (hx : x ∈ s) (hunion : g x ∪ g y = f x)
    (hother : ∀ b ∈ s, b ≠ x → g b = f b) : ⋃ b ∈ insert y s, g b = ⋃ b ∈ s, f b := by
  rw [Set.biUnion_insert, ← Set.insert_sdiff_self_of_mem hx, Set.biUnion_insert,
    Set.biUnion_insert, ← Set.union_assoc, Set.union_comm (g y), hunion]
  congr 1
  exact Set.iUnion₂_congr fun b hb => hother b hb.1 hb.2

/-- The piece `x` takes the piece `y` in. -/
theorem pairwiseDisjoint_join (h : s.PairwiseDisjoint f) (hx : x ∈ s) (hy : y ∈ s)
    (hunion : g x = f x ∪ f y) (hother : ∀ b ∈ s, b ≠ x → b ≠ y → g b = f b) :
    (s \ {y}).PairwiseDisjoint g := by
  have happart : ∀ b ∈ s, b ≠ x → b ≠ y → Disjoint (g x) (g b) := fun b hb hbx hby => by
    rw [hunion, hother b hb hbx hby]
    exact (h hx hb (Ne.symm hbx)).union_left (h hy hb (Ne.symm hby))
  intro b hb c hc hbc
  have hby : b ≠ y := hb.2
  have hcy : c ≠ y := hc.2
  by_cases hbx : b = x
  · subst hbx
    exact happart c hc.1 (Ne.symm hbc) hcy
  by_cases hcx : c = x
  · subst hcx
    exact (happart b hb.1 hbc hby).symm
  · show Disjoint (g b) (g c)
    rw [hother b hb.1 hbx hby, hother c hc.1 hcx hcy]
    exact h hb.1 hc.1 hbc

end Pieces

/-! ### Several regions -/

/-- Regions have at least one address and do not overlap. -/
structure Separate (regions : List (ℕ × ℕ)) : Prop where
  nonempty : ∀ r ∈ regions, r.1 < r.2
  apart : regions.Pairwise fun r r' => r.2 ≤ r'.1 ∨ r'.2 ≤ r.1

/-- The list runs through the regions in their order and tiles each of them. -/
def Fills (len : ℕ → ℕ) (regions : List (ℕ × ℕ)) (l : List ℕ) : Prop :=
  ∃ parts, List.Forall₂ (fun r part => Tiles len r.1 part r.2) regions parts ∧ parts.flatten = l

section Regions

variable {regions : List (ℕ × ℕ)}

theorem fills_nil : Fills len [] [] := ⟨[], List.Forall₂.nil, rfl⟩

theorem exists_of_forall₂ {α β : Type*} {R : α → β → Prop} {l : List α} {m : List β}
    (h : List.Forall₂ R l m) {y : β} (hy : y ∈ m) : ∃ x ∈ l, R x y := by
  induction h with
  | nil => exact absurd hy List.not_mem_nil
  | cons hR _ ih =>
    rcases List.mem_cons.mp hy with rfl | hy
    · exact ⟨_, List.mem_cons_self, hR⟩
    · obtain ⟨x, hx, hxy⟩ := ih hy
      exact ⟨x, List.mem_cons_of_mem _ hx, hxy⟩

/-- Every piece lies inside one region. -/
theorem Fills.region (h : Fills len regions l) {b : ℕ} (hb : b ∈ l) :
    ∃ r ∈ regions, r.1 ≤ b ∧ b + len b ≤ r.2 := by
  obtain ⟨parts, hparts, rfl⟩ := h
  obtain ⟨part, hpart, hmem⟩ := List.mem_flatten.mp hb
  obtain ⟨r, hr, htiles⟩ := exists_of_forall₂ hparts hpart
  exact ⟨r, hr, htiles.bounds hmem⟩

/-- Every region is tiled by consecutive pieces of the list. -/
theorem Fills.part (h : Fills len regions l) {r : ℕ × ℕ} (hr : r ∈ regions) :
    ∃ part, part <:+: l ∧ Tiles len r.1 part r.2 := by
  obtain ⟨parts, hparts, rfl⟩ := h
  obtain ⟨part, hpart, htiles⟩ := exists_of_forall₂ hparts.flip hr
  exact ⟨part, List.infix_of_mem_flatten hpart, htiles⟩

/-- No two pieces of the list overlap. -/
theorem Fills.pairwise (h : Fills len regions l) (hsep : Separate regions) :
    l.Pairwise fun b c => Disjoint (Set.Ico b (b + len b)) (Set.Ico c (c + len c)) := by
  obtain ⟨parts, hparts, rfl⟩ := h
  rw [List.pairwise_flatten]
  constructor
  · intro part hpart
    obtain ⟨r, -, htiles⟩ := exists_of_forall₂ hparts hpart
    exact htiles.pairwise
  · have hapart := hsep.apart
    clear hsep
    induction hparts with
    | nil => exact List.Pairwise.nil
    | cons htiles hrest ih =>
      obtain ⟨hfirst, hapart⟩ := List.pairwise_cons.mp hapart
      refine List.Pairwise.cons (fun part hpart b hb c hc => ?_) (ih hapart)
      obtain ⟨r', hr', htiles'⟩ := exists_of_forall₂ hrest hpart
      have h1 := htiles.bounds hb
      have h2 := htiles'.bounds hc
      rw [Set.Ico_disjoint_Ico]
      have := hfirst r' hr'
      omega

theorem Fills.congr (h : Fills len regions l) (heq : ∀ b ∈ l, len' b = len b) :
    Fills len' regions l := by
  obtain ⟨parts, hparts, rfl⟩ := h
  refine ⟨parts, ?_, rfl⟩
  induction hparts with
  | nil => exact List.Forall₂.nil
  | cons htiles _ ih =>
    rw [List.flatten_cons] at heq
    exact List.Forall₂.cons (htiles.congr fun b hb => heq b (List.mem_append_left _ hb))
      (ih fun b hb => heq b (List.mem_append_right _ hb))

theorem Fills.append {regions' : List (ℕ × ℕ)} {m : List ℕ} (h : Fills len regions l)
    (h' : Fills len regions' m) : Fills len (regions ++ regions') (l ++ m) := by
  obtain ⟨parts, hparts, rfl⟩ := h
  obtain ⟨parts', hparts', rfl⟩ := h'
  exact ⟨parts ++ parts', List.rel_append hparts hparts', by rw [List.flatten_append]⟩

theorem fills_singleton : Fills len [(lo, hi)] l ↔ Tiles len lo l hi := by
  constructor
  · rintro ⟨parts, hparts, rfl⟩
    cases hparts with
    | cons htiles hnil =>
      cases hnil
      simpa using htiles
  · exact fun h => ⟨[l], List.Forall₂.cons h List.Forall₂.nil, by simp⟩

/-- The last piece belongs to the last region. -/
theorem Fills.last {x : ℕ} (h : Fills len regions (l ++ [x]))
    (hne : ∀ r ∈ regions, r.1 < r.2) :
    ∃ rs lo hi m p, regions = rs ++ [(lo, hi)] ∧ l = m ++ p ∧ Fills len rs m ∧
      Tiles len lo (p ++ [x]) hi := by
  obtain ⟨parts, hparts, hflat⟩ := h
  induction hparts generalizing l with
  | nil => exact absurd hflat.symm (by simp)
  | @cons r part rs parts htiles hrest ih =>
    rcases List.eq_nil_or_concat parts.flatten with hnil | ⟨l', y, hconcat⟩
    · -- the first region is the last one
      obtain rfl : rs = [] := by
        cases hrest with
        | nil => rfl
        | cons htiles' _ =>
          rw [List.flatten_cons, List.append_eq_nil_iff] at hnil
          exact absurd hnil.1 (htiles'.ne_nil (hne _ (by simp)))
      rw [List.flatten_cons, hnil, List.append_nil] at hflat
      exact ⟨[], r.1, r.2, [], l, rfl, rfl, fills_nil, hflat ▸ htiles⟩
    · rw [List.concat_eq_append] at hconcat
      rw [List.flatten_cons, hconcat, ← List.append_assoc] at hflat
      obtain ⟨rfl, hxy⟩ := List.append_inj' hflat rfl
      obtain rfl := List.singleton_inj.mp hxy
      obtain ⟨rs', lo, hi, m, p, rfl, rfl, hfills, hlast⟩ :=
        ih (fun r hr => hne r (List.mem_cons_of_mem _ hr)) hconcat
      refine ⟨r :: rs', lo, hi, part ++ m, p, rfl, by rw [List.append_assoc], ?_, hlast⟩
      exact (fills_singleton.mpr htiles).append hfills

/-- The last piece is cut in two. -/
theorem Fills.split {x y : ℕ} (h : Fills len regions (l ++ [x])) (hsep : Separate regions)
    (hl : ∀ b ∈ l, len' b = len b) (hx : x + len' x = y) (hy : len' x + len' y = len x) :
    Fills len' regions (l ++ [x, y]) := by
  obtain ⟨rs, lo, hi, m, p, rfl, rfl, hfills, hlast⟩ := h.last hsep.nonempty
  rw [List.append_assoc]
  refine (hfills.congr fun b hb => hl b (List.mem_append_left _ hb)).append ?_
  exact fills_singleton.mpr
    (hlast.split (fun b hb => hl b (List.mem_append_right _ hb)) hx hy)

/-- The last two pieces become one; the second is not the first of its region. -/
theorem Fills.join {x y : ℕ} (h : Fills len regions (l ++ [x, y])) (hsep : Separate regions)
    (hfirst : ∀ r ∈ regions, r.1 ≠ y) (hl : ∀ b ∈ l, len' b = len b)
    (hx : len' x = len x + len y) : Fills len' regions (l ++ [x]) := by
  have heq : l ++ [x, y] = l ++ [x] ++ [y] := by simp
  rw [heq] at h
  obtain ⟨rs, lo, hi, m, p, rfl, hparts, hfills, hlast⟩ := h.last hsep.nonempty
  rcases List.eq_nil_or_concat p with rfl | ⟨p', z, rfl⟩
  · obtain ⟨hempty, -⟩ := tiles_concat.mp hlast
    exact absurd hempty (hfirst (lo, hi) (by simp))
  · rw [List.concat_eq_append, ← List.append_assoc] at hparts
    obtain ⟨rfl, hxz⟩ := List.append_inj' hparts rfl
    obtain rfl := List.singleton_inj.mp hxz
    rw [List.append_assoc]
    refine (hfills.congr fun b hb => hl b (List.mem_append_left _ hb)).append ?_
    refine fills_singleton.mpr
      (Tiles.join ?_ (fun b hb => hl b (List.mem_append_right _ hb)) hx)
    rwa [List.concat_eq_append, List.append_assoc] at hlast

end Regions

end GatOS.Tiling
