import GatOS.Mutex

/-!
# Tables of names

A table whose entries are closed or open under a name. The search of a name ends at the first entry
that has it or is closed, and opens that one.
-/
namespace GatOS.NameTable
open Sync

variable {N : Type*} [DecidableEq N]

/-- The entries of the table are those from 0 to `n - 1`; `none` is closed. -/
def slot (n : ℕ) (names : ℤ → Option N) (name : N) : Option ℤ :=
  firstIndex n fun k => (names k).isNone || names k = some name

/-- The table after the name was opened. -/
def opened (n : ℕ) (names : ℤ → Option N) (name : N) : ℤ → Option N :=
  match slot n names name with
  | none => names
  | some k => Function.update names k (some name)

/-- A name is open in one place. -/
def Unique (names : ℤ → Option N) : Prop :=
  ∀ i j name, names i = some name → names j = some name → i = j

/-- No entry in front of an entry with the name is closed. -/
def Reached (names : ℤ → Option N) (name : N) : Prop :=
  ∀ k, names k = some name → ∀ j, 0 ≤ j → j < k → names j ≠ none

def InRange (n : ℕ) (names : ℤ → Option N) : Prop := ∀ k, names k ≠ none → 0 ≤ k ∧ k < n

section

variable {n : ℕ} {names names' : ℤ → Option N} {name : N} {k : ℤ}

omit [DecidableEq N] in
theorem Unique.mono (h : Unique names) (hsub : ∀ k x, names' k = some x → names k = some x) :
    Unique names' :=
  fun i j x hi hj => h i j x (hsub i x hi) (hsub j x hj)

theorem slot_cases (h : slot n names name = some k) : names k = none ∨ names k = some name := by
  obtain ⟨-, -, hk⟩ := firstIndex_spec h
  simpa using hk

theorem slot_before (h : slot n names name = some k) {j : ℤ} (hj : 0 ≤ j) (hjk : j < k) :
    names j ≠ none ∧ names j ≠ some name := by
  simpa [← Option.isSome_iff_ne_none] using firstIndex_least h hj hjk

theorem slot_isSome (hk : names k = some name) (hrange : InRange n names) :
    (slot n names name).isSome := by
  obtain ⟨h0, hlt⟩ := hrange k (by simp [hk])
  exact firstIndex_isSome.mpr ⟨k, h0, hlt, by simp [hk]⟩

/-- The search finds the entry of a name that it can reach. -/
theorem slot_eq (h : Unique names) (hrange : InRange n names) (hreached : Reached names name)
    (hk : names k = some name) : slot n names name = some k := by
  obtain ⟨i, hi⟩ := Option.isSome_iff_exists.mp (slot_isSome hk hrange)
  rcases slot_cases hi with hnone | hsome
  · obtain ⟨h0, -, -⟩ := firstIndex_spec hi
    have hki : k ≤ i := by
      by_contra hlt
      exact hreached k hk i h0 (by omega) hnone
    rcases hki.lt_or_eq with hlt | rfl
    · exact absurd hk (slot_before hi (hrange k (by simp [hk])).1 hlt).2
    · rw [hk] at hnone
      cases hnone
  · rw [hi, h i k name hsome hk]

theorem Unique.opened (h : Unique names) (hrange : InRange n names)
    (hreached : Reached names name) : Unique (opened n names name) := by
  unfold NameTable.opened
  cases hslot : slot n names name with
  | none => exact h
  | some k =>
    -- an entry that has the name is the one that was found
    have hsame : ∀ j, names j = some name → j = k := fun j hj =>
      Option.some.inj ((slot_eq h hrange hreached hj).symm.trans hslot)
    intro i j x hi hj
    by_cases hik : i = k
    · by_cases hjk : j = k
      · rw [hik, hjk]
      · subst hik
        obtain rfl : name = x := by simpa using hi
        exact (hsame j (by simpa [hjk] using hj)).symm
    · by_cases hjk : j = k
      · subst hjk
        obtain rfl : name = x := by simpa using hj
        exact hsame i (by simpa [hik] using hi)
      · exact h i j x (by simpa [hik] using hi) (by simpa [hjk] using hj)

omit [DecidableEq N] in
theorem reached_iff (hrange : InRange n names) : Reached names name ↔
    ∀ k ∈ List.range n, names (k : ℤ) = some name → ∀ j ∈ List.range k, names (j : ℤ) ≠ none := by
  constructor
  · intro h k _ hk j hj
    exact h k hk j (Int.natCast_nonneg j) (by simpa using hj)
  · intro h k hk j hj hjk
    obtain ⟨h0, hlt⟩ := hrange k (by simp [hk])
    obtain ⟨k, rfl⟩ := Int.eq_ofNat_of_zero_le h0
    obtain ⟨j, rfl⟩ := Int.eq_ofNat_of_zero_le hj
    exact h k (by simpa using hlt) hk j (by simpa using hjk)

/-- Opening a name keeps the names apart and finds the open entry just when no closed entry stands
in front of it. -/
theorem unique_opened_iff (h : Unique names) (hrange : InRange n names) :
    (Unique (opened n names name) ∧ ∀ k, names k = some name → slot n names name = some k) ↔
      Reached names name := by
  constructor
  · rintro ⟨-, hfound⟩ k hk j hj hjk
    exact (slot_before (hfound k hk) hj hjk).1
  · intro hreached
    exact ⟨h.opened hrange hreached, fun k hk => slot_eq h hrange hreached hk⟩

end

end GatOS.NameTable
