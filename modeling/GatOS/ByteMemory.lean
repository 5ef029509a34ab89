import Mathlib.Data.List.Range
import GatOS.MachineInt

/-!
# Integers in a byte memory

A 32-bit `int` is four bytes, the lowest first. Arrays of them may overlap.
-/
namespace GatOS.ByteMemory
open MachineInt

abbrev Bytes := ℕ → BitVec 8

def loadWord (a : ℕ) (m : Bytes) : BitVec 32 := m (a + 3) ++ m (a + 2) ++ m (a + 1) ++ m a

def storeWord (a : ℕ) (w : BitVec 32) (m : Bytes) : Bytes := fun b =>
  if a ≤ b ∧ b < a + 4 then w.extractLsb' (8 * (b - a)) 8 else m b

def loadInt (a : ℕ) (m : Bytes) : ℤ := (loadWord a m).toInt

def storeInt (a : ℕ) (v : ℤ) (m : Bytes) : Bytes := storeWord a (BitVec.ofInt 32 v) m

/-- Two integers that do not overlap. -/
def Apart (a b : ℕ) : Prop := a + 4 ≤ b ∨ b + 4 ≤ a

instance (a b : ℕ) : Decidable (Apart a b) := inferInstanceAs (Decidable (_ ∨ _))

/-- The first `n` integers of the array at `a`. -/
def entries (a n : ℕ) (m : Bytes) : List ℤ := (List.range n).map fun j => loadInt (a + 4 * j) m

section

variable {a b n : ℕ} {m : Bytes} {v : ℤ}

theorem storeWord_at (w : BitVec 32) (m : Bytes) {i : ℕ} (hi : i < 4) :
    storeWord a w m (a + i) = w.extractLsb' (8 * i) 8 := by
  rw [storeWord, if_pos (by omega), Nat.add_sub_cancel_left]

/-- A word is determined by its bytes. -/
theorem loadWord_eq {w : BitVec 32} (h : ∀ i < 4, m (a + i) = w.extractLsb' (8 * i) 8) :
    loadWord a m = w := by
  have h0 := h 0 (by decide)
  rw [Nat.add_zero] at h0
  rw [loadWord, h0, h 1 (by decide), h 2 (by decide), h 3 (by decide)]
  ext i hi
  simp only [BitVec.getElem_append, BitVec.getElem_extractLsb']
  rw [← BitVec.getLsbD_eq_getElem hi]
  split_ifs <;> congr 1 <;> omega

theorem loadWord_storeWord (a : ℕ) (w : BitVec 32) (m : Bytes) :
    loadWord a (storeWord a w m) = w := loadWord_eq fun _ hi => storeWord_at w m hi

theorem loadWord_storeWord_apart (h : Apart a b) (w : BitVec 32) (m : Bytes) :
    loadWord b (storeWord a w m) = loadWord b m := by
  have hkeep : ∀ i < 4, storeWord a w m (b + i) = m (b + i) := fun i hi => by
    rw [storeWord, if_neg]
    unfold Apart at h
    omega
  have h0 := hkeep 0 (by decide)
  rw [Nat.add_zero] at h0
  rw [loadWord, loadWord, h0, hkeep 1 (by decide), hkeep 2 (by decide), hkeep 3 (by decide)]

theorem loadInt_storeInt (hlo : intMin ≤ v) (hhi : v ≤ intMax) :
    loadInt a (storeInt a v m) = v := by
  rw [loadInt, storeInt, loadWord_storeWord, BitVec.toInt_ofInt]
  exact int32_eq hlo hhi

theorem loadInt_storeInt_apart (h : Apart a b) : loadInt b (storeInt a v m) = loadInt b m := by
  rw [loadInt, storeInt, loadWord_storeWord_apart h, loadInt]

@[simp] theorem entries_zero : entries a 0 m = [] := rfl

theorem entries_succ : entries a (n + 1) m = entries a n m ++ [loadInt (a + 4 * n) m] := by
  simp [entries, List.range_succ]

theorem entries_storeInt_apart (h : ∀ j < n, Apart b (a + 4 * j)) :
    entries a n (storeInt b v m) = entries a n m :=
  List.map_congr_left fun j hj => loadInt_storeInt_apart (h j (List.mem_range.mp hj))

/-- An integer stored behind the last entry. -/
theorem entries_storeInt_end (hlo : intMin ≤ v) (hhi : v ≤ intMax) :
    entries a (n + 1) (storeInt (a + 4 * n) v m) = entries a n m ++ [v] := by
  rw [entries_succ, loadInt_storeInt hlo hhi, entries_storeInt_apart]
  intro j hj
  exact Or.inr (by omega)

end

/-! ### Strings of bytes -/

/-- The string stands in the memory from address `a` on. -/
def Holds (a : ℕ) (l : List (BitVec 8)) (m : Bytes) : Prop :=
  ∀ i (h : i < l.length), m (a + i) = l[i]

/-- The bytes of a word, the lowest first. -/
def wordBytes (w : BitVec 32) : List (BitVec 8) :=
  (List.range 4).map fun i => w.extractLsb' (8 * i) 8

/-- The memory with `n` bytes from `source` on in place of those from `destination` on. -/
def copied (destination source n : ℕ) (m : Bytes) : Bytes := fun b =>
  if destination ≤ b ∧ b < destination + n then m (source + (b - destination)) else m b

section

variable {a b n destination source : ℕ} {l r : List (BitVec 8)} {m m' : Bytes} {w : BitVec 32}

theorem holds_append : Holds a (l ++ r) m ↔ Holds a l m ∧ Holds (a + l.length) r m := by
  constructor
  · intro h
    refine ⟨fun i hi => ?_, fun i hi => ?_⟩
    · rw [h i (by rw [List.length_append]; omega), List.getElem_append_left hi]
    · rw [Nat.add_assoc, h (l.length + i) (by rw [List.length_append]; omega),
        List.getElem_append_right (Nat.le_add_right _ _)]
      simp only [Nat.add_sub_cancel_left]
  · rintro ⟨hl, hr⟩ i hi
    rw [List.length_append] at hi
    rcases Nat.lt_or_ge i l.length with hlt | hge
    · rw [List.getElem_append_left hlt]
      exact hl i hlt
    · have hi' := hr (i - l.length) (by omega)
      rw [List.getElem_append_right hge, ← hi']
      congr 1
      omega

theorem Holds.congr (h : Holds a l m) (hkeep : ∀ i < l.length, m' (a + i) = m (a + i)) :
    Holds a l m' := fun i hi => (hkeep i hi).trans (h i hi)

@[simp] theorem length_wordBytes (w : BitVec 32) : (wordBytes w).length = 4 := by
  simp [wordBytes]

theorem Holds.loadWord (h : Holds a (wordBytes w) m) : loadWord a m = w := by
  refine loadWord_eq fun i hi => ?_
  rw [h i (by simpa using hi)]
  simp [wordBytes]

/-- The bytes of a word that has been loaded. -/
theorem loadWord_extract {i : ℕ} (hi : i < 4) :
    (ByteMemory.loadWord a m).extractLsb' (8 * i) 8 = m (a + i) := by
  have hcases : i = 0 ∨ i = 1 ∨ i = 2 ∨ i = 3 := by omega
  ext k hk
  simp only [ByteMemory.loadWord, BitVec.getElem_extractLsb', BitVec.getLsbD_append]
  rw [← BitVec.getLsbD_eq_getElem hk]
  rcases hcases with rfl | rfl | rfl | rfl
  · rw [if_pos (by omega), Nat.mul_zero, Nat.zero_add, Nat.add_zero]
  · rw [if_neg (by omega), if_pos (by omega)]
    congr 1
    omega
  · rw [if_neg (by omega), if_neg (by omega), if_pos (by omega)]
    congr 1
    omega
  · rw [if_neg (by omega), if_neg (by omega), if_neg (by omega)]
    congr 1
    omega

@[simp] theorem copied_zero : copied destination source 0 m = m := by
  funext b
  rw [copied, if_neg (by omega)]

theorem copied_inside (h : b < n) :
    copied destination source n m (destination + b) = m (source + b) := by
  rw [copied, if_pos (by omega), Nat.add_sub_cancel_left]

theorem copied_outside (h : b < destination ∨ destination + n ≤ b) :
    copied destination source n m b = m b := by
  rw [copied, if_neg (by omega)]

end

end GatOS.ByteMemory
