import Mathlib.Data.List.Range
import Mathlib.Logic.Function.Basic
import Mathlib.Tactic.Ring

/-!
# Bytes of a file

Lists of bytes that are written to and read from a place of a file, and the bytes of an unsigned
number, the lowest first.
-/
namespace GatOS.Octets

/-- The bytes of `l` from `a` on. -/
def put (a : ℕ) (l : List UInt8) (m : ℕ → UInt8) : ℕ → UInt8 := fun b =>
  if a ≤ b then (l[b - a]?).getD (m b) else m b

/-- `n` bytes from `a` on. -/
def get (a n : ℕ) (m : ℕ → UInt8) : List UInt8 := (List.range n).map fun i => m (a + i)

def ofOctets : List UInt8 → ℕ
  | [] => 0
  | b :: l => b.toNat + 256 * ofOctets l

def toOctets : ℕ → ℕ → List UInt8
  | 0, _ => []
  | n + 1, v => UInt8.ofNat v :: toOctets n (v / 256)

section

variable {a b n k v : ℕ} {l : List UInt8} {m m' : ℕ → UInt8}

@[simp] theorem length_get : (get a n m).length = n := by simp [get]

@[simp] theorem length_toOctets (n v : ℕ) : (toOctets n v).length = n := by
  induction n generalizing v with
  | zero => rfl
  | succ n ih => simp [toOctets, ih]

/-- The number comes back, reduced to its bytes. -/
theorem ofOctets_toOctets (n v : ℕ) : ofOctets (toOctets n v) = v % 256 ^ n := by
  induction n generalizing v with
  | zero => simp [toOctets, ofOctets, Nat.mod_one]
  | succ n ih =>
    have hbyte : (UInt8.ofNat v).toNat = v % 256 := by simp
    rw [toOctets, ofOctets, ih, hbyte, pow_succ, Nat.mul_comm (256 ^ n), Nat.mod_mul]

theorem ofOctets_lt (l : List UInt8) : ofOctets l < 256 ^ l.length := by
  induction l with
  | nil => simp [ofOctets]
  | cons b l ih =>
    have hbyte : b.toNat < 256 := b.toNat_lt
    rw [ofOctets, List.length_cons, pow_succ]
    omega

-- the products in the number are not to be computed
attribute [irreducible] ofOctets

theorem put_inside (hlo : a ≤ b) (hhi : b - a < l.length) : put a l m b = l[b - a] := by
  simp [put, hlo, hhi]

theorem put_outside (h : b < a ∨ a + l.length ≤ b) : put a l m b = m b := by
  unfold put
  split_ifs with hle
  · rw [List.getElem?_eq_none (by omega)]
    rfl
  · rfl

theorem get_succ : get a (n + 1) m = m a :: get (a + 1) n m := by
  simp only [get, List.range_succ_eq_map, List.map_cons, List.map_map, Nat.add_zero]
  congr 1
  apply List.map_congr_left
  intro i _
  simp only [Function.comp_apply, Nat.succ_eq_add_one, Nat.add_assoc, Nat.add_comm 1]

theorem get_congr (h : ∀ i < n, m (a + i) = m' (a + i)) : get a n m = get a n m' :=
  List.map_congr_left fun i hi => h i (List.mem_range.mp hi)

/-- What is written is read. -/
theorem get_put (a : ℕ) (l : List UInt8) (m : ℕ → UInt8) : get a l.length (put a l m) = l := by
  apply List.ext_getElem
  · exact length_get
  · intro i hi hi'
    simp only [get, List.getElem_map, List.getElem_range]
    rw [put_inside (Nat.le_add_right _ _) (by omega)]
    simp

theorem get_put_apart (h : b + n ≤ a ∨ a + l.length ≤ b) : get b n (put a l m) = get b n m := by
  apply get_congr
  intro i hi
  apply put_outside
  omega

/-- The bytes in front of the first zero. -/
theorem takeWhile_get_iff (hl : l.length < n) : (get a n m).takeWhile (· ≠ 0) = l ↔
    0 ∉ l ∧ (∀ i (hi : i < l.length), m (a + i) = l[i]) ∧ m (a + l.length) = 0 := by
  induction l generalizing a n with
  | nil =>
    obtain ⟨n, rfl⟩ := Nat.exists_eq_succ_of_ne_zero (Nat.ne_of_gt hl)
    rw [Nat.succ_eq_add_one, get_succ, List.takeWhile_cons]
    by_cases hzero : m a = 0
    · simp [hzero]
    · simp [hzero]
  | cons c cs ih =>
    obtain ⟨n, rfl⟩ := Nat.exists_eq_succ_of_ne_zero (Nat.ne_of_gt (Nat.zero_lt_of_lt hl))
    have htail := @ih (a + 1) n (by simpa using hl)
    rw [Nat.succ_eq_add_one, get_succ, List.takeWhile_cons]
    constructor
    · intro h
      by_cases hzero : m a = 0
      · simp [hzero] at h
      · simp only [ne_eq, hzero, not_false_eq_true, decide_true, if_true, List.cons.injEq] at h
        obtain ⟨hc, hcs⟩ := h
        obtain ⟨hnot, hbytes, hend⟩ := htail.mp hcs
        refine ⟨by simp [hnot, ← hc, Ne.symm hzero], fun i hi => ?_, ?_⟩
        · cases i with
          | zero => exact hc
          | succ i =>
            rw [List.getElem_cons_succ, ← hbytes i (by simpa using hi)]
            congr 1
            omega
        · rw [← hend, List.length_cons]
          congr 1
          omega
    · rintro ⟨hnot, hbytes, hend⟩
      simp only [List.mem_cons, not_or] at hnot
      have hc : m a = c := hbytes 0 (Nat.zero_lt_succ _)
      have hcs : (get (a + 1) n m).takeWhile (· ≠ 0) = cs := by
        refine htail.mpr ⟨hnot.2, fun i hi => ?_, ?_⟩
        · have hbyte := hbytes (i + 1) (by simpa using hi)
          rw [List.getElem_cons_succ] at hbyte
          rw [← hbyte]
          congr 1
          omega
        · rw [← hend, List.length_cons]
          congr 1
          omega
      rw [hcs, hc, if_pos (by simpa using Ne.symm hnot.1)]

end

end GatOS.Octets
