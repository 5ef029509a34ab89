import Mathlib.Data.List.Lex
import Mathlib.Data.Nat.Find
import GatOS.Mutex
import GatOS.Numerals

/-!
# The order of the strings

`strcmp` and `strcmpN` (`stdio.c`) on pointers into a memory. On the texts they are the
lexicographic order, in which a text comes before all its continuations. The kernel and the
programs have the same copy of both functions.
-/
namespace GatOS.StringOrder

open Numerals

/-- A pointer to a string of the memory: a zero lies at the address or behind it. -/
structure CString (m : ℕ → ℤ) where
  addr : ℕ
  terminated : ∃ i, m (addr + i) = 0

namespace CString

variable {m : ℕ → ℤ} (s : CString m)

/-- `*str` -/
def char : ℤ := m s.addr

/-- `str++` before the end of the string. -/
def next (h : s.char ≠ 0) : CString m where
  addr := s.addr + 1
  terminated := by
    obtain ⟨i, hi⟩ := s.terminated
    cases i with
    | zero => exact absurd hi h
    | succ i => exact ⟨i, by rw [Nat.add_right_comm, Nat.add_assoc, hi]⟩

def length : ℕ := Nat.find s.terminated

/-- The characters before the first zero. -/
def text : List ℤ := (List.range s.length).map fun i => m (s.addr + i)

theorem length_of_nul (h : s.char = 0) : s.length = 0 := (Nat.find_eq_zero s.terminated).mpr h

theorem length_next (h : s.char ≠ 0) : s.length = (s.next h).length + 1 := by
  have hsucc : ∃ i, m (s.addr + (i + 1)) = 0 := by
    obtain ⟨i, hi⟩ := (s.next h).terminated
    exact ⟨i, by rw [← hi, next, Nat.add_right_comm, Nat.add_assoc]⟩
  rw [length, Nat.find_comp_succ s.terminated hsucc h, length]
  congr 2
  funext i
  rw [next, Nat.add_right_comm, Nat.add_assoc]

theorem length_next_lt (h : s.char ≠ 0) : (s.next h).length < s.length := by
  rw [s.length_next h]
  exact Nat.lt_succ_self _

theorem text_of_nul (h : s.char = 0) : s.text = [] := by
  simp [text, s.length_of_nul h]

theorem text_of_char (h : s.char ≠ 0) : s.text = s.char :: (s.next h).text := by
  rw [text, s.length_next h, List.range_succ_eq_map, List.map_cons, List.map_map]
  congr 1
  apply List.map_congr_left
  intro i hi
  simp only [Function.comp_apply, next]
  congr 1
  omega

/-- The text is the string that the memory holds at the address. -/
theorem isString_text : IsString m s.addr s.text := by
  induction hlength : s.length generalizing s with
  | zero =>
    have hnul : s.char = 0 := (Nat.find_eq_zero s.terminated).mp hlength
    rw [s.text_of_nul hnul]
    exact isString_nil_iff.mpr hnul
  | succ k ih =>
    have hne : s.char ≠ 0 := by
      intro hnul
      rw [s.length_of_nul hnul] at hlength
      exact absurd hlength (Nat.succ_ne_zero k).symm
    have hnext : (s.next hne).length = k := by
      rw [s.length_next hne] at hlength
      exact Nat.succ.inj hlength
    rw [s.text_of_char hne]
    exact isString_cons_iff.mpr ⟨rfl, hne, ih (s.next hne) hnext⟩

/-- Each string of a memory is one that a pointer leads to. -/
theorem exists_of_isString {p : ℕ} {l : List ℤ} (h : IsString m p l) :
    ∃ s : CString m, s.addr = p ∧ s.text = l := by
  refine ⟨⟨p, l.length, h.nul⟩, rfl, ?_⟩
  exact (isString_text ⟨p, l.length, h.nul⟩).unique h

end CString

variable {m : ℕ → ℤ}

def strcmp (str1 str2 : CString m) : ℤ :=
  if h : str1.char ≠ 0 ∧ str2.char ≠ 0 then
    if str1.char - str2.char > 0 then 1
    else if str1.char - str2.char < 0 then -1
    else strcmp (str1.next h.1) (str2.next h.2)
  else if str1.char = 0 ∧ str2.char = 0 then 0
  else if str1.char = 0 then -1
  else 1
termination_by str1.length
decreasing_by exact str1.length_next_lt h.1

def strcmpN (str1 str2 : CString m) (number : ℤ) : ℤ :=
  if h : str1.char ≠ 0 ∧ str2.char ≠ 0 ∧ number ≠ 0 then
    if str1.char - str2.char > 0 then 1
    else if str1.char - str2.char < 0 then -1
    else strcmpN (str1.next h.1) (str2.next h.2.1) (number - 1)
  else if number = 0 then 0
  else if str1.char = 0 ∧ str2.char = 0 then 0
  else if str1.char = 0 then -1
  else 1
termination_by str1.length
decreasing_by exact str1.length_next_lt h.1

/-! ### The comparison of the texts -/

/-- The pointers are compared as the texts that they lead to. -/
theorem strcmp_eq_text (str1 str2 : CString m) :
    strcmp str1 str2 = Sync.strcmp str1.text str2.text := by
  fun_induction strcmp str1 str2 with
  | case1 str1 str2 h hpos =>
    rw [str1.text_of_char h.1, str2.text_of_char h.2, Sync.strcmp, if_pos hpos]
  | case2 str1 str2 h hpos hneg =>
    rw [str1.text_of_char h.1, str2.text_of_char h.2, Sync.strcmp, if_neg hpos, if_pos hneg]
  | case3 str1 str2 h hpos hneg ih =>
    rw [str1.text_of_char h.1, str2.text_of_char h.2, Sync.strcmp, if_neg hpos, if_neg hneg, ih]
  | case4 str1 str2 h hends =>
    rw [str1.text_of_nul hends.1, str2.text_of_nul hends.2, Sync.strcmp]
  | case5 str1 str2 h hends hend =>
    have hchar : str2.char ≠ 0 := fun hnul => hends ⟨hend, hnul⟩
    rw [str1.text_of_nul hend, str2.text_of_char hchar, Sync.strcmp]
  | case6 str1 str2 h hends hchar =>
    have hend : str2.char = 0 := by
      by_contra hne
      exact h ⟨hchar, hne⟩
    rw [str1.text_of_char hchar, str2.text_of_nul hend, Sync.strcmp]

/-- A comparison that counts is one of the first characters. Each of the three ways to leave the
loop is one to leave the loop over the shorter texts. -/
theorem strcmpN_eq_text (str1 str2 : CString m) (n : ℕ) :
    strcmpN str1 str2 n = Sync.strcmp (str1.text.take n) (str2.text.take n) := by
  induction n generalizing str1 str2 with
  | zero => simp [strcmpN, Sync.strcmp]
  | succ n ih =>
    have hnumber : ((n + 1 : ℕ) : ℤ) ≠ 0 := by omega
    have hless : ((n + 1 : ℕ) : ℤ) - 1 = n := by omega
    rw [strcmpN]
    simp only [hnumber, ne_eq, not_false_eq_true, and_true, if_false, hless]
    by_cases h1 : str1.char = 0
    · by_cases h2 : str2.char = 0
      · simp [h1, h2, str1.text_of_nul h1, str2.text_of_nul h2, Sync.strcmp]
      · simp [h1, h2, str1.text_of_nul h1, str2.text_of_char h2, Sync.strcmp]
    · by_cases h2 : str2.char = 0
      · simp [h1, h2, str1.text_of_char h1, str2.text_of_nul h2, Sync.strcmp]
      · simp [h1, h2, str1.text_of_char h1, str2.text_of_char h2, Sync.strcmp, ih]

/-! ### The lexicographic order -/

theorem strcmp_swap (a b : List ℤ) : Sync.strcmp b a = -Sync.strcmp a b := by
  fun_induction Sync.strcmp a b with
  | case1 => rfl
  | case2 => rfl
  | case3 => rfl
  | case4 a str1 b str2 hpos =>
    rw [Sync.strcmp, if_neg (by omega), if_pos (by omega)]
  | case5 a str1 b str2 hpos hneg =>
    rw [Sync.strcmp, if_pos (by omega)]
    rfl
  | case6 a str1 b str2 hpos hneg ih =>
    rw [Sync.strcmp, if_neg (by omega), if_neg (by omega), ih]

theorem strcmp_neg_iff (a b : List ℤ) : Sync.strcmp a b < 0 ↔ a < b := by
  fun_induction Sync.strcmp a b with
  | case1 => simp
  | case2 => simp
  | case3 => simp
  | case4 a str1 b str2 hpos =>
    rw [List.cons_lt_cons_iff]
    omega
  | case5 a str1 b str2 hpos hneg =>
    have hlt : a < b := by omega
    simp [List.cons_lt_cons_iff, hlt]
  | case6 a str1 b str2 hpos hneg ih =>
    obtain rfl : a = b := by omega
    simp [ih]

theorem strcmp_nonpos_iff (a b : List ℤ) : Sync.strcmp a b ≤ 0 ↔ a ≤ b := by
  rw [← not_lt (a := b), ← strcmp_neg_iff, strcmp_swap a b]
  omega

/-! ### The order of the pointers -/

/-- Any two texts lie in one memory. -/
theorem exists_texts {l l' : List ℤ} (hl : 0 ∉ l) (hl' : 0 ∉ l') :
    ∃ (m : ℕ → ℤ) (a b : CString m), a.text = l ∧ b.text = l' := by
  have hfirst : IsString (storeAll 0 ((l ++ [0]) ++ (l' ++ [0])) fun _ => (0 : ℤ)) 0 l := by
    rw [storeAll_append_behind]
    exact isString_storeAll 0 _ hl
  have hsecond : IsString (storeAll 0 ((l ++ [0]) ++ (l' ++ [0])) fun _ => (0 : ℤ))
      (0 + (l ++ [0]).length) l' := by
    rw [storeAll_append]
    exact isString_storeAll _ _ hl'
  obtain ⟨a, -, ha⟩ := CString.exists_of_isString hfirst
  obtain ⟨b, -, hb⟩ := CString.exists_of_isString hsecond
  exact ⟨_, a, b, ha, hb⟩

theorem exists_truncated (a b : CString m) (n : ℕ) :
    ∃ (m' : ℕ → ℤ) (a' b' : CString m'), a'.text = a.text.take n ∧ b'.text = b.text.take n := by
  apply exists_texts
  · exact fun hmem => a.isString_text.nonzero (List.mem_of_mem_take hmem)
  · exact fun hmem => b.isString_text.nonzero (List.mem_of_mem_take hmem)

/-- The test that the shell makes of the first characters of a line. -/
theorem strcmpN_eq_zero_iff (a b : CString m) (n : ℕ) :
    strcmpN a b n = 0 ↔ a.text.take n = b.text.take n := by
  rw [strcmpN_eq_text, Sync.strcmp_eq_zero_iff]

/-- The strings are in a total order, and `strcmpN` is the comparison of the truncated strings. -/
theorem strcmp_totalOrder {m' : ℕ → ℤ} (a b c : CString m) (n : ℕ) (a' b' : CString m')
    (ha : a'.text = a.text.take n) (hb : b'.text = b.text.take n) :
    (strcmp a b = 0 ↔ a.text = b.text) ∧
      strcmp b a = -strcmp a b ∧
      (strcmp a b ≤ 0 → strcmp b a ≤ 0 → a.text = b.text) ∧
      (strcmp a b ≤ 0 ∨ strcmp b a ≤ 0) ∧
      (strcmp a b ≤ 0 → strcmp b c ≤ 0 → strcmp a c ≤ 0) ∧
      strcmpN a b n = strcmp a' b' := by
  simp only [strcmp_eq_text, strcmpN_eq_text, ha, hb, strcmp_nonpos_iff]
  refine ⟨Sync.strcmp_eq_zero_iff _ _, strcmp_swap _ _, le_antisymm, le_total _ _, le_trans, ?_⟩
  trivial

theorem strcmp_totalOrder_prefix :
    ∃ (m : ℕ → ℤ) (a b : CString m), a.text = [97, 98] ∧ b.text = [97] ∧
      (strcmp a b = 0 ↔ a.text = b.text) ∧
      strcmp b a = -strcmp a b ∧
      (strcmp a b ≤ 0 → strcmp b a ≤ 0 → a.text = b.text) ∧
      (strcmp a b ≤ 0 ∨ strcmp b a ≤ 0) ∧
      (strcmp a b ≤ 0 → strcmp b b ≤ 0 → strcmp a b ≤ 0) ∧
      strcmpN a b (1 : ℕ) = strcmp b b := by
  have hlong : (0 : ℤ) ∉ [97, 98] := by decide
  have hshort : (0 : ℤ) ∉ [97] := by decide
  obtain ⟨m, a, b, ha, hb⟩ := exists_texts hlong hshort
  exact ⟨m, a, b, ha, hb, strcmp_totalOrder a b b 1 b b (by rw [ha, hb]; rfl) (by rw [hb]; rfl)⟩

end GatOS.StringOrder
