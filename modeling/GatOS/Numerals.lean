import Mathlib.Data.Nat.Digits.Lemmas
import Mathlib.Tactic.Linarith

/-!
# Numerals in a memory

The digits of a number with the most significant one first, lists that are stored at an address,
and the reversal of such a list in place.
-/
namespace GatOS.Numerals

/-! ### Digits -/

/-- The digits of `n`, the last one first. Zero has one digit. -/
def lowDigits (b n : ℕ) : List ℕ := if n = 0 then [0] else Nat.digits b n

/-- The digits of `n`, the most significant one first. -/
def numeral (b n : ℕ) : List ℕ := (lowDigits b n).reverse

/-- The number that a list of digits stands for. -/
def value (b : ℕ) (l : List ℕ) : ℕ := l.foldl (fun n d => n * b + d) 0

section

variable {b n : ℕ}

theorem lowDigits_eq (hb : 1 < b) (n : ℕ) :
    lowDigits b n = n % b :: if n / b = 0 then [] else lowDigits b (n / b) := by
  unfold lowDigits
  by_cases hn : n = 0
  · simp [hn]
  rw [if_neg hn, Nat.digits_eq_cons_digits_div hb hn]
  by_cases hdiv : n / b = 0
  · simp [hdiv]
  · simp [hdiv]

theorem lowDigits_ne_nil (hb : 1 < b) (n : ℕ) : lowDigits b n ≠ [] := by
  rw [lowDigits_eq hb]
  exact List.cons_ne_nil _ _

theorem lowDigits_lt (hb : 1 < b) {d : ℕ} (hd : d ∈ lowDigits b n) : d < b := by
  unfold lowDigits at hd
  split_ifs at hd
  · rw [List.mem_singleton.mp hd]
    omega
  · exact Nat.digits_lt_base hb hd

/-- A number has at most `k` digits when it is below the `k`-th power of the base. -/
theorem lowDigits_length_le_iff (hb : 1 < b) {k : ℕ} (hk : 0 < k) :
    (lowDigits b n).length ≤ k ↔ n < b ^ k := by
  unfold lowDigits
  split_ifs with hn
  · have hpow : 0 < b ^ k := Nat.pow_pos (by omega)
    simp [hn, hpow]
    omega
  · exact Nat.digits_length_le_iff hb n

theorem numeral_lt (hb : 1 < b) {d : ℕ} (hd : d ∈ numeral b n) : d < b :=
  lowDigits_lt hb (List.mem_reverse.mp hd)

/-- Only zero begins with the digit zero. -/
theorem numeral_head (b : ℕ) (hn : n ≠ 0) : ∃ d l, numeral b n = d :: l ∧ d ≠ 0 := by
  have hne : Nat.digits b n ≠ [] := Nat.digits_ne_nil_iff_ne_zero.mpr hn
  refine ⟨(Nat.digits b n).getLast hne, (Nat.digits b n).dropLast.reverse, ?_,
    Nat.getLast_digit_ne_zero b hn⟩
  rw [numeral, lowDigits, if_neg hn]
  conv_lhs => rw [← List.dropLast_append_getLast hne]
  rw [List.reverse_append]
  rfl

theorem numeral_zero (b : ℕ) : numeral b 0 = [0] := by
  rw [numeral, lowDigits, if_pos rfl, List.reverse_singleton]

theorem value_eq_ofDigits (l : List ℕ) : value b l = Nat.ofDigits b l.reverse := by
  induction l using List.reverseRecOn with
  | nil => rfl
  | append_singleton l d ih =>
    rw [value, List.foldl_append, List.reverse_append]
    show (l.foldl (fun n d => n * b + d) 0) * b + d = Nat.ofDigits b (d :: l.reverse)
    rw [Nat.ofDigits_cons, ← ih, value]
    ring

/-- A numeral is read back as the number that it was made from. -/
theorem value_numeral (b n : ℕ) : value b (numeral b n) = n := by
  rw [value_eq_ofDigits, numeral, List.reverse_reverse, lowDigits]
  split_ifs with hn
  · simp [hn]
  · exact Nat.ofDigits_digits b n

end

/-! ### Lists in a memory -/

variable {α : Type*} {m : ℕ → α} {a i : ℕ} {l : List α}

/-- The elements are stored from address `a` on. -/
def storeAll (a : ℕ) : List α → (ℕ → α) → ℕ → α
  | [], m => m
  | c :: l, m => storeAll (a + 1) l (Function.update m a c)

theorem storeAll_append (a : ℕ) (l l' : List α) (m : ℕ → α) :
    storeAll a (l ++ l') m = storeAll (a + l.length) l' (storeAll a l m) := by
  induction l generalizing a m with
  | nil => rfl
  | cons c l ih =>
    rw [List.cons_append, storeAll, ih, storeAll, List.length_cons, Nat.add_right_comm,
      Nat.add_assoc]

theorem storeAll_concat (a : ℕ) (l : List α) (c : α) (m : ℕ → α) :
    storeAll a (l ++ [c]) m = Function.update (storeAll a l m) (a + l.length) c :=
  storeAll_append a l [c] m

/-- What is stored, and that nothing else changes. -/
theorem storeAll_apply (a : ℕ) (l : List α) (m : ℕ → α) (i : ℕ) :
    storeAll a l m i = if a ≤ i then l[i - a]?.getD (m i) else m i := by
  induction l generalizing a m with
  | nil => simp [storeAll]
  | cons c l ih =>
    rw [storeAll, ih]
    by_cases hia : i = a
    · subst hia
      simp
    by_cases hle : a ≤ i
    · have hsub : i - a = i - (a + 1) + 1 := by omega
      rw [if_pos hle, if_pos (by omega), hsub, List.getElem?_cons_succ, Function.update_of_ne hia]
    · rw [if_neg hle, if_neg (by omega), Function.update_of_ne hia]

theorem storeAll_outside (h : i < a ∨ a + l.length ≤ i) : storeAll a l m i = m i := by
  rw [storeAll_apply]
  split_ifs with hle
  · rw [List.getElem?_eq_none (by omega), Option.getD_none]
  · rfl

theorem storeAll_inside (h : i < l.length) : storeAll a l m (a + i) = l[i] := by
  rw [storeAll_apply, if_pos (Nat.le_add_right a i), Nat.add_sub_cancel_left,
    List.getElem?_eq_getElem h, Option.getD_some]

/-- Two lists one behind the other may be stored in either order. -/
theorem storeAll_append_behind (a : ℕ) (l l' : List α) (m : ℕ → α) :
    storeAll a (l ++ l') m = storeAll a l (storeAll (a + l.length) l' m) := by
  rw [storeAll_append]
  funext i
  by_cases hi : i < a + l.length
  · rw [storeAll_outside (Or.inl hi), storeAll_apply a, storeAll_apply a,
      storeAll_outside (Or.inl hi)]
  · rw [not_lt] at hi
    rw [storeAll_outside (m := storeAll (a + l.length) l' m) (Or.inr hi), storeAll_apply,
      storeAll_apply (a + l.length) l' m,
      storeAll_outside (Or.inr hi)]

/-- The text that ends with the first zero behind address `a`. -/
structure IsString [Zero α] (m : ℕ → α) (a : ℕ) (l : List α) : Prop where
  chars : ∀ i, (h : i < l.length) → m (a + i) = l[i]
  nul : m (a + l.length) = 0
  nonzero : 0 ∉ l

theorem isString_nil_iff [Zero α] : IsString m a [] ↔ m a = 0 := by
  constructor
  · intro h
    exact h.nul
  · intro h
    exact ⟨by simp, h, List.not_mem_nil⟩

theorem isString_cons_iff [Zero α] {c : α} :
    IsString m a (c :: l) ↔ m a = c ∧ c ≠ 0 ∧ IsString m (a + 1) l := by
  have hnext : ∀ i, a + (i + 1) = a + 1 + i := by
    intro i
    omega
  constructor
  · intro h
    have hzero := List.ne_and_not_mem_of_not_mem_cons h.nonzero
    refine ⟨h.chars 0 (by simp), hzero.1.symm, fun i hi => ?_, ?_, hzero.2⟩
    · have hc := h.chars (i + 1) (Nat.succ_lt_succ hi)
      rwa [hnext] at hc
    · have hnul := h.nul
      rwa [List.length_cons, hnext] at hnul
  · rintro ⟨hc, hne, h⟩
    refine ⟨fun i hi => ?_, ?_, List.not_mem_cons_of_ne_of_not_mem hne.symm h.nonzero⟩
    · cases i with
      | zero => exact hc
      | succ i =>
        rw [hnext]
        exact h.chars i (Nat.lt_of_succ_lt_succ hi)
    · rw [List.length_cons, hnext]
      exact h.nul

theorem isString_storeAll [Zero α] (a : ℕ) (m : ℕ → α) (h : (0 : α) ∉ l) :
    IsString (storeAll a (l ++ [0]) m) a l := by
  refine ⟨fun i hi => ?_, ?_, h⟩
  · rw [storeAll_inside (by simp; omega), List.getElem_append_left hi]
  · rw [storeAll_inside (by simp)]
    simp

theorem IsString.unique [Zero α] {l' : List α} (h : IsString m a l) (g : IsString m a l') :
    l = l' := by
  have hle : ∀ {l l' : List α}, IsString m a l → IsString m a l' → l.length ≤ l'.length := by
    intro l l' h g
    by_contra hlt
    rw [not_le] at hlt
    exact h.nonzero (by rw [← g.nul, h.chars _ hlt]; exact List.getElem_mem hlt)
  refine List.ext_getElem ((hle h g).antisymm (hle g h)) fun i hi hi' => ?_
  rw [← h.chars i hi, ← g.chars i hi']

/-! ### Reversal in place -/

/-- The elements between two addresses change places, from the outside to the middle. -/
def swapLoop (p1 p2 : ℕ) (m : ℕ → α) : ℕ → α :=
  if p1 < p2 then
    swapLoop (p1 + 1) (p2 - 1) (Function.update (Function.update m p1 (m p2)) p2 (m p1))
  else m
termination_by p2 - p1

theorem swapLoop_apply (p1 p2 : ℕ) (m : ℕ → α) (i : ℕ) :
    swapLoop p1 p2 m i = if p1 ≤ i ∧ i ≤ p2 then m (p1 + p2 - i) else m i := by
  fun_induction swapLoop p1 p2 m with
  | case1 p1 p2 m hlt ih =>
    rw [ih]
    by_cases hi1 : i = p1
    · subst hi1
      rw [if_neg (by omega), if_pos (by omega), Function.update_of_ne (by omega),
        Function.update_self, Nat.add_sub_cancel_left]
    by_cases hi2 : i = p2
    · subst hi2
      rw [if_neg (by omega), if_pos (by omega), Function.update_self, Nat.add_sub_cancel]
    by_cases hin : p1 ≤ i ∧ i ≤ p2
    · have hsum : p1 + 1 + (p2 - 1) - i = p1 + p2 - i := by omega
      rw [if_pos hin, if_pos (by omega), hsum, Function.update_of_ne (by omega),
        Function.update_of_ne (by omega)]
    · rw [if_neg hin, if_neg (by omega), Function.update_of_ne hi2, Function.update_of_ne hi1]
  | case2 p1 p2 m hge =>
    split_ifs with hin
    · congr 1
      omega
    · rfl

/-- A stored list is reversed. -/
theorem swapLoop_storeAll (a : ℕ) (l : List α) (m : ℕ → α) (hl : l ≠ []) :
    swapLoop a (a + l.length - 1) (storeAll a l m) = storeAll a l.reverse m := by
  have hpos : 0 < l.length := List.length_pos_of_ne_nil hl
  funext i
  rw [swapLoop_apply]
  split_ifs with hin
  · have hlt : i - a < l.length := by omega
    have hflip : a + (a + l.length - 1) - i = a + (l.length - 1 - (i - a)) := by omega
    rw [hflip, storeAll_inside (by omega), storeAll_apply, if_pos hin.1,
      List.getElem?_eq_getElem (by simpa using hlt), Option.getD_some, List.getElem_reverse]
  · rw [storeAll_outside (by omega), storeAll_outside (by rw [List.length_reverse]; omega)]

/-- The elements behind the list stay. -/
theorem swapLoop_storeAll_append (a : ℕ) (l l' : List α) (m : ℕ → α) (hl : l ≠ []) :
    swapLoop a (a + l.length - 1) (storeAll a (l ++ l') m) = storeAll a (l.reverse ++ l') m := by
  rw [storeAll_append_behind, swapLoop_storeAll a l _ hl, storeAll_append_behind,
    List.length_reverse]

end GatOS.Numerals
