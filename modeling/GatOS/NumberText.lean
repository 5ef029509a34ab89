import GatOS.Numerals
import GatOS.CondVariable

/-!
# Numbers as text

The kernel turns a number into text in three places: `uintToBase` (`naiveConsole.c`), `itoa` and
`putNumber` (`stdio.c`).
-/
namespace GatOS.NumberText

open MachineInt Numerals

/-- A memory of `char`s. -/
abbrev Memory := ℕ → ℤ

/-- A value stored in a `char`. -/
def char (x : ℤ) : ℤ := x.bmod (2 ^ 8)

def minus : ℤ := 45

/-- The character of a remainder: `'0'` and the following ones, then `'A'` and the following. -/
def digitChar (remainder : ℤ) : ℤ :=
  char (if remainder < 10 then remainder + 48 else remainder + 65 - 10)

/-- The first loop of `uintToBase` and of `itoa`. It stores the last digit first and returns where
it ends and how many characters there are. There is no result when the division traps. -/
def digitLoop (base : ℤ) : ℕ → ℤ → ℕ → ℕ → Memory → Option (ℕ × ℕ × Memory)
  | 0, _, _, _, _ => none
  | fuel + 1, value, p, len, m =>
    if base = 0 then none
    else
      let m := Function.update m p (digitChar (value.tmod base))
      if value.tdiv base = 0 then some (p + 1, len + 1, m)
      else digitLoop base fuel (value.tdiv base) (p + 1) (len + 1) m

/-- A value of 64 bits has at most 64 digits, whatever the base is. -/
def uintToBase (value buffer base : ℕ) (m : Memory) : Option (ℕ × Memory) := do
  let (p, digits, m) ← digitLoop base 64 value buffer 0 m
  let m := Function.update m p 0
  return (digits, swapLoop buffer (p - 1) m)

def itoa (value : ℤ) (str : ℕ) (base : ℤ) (m : Memory) : Option (ℕ × Memory) := do
  let negative := value < 0 ∧ base = 10
  let (value, len, str, m) :=
    if negative then (int32 (-value), 1, str + 1, Function.update m str minus)
    else (value, 0, str, m)
  let (p, len, m) ← digitLoop base 32 value str len m
  let m := Function.update m p 0
  return (len, swapLoop str (p - 1) m)

/-- The first loop of `putNumber`, which leaves the first digit in `n`. -/
def numberLoop : ℕ → ℤ → ℕ → ℕ → Memory → Option (ℤ × ℕ × ℕ × Memory)
  | 0, _, _, _, _ => none
  | fuel + 1, n, buffer, size, m =>
    if n.tdiv 10 = 0 then some (n, buffer, size, m)
    else
      numberLoop fuel (n.tdiv 10) (buffer + 1) (size + 1)
        (Function.update m buffer (char (n.tmod 10 + 48)))

/-- The second loop of `putNumber`, from the last character that was stored to the first. -/
def emitLoop : ℕ → ℕ → Memory → List ℤ
  | 0, _, _ => []
  | size + 1, buffer, m => m buffer :: emitLoop size (buffer - 1) m

/-- The characters that `putNumber` prints. `buffer` is what `kmalloc` returns. -/
def putNumber (n : ℤ) (buffer : ℕ) (m : Memory) : Option (List ℤ × Memory) := do
  let (sign, n) := if n < 0 then ([minus], int32 (-n)) else ([], n)
  let (n, buffer, size, m) ← numberLoop 32 n buffer 0 m
  let m := Function.update m buffer (char (n + 48))
  return (sign ++ emitLoop (size + 1) buffer m, m)

/-! ### The loops -/

section

variable {s : ℤ}

theorem sign_tmod (hs : s = 1 ∨ s = -1) (v b : ℕ) : (s * v).tmod b = s * (v % b : ℕ) := by
  cases hs with
  | inl h => rw [h, one_mul, one_mul, Int.ofNat_tmod]
  | inr h => rw [h, neg_one_mul, neg_one_mul, Int.neg_tmod, Int.ofNat_tmod]

theorem sign_tdiv (hs : s = 1 ∨ s = -1) (v b : ℕ) : (s * v).tdiv b = s * (v / b : ℕ) := by
  cases hs with
  | inl h => rw [h, one_mul, one_mul, Int.ofNat_tdiv]
  | inr h => rw [h, neg_one_mul, neg_one_mul, Int.neg_tdiv, Int.ofNat_tdiv]

theorem sign_eq_zero (hs : s = 1 ∨ s = -1) (v : ℕ) : s * (v : ℤ) = 0 ↔ v = 0 := by
  have hne : s ≠ 0 := by omega
  rw [mul_eq_zero, Int.natCast_eq_zero, or_iff_right hne]

/-- The loop stores the digits of the absolute value, each with the sign of the value. -/
theorem digitLoop_eq (hs : s = 1 ∨ s = -1) {b : ℕ} (hb : 1 < b) (fuel : ℕ) {v : ℕ}
    (hv : v < b ^ (fuel + 1)) (p len : ℕ) (m : Memory) :
    digitLoop b (fuel + 1) (s * v) p len m =
      some (p + (lowDigits b v).length, len + (lowDigits b v).length,
        storeAll p ((lowDigits b v).map fun d : ℕ => digitChar (s * d)) m) := by
  have hbase : (b : ℤ) ≠ 0 := by omega
  induction fuel generalizing v p len m with
  | zero =>
    have hdiv : v / b = 0 := Nat.div_eq_of_lt (by simpa using hv)
    rw [digitLoop, if_neg hbase, sign_tdiv hs, if_pos ((sign_eq_zero hs _).mpr hdiv),
      sign_tmod hs, lowDigits_eq hb, if_pos hdiv]
    rfl
  | succ fuel ih =>
    rw [digitLoop, if_neg hbase, sign_tdiv hs, sign_tmod hs, lowDigits_eq hb]
    by_cases hdiv : v / b = 0
    · rw [if_pos ((sign_eq_zero hs _).mpr hdiv), if_pos hdiv]
      rfl
    · have hlt : v / b < b ^ (fuel + 1) := by
        rw [Nat.div_lt_iff_lt_mul (by omega), ← pow_succ]
        exact hv
      rw [if_neg (mt (sign_eq_zero hs _).mp hdiv), if_neg hdiv, ih hlt, List.length_cons,
        List.map_cons, storeAll, Nat.add_right_comm p, Nat.add_right_comm len, Nat.add_assoc p,
        Nat.add_assoc len]

/-- The loop stores all digits but the first one. -/
theorem numberLoop_eq (hs : s = 1 ∨ s = -1) (fuel : ℕ) {v : ℕ} (hv : v < 10 ^ (fuel + 1))
    (p size : ℕ) (m : Memory) :
    ∃ (l : List ℕ) (d : ℕ), lowDigits 10 v = l ++ [d] ∧
      numberLoop (fuel + 1) (s * v) p size m =
        some (s * d, p + l.length, size + l.length,
          storeAll p (l.map fun d : ℕ => char (s * d + 48)) m) := by
  induction fuel generalizing v p size m with
  | zero =>
    have hdiv : v / 10 = 0 := Nat.div_eq_of_lt (by simpa using hv)
    have hmod : v % 10 = v := Nat.mod_eq_of_lt (by simpa using hv)
    have hquot : (s * v).tdiv 10 = s * (v / 10 : ℕ) := sign_tdiv hs v 10
    refine ⟨[], v, ?_, ?_⟩
    · rw [lowDigits_eq (by norm_num), if_pos hdiv, hmod]
      rfl
    · rw [numberLoop, hquot, if_pos ((sign_eq_zero hs _).mpr hdiv)]
      rfl
  | succ fuel ih =>
    have hquot : (s * v).tdiv 10 = s * (v / 10 : ℕ) := sign_tdiv hs v 10
    have hrem : (s * v).tmod 10 = s * (v % 10 : ℕ) := sign_tmod hs v 10
    rw [numberLoop, hquot, hrem, lowDigits_eq (by norm_num)]
    by_cases hdiv : v / 10 = 0
    · have hmod : v % 10 = v := by omega
      refine ⟨[], v, ?_, ?_⟩
      · rw [if_pos hdiv, hmod]
        rfl
      · rw [if_pos ((sign_eq_zero hs _).mpr hdiv)]
        rfl
    · have hlt : v / 10 < 10 ^ (fuel + 1) := by
        rw [Nat.div_lt_iff_lt_mul (by omega), ← pow_succ]
        exact hv
      obtain ⟨l, d, hl, hloop⟩ := ih hlt (p + 1) (size + 1)
        (Function.update m p (char (s * (v % 10 : ℕ) + 48)))
      refine ⟨v % 10 :: l, d, ?_, ?_⟩
      · rw [if_neg hdiv, hl]
        rfl
      · rw [if_neg (mt (sign_eq_zero hs _).mp hdiv), hloop, List.length_cons, List.map_cons,
          storeAll, Nat.add_right_comm p, Nat.add_right_comm size, Nat.add_assoc p,
          Nat.add_assoc size]

end

/-- What lies in the memory is printed backwards. -/
theorem emitLoop_eq {l : List ℤ} {p : ℕ} {m : Memory}
    (h : ∀ i, (hi : i < l.length) → m (p + i) = l[i]) :
    emitLoop l.length (p + l.length - 1) m = l.reverse := by
  induction l using List.reverseRecOn with
  | nil => rfl
  | append_singleton l c ih =>
    have hc : m (p + l.length) = c := by
      rw [h l.length (by simp)]
      simp
    have hl : ∀ i, (hi : i < l.length) → m (p + i) = l[i] := by
      intro i hi
      rw [h i (by simp; omega), List.getElem_append_left hi]
    rw [List.length_append, List.length_singleton, List.reverse_append, emitLoop,
      ← Nat.add_assoc, Nat.add_sub_cancel, hc, ih hl]
    rfl

/-! ### The texts -/

/-- The sign of the digits once `value` or `n` has been negated: the least value stays negative. -/
def digitSign (n : ℤ) : ℤ := if n = intMin then -1 else 1

/-- What `itoa` and `putNumber` make of a number. -/
def decimal (n : ℤ) : List ℤ :=
  (if n < 0 then [minus] else []) ++
    (numeral 10 n.natAbs).map fun d : ℕ => digitChar (digitSign n * d)

theorem digitSign_cases (n : ℤ) : digitSign n = 1 ∨ digitSign n = -1 := by
  unfold digitSign
  split_ifs
  · exact Or.inr rfl
  · exact Or.inl rfl

theorem int32_neg {n : ℤ} (hlo : intMin ≤ n) (hneg : n < 0) :
    int32 (-n) = digitSign n * n.natAbs := by
  have habs : (n.natAbs : ℤ) = -n := by omega
  unfold digitSign
  split_ifs with h
  · rw [h]
    rfl
  · rw [habs, one_mul, int32_eq]
    · unfold intMin
      omega
    · unfold intMin at hlo h
      unfold intMax
      omega

theorem digitSign_mul {n : ℤ} (hnonneg : ¬ n < 0) : n = digitSign n * n.natAbs := by
  have hne : n ≠ intMin := by
    unfold intMin
    omega
  rw [digitSign, if_neg hne]
  omega

theorem natAbs_lt {n : ℤ} (hlo : intMin ≤ n) (hhi : n ≤ intMax) : n.natAbs < 10 ^ (31 + 1) := by
  unfold intMin at hlo
  unfold intMax at hhi
  omega

/-- The end of `uintToBase` and of `itoa`. -/
theorem swapLoop_terminated {l : List ℤ} (hl : l ≠ []) (p : ℕ) (m : Memory) :
    swapLoop p (p + l.length - 1) (Function.update (storeAll p l m) (p + l.length) 0) =
      storeAll p (l.reverse ++ [0]) m := by
  rw [← storeAll_concat]
  exact swapLoop_storeAll_append p l [0] m hl

theorem map_lowDigits_ne_nil {b : ℕ} (hb : 1 < b) (v : ℕ) (f : ℕ → ℤ) :
    (lowDigits b v).map f ≠ [] :=
  mt List.map_eq_nil_iff.mp (lowDigits_ne_nil hb v)

theorem map_numeral (b v : ℕ) (f : ℕ → ℤ) :
    (numeral b v).map f = ((lowDigits b v).map f).reverse :=
  List.map_reverse

theorem numeral_length (b v : ℕ) : (numeral b v).length = (lowDigits b v).length :=
  List.length_reverse

theorem uintToBase_eq {v b : ℕ} (hb : 1 < b) (hv : v < 2 ^ 64) (buffer : ℕ) (m : Memory) :
    uintToBase v buffer b m =
      some ((numeral b v).length,
        storeAll buffer (((numeral b v).map fun d : ℕ => digitChar d) ++ [0]) m) := by
  have hfuel : v < b ^ (63 + 1) := hv.trans_le (Nat.pow_le_pow_left hb 64)
  have hloop := digitLoop_eq (Or.inl rfl) hb 63 hfuel buffer 0 m
  simp only [one_mul, zero_add] at hloop
  have hend := swapLoop_terminated
    (map_lowDigits_ne_nil hb v fun d : ℕ => digitChar d) buffer m
  rw [List.length_map, ← map_numeral] at hend
  unfold uintToBase
  rw [hloop, numeral_length, ← hend]
  rfl

/-- The part of `itoa` that follows the sign. -/
theorem itoa_digits {n : ℤ} (hlo : intMin ≤ n) (hhi : n ≤ intMax) (p len : ℕ) (m : Memory) :
    (digitLoop 10 32 (digitSign n * n.natAbs) p len m).map
        (fun r => (r.2.1, swapLoop p (r.1 - 1) (Function.update r.2.2 r.1 0))) =
      some (len + (numeral 10 n.natAbs).length,
        storeAll p (((numeral 10 n.natAbs).map fun d : ℕ => digitChar (digitSign n * d)) ++ [0])
          m) := by
  have hloop := digitLoop_eq (digitSign_cases n) (b := 10) (by norm_num) 31 (natAbs_lt hlo hhi)
    p len m
  have hend := swapLoop_terminated (map_lowDigits_ne_nil (b := 10) (by norm_num) n.natAbs
    fun d : ℕ => digitChar (digitSign n * d)) p m
  rw [List.length_map, ← map_numeral] at hend
  rw [← hend, numeral_length]
  exact congrArg (Option.map _) hloop

theorem itoa_eq {n : ℤ} (hlo : intMin ≤ n) (hhi : n ≤ intMax) (str : ℕ) (m : Memory) :
    itoa n str 10 m = some ((decimal n).length, storeAll str (decimal n ++ [0]) m) := by
  unfold itoa decimal
  by_cases hneg : n < 0
  · have hdigits := itoa_digits hlo hhi (str + 1) 1 (Function.update m str minus)
    rw [Option.map_eq_bind] at hdigits
    simp only [hneg, true_and, if_true, int32_neg hlo hneg]
    refine hdigits.trans ?_
    rw [List.singleton_append, List.length_cons, List.length_map, Nat.add_comm]
    rfl
  · have hdigits := itoa_digits hlo hhi str 0 m
    rw [← digitSign_mul hneg, Option.map_eq_bind, Nat.zero_add] at hdigits
    simp only [hneg, false_and, if_false, List.nil_append, List.length_map]
    exact hdigits

theorem char_digit {s : ℤ} (hs : s = 1 ∨ s = -1) {d : ℕ} (hd : d < 10) :
    char (s * d + 48) = digitChar (s * d) := by
  have hlt : s * d < 10 := by
    cases hs with
    | inl h => rw [h]; omega
    | inr h => rw [h]; omega
  rw [digitChar, if_pos hlt]

/-- The part of `putNumber` that follows the sign. -/
theorem putNumber_digits {n : ℤ} (hlo : intMin ≤ n) (hhi : n ≤ intMax) (p : ℕ) (m : Memory) :
    ∃ k q c m', numberLoop 32 (digitSign n * n.natAbs) p 0 m = some (c, q, k, m') ∧
      emitLoop (k + 1) q (Function.update m' q (char (c + 48))) =
        (numeral 10 n.natAbs).map fun d : ℕ => digitChar (digitSign n * d) := by
  obtain ⟨l, d, hdigits, hloop⟩ :=
    numberLoop_eq (digitSign_cases n) 31 (natAbs_lt hlo hhi) p 0 m
  refine ⟨_, _, _, _, hloop, ?_⟩
  have hstored : Function.update (storeAll p (l.map fun d : ℕ => char (digitSign n * d + 48)) m)
      (p + l.length) (char (digitSign n * d + 48)) =
        storeAll p ((lowDigits 10 n.natAbs).map fun d : ℕ => digitChar (digitSign n * d)) m := by
    have hmap : ((lowDigits 10 n.natAbs).map fun d : ℕ => digitChar (digitSign n * d)) =
        (l.map fun d : ℕ => char (digitSign n * d + 48)) ++ [char (digitSign n * d + 48)] := by
      rw [← List.map_singleton (f := fun d : ℕ => char (digitSign n * d + 48)), ← List.map_append,
        ← hdigits]
      refine List.map_congr_left fun c hc => ?_
      exact (char_digit (digitSign_cases n) (lowDigits_lt (by norm_num) hc)).symm
    rw [hmap, storeAll_concat, List.length_map]
  have hlength : l.length + 1 = (lowDigits 10 n.natAbs).length := by
    rw [hdigits, List.length_append, List.length_singleton]
  have hemit := emitLoop_eq (p := p) (m := storeAll p ((lowDigits 10 n.natAbs).map
    fun d : ℕ => digitChar (digitSign n * d)) m) (l := (lowDigits 10 n.natAbs).map
      fun d : ℕ => digitChar (digitSign n * d)) (fun i hi => storeAll_inside hi)
  rw [List.length_map, ← hlength, ← map_numeral, ← Nat.add_assoc, Nat.add_sub_cancel] at hemit
  rw [hstored, Nat.zero_add]
  exact hemit

/-- `buffer` may be any address: the printed characters do not depend on it. -/
theorem putNumber_eq {n : ℤ} (hlo : intMin ≤ n) (hhi : n ≤ intMax) (buffer : ℕ) (m : Memory) :
    ∃ m', putNumber n buffer m = some (decimal n, m') := by
  obtain ⟨k, q, c, m', hloop, hemit⟩ := putNumber_digits hlo hhi buffer m
  refine ⟨Function.update m' q (char (c + 48)), ?_⟩
  unfold putNumber decimal
  rw [← hemit]
  by_cases hneg : n < 0
  · simp only [hneg, if_true, int32_neg hlo hneg]
    rw [hloop]
    rfl
  · rw [← digitSign_mul hneg] at hloop
    simp only [hneg, if_false]
    rw [hloop]
    rfl

/-- `Cond.itoaLoop` leaves the characters in the order in which the loop stores them. -/
theorem itoaLoop_eq (fuel : ℕ) {v : ℕ} (hv : v < fuel) :
    Cond.itoaLoop fuel v = (lowDigits 10 v).map fun d : ℕ => digitChar (d : ℤ) := by
  have hchar : ∀ d < 10, ((d + 48 : ℕ) : ℤ) = digitChar (d : ℕ) := by decide
  induction fuel generalizing v with
  | zero => exact absurd hv (Nat.not_lt_zero v)
  | succ fuel ih =>
    rw [Cond.itoaLoop, lowDigits_eq (by norm_num), List.map_cons,
      hchar (v % 10) (Nat.mod_lt v (by norm_num))]
    by_cases hdiv : v / 10 = 0
    · rw [if_pos hdiv, if_pos hdiv, List.map_nil]
    · rw [if_neg hdiv, if_neg hdiv, ih (by omega)]

/-- The names of the condition variables are made of the text that `itoa` stores. -/
theorem itoa_stores_cond_itoa {v : ℕ} (hv : (v : ℤ) ≤ intMax) (str : ℕ) (m : Memory) :
    itoa v str 10 m = some ((Cond.itoa v).length, storeAll str (Cond.itoa v ++ [0]) m) := by
  have hlo : intMin ≤ v := by
    unfold intMin
    omega
  have htext : decimal v = Cond.itoa v := by
    have hsign : digitSign v = 1 := by
      unfold digitSign intMin
      split_ifs
      · omega
      · rfl
    rw [decimal, if_neg (by omega), List.nil_append, hsign, Int.natAbs_natCast, map_numeral,
      Cond.itoa, itoaLoop_eq (v + 1) (Nat.lt_succ_self v)]
    simp only [one_mul]
  rw [itoa_eq hlo hv, htext]

/-! ### The numerals that `uintToBase` writes -/

/-- The characters of the digits: `'0'` to `'9'`, then `'A'` to `'Z'`. -/
def alphabet : List ℤ :=
  (List.range 10).map (fun i : ℕ => 48 + (i : ℤ)) ++ (List.range 26).map fun i : ℕ => 65 + (i : ℤ)

/-- The number that a text is read as. -/
def readNumber (b : ℕ) (text : List ℤ) : ℕ := value b (text.map alphabet.idxOf)

/-- The canonical numeral of `v` in base `b`. -/
structure Canonical (b v : ℕ) (text : List ℤ) : Prop where
  digits : ∀ c ∈ text, c ∈ alphabet.take b
  nonempty : text ≠ []
  leading : text.head? = some 48 → v = 0 ∧ text = [48]
  reads : readNumber b text = v

theorem digitChar_mem_alphabet {b d : ℕ} (hd : d < b) (hb : b ≤ 36) :
    digitChar d ∈ alphabet.take b := by
  have hchar : ∀ d < 36, alphabet[d]? = some (digitChar (d : ℕ)) := by decide
  apply List.mem_of_getElem? (i := d)
  rw [List.getElem?_take_of_lt hd]
  exact hchar d (by omega)

theorem idxOf_digitChar {d : ℕ} (hd : d < 36) : alphabet.idxOf (digitChar d) = d := by
  revert d
  decide

theorem digitChar_eq_zero_digit {d : ℕ} (hd : d < 36) (h : digitChar d = 48) : d = 0 := by
  revert d
  decide

theorem digitChar_ne_zero {d : ℕ} (hd : d < 36) : digitChar d ≠ 0 := by
  revert d
  decide

theorem zero_not_mem_map_numeral {b : ℕ} (hlo : 1 < b) (hhi : b ≤ 36) (v : ℕ) :
    0 ∉ (numeral b v).map fun d : ℕ => digitChar d := by
  intro hmem
  obtain ⟨d, hd, hzero⟩ := List.mem_map.mp hmem
  exact digitChar_ne_zero ((numeral_lt hlo hd).trans_le hhi) hzero

theorem canonical_numeral {b : ℕ} (hlo : 1 < b) (hhi : b ≤ 36) (v : ℕ) :
    Canonical b v ((numeral b v).map fun d : ℕ => digitChar d) where
  digits := by
    intro c hc
    obtain ⟨d, hd, rfl⟩ := List.mem_map.mp hc
    exact digitChar_mem_alphabet (numeral_lt hlo hd) hhi
  nonempty := by
    rw [map_numeral]
    exact mt List.reverse_eq_nil_iff.mp (map_lowDigits_ne_nil hlo v _)
  leading := by
    intro hhead
    by_cases hv : v = 0
    · rw [hv, numeral_zero]
      exact ⟨rfl, rfl⟩
    · obtain ⟨d, l, hl, hd⟩ := numeral_head b hv
      have hlt : d < 36 := (numeral_lt hlo (hl ▸ List.mem_cons_self)).trans_le hhi
      rw [hl, List.map_cons, List.head?_cons, Option.some_inj] at hhead
      exact absurd (digitChar_eq_zero_digit hlt hhead) hd
  reads := by
    have hread : ((numeral b v).map fun d : ℕ => digitChar d).map alphabet.idxOf =
        numeral b v := by
      rw [List.map_map, List.map_congr_left (g := id), List.map_id]
      intro d hd
      exact idxOf_digitChar ((numeral_lt hlo hd).trans_le hhi)
    rw [readNumber, hread, value_numeral]

/-- The buffer holds the canonical numeral, the result is its length, and no byte behind the
terminator or before the buffer is written. -/
theorem uintToBase_canonical {v b : ℕ} (hv : v < 2 ^ 64) (hlo : 2 ≤ b) (hhi : b ≤ 36)
    (buffer : ℕ) (m : Memory) :
    ∃ text m', uintToBase v buffer b m = some (text.length, m') ∧ IsString m' buffer text ∧
      Canonical b v text ∧
      ∀ i, i < buffer ∨ buffer + text.length + 1 ≤ i → m' i = m i := by
  refine ⟨_, _, ?_, isString_storeAll buffer m (zero_not_mem_map_numeral hlo hhi v),
    canonical_numeral hlo hhi v, ?_⟩
  · rw [List.length_map]
    exact uintToBase_eq hlo hv buffer m
  · intro i hi
    apply storeAll_outside
    rw [List.length_append, List.length_singleton]
    exact hi

theorem uintToBase_canonical_hexadecimal :
    ∃ text m', uintToBase 255 0 16 (fun _ => 0) = some (text.length, m') ∧
      IsString m' 0 text ∧ Canonical 16 255 text ∧
      ∀ i, i < 0 ∨ 0 + text.length + 1 ≤ i → m' i = 0 :=
  uintToBase_canonical (by norm_num) (by norm_num) (by norm_num) 0 fun _ => 0

/-! ### The three converters -/

/-- `putNumber`, `itoa` and `uintToBase` make the same text of `n`. The buffers may be anywhere. -/
def ConvertersAgree (n : ℤ) (buffer str p : ℕ) (m : Memory) : Prop :=
  ∃ text digits m1 m2 m3 k,
    putNumber n buffer m = some (text, m1) ∧
    itoa n str 10 m = some (text.length, m2) ∧ IsString m2 str text ∧
    uintToBase n.natAbs p 10 m = some (k, m3) ∧ IsString m3 p digits ∧
    text = (if n < 0 then [minus] else []) ++ digits

theorem digitChar_sign_ne_zero {s : ℤ} (hs : s = 1 ∨ s = -1) {d : ℕ} (hd : d < 10) :
    digitChar (s * d) ≠ 0 := by
  revert d
  cases hs with
  | inl h => rw [h]; decide
  | inr h => rw [h]; decide

/-- The characters of a printed number. -/
theorem mem_decimal {n c : ℤ} (hmem : c ∈ decimal n) :
    c = minus ∨ ∃ d : ℕ, d < 10 ∧ (digitChar (1 * d) = c ∨ digitChar (-1 * d) = c) := by
  cases List.mem_append.mp hmem with
  | inl hsign =>
    split_ifs at hsign
    · exact Or.inl (List.mem_singleton.mp hsign)
    · exact absurd hsign List.not_mem_nil
  | inr hdigit =>
    obtain ⟨d, hd, heq⟩ := List.mem_map.mp hdigit
    refine Or.inr ⟨d, numeral_lt (by norm_num) hd, ?_⟩
    cases digitSign_cases n with
    | inl h => exact Or.inl (h ▸ heq)
    | inr h => exact Or.inr (h ▸ heq)

theorem zero_not_mem_decimal (n : ℤ) : 0 ∉ decimal n := by
  intro hmem
  rcases mem_decimal hmem with hminus | ⟨d, hd, hone | hneg⟩
  · exact absurd hminus (by decide)
  · exact digitChar_sign_ne_zero (Or.inl rfl) hd hone
  · exact digitChar_sign_ne_zero (Or.inr rfl) hd hneg

/-- The characters of the negated digits are others. -/
theorem digitChar_neg {d : ℕ} (hd : d < 10) (h : digitChar (-1 * d) = digitChar d) : d = 0 := by
  revert d
  decide

/-- The digits of the least value are printed from their negations. -/
theorem not_agree_intMin (buffer str p : ℕ) (m : Memory) :
    ¬ ConvertersAgree intMin buffer str p m := by
  rintro ⟨text, digits, m1, m2, m3, k, hput, -, -, huint, hdigits, htext⟩
  obtain ⟨m', hput'⟩ := putNumber_eq le_rfl (by decide) buffer m
  have huint' := uintToBase_eq (v := intMin.natAbs) (b := 10) (by norm_num) (by decide) p m
  rw [hput, Option.some_inj, Prod.mk.injEq] at hput'
  rw [huint, Option.some_inj, Prod.mk.injEq] at huint'
  rw [huint'.2] at hdigits
  have hnumeral := hdigits.unique (isString_storeAll p m
    (zero_not_mem_map_numeral (by norm_num) (by norm_num) intMin.natAbs))
  rw [hput'.1, hnumeral, decimal, List.append_cancel_left_eq] at htext
  obtain ⟨d, l, hl, hd⟩ := numeral_head 10 (n := intMin.natAbs) (by decide)
  have hlt : d < 10 := numeral_lt (by norm_num) (hl ▸ List.mem_cons_self)
  rw [hl, List.map_cons, List.map_cons, List.cons.injEq] at htext
  exact hd (digitChar_neg hlt htext.1)

theorem agree_of_ne {n : ℤ} (hlo : intMin ≤ n) (hhi : n ≤ intMax) (hne : n ≠ intMin)
    (buffer str p : ℕ) (m : Memory) : ConvertersAgree n buffer str p m := by
  obtain ⟨m1, hput⟩ := putNumber_eq hlo hhi buffer m
  have habs : n.natAbs < 2 ^ 64 := by
    unfold intMin at hlo
    unfold intMax at hhi
    omega
  have hsign : decimal n = (if n < 0 then [minus] else []) ++
      (numeral 10 n.natAbs).map fun d : ℕ => digitChar d := by
    rw [decimal, digitSign, if_neg hne]
    simp only [one_mul]
  refine ⟨decimal n, _, m1, _, _, _, hput, itoa_eq hlo hhi str m,
    isString_storeAll str m (zero_not_mem_decimal n), uintToBase_eq (by norm_num) habs p m,
    isString_storeAll p m (zero_not_mem_map_numeral (by norm_num) (by norm_num) n.natAbs), hsign⟩

theorem converters_disagree_intMin : ¬ ConvertersAgree intMin 100 200 300 (fun _ => 0) :=
  not_agree_intMin 100 200 300 fun _ => 0

/-- The least value is the only one on which they differ. -/
theorem convertersAgree_iff {n : ℤ} (hlo : intMin ≤ n) (hhi : n ≤ intMax) (buffer str p : ℕ)
    (m : Memory) : ConvertersAgree n buffer str p m ↔ n ≠ intMin := by
  constructor
  · intro hagree hn
    rw [hn] at hagree
    exact not_agree_intMin buffer str p m hagree
  · intro hne
    exact agree_of_ne hlo hhi hne buffer str p m

theorem convertersAgree_iff_seven :
    ConvertersAgree (-7) 100 200 300 (fun _ => 0) ↔ (-7 : ℤ) ≠ intMin :=
  convertersAgree_iff (by decide) (by decide) 100 200 300 fun _ => 0

end GatOS.NumberText
