import GatOS.NumberText

/-!
# Formatted output

`printFF` (`stdio.c`). It goes through a format in two states: a character is printed as it is,
or a `'%'` has been passed and what follows it decides.
-/
namespace GatOS.FormattedOutput

open MachineInt Numerals NumberText

def percent : ℤ := 37

def letterD : ℤ := 100

def letterS : ℤ := 115

/-- `LETTER` and `FORMAT`. -/
inductive State
  | letter
  | format
  deriving DecidableEq

/-- The arguments of `printFF`. `none` is the null pointer. -/
structure Arguments where
  s : Option (ℕ → List ℤ)
  n : Option (ℕ → ℤ)

/-- The loop of `printFF`. It returns what is printed; there is no result when the fuel runs out.
`last` is `*(format-1)`, `i` and `j` are the numbers of texts and numbers that have been printed,
and `kmalloc j` is the buffer that `putNumber` gets for the number `j`. -/
def formatLoop (a : Arguments) (kmalloc : ℕ → ℕ) :
    ℕ → State → List ℤ → ℤ → ℕ → ℕ → Memory → Option (List ℤ)
  | 0, _, _, _, _, _, _ => none
  | _ + 1, _, [], last, _, _, _ => some (if last = percent then [percent] else [])
  | fuel + 1, .letter, c :: format, _, i, j, m =>
    if c = percent then formatLoop a kmalloc fuel .format format c i j m
    else (formatLoop a kmalloc fuel .letter format c i j m).map (c :: ·)
  | fuel + 1, .format, c :: format, last, i, j, m =>
    match if c = letterD then a.n else none with
    | some n => do
      let (text, m) ← putNumber (n j) (kmalloc j) m
      (formatLoop a kmalloc fuel .letter format c i (j + 1) m).map (text ++ ·)
    | none =>
      if c = letterS then
        match a.s with
        | some s => (formatLoop a kmalloc fuel .letter format c (i + 1) j m).map (s i ++ ·)
        -- Nothing is printed and `format` stays where it is.
        | none => formatLoop a kmalloc fuel .format (c :: format) last i j m
      else (formatLoop a kmalloc fuel .format format c i j m).map (percent :: ·)

/-- `before` is the byte in front of the format, which is read when the format is empty. -/
def printFF (a : Arguments) (kmalloc : ℕ → ℕ) (fuel : ℕ) (format : List ℤ) (before : ℤ)
    (m : Memory) : Option (List ℤ) :=
  formatLoop a kmalloc fuel .letter format before 0 0 m

/-! ### The output that is asked for -/

/-- The decimal form of a number. -/
def decimalForm (n : ℤ) : List ℤ :=
  (if n < 0 then [minus] else []) ++ (numeral 10 n.natAbs).map fun d : ℕ => (d : ℤ) + 48

/-- The format with its conversions replaced. A conversion whose array is missing stays. -/
def expected (a : Arguments) : List ℤ → ℕ → ℕ → List ℤ
  | [], _, _ => []
  | [c], _, _ => [c]
  | c :: d :: format, i, j =>
    if c = percent ∧ d = letterD then
      match a.n with
      | some n => decimalForm (n j) ++ expected a format i (j + 1)
      | none => c :: d :: expected a format i j
    else if c = percent ∧ d = letterS then
      match a.s with
      | some s => s i ++ expected a format (i + 1) j
      | none => c :: d :: expected a format i j
    else c :: expected a (d :: format) i j

/-- The call returns, and prints what is asked for. -/
def Prints (a : Arguments) (kmalloc : ℕ → ℕ) (format : List ℤ) (before : ℤ) (m : Memory) : Prop :=
  ∃ fuel, printFF a kmalloc fuel format before m = some (expected a format 0 0)

/-- Every `'%'` that is not the last character has a meaning: another one follows, or a conversion
whose array is there, and `putNumber` can print the number. -/
def Understood (sGiven : Bool) (n : Option (ℕ → ℤ)) : List ℤ → ℕ → Prop
  | [], _ => True
  | [_], _ => True
  | c :: d :: format, j =>
    if c = percent then
      if d = percent then Understood sGiven n (d :: format) j
      else if d = letterD then
        (∃ k, n = some k ∧ k j ≠ intMin) ∧ Understood sGiven n format (j + 1)
      else if d = letterS then sGiven = true ∧ Understood sGiven n format j
      else False
    else Understood sGiven n (d :: format) j

/-! ### One character -/

/-- The loop ends and has printed `out`. -/
def Runs (a : Arguments) (kmalloc : ℕ → ℕ) (state : State) (format : List ℤ) (last : ℤ) (i j : ℕ)
    (m : Memory) (out : List ℤ) : Prop :=
  ∃ fuel, formatLoop a kmalloc fuel state format last i j m = some out

section

variable {a : Arguments} {kmalloc : ℕ → ℕ} {state : State} {format : List ℤ} {c last : ℤ}
  {i j : ℕ} {m : Memory} {out : List ℤ}

theorem runs_iff : Runs a kmalloc state format last i j m out ↔
    ∃ fuel, formatLoop a kmalloc (fuel + 1) state format last i j m = some out := by
  constructor
  · rintro ⟨fuel, h⟩
    cases fuel with
    | zero => cases h
    | succ fuel => exact ⟨fuel, h⟩
  · rintro ⟨fuel, h⟩
    exact ⟨fuel + 1, h⟩

/-! One turn of the loop in each state. -/

theorem formatLoop_nil (fuel : ℕ) : formatLoop a kmalloc (fuel + 1) state [] last i j m =
    some (if last = percent then [percent] else []) := by
  cases state <;> rfl

theorem formatLoop_letter (fuel : ℕ) :
    formatLoop a kmalloc (fuel + 1) .letter (c :: format) last i j m =
      if c = percent then formatLoop a kmalloc fuel .format format c i j m
      else (formatLoop a kmalloc fuel .letter format c i j m).map (c :: ·) := rfl

theorem formatLoop_number {n : ℕ → ℤ} (hn : a.n = some n) (fuel : ℕ) :
    formatLoop a kmalloc (fuel + 1) .format (letterD :: format) last i j m =
      (putNumber (n j) (kmalloc j) m).bind fun r =>
        (formatLoop a kmalloc fuel .letter format letterD i (j + 1) r.2).map (r.1 ++ ·) := by
  show (match if letterD = letterD then a.n else none with
    | some n => _
    | none => _) = _
  rw [if_pos rfl, hn]
  rfl

theorem formatLoop_other (hd : c = letterD → a.n = none) (fuel : ℕ) :
    formatLoop a kmalloc (fuel + 1) .format (c :: format) last i j m =
      if c = letterS then
        match a.s with
        | some s => (formatLoop a kmalloc fuel .letter format c (i + 1) j m).map (s i ++ ·)
        | none => formatLoop a kmalloc fuel .format (c :: format) last i j m
      else (formatLoop a kmalloc fuel .format format c i j m).map (percent :: ·) := by
  have harray : (if c = letterD then a.n else none) = none := ite_eq_right_iff.mpr hd
  show (match if c = letterD then a.n else none with
    | some n => _
    | none => _) = _
  rw [harray]

theorem runs_nil : Runs a kmalloc state [] last i j m out ↔
    out = if last = percent then [percent] else [] := by
  rw [runs_iff]
  simp [formatLoop_nil, eq_comm]

theorem exists_map_eq {α β : Type*} {f : ℕ → Option α} {g : α → β} {b : β} :
    (∃ fuel, (f fuel).map g = some b) ↔ ∃ x, (∃ fuel, f fuel = some x) ∧ b = g x := by
  simp only [Option.map_eq_some_iff]
  constructor
  · rintro ⟨fuel, x, hx, rfl⟩
    exact ⟨x, ⟨fuel, hx⟩, rfl⟩
  · rintro ⟨x, ⟨fuel, hx⟩, rfl⟩
    exact ⟨fuel, x, hx, rfl⟩

theorem runs_letter (hc : c ≠ percent) : Runs a kmalloc .letter (c :: format) last i j m out ↔
    ∃ rest, Runs a kmalloc .letter format c i j m rest ∧ out = c :: rest := by
  rw [runs_iff]
  simp only [formatLoop_letter, if_neg hc]
  exact exists_map_eq

theorem runs_percent : Runs a kmalloc .letter (percent :: format) last i j m out ↔
    Runs a kmalloc .format format percent i j m out := by
  rw [runs_iff]
  simp only [formatLoop_letter, if_true]
  rfl

theorem runs_number {n : ℕ → ℤ} (hn : a.n = some n) (hlo : intMin ≤ n j) (hhi : n j ≤ intMax) :
    Runs a kmalloc .format (letterD :: format) last i j m out ↔
      ∃ m' rest, Runs a kmalloc .letter format letterD i (j + 1) m' rest ∧
        putNumber (n j) (kmalloc j) m = some (decimal (n j), m') ∧
          out = decimal (n j) ++ rest := by
  obtain ⟨m', hput⟩ := putNumber_eq hlo hhi (kmalloc j) m
  have hstep : ∀ fuel, formatLoop a kmalloc (fuel + 1) .format (letterD :: format) last i j m =
      (formatLoop a kmalloc fuel .letter format letterD i (j + 1) m').map
        (decimal (n j) ++ ·) := by
    intro fuel
    rw [formatLoop_number hn, hput, Option.bind_some]
  rw [runs_iff]
  simp only [hstep, exists_map_eq]
  constructor
  · rintro ⟨rest, hrest, hout⟩
    exact ⟨m', rest, hrest, hput, hout⟩
  · rintro ⟨m'', rest, hrest, hput', hout⟩
    rw [hput, Option.some_inj, Prod.mk.injEq] at hput'
    rw [← hput'.2] at hrest
    exact ⟨rest, hrest, hout⟩

theorem runs_text {s : ℕ → List ℤ} (hs : a.s = some s) :
    Runs a kmalloc .format (letterS :: format) last i j m out ↔
      ∃ rest, Runs a kmalloc .letter format letterS (i + 1) j m rest ∧ out = s i ++ rest := by
  have hne : letterS ≠ letterD := by decide
  rw [runs_iff]
  simp only [formatLoop_other fun h => absurd h hne, hs, if_true]
  exact exists_map_eq

/-- Without texts the loop does not leave `'s'`. -/
theorem not_runs_text (hs : a.s = none) :
    ¬ Runs a kmalloc .format (letterS :: format) last i j m out := by
  have hne : letterS ≠ letterD := by decide
  rintro ⟨fuel, h⟩
  induction fuel with
  | zero => cases h
  | succ fuel ih =>
    rw [formatLoop_other fun h => absurd h hne, if_pos rfl, hs] at h
    exact ih h

/-- Any other character is replaced by a `'%'`, and the state stays. -/
theorem runs_other (hs : c ≠ letterS) (hd : c = letterD → a.n = none) :
    Runs a kmalloc .format (c :: format) last i j m out ↔
      ∃ rest, Runs a kmalloc .format format c i j m rest ∧ out = percent :: rest := by
  have hstep : ∀ fuel, formatLoop a kmalloc (fuel + 1) .format (c :: format) last i j m =
      (formatLoop a kmalloc fuel .format format c i j m).map (percent :: ·) := by
    intro fuel
    rw [formatLoop_other hd, if_neg hs]
  rw [runs_iff]
  simp only [hstep]
  exact exists_map_eq

end

/-! ### The expected output -/

section

variable {a : Arguments} {format : List ℤ} {c : ℤ} {i j : ℕ}

/-- The first two characters of the format. -/
theorem expected_cons_cons (d : ℤ) : expected a (c :: d :: format) i j =
    if c = percent ∧ d = letterD then
      match a.n with
      | some n => decimalForm (n j) ++ expected a format i (j + 1)
      | none => c :: d :: expected a format i j
    else if c = percent ∧ d = letterS then
      match a.s with
      | some s => s i ++ expected a format (i + 1) j
      | none => c :: d :: expected a format i j
    else c :: expected a (d :: format) i j := rfl

theorem expected_cons (hc : c ≠ percent) :
    expected a (c :: format) i j = c :: expected a format i j := by
  cases format with
  | nil => rfl
  | cons d format =>
    rw [expected_cons_cons, if_neg (fun h => hc h.1), if_neg (fun h => hc h.1)]

theorem expected_percent (hd : c ≠ letterD) (hs : c ≠ letterS) :
    expected a (percent :: c :: format) i j = percent :: expected a (c :: format) i j := by
  rw [expected_cons_cons, if_neg (fun h => hd h.2), if_neg (fun h => hs h.2)]

theorem expected_number {n : ℕ → ℤ} (hn : a.n = some n) :
    expected a (percent :: letterD :: format) i j =
      decimalForm (n j) ++ expected a format i (j + 1) := by
  rw [expected_cons_cons, if_pos ⟨rfl, rfl⟩, hn]

theorem expected_number_none (hn : a.n = none) :
    expected a (percent :: letterD :: format) i j =
      percent :: letterD :: expected a format i j := by
  rw [expected_cons_cons, if_pos ⟨rfl, rfl⟩, hn]

theorem expected_text {s : ℕ → List ℤ} (hs : a.s = some s) :
    expected a (percent :: letterS :: format) i j = s i ++ expected a format (i + 1) j := by
  rw [expected_cons_cons, if_neg (by decide), if_pos ⟨rfl, rfl⟩, hs]

end

/-! ### Formats that are understood -/

theorem decimal_eq_decimalForm {n : ℤ} (hne : n ≠ intMin) : decimal n = decimalForm n := by
  have hchar : ∀ d < 10, digitChar (d : ℕ) = (d : ℤ) + 48 := by decide
  rw [decimal, decimalForm, digitSign, if_neg hne]
  congr 1
  refine List.map_congr_left fun d hd => ?_
  rw [one_mul]
  exact hchar d (numeral_lt (by norm_num) hd)

/-- The range of the array of numbers. -/
def InRange (n : Option (ℕ → ℤ)) : Prop := ∀ k, n = some k → ∀ j, intMin ≤ k j ∧ k j ≤ intMax

theorem runs_expected {a : Arguments} (hrange : InRange a.n) (kmalloc : ℕ → ℕ) (format : List ℤ) :
    ∀ last i j m, Understood a.s.isSome a.n format j → (format = [] → last ≠ percent) →
      Runs a kmalloc .letter format last i j m (expected a format i j) := by
  induction format using List.twoStepInduction with
  | nil =>
    intro last i j m _ hlast
    rw [runs_nil, if_neg (hlast rfl)]
    rfl
  | singleton c =>
    intro last i j m _ _
    by_cases hc : c = percent
    · rw [hc, runs_percent, runs_nil, if_pos rfl]
      rfl
    · rw [runs_letter hc]
      refine ⟨[], ?_, rfl⟩
      rw [runs_nil, if_neg hc]
  | cons_cons c d format ih ihcons =>
    intro last i j m hunder _
    unfold Understood at hunder
    split_ifs at hunder with hc hp hd hs
    · -- The second sign is printed, and the loop goes on as after the first one.
      rw [hc, hp, runs_percent, runs_other (by decide) (fun h => absurd h (by decide)),
        expected_percent (by decide) (by decide)]
      rw [hp] at hunder
      have hrest := ihcons percent percent i j m hunder (by simp)
      rw [runs_percent] at hrest
      exact ⟨_, hrest, rfl⟩
    · obtain ⟨⟨n, hn, hmin⟩, hunder⟩ := hunder
      obtain ⟨hlo, hhi⟩ := hrange n hn j
      obtain ⟨m', hput⟩ := putNumber_eq hlo hhi (kmalloc j) m
      rw [hc, hd, runs_percent, runs_number hn hlo hhi, expected_number hn,
        ← decimal_eq_decimalForm hmin]
      exact ⟨m', _, ih letterD i (j + 1) m' hunder (fun _ => by decide), hput, rfl⟩
    · obtain ⟨s, hsome⟩ := Option.isSome_iff_exists.mp hunder.1
      rw [hc, hs, runs_percent, runs_text hsome, expected_text hsome]
      exact ⟨_, ih letterS (i + 1) j m hunder.2 (fun _ => by decide), rfl⟩
    · rw [runs_letter hc, expected_cons hc]
      exact ⟨_, ihcons d c i j m hunder (by simp), rfl⟩

/-! ### Formats that are not -/

theorem letterD_not_mem_decimal (n : ℤ) : letterD ∉ decimal n := by
  intro hmem
  have hchar : ∀ d < 10,
      digitChar (1 * (d : ℕ)) ≠ letterD ∧ digitChar (-1 * (d : ℕ)) ≠ letterD := by
    decide
  rcases mem_decimal hmem with hminus | ⟨d, hd, hone | hneg⟩
  · exact absurd hminus (by decide)
  · exact (hchar d hd).1 hone
  · exact (hchar d hd).2 hneg

section

variable {a : Arguments} {kmalloc : ℕ → ℕ}

theorem count_decimal (n : ℤ) (l : List ℤ) :
    (decimal n ++ l).count letterD = l.count letterD := by
  rw [List.count_append, List.count_eq_zero_of_not_mem (letterD_not_mem_decimal n), Nat.zero_add]

/-- A `'d'` is printed only where one is expected. In the state `FORMAT` this holds whether a
`'%'` is still to be printed or not. -/
theorem count_le (hrange : InRange a.n) (hs : ∀ s, a.s = some s → ∀ k, letterD ∉ s k)
    (format : List ℤ) : ∀ state last i j m out i' j',
      Runs a kmalloc state format last i j m out →
        out.count letterD ≤ (expected a format i' j').count letterD ∧
          (state = .format →
            out.count letterD ≤ (expected a (percent :: format) i' j').count letterD) := by
  have hpercent : ∀ l : List ℤ, (percent :: l).count letterD = l.count letterD :=
    fun l => List.count_cons_of_ne (by decide)
  have hletter : ∀ l : List ℤ, (letterD :: l).count letterD = l.count letterD + 1 :=
    fun l => List.count_cons_self
  induction format with
  | nil =>
    intro state last i j m out i' j' hrun
    rw [runs_nil] at hrun
    have hzero : out.count letterD = 0 := by
      rw [hrun]
      split_ifs
      · rfl
      · rfl
    rw [hzero]
    exact ⟨Nat.zero_le _, fun _ => Nat.zero_le _⟩
  | cons c format ih =>
    intro state last i j m out i' j' hrun
    cases state with
    | letter =>
      refine ⟨?_, fun h => by cases h⟩
      by_cases hc : c = percent
      · rw [hc, runs_percent] at hrun
        rw [hc]
        exact (ih _ _ _ _ _ _ i' j' hrun).2 rfl
      · obtain ⟨rest, hrest, rfl⟩ := (runs_letter hc).mp hrun
        rw [expected_cons hc, List.count_cons, List.count_cons]
        exact Nat.add_le_add_right (ih _ _ _ _ _ _ i' j' hrest).1 _
    | format =>
      by_cases hd : c = letterD
      · subst hd
        have hne : letterD ≠ percent := by decide
        cases hn : a.n with
        | none =>
          obtain ⟨rest, hrest, rfl⟩ := (runs_other (by decide) fun _ => hn).mp hrun
          have hle := (ih _ _ _ _ _ _ i' j' hrest).1
          rw [expected_cons hne, expected_number_none hn, hpercent, hpercent, hletter]
          exact ⟨by omega, fun _ => by omega⟩
        | some n =>
          obtain ⟨hlo, hhi⟩ := hrange n hn j
          obtain ⟨m', rest, hrest, -, rfl⟩ := (runs_number hn hlo hhi).mp hrun
          have hle := (ih _ _ _ _ _ _ i' j' hrest).1
          have hle' := (ih _ _ _ _ _ _ i' (j' + 1) hrest).1
          rw [expected_cons hne, expected_number hn, count_decimal, hletter, List.count_append]
          exact ⟨by omega, fun _ => by omega⟩
      by_cases hs' : c = letterS
      · subst hs'
        have hne : letterS ≠ percent := by decide
        cases htext : a.s with
        | none => exact absurd hrun (not_runs_text htext)
        | some s =>
          obtain ⟨rest, hrest, rfl⟩ := (runs_text htext).mp hrun
          have hle := (ih _ _ _ _ _ _ i' j' hrest).1
          have hle' := (ih _ _ _ _ _ _ (i' + 1) j' hrest).1
          rw [expected_cons hne, expected_text htext, List.count_append, List.count_append,
            List.count_eq_zero_of_not_mem (hs s htext i), List.count_cons_of_ne (by decide)]
          exact ⟨by omega, fun _ => by omega⟩
      obtain ⟨rest, hrest, rfl⟩ := (runs_other hs' fun h => absurd h hd).mp hrun
      have hle := ih _ _ _ _ _ _ i' j' hrest
      rw [expected_percent hd hs', hpercent, hpercent]
      by_cases hc : c = percent
      · rw [hc]
        exact ⟨hle.2 rfl, fun _ => hle.2 rfl⟩
      · rw [expected_cons hc, List.count_cons_of_ne hd]
        exact ⟨hle.1, fun _ => hle.1⟩

/-- What `putNumber` makes of the least value is not its decimal form. -/
theorem decimal_intMin_append (l l' : List ℤ) :
    decimalForm intMin ++ l ≠ decimal intMin ++ l' := by
  intro heq
  have hlength : (decimalForm intMin).length = (decimal intMin).length := by
    simp only [decimalForm, decimal, List.length_append, List.length_map]
  have htext := (List.append_inj heq hlength).1
  rw [decimalForm, decimal, List.append_cancel_left_eq] at htext
  have hchar : ∀ d : ℕ, d < 10 → (d : ℤ) + 48 = digitChar (-1 * d) → d = 0 := by decide
  obtain ⟨d, l, hl, hd⟩ := numeral_head 10 (n := intMin.natAbs) (by decide)
  have hlt : d < 10 := numeral_lt (by norm_num) (hl ▸ List.mem_cons_self)
  rw [hl, List.map_cons, List.map_cons, List.cons.injEq] at htext
  exact hd (hchar d hlt htext.1)

theorem letterD_not_mem_texts (hs : ∀ s, a.s = some s → s = fun _ => [percent]) :
    ∀ s, a.s = some s → ∀ k, letterD ∉ s k := by
  intro s hsome k
  rw [hs s hsome]
  exact (by decide : letterD ∉ [percent])

/-- A `'%'` that has no meaning is not printed right. Here every text is a `'%'`: it cannot be
taken for the character that is missing. -/
theorem not_runs_unknown (hrange : InRange a.n)
    (hs : ∀ s, a.s = some s → s = fun _ => [percent]) {c : ℤ} (hc : c ≠ percent)
    (hd : c ≠ letterD) (format : List ℤ) (i j : ℕ) (m : Memory) :
    ¬ Runs a kmalloc .format format c i j m (c :: expected a format i j) := by
  have hfree := letterD_not_mem_texts hs
  intro hrun
  cases format with
  | nil =>
    rw [runs_nil, if_neg hc] at hrun
    exact List.cons_ne_nil _ _ hrun
  | cons e format =>
    by_cases he : e = letterD ∧ a.n ≠ none
    · -- The number takes the place of the character and of the `'d'`.
      obtain ⟨n, hn⟩ := Option.ne_none_iff_exists'.mp he.2
      obtain ⟨hlo, hhi⟩ := hrange n hn j
      rw [he.1, runs_number hn hlo hhi] at hrun
      obtain ⟨m', rest, hrest, -, hout⟩ := hrun
      have hle := (count_le hrange hfree format _ _ _ _ _ _ i j hrest).1
      have hcount := congrArg (List.count letterD) hout
      rw [expected_cons (by decide), count_decimal, List.count_cons_of_ne hd,
        List.count_cons_self] at hcount
      omega
    have hhead : ∃ rest, c :: expected a (e :: format) i j = percent :: rest := by
      by_cases hs' : e = letterS
      · rw [hs'] at hrun
        cases htext : a.s with
        | none => exact absurd hrun (not_runs_text htext)
        | some s =>
          obtain ⟨rest, -, hout⟩ := (runs_text htext).mp hrun
          rw [hs s htext] at hout
          rw [hs']
          exact ⟨rest, hout⟩
      · obtain ⟨rest, -, hout⟩ := (runs_other hs' fun h => not_not.mp fun hn => he ⟨h, hn⟩).mp hrun
        exact ⟨rest, hout⟩
    obtain ⟨rest, hhead⟩ := hhead
    exact hc (List.cons.inj hhead).1

theorem understood_of_runs (hrange : InRange a.n)
    (hs : ∀ s, a.s = some s → s = fun _ => [percent]) (format : List ℤ) :
    ∀ last i j m, Runs a kmalloc .letter format last i j m (expected a format i j) →
      Understood a.s.isSome a.n format j := by
  have hfree := letterD_not_mem_texts hs
  induction format using List.twoStepInduction with
  | nil => exact fun _ _ _ _ _ => trivial
  | singleton c => exact fun _ _ _ _ _ => trivial
  | cons_cons c d format ih ihcons =>
    intro last i j m hrun
    unfold Understood
    split_ifs with hc hp hd hs'
    · rw [hc, hp, runs_percent, runs_other (by decide) (fun h => absurd h (by decide)),
        expected_percent (by decide) (by decide)] at hrun
      obtain ⟨rest, hrest, hout⟩ := hrun
      rw [← (List.cons.inj hout).2] at hrest
      rw [hp]
      exact ihcons percent percent i j m (runs_percent.mpr hrest)
    · rw [hc, hd, runs_percent] at hrun
      cases hn : a.n with
      | none =>
        -- The `'d'` is not printed.
        obtain ⟨rest, hrest, hout⟩ := (runs_other (by decide) fun _ => hn).mp hrun
        rw [expected_number_none hn, List.cons.injEq] at hout
        have hle := (count_le hrange hfree format _ _ _ _ _ _ i j hrest).1
        rw [← hout.2, List.count_cons_self] at hle
        omega
      | some n =>
        obtain ⟨hlo, hhi⟩ := hrange n hn j
        obtain ⟨m', rest, hrest, -, hout⟩ := (runs_number hn hlo hhi).mp hrun
        rw [expected_number hn] at hout
        have hmin : n j ≠ intMin := by
          intro hmin
          rw [hmin] at hout
          exact decimal_intMin_append _ _ hout
        rw [decimal_eq_decimalForm hmin, List.append_cancel_left_eq] at hout
        rw [← hout] at hrest
        rw [← hn]
        exact ⟨⟨n, hn, hmin⟩, ih _ _ _ _ hrest⟩
    · rw [hc, hs', runs_percent] at hrun
      cases htext : a.s with
      | none => exact absurd hrun (not_runs_text htext)
      | some s =>
        obtain ⟨rest, hrest, hout⟩ := (runs_text htext).mp hrun
        rw [expected_text htext, List.append_cancel_left_eq] at hout
        rw [← hout] at hrest
        rw [← htext]
        exact ⟨by rw [htext]; rfl, ih _ _ _ _ hrest⟩
    · rw [hc, runs_percent, runs_other hs' (fun h => absurd h hd), expected_percent hd hs',
        expected_cons hp] at hrun
      obtain ⟨rest, hrest, hout⟩ := hrun
      rw [← (List.cons.inj hout).2] at hrest
      exact not_runs_unknown hrange hs hp hd format i j m hrest
    · rw [runs_letter hc, expected_cons hc] at hrun
      obtain ⟨rest, hrest, hout⟩ := hrun
      rw [← (List.cons.inj hout).2] at hrest
      exact ihcons d c i j m hrest

end

/-- A format with `"%x"` loses the letter. -/
theorem printFF_unknown_specifier :
    ¬ Prints ⟨none, none⟩ (fun _ => 100) [percent, 120] 0 (fun _ => 0) := by
  intro hprints
  have hrun : Runs ⟨none, none⟩ (fun _ => 100) .letter [percent, 120] 0 0 0 (fun _ => 0)
    (expected ⟨none, none⟩ [percent, 120] 0 0) := hprints
  have hunder := understood_of_runs (fun _ h => by cases h) (fun _ h => by cases h) _ _ _ _ _ hrun
  revert hunder
  simp [Understood, percent, letterD, letterS]

/-- Whatever the texts are, the output is right, exactly when the format is understood and the
byte in front of an empty format is not a `'%'`. -/
theorem printFF_prints_iff {n : Option (ℕ → ℤ)} (hrange : InRange n) (sGiven : Bool)
    (kmalloc : ℕ → ℕ) (format : List ℤ) (before : ℤ) (m : Memory) :
    (∀ texts : ℕ → List ℤ, (∀ k, 0 ∉ texts k) →
      Prints ⟨if sGiven then some texts else none, n⟩ kmalloc format before m) ↔
        Understood sGiven n format 0 ∧ (format = [] → before ≠ percent) := by
  have hgiven : ∀ texts : ℕ → List ℤ,
      (if sGiven then some texts else none).isSome = sGiven := by
    intro texts
    cases sGiven with
    | false => rfl
    | true => rfl
  constructor
  · intro hprints
    have hrun := hprints (fun _ => [percent]) fun _ => by decide
    constructor
    · have hunder := understood_of_runs hrange (fun s hs => ?_) format before 0 0 m hrun
      · rwa [hgiven] at hunder
      · cases sGiven with
        | false => cases hs
        | true => exact (Option.some.inj hs).symm
    · rintro rfl hbefore
      have hout := runs_nil.mp hrun
      rw [if_pos hbefore] at hout
      exact List.cons_ne_nil _ _ hout.symm
  · rintro ⟨hunder, hbefore⟩ texts -
    exact runs_expected hrange kmalloc format before 0 0 m (by rw [hgiven]; exact hunder) hbefore

theorem printFF_prints_iff_seven :
    (∀ texts : ℕ → List ℤ, (∀ k, 0 ∉ texts k) →
      Prints ⟨if true then some texts else none, some fun _ => 7⟩ (fun _ => 100)
        [letterS, percent, letterD] 0 fun _ => 0) ↔
      Understood true (some fun _ => 7) [letterS, percent, letterD] 0 ∧
        ([letterS, percent, letterD] = [] → 0 ≠ percent) :=
  printFF_prints_iff (fun k hk j => by cases hk; exact (by decide : intMin ≤ 7 ∧ 7 ≤ intMax)) true
    (fun _ => 100) [letterS, percent, letterD] 0 fun _ => 0

end GatOS.FormattedOutput
