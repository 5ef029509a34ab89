import GatOS.FormattedOutput

/-!
# Line input

`scanFF` (`stdio.c` of the user programs). The characters come from `getchar`, which waits until
there is one. What `scanFF` does between two of them is one step here, so that the memory can be
looked at while a line is typed.
-/
namespace GatOS.LineInput

open MachineInt Numerals NumberText FormattedOutput

def bufferSize : ℕ := 100

def newline : ℤ := 10

def backspace : ℤ := 8

/-- Where `scanFF` is. -/
inductive Place
  /-- The state `LETTER`. -/
  | letter
  /-- The loop that passes over the character of the format. -/
  | skip
  /-- The state `FORMAT`. -/
  | format
  /-- The loop that stores a line. -/
  | line
  | returned
  deriving DecidableEq

/-- The arguments. `none` is the null pointer, `s i` is an address. -/
structure Arguments where
  s : Option (ℕ → ℕ)
  n : Option (ℕ → ℤ)

/-- The variables of `scanFF`. `read` counts the characters that `getchar` has returned, `numbers`
the elements of `n` that have been passed, and `printed` is what `putNumber` has printed. -/
structure Scan where
  place : Place
  format : List ℤ
  read : ℕ
  indexS : ℕ
  numbers : ℕ
  string : ℕ
  bufferindex : ℤ
  memory : Memory
  printed : List ℤ

namespace Scan

/-- The end of the loop that stores a line: the character has been read. -/
def close (st : Scan) : Scan :=
  { st with
    memory := Function.update st.memory st.string 0
    place := .letter
    format := st.format.tail
    read := st.read + 1 }

/-- The last position of the line is given up, if there is one. -/
def rubOut (st : Scan) : Scan :=
  if st.bufferindex ≠ 0 then
    { st with string := st.string - 1, bufferindex := st.bufferindex - 1, read := st.read + 1 }
  else { st with read := st.read + 1 }

def store (c : ℤ) (st : Scan) : Scan :=
  { st with
    memory := Function.update st.memory st.string c
    string := st.string + 1
    bufferindex := st.bufferindex + 1
    read := st.read + 1 }

end Scan

/-- One turn of the inner loop of `%s`. -/
def lineStep (c : ℤ) (st : Scan) : Scan :=
  if c = newline then st.close
  else if c = backspace then st.rubOut
  else if st.bufferindex = bufferSize then st.close
  else st.store c

/-- One step of `scanFF`. `getchar k` is the character number `k`, `malloc j` the buffer of
`putNumber` for the number `j`. -/
def step (a : Arguments) (malloc : ℕ → ℕ) (getchar : ℕ → ℤ) (st : Scan) : Scan :=
  match st.place, st.format with
  | .returned, _ => st
  | .line, _ => lineStep (getchar st.read) st
  | _, [] => { st with place := .returned }
  | .letter, c :: format =>
    if c = percent then { st with place := .format, format := format }
    else { st with place := .skip }
  | .skip, c :: format =>
    if getchar st.read = c then { st with read := st.read + 1 }
    else { st with place := .letter, format := format, read := st.read + 1 }
  | .format, c :: format =>
    match if c = letterD then a.n else none with
    | some n =>
      match putNumber (n st.numbers) (malloc st.numbers) st.memory with
      | some (text, memory) =>
        { st with
          place := .letter
          format := format
          numbers := st.numbers + 1
          memory := memory
          printed := st.printed ++ text }
      | none => st
    | none =>
      match if c = letterS then a.s else none with
      | some s =>
        { st with
          place := .line
          string := s st.indexS
          indexS := st.indexS + 1
          bufferindex := 0 }
      -- No branch is taken, for ever.
      | none => st

/-- `bufferindex` has no value at first. -/
def start (format : List ℤ) (bufferindex : ℤ) (m : Memory) : Scan :=
  { place := .letter
    format := format
    read := 0
    indexS := 0
    numbers := 0
    string := 0
    bufferindex := bufferindex
    memory := m
    printed := [] }

/-- The call after a number of steps. -/
def scanFF (a : Arguments) (malloc : ℕ → ℕ) (getchar : ℕ → ℤ) (format : List ℤ) (garbage : ℤ)
    (m : Memory) (steps : ℕ) : Scan :=
  (step a malloc getchar)^[steps] (start format garbage m)

/-- What `scanFF` returns. -/
def Scan.result (st : Scan) : ℤ := if st.bufferindex = bufferSize then 1 else 0

/-! ### The line that is asked for -/

/-- A line with one more character. -/
def type (text : List ℤ) (c : ℤ) : List ℤ := if c = backspace then text.dropLast else text ++ [c]

/-- The line that the first `k` characters make. -/
def typed (getchar : ℕ → ℤ) : ℕ → List ℤ
  | 0 => []
  | k + 1 => type (typed getchar k) (getchar k)

/-- The line ends at the character `p`. -/
def EndsAt (getchar : ℕ → ℤ) (p : ℕ) : Prop :=
  getchar p = newline ∧ ∀ k < p, getchar k ≠ newline

/-- `scanFF("%s", s, n)`. -/
def scanString (s : ℕ → ℕ) (n : Option (ℕ → ℤ)) (malloc : ℕ → ℕ) (getchar : ℕ → ℤ) (garbage : ℤ)
    (m : Memory) (steps : ℕ) : Scan :=
  scanFF ⟨some s, n⟩ malloc getchar [percent, letterS] garbage m steps

/-- What is asked of `scanFF("%s", s, n)`, where `s[0]` points to a buffer of `capacity` bytes. -/
structure ReadsLine (s : ℕ → ℕ) (n : Option (ℕ → ℤ)) (malloc : ℕ → ℕ) (getchar : ℕ → ℤ)
    (garbage : ℤ) (capacity : ℕ) : Prop where
  inside : ∀ m steps i, i < s 0 ∨ s 0 + capacity ≤ i →
    (scanString s n malloc getchar garbage m steps).memory i = m i
  line : ∀ m p, EndsAt getchar p → ∃ steps,
    let st := scanString s n malloc getchar garbage m steps
    st.place = .returned ∧
      IsString st.memory (s 0) ((typed getchar p).take bufferSize) ∧
      (st.result = 0 ↔ st.read = p + 1 ∧ IsString st.memory (s 0) (typed getchar p))
  cut : ∀ m steps, (∀ p, getchar p ≠ newline) →
    let st := scanString s n malloc getchar garbage m steps
    st.place = .returned → st.result = 1

/-! ### When the code does it -/

/-- The line goes on up to the character `k` and never gets longer than the limit. -/
def Going (getchar : ℕ → ℤ) (k : ℕ) : Prop :=
  ∀ j < k, getchar j ≠ newline ∧ (typed getchar (j + 1)).length ≤ bufferSize

/-- There is room for all that is stored, the line does not end with exactly the limit, and a line
that gets longer keeps the characters that it had then. -/
structure Suits (getchar : ℕ → ℤ) (capacity : ℕ) : Prop where
  room : ∀ k, Going getchar k → (typed getchar k).length ≤ capacity
  ended : ∀ k, Going getchar k → getchar k = newline →
    (typed getchar k).length < capacity ∧ (typed getchar k).length ≠ bufferSize
  full : ∀ k, Going getchar k → getchar k ≠ newline → getchar k ≠ backspace →
    (typed getchar k).length = bufferSize →
    bufferSize < capacity ∧
      ∀ p, EndsAt getchar p → (typed getchar p).take bufferSize = typed getchar k

/-! ### The line that has been typed -/

section

variable {getchar : ℕ → ℤ} {k : ℕ}

theorem typed_backspace (h : getchar k = backspace) :
    typed getchar (k + 1) = (typed getchar k).dropLast := by
  rw [typed, type, if_pos h]

theorem typed_char (h : getchar k ≠ backspace) :
    typed getchar (k + 1) = typed getchar k ++ [getchar k] := by
  rw [typed, type, if_neg h]

theorem zero_not_mem_typed (h : ∀ k, getchar k ≠ 0) (k : ℕ) : 0 ∉ typed getchar k := by
  induction k with
  | zero => exact List.not_mem_nil
  | succ k ih =>
    rw [typed, type]
    split_ifs
    · exact fun hmem => ih (List.dropLast_subset _ hmem)
    · intro hmem
      cases List.mem_append.mp hmem with
      | inl hmem => exact ih hmem
      | inr hmem => exact h k (List.mem_singleton.mp hmem).symm

theorem going_zero : Going getchar 0 := fun j hj => absurd hj (Nat.not_lt_zero j)

theorem going_succ : Going getchar (k + 1) ↔
    Going getchar k ∧ getchar k ≠ newline ∧ (typed getchar (k + 1)).length ≤ bufferSize := by
  constructor
  · exact fun h => ⟨fun j hj => h j (by omega), h k (Nat.lt_succ_self k)⟩
  · rintro ⟨h, hk⟩ j hj
    cases Nat.lt_succ_iff_lt_or_eq.mp hj with
    | inl hlt => exact h j hlt
    | inr heq => rwa [heq]

theorem Going.length_le (h : Going getchar k) : (typed getchar k).length ≤ bufferSize := by
  cases k with
  | zero => exact Nat.zero_le _
  | succ k => exact (going_succ.mp h).2.2

theorem Going.mono (h : Going getchar k) {j : ℕ} (hj : j ≤ k) : Going getchar j :=
  fun i hi => h i (by omega)

/-- The loop ends when it reads the character `k`. -/
def Stops (getchar : ℕ → ℤ) (k : ℕ) : Prop :=
  getchar k = newline ∨
    getchar k ≠ newline ∧ getchar k ≠ backspace ∧ (typed getchar k).length = bufferSize

theorem going_or_stops (getchar : ℕ → ℤ) (k : ℕ) :
    Going getchar k ∨ ∃ j < k, Going getchar j ∧ Stops getchar j := by
  induction k with
  | zero => exact Or.inl going_zero
  | succ k ih =>
    cases ih with
    | inr h =>
      obtain ⟨j, hj, h⟩ := h
      exact Or.inr ⟨j, by omega, h⟩
    | inl h =>
      by_cases hnew : getchar k = newline
      · exact Or.inr ⟨k, Nat.lt_succ_self k, h, Or.inl hnew⟩
      by_cases hlen : (typed getchar (k + 1)).length ≤ bufferSize
      · exact Or.inl (going_succ.mpr ⟨h, hnew, hlen⟩)
      · have hle := h.length_le
        have hback : getchar k ≠ backspace := by
          intro hback
          rw [typed_backspace hback, List.length_dropLast] at hlen
          omega
        rw [typed_char hback, List.length_append, List.length_singleton] at hlen
        exact Or.inr ⟨k, Nat.lt_succ_self k, h, Or.inr ⟨hnew, hback, by omega⟩⟩

end

/-! ### What is stored -/

/-- The bytes of the line, and no byte behind the longest line so far. -/
structure Stored (getchar : ℕ → ℤ) (buffer : ℕ) (m : Memory) (k : ℕ) (memory : Memory) : Prop where
  chars : ∀ i, (h : i < (typed getchar k).length) → memory (buffer + i) = (typed getchar k)[i]
  others : ∀ capacity, (∀ j ≤ k, (typed getchar j).length ≤ capacity) →
    ∀ i, i < buffer ∨ buffer + capacity ≤ i → memory i = m i

/-- The variables once `k` characters have been read. -/
def lineState (getchar : ℕ → ℤ) (buffer k : ℕ) (memory : Memory) : Scan :=
  { place := .line
    format := [letterS]
    read := k
    indexS := 1
    numbers := 0
    string := buffer + (typed getchar k).length
    bufferindex := (typed getchar k).length
    memory := memory
    printed := [] }

section

variable {getchar : ℕ → ℤ} {buffer k : ℕ} {m memory : Memory}

theorem stored_backspace (h : Stored getchar buffer m k memory) (hback : getchar k = backspace) :
    Stored getchar buffer m (k + 1) memory := by
  constructor
  · intro i hi
    rw [typed_backspace hback, List.length_dropLast] at hi
    simp only [typed_backspace hback, List.getElem_dropLast]
    exact h.chars i (by omega)
  · intro capacity hcap i hi
    exact h.others capacity (fun j hj => hcap j (by omega)) i hi

theorem stored_char (h : Stored getchar buffer m k memory) (hchar : getchar k ≠ backspace) :
    Stored getchar buffer m (k + 1)
      (Function.update memory (buffer + (typed getchar k).length) (getchar k)) := by
  constructor
  · intro i hi
    rw [typed_char hchar, List.length_append, List.length_singleton] at hi
    simp only [typed_char hchar]
    by_cases heq : i = (typed getchar k).length
    · subst heq
      rw [Function.update_self]
      simp
    · rw [Function.update_of_ne (by omega), List.getElem_append_left (by omega)]
      exact h.chars i (by omega)
  · intro capacity hcap i hi
    have hroom := hcap (k + 1) le_rfl
    rw [typed_char hchar, List.length_append, List.length_singleton] at hroom
    rw [Function.update_of_ne (by omega)]
    exact h.others capacity (fun j hj => hcap j (by omega)) i hi

/-- One character that does not end the line. -/
theorem lineStep_going (h : Stored getchar buffer m k memory) (hgoing : Going getchar (k + 1)) :
    ∃ memory', lineStep (getchar k) (lineState getchar buffer k memory) =
      lineState getchar buffer (k + 1) memory' ∧ Stored getchar buffer m (k + 1) memory' := by
  obtain ⟨_, hnew, hlen⟩ := going_succ.mp hgoing
  by_cases hback : getchar k = backspace
  · refine ⟨memory, ?_, stored_backspace h hback⟩
    rw [lineStep, if_neg hnew, if_pos hback]
    by_cases hzero : (typed getchar k).length = 0
    · simp [Scan.rubOut, lineState, typed_backspace hback, hzero]
    · have hpos : 1 ≤ (typed getchar k).length := Nat.pos_of_ne_zero hzero
      simp [Scan.rubOut, lineState, typed_backspace hback, hzero, Nat.add_sub_assoc hpos,
        Nat.cast_sub hpos]
  · refine ⟨_, ?_, stored_char h hback⟩
    rw [typed_char hback, List.length_append, List.length_singleton] at hlen
    have hindex : ((typed getchar k).length : ℤ) ≠ bufferSize := by omega
    rw [lineStep, if_neg hnew, if_neg hback]
    simp [Scan.store, lineState, typed_char hback, hindex, Nat.add_assoc]

end

/-! ### A call -/

section

variable {s : ℕ → ℕ} {n : Option (ℕ → ℤ)} {malloc : ℕ → ℕ} {getchar : ℕ → ℤ} {garbage : ℤ}
  {m : Memory} {k : ℕ}

theorem scanString_succ (steps : ℕ) : scanString s n malloc getchar garbage m (steps + 1) =
    step ⟨some s, n⟩ malloc getchar (scanString s n malloc getchar garbage m steps) :=
  Function.iterate_succ_apply' _ _ _

/-- The two characters of the format bring `scanFF` to the loop. -/
theorem scanString_two : scanString s n malloc getchar garbage m 2 =
    lineState getchar (s 0) 0 m := by
  rfl

variable (s n malloc garbage m) in
theorem scanString_going (h : Going getchar k) :
    ∃ memory, scanString s n malloc getchar garbage m (k + 2) =
      lineState getchar (s 0) k memory ∧ Stored getchar (s 0) m k memory := by
  induction k with
  | zero =>
    refine ⟨m, scanString_two, fun i hi => ?_, fun _ _ _ _ => rfl⟩
    exact absurd hi (Nat.not_lt_zero i)
  | succ k ih =>
    obtain ⟨memory, hstate, hstored⟩ := ih (going_succ.mp h).1
    obtain ⟨memory', hstep, hstored'⟩ := lineStep_going hstored h
    refine ⟨memory', ?_, hstored'⟩
    rw [Nat.add_right_comm, scanString_succ, hstate]
    exact hstep

/-- The variables when the call returns. -/
def finalState (getchar : ℕ → ℤ) (buffer k : ℕ) (memory : Memory) : Scan :=
  { (lineState getchar buffer k memory).close with place := .returned }

theorem lineStep_stops (h : Stops getchar k) (buffer : ℕ) (memory : Memory) :
    lineStep (getchar k) (lineState getchar buffer k memory) =
      (lineState getchar buffer k memory).close := by
  cases h with
  | inl hnew => rw [lineStep, if_pos hnew]
  | inr hfull =>
    obtain ⟨hnew, hback, hlen⟩ := hfull
    have hindex : (lineState getchar buffer k memory).bufferindex = bufferSize :=
      congrArg Nat.cast hlen
    rw [lineStep, if_neg hnew, if_neg hback, if_pos hindex]

variable (s n malloc garbage m) in
/-- After the last character the loop is left, and the call returns with the next step. -/
theorem scanString_stops (h : Going getchar k) (hstop : Stops getchar k) :
    ∃ memory, Stored getchar (s 0) m k memory ∧
      scanString s n malloc getchar garbage m (k + 3) =
        (lineState getchar (s 0) k memory).close ∧
      ∀ d, scanString s n malloc getchar garbage m (k + 4 + d) =
        finalState getchar (s 0) k memory := by
  obtain ⟨memory, hstate, hstored⟩ := scanString_going s n malloc garbage m h
  have hclose : scanString s n malloc getchar garbage m (k + 3) =
      (lineState getchar (s 0) k memory).close := by
    rw [scanString_succ, hstate]
    exact lineStep_stops hstop (s 0) memory
  refine ⟨memory, hstored, hclose, fun d => ?_⟩
  induction d with
  | zero =>
    rw [Nat.add_zero, scanString_succ, hclose]
    rfl
  | succ d ih =>
    rw [← Nat.add_assoc, scanString_succ, ih]
    rfl

theorem scanString_not_returned (h : Going getchar k) {steps : ℕ} (hle : steps ≤ k + 2) :
    (scanString s n malloc getchar garbage m steps).place ≠ .returned := by
  intro hret
  match steps with
  | 0 => cases hret
  | 1 => cases hret
  | j + 2 =>
    obtain ⟨memory, hstate, -⟩ := scanString_going s n malloc garbage m (h.mono (by omega : j ≤ k))
    rw [hstate] at hret
    cases hret

/-- A call that has returned has done so at the first character that ends the loop. -/
theorem scanString_returned (h : Going getchar k) (hstop : Stops getchar k) {steps : ℕ}
    (hret : (scanString s n malloc getchar garbage m steps).place = .returned) :
    ∃ memory, Stored getchar (s 0) m k memory ∧
      scanString s n malloc getchar garbage m steps = finalState getchar (s 0) k memory := by
  obtain ⟨memory, hstored, hclose, hfinal⟩ := scanString_stops s n malloc garbage m h hstop
  refine ⟨memory, hstored, ?_⟩
  by_cases hle : k + 4 ≤ steps
  · obtain ⟨d, rfl⟩ := Nat.exists_eq_add_of_le hle
    exact hfinal d
  exfalso
  by_cases heq : steps = k + 3
  · rw [heq, hclose] at hret
    cases hret
  · exact scanString_not_returned h (by omega) hret

theorem isString_final (hnul : ∀ k, getchar k ≠ 0) {memory : Memory} {buffer : ℕ}
    (h : Stored getchar buffer m k memory) :
    IsString (finalState getchar buffer k memory).memory buffer (typed getchar k) where
  chars := by
    intro i hi
    rw [← h.chars i hi]
    exact Function.update_of_ne (by show buffer + i ≠ buffer + _; omega) _ _
  nul := Function.update_self _ _ _
  nonzero := zero_not_mem_typed hnul k

theorem result_final {memory : Memory} {buffer : ℕ} :
    (finalState getchar buffer k memory).result = 0 ↔
      (typed getchar k).length ≠ bufferSize := by
  show (if ((typed getchar k).length : ℤ) = bufferSize then (1 : ℤ) else 0) = 0 ↔ _
  split_ifs with hlen
  · exact iff_of_false one_ne_zero fun h => h (Int.ofNat_inj.mp hlen)
  · exact iff_of_true rfl fun h => hlen (congrArg Nat.cast h)

theorem EndsAt.eq {p : ℕ} (hp : EndsAt getchar p) (h : Going getchar k)
    (hnew : getchar k = newline) : k = p := by
  by_contra hne
  cases Nat.lt_or_gt_of_ne hne with
  | inl hlt => exact hp.2 k hlt hnew
  | inr hlt => exact (h p hlt).1 hp.1

/-! ### The condition -/

theorem inside_of_suits {capacity : ℕ} (h : Suits getchar capacity) (steps : ℕ) {i : ℕ}
    (hi : i < s 0 ∨ s 0 + capacity ≤ i) :
    (scanString s n malloc getchar garbage m steps).memory i = m i := by
  match steps with
  | 0 => rfl
  | 1 => rfl
  | steps + 2 =>
    cases going_or_stops getchar steps with
    | inl hgoing =>
      obtain ⟨memory, hstate, hstored⟩ := scanString_going s n malloc garbage m hgoing
      rw [hstate]
      exact hstored.others capacity (fun j hj => h.room j (hgoing.mono hj)) i hi
    | inr hstops =>
      obtain ⟨j, hj, hgoing, hstop⟩ := hstops
      obtain ⟨memory, hstored, hclose, hfinal⟩ := scanString_stops s n malloc garbage m hgoing hstop
      have hroom : (typed getchar j).length < capacity := by
        cases hstop with
        | inl hnew => exact (h.ended j hgoing hnew).1
        | inr hfull =>
          obtain ⟨hnew, hback, hlen⟩ := hfull
          rw [hlen]
          exact (h.full j hgoing hnew hback hlen).1
      have hclosed : (lineState getchar (s 0) j memory).close.memory i = m i := by
        refine (Function.update_of_ne ?_ _ _).trans
          (hstored.others capacity (fun j' hj' => h.room j' (hgoing.mono hj')) i hi)
        show i ≠ s 0 + (typed getchar j).length
        omega
      by_cases heq : steps = j + 1
      · subst heq
        rw [hclose]
        exact hclosed
      · obtain ⟨d, hd⟩ := Nat.exists_eq_add_of_le (by omega : j + 4 ≤ steps + 2)
        rw [hd, hfinal]
        exact hclosed

theorem readsLine_of_suits (hnul : ∀ k, getchar k ≠ 0) {capacity : ℕ}
    (h : Suits getchar capacity) : ReadsLine s n malloc getchar garbage capacity where
  inside m steps i hi := inside_of_suits h steps hi
  line := by
    intro m p hp
    have hstops : ∃ j < p + 1, Going getchar j ∧ Stops getchar j :=
      (going_or_stops getchar (p + 1)).resolve_left fun hgoing =>
        (hgoing p (Nat.lt_succ_self p)).1 hp.1
    obtain ⟨j, hj, hgoing, hstop⟩ := hstops
    obtain ⟨memory, hstored, -, hfinal⟩ := scanString_stops s n malloc garbage m hgoing hstop
    have htext := isString_final hnul hstored
    refine ⟨j + 4 + 0, ?_⟩
    rw [hfinal 0]
    refine ⟨rfl, ?_, ?_⟩
    · cases hstop with
      | inl hnew =>
        rw [← hp.eq hgoing hnew, List.take_of_length_le hgoing.length_le]
        exact htext
      | inr hfull =>
        obtain ⟨hnew, hback, hlen⟩ := hfull
        rw [(h.full j hgoing hnew hback hlen).2 p hp]
        exact htext
    · rw [result_final]
      cases hstop with
      | inl hnew =>
        have heq := hp.eq hgoing hnew
        subst heq
        exact iff_of_true (h.ended j hgoing hnew).2 ⟨rfl, htext⟩
      | inr hfull =>
        refine iff_of_false (fun hne => hne hfull.2.2) fun hread => hfull.1 ?_
        have heq : j = p := Nat.succ.inj hread.1
        rw [heq]
        exact hp.1
  cut := by
    intro m steps hnone st hret
    have hstops : ∃ j < steps + 1, Going getchar j ∧ Stops getchar j := by
      refine (going_or_stops getchar (steps + 1)).resolve_left fun hgoing => ?_
      exact scanString_not_returned hgoing (by omega) hret
    obtain ⟨j, -, hgoing, hstop⟩ := hstops
    obtain ⟨memory, -, hfinal⟩ := scanString_returned hgoing hstop hret
    have hlen := (hstop.resolve_left (hnone j)).2.2
    show st.result = 1
    rw [show st = _ from hfinal]
    exact if_pos (congrArg Nat.cast hlen)

theorem endsAt_of_going (h : Going getchar k) (hnew : getchar k = newline) : EndsAt getchar k :=
  ⟨hnew, fun j hj => (h j hj).1⟩

/-- The byte that ends the line lies in the buffer. -/
theorem length_lt_of_readsLine {capacity : ℕ} (h : ReadsLine s n malloc getchar garbage capacity)
    (hgoing : Going getchar k) (hstop : Stops getchar k) :
    (typed getchar k).length < capacity := by
  by_contra hge
  rw [not_lt] at hge
  obtain ⟨memory, -, hclose, -⟩ := scanString_stops s n malloc garbage (fun _ => 1) hgoing hstop
  have hinside := h.inside (fun _ => 1) (k + 3) (s 0 + (typed getchar k).length)
    (Or.inr (Nat.add_le_add_left hge _))
  rw [hclose] at hinside
  exact zero_ne_one ((Function.update_self _ _ _).symm.trans hinside)

theorem suits_of_readsLine (hnul : ∀ k, getchar k ≠ 0) {capacity : ℕ}
    (h : ReadsLine s n malloc getchar garbage capacity) : Suits getchar capacity where
  room := by
    intro k hgoing
    by_contra hlt
    rw [not_le] at hlt
    obtain ⟨memory, hstate, hstored⟩ := scanString_going s n malloc garbage (fun _ => 0) hgoing
    have hinside := h.inside (fun _ => 0) (k + 2) (s 0 + capacity) (Or.inr le_rfl)
    rw [hstate] at hinside
    have hzero : (typed getchar k)[capacity] = 0 := by
      rw [← hstored.chars capacity hlt]
      exact hinside
    exact zero_not_mem_typed hnul k (hzero ▸ List.getElem_mem hlt)
  ended := by
    intro k hgoing hnew
    refine ⟨length_lt_of_readsLine h hgoing (Or.inl hnew), ?_⟩
    obtain ⟨steps, hret, -, hresult⟩ := h.line (fun _ => 0) k (endsAt_of_going hgoing hnew)
    obtain ⟨memory, hstored, hfinal⟩ := scanString_returned hgoing (Or.inl hnew) hret
    rw [hfinal, result_final] at hresult
    exact hresult.mpr ⟨rfl, isString_final hnul hstored⟩
  full := by
    intro k hgoing hnew hback hlen
    have hstop : Stops getchar k := Or.inr ⟨hnew, hback, hlen⟩
    refine ⟨hlen ▸ length_lt_of_readsLine h hgoing hstop, fun p hp => ?_⟩
    obtain ⟨steps, hret, htext, -⟩ := h.line (fun _ => 0) p hp
    obtain ⟨memory, hstored, hfinal⟩ := scanString_returned hgoing hstop hret
    rw [hfinal] at htext
    exact htext.unique (isString_final hnul hstored)

/-- One hundred letters and the end of the line. -/
def fullLine (k : ℕ) : ℤ := if k < bufferSize then 97 else newline

theorem going_fullLine : Going fullLine bufferSize := by
  unfold Going
  decide +kernel

/-- A line of exactly the limit is complete, and `scanFF` returns 1. -/
theorem scanFF_full_line : ¬ ReadsLine (fun _ => 4096) none (fun _ => 8192) fullLine 0 2500 := by
  intro h
  have hsuits := suits_of_readsLine (fun k => by unfold fullLine; split_ifs <;> decide) h
  have hlen := (hsuits.ended bufferSize going_fullLine (by decide)).2
  exact hlen (by decide +kernel)

/-- The line is read right exactly when the condition holds. -/
theorem scanFF_readsLine_iff (hnul : ∀ k, getchar k ≠ 0) (capacity : ℕ) :
    ReadsLine s n malloc getchar garbage capacity ↔ Suits getchar capacity :=
  ⟨suits_of_readsLine hnul, readsLine_of_suits hnul⟩

theorem scanFF_readsLine_iff_full_line :
    ReadsLine (fun _ => 4096) none (fun _ => 8192) fullLine 0 2500 ↔ Suits fullLine 2500 :=
  scanFF_readsLine_iff (fun k => by unfold fullLine; split_ifs <;> decide) 2500

end

end GatOS.LineInput
