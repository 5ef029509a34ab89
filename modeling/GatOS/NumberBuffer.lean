import GatOS.NumberText

/-!
# The buffer of the number printers

`ncPrintDec`, `ncPrintHex` and `ncPrintBin` (`naiveConsole.c`) share one static buffer. The memory
keeps the addresses of all stores, those of the reversal as well.
-/
namespace GatOS.NumberBuffer

open Numerals NumberText

/-- A memory of `char`s and the addresses that were stored to, the last one first. -/
structure LoggedMemory where
  bytes : Memory
  stores : List ℕ

namespace LoggedMemory

/-- A memory at the start of a call. -/
def unwritten (bytes : Memory) : LoggedMemory := ⟨bytes, []⟩

def store (p : ℕ) (c : ℤ) (m : LoggedMemory) : LoggedMemory :=
  ⟨Function.update m.bytes p c, p :: m.stores⟩

variable (p : ℕ) (c : ℤ) (m : LoggedMemory)

@[simp] theorem stores_unwritten (bytes : Memory) : (unwritten bytes).stores = [] := rfl

@[simp] theorem bytes_store : (m.store p c).bytes = Function.update m.bytes p c := rfl

@[simp] theorem mem_stores_store {a : ℕ} :
    a ∈ (m.store p c).stores ↔ a = p ∨ a ∈ m.stores := List.mem_cons

end LoggedMemory

/-- The size of `buffer`. -/
def bufferSize : ℕ := 64

/-- The first loop of `uintToBase`. There is no result when the division traps. -/
def digitLoop (base : ℕ) : ℕ → ℕ → ℕ → ℕ → LoggedMemory → Option (ℕ × ℕ × LoggedMemory)
  | 0, _, _, _, _ => none
  | fuel + 1, value, p, digits, m =>
    if base = 0 then none
    else
      let m := m.store p (digitChar (value % base : ℕ))
      if value / base = 0 then some (p + 1, digits + 1, m)
      else digitLoop base fuel (value / base) (p + 1) (digits + 1) m

/-- The last loop of `uintToBase`. -/
def swapLoop (p1 p2 : ℕ) (m : LoggedMemory) : LoggedMemory :=
  if p1 < p2 then
    swapLoop (p1 + 1) (p2 - 1) ((m.store p1 (m.bytes p2)).store p2 (m.bytes p1))
  else m
termination_by p2 - p1

def uintToBase (value buffer base : ℕ) (m : LoggedMemory) : Option (ℕ × LoggedMemory) := do
  let (p, digits, m) ← digitLoop base 64 value buffer 0 m
  let m := m.store p 0
  return (digits, swapLoop buffer (p - 1) m)

/-- The characters that `ncPrint` hands to `putchar`. There is no result when there is no zero
among the first characters. -/
def ncPrint : ℕ → ℕ → Memory → Option (List ℤ)
  | 0, _, _ => none
  | fuel + 1, string, m =>
    if m string ≠ 0 then (ncPrint fuel (string + 1) m).map fun text => m string :: text
    else some []

/-- The text that is printed and the memory afterwards. What is read are at most 64 digits and the
zero behind them. -/
def ncPrintBase (buffer value base : ℕ) (m : LoggedMemory) :
    Option (List ℤ × LoggedMemory) := do
  let (_, m) ← uintToBase value buffer base m
  let text ← ncPrint 65 buffer m.bytes
  return (text, m)

def ncPrintDec (buffer value : ℕ) : LoggedMemory → Option (List ℤ × LoggedMemory) :=
  ncPrintBase buffer value 10

def ncPrintHex (buffer value : ℕ) : LoggedMemory → Option (List ℤ × LoggedMemory) :=
  ncPrintBase buffer value 16

def ncPrintBin (buffer value : ℕ) : LoggedMemory → Option (List ℤ × LoggedMemory) :=
  ncPrintBase buffer value 2

/-! ### The bytes

The stores are only kept: what is computed is the same as without them.
-/

theorem digitLoop_bytes (base fuel value p digits : ℕ) (m : LoggedMemory) :
    (digitLoop base fuel value p digits m).map (fun r => (r.1, r.2.1, r.2.2.bytes)) =
      NumberText.digitLoop base fuel value p digits m.bytes := by
  induction fuel generalizing value p digits m with
  | zero => rfl
  | succ fuel ih =>
    have hdiv : (value : ℤ).tdiv base = (value / base : ℕ) := Int.ofNat_tdiv value base
    have hmod : (value : ℤ).tmod base = (value % base : ℕ) := Int.ofNat_tmod value base
    simp only [digitLoop, NumberText.digitLoop, hdiv, hmod, Int.natCast_eq_zero]
    by_cases hbase : base = 0
    · simp [hbase]
    by_cases hlast : value / base = 0
    · simp [hbase, hlast]
    · simp only [hbase, hlast, if_false]
      exact ih (value / base) (p + 1) (digits + 1) _

theorem swapLoop_bytes (p1 p2 : ℕ) (m : LoggedMemory) :
    (swapLoop p1 p2 m).bytes = Numerals.swapLoop p1 p2 m.bytes := by
  fun_induction swapLoop p1 p2 m with
  | case1 p1 p2 m hlt ih =>
    rw [ih, Numerals.swapLoop.eq_1 p1 p2, if_pos hlt]
    rfl
  | case2 p1 p2 m hge => rw [Numerals.swapLoop, if_neg hge]

theorem uintToBase_bytes (value buffer base : ℕ) (m : LoggedMemory) :
    (uintToBase value buffer base m).map (fun r => (r.1, r.2.bytes)) =
      NumberText.uintToBase value buffer base m.bytes := by
  unfold uintToBase NumberText.uintToBase
  rw [← digitLoop_bytes]
  cases digitLoop base 64 value buffer 0 m with
  | none => rfl
  | some r => simp [swapLoop_bytes]

/-! ### The stores -/

section

variable {base fuel value p digits q k a : ℕ} {m m' : LoggedMemory}

/-- The loop counts its turns twice, by the address and by the number of digits. -/
theorem digitLoop_count (h : digitLoop base fuel value p digits m = some (q, k, m')) :
    digits < k ∧ q + digits = p + k := by
  induction fuel generalizing value p digits m with
  | zero => simp [digitLoop] at h
  | succ fuel ih =>
    simp only [digitLoop] at h
    split_ifs at h with hbase hlast
    · simp only [Option.some.injEq, Prod.mk.injEq] at h
      omega
    · have hrest := ih h
      omega

theorem digitLoop_stores (h : digitLoop base fuel value p digits m = some (q, k, m')) :
    a ∈ m'.stores ↔ a ∈ m.stores ∨ p ≤ a ∧ a < q := by
  induction fuel generalizing value p digits m with
  | zero => simp [digitLoop] at h
  | succ fuel ih =>
    simp only [digitLoop] at h
    split_ifs at h with hbase hlast
    · simp only [Option.some.injEq, Prod.mk.injEq] at h
      obtain ⟨rfl, rfl, rfl⟩ := h
      rw [LoggedMemory.mem_stores_store, or_comm]
      apply or_congr_right
      omega
    · have hcount := digitLoop_count h
      rw [ih h, LoggedMemory.mem_stores_store, or_comm (a := a = p), or_assoc]
      apply or_congr_right
      omega

/-- The reversal stores between its two addresses only, and what was stored stays stored. -/
theorem swapLoop_stores (p1 p2 : ℕ) (m : LoggedMemory) :
    (a ∈ m.stores → a ∈ (swapLoop p1 p2 m).stores) ∧
      (a ∈ (swapLoop p1 p2 m).stores → a ∈ m.stores ∨ p1 ≤ a ∧ a ≤ p2) := by
  fun_induction swapLoop p1 p2 m with
  | case1 p1 p2 m hlt ih =>
    simp only [LoggedMemory.mem_stores_store] at ih
    constructor
    · intro ha
      exact ih.1 (Or.inr (Or.inr ha))
    · intro ha
      rcases ih.2 ha with (rfl | rfl | hm) | hin
      · exact Or.inr ⟨hlt.le, le_rfl⟩
      · exact Or.inr ⟨le_rfl, hlt.le⟩
      · exact Or.inl hm
      · exact Or.inr (by omega)
  | case2 p1 p2 m hge => exact ⟨id, Or.inl⟩

/-- A call stores to the characters and to the terminator behind them, and to nothing else. -/
theorem uintToBase_stores {buffer : ℕ} (h : uintToBase value buffer base m = some (k, m')) :
    a ∈ m'.stores ↔ a ∈ m.stores ∨ buffer ≤ a ∧ a ≤ buffer + k := by
  unfold uintToBase at h
  obtain ⟨⟨p, digits, m₁⟩, hloop, hend⟩ := Option.bind_eq_some_iff.mp h
  simp only [Option.pure_def, Option.some.injEq, Prod.mk.injEq] at hend
  obtain ⟨rfl, rfl⟩ := hend
  have hcount := digitLoop_count hloop
  have hdigits := digitLoop_stores (a := a) hloop
  have hswap := swapLoop_stores (a := a) buffer (p - 1) (m₁.store p 0)
  simp only [LoggedMemory.mem_stores_store] at hswap
  constructor
  · intro ha
    rcases hswap.2 ha with (rfl | hloop) | hin
    · exact Or.inr (by omega)
    · exact (hdigits.mp hloop).imp_right fun hin => by omega
    · exact Or.inr (by omega)
  · intro ha
    apply hswap.1
    rcases ha with hm | hin
    · exact Or.inr (hdigits.mpr (Or.inl hm))
    by_cases hend : a = p
    · exact Or.inl hend
    · exact Or.inr (hdigits.mpr (Or.inr (by omega)))

end

/-! ### The printed text -/

/-- A string that ends within the first characters is printed up to its end. -/
theorem ncPrint_eq {fuel : ℕ} {l : List ℤ} {p : ℕ} {m : Memory} (h : IsString m p l)
    (hfuel : l.length < fuel) : ncPrint fuel p m = some l := by
  induction l generalizing fuel p with
  | nil =>
    have hnul : m p = 0 := isString_nil_iff.mp h
    cases fuel with
    | zero => simp at hfuel
    | succ fuel => simp [ncPrint, hnul]
  | cons c l ih =>
    obtain ⟨hc, hne, hl⟩ := isString_cons_iff.mp h
    cases fuel with
    | zero => simp at hfuel
    | succ fuel =>
      have hrest := ih hl (Nat.lt_of_succ_lt_succ hfuel)
      simp [ncPrint, hc, hne, hrest]

/-- Each base prints the canonical numeral. The stores are those to its characters and to the
terminator. -/
theorem ncPrintBase_eq {value base : ℕ} (hv : value < 2 ^ 64) (hlo : 2 ≤ base)
    (hhi : base ≤ 36) (buffer : ℕ) (m : LoggedMemory) :
    ∃ text m', ncPrintBase buffer value base m = some (text, m') ∧ Canonical base value text ∧
      text.length = (lowDigits base value).length ∧
      ∀ a, a ∈ m'.stores ↔ a ∈ m.stores ∨ buffer ≤ a ∧ a ≤ buffer + text.length := by
  have hbytes := uintToBase_bytes value buffer base m
  rw [uintToBase_eq hlo hv] at hbytes
  obtain ⟨⟨k, m'⟩, hrun, hresult⟩ := Option.map_eq_some_iff.mp hbytes
  simp only [Prod.mk.injEq] at hresult
  have hlength : ((numeral base value).map fun d : ℕ => digitChar d).length =
      (lowDigits base value).length := by rw [List.length_map, numeral_length]
  have hfuel : (lowDigits base value).length < 65 :=
    Nat.lt_succ_of_le ((lowDigits_length_le_iff hlo (by norm_num)).mpr
      (hv.trans_le (Nat.pow_le_pow_left hlo 64)))
  have hstring : IsString m'.bytes buffer ((numeral base value).map fun d : ℕ => digitChar d) := by
    rw [hresult.2]
    exact isString_storeAll buffer m.bytes (zero_not_mem_map_numeral hlo hhi value)
  refine ⟨_, m', ?_, canonical_numeral hlo hhi value, hlength, ?_⟩
  · unfold ncPrintBase
    rw [hrun]
    simp [ncPrint_eq hstring (hlength ▸ hfuel)]
  · intro a
    rw [uintToBase_stores hrun, List.length_map, ← hresult.1]

/-! ### The buffer -/

/-- The call returns, and all bytes that it writes are bytes of the buffer. -/
def WritesBuffer (buffer : ℕ) (print : LoggedMemory → Option (List ℤ × LoggedMemory))
    (m : Memory) : Prop :=
  ∃ text m', print (LoggedMemory.unwritten m) = some (text, m') ∧
    ∀ a ∈ m'.stores, buffer ≤ a ∧ a < buffer + bufferSize

/-- The terminator needs the last byte of the buffer. -/
theorem writesBuffer_ncPrintBase_iff {value base : ℕ} (hv : value < 2 ^ 64) (hlo : 2 ≤ base)
    (hhi : base ≤ 36) (buffer : ℕ) (m : Memory) :
    WritesBuffer buffer (ncPrintBase buffer value base) m ↔ value < base ^ 63 := by
  obtain ⟨text, m', hrun, -, hlength, hstores⟩ :=
    ncPrintBase_eq hv hlo hhi buffer (LoggedMemory.unwritten m)
  simp only [LoggedMemory.stores_unwritten, List.not_mem_nil, false_or] at hstores
  rw [← lowDigits_length_le_iff hlo (by norm_num), ← hlength]
  constructor
  · rintro ⟨text', m'', hrun', hinside⟩
    rw [hrun] at hrun'
    cases hrun'
    have hend := hinside (buffer + text.length) ((hstores _).mpr ⟨by omega, le_rfl⟩)
    unfold bufferSize at hend
    omega
  · intro hle
    refine ⟨text, m', hrun, fun a ha => ?_⟩
    have hin := (hstores a).mp ha
    unfold bufferSize
    omega

/-- The functions that print a number. -/
inductive Printer
  | dec
  | hex
  | bin
deriving DecidableEq

def Printer.print (buffer value : ℕ) :
    Printer → LoggedMemory → Option (List ℤ × LoggedMemory)
  | .dec => ncPrintDec buffer value
  | .hex => ncPrintHex buffer value
  | .bin => ncPrintBin buffer value

/-- Sixty-four binary digits leave no byte for the terminator. -/
theorem ncPrintBin_overflows :
    ¬ WritesBuffer 4096 (ncPrintBin 4096 (2 ^ 63)) (fun _ => 0) := by
  intro h
  have hlt := (writesBuffer_ncPrintBase_iff (by norm_num) (by norm_num) (by norm_num) 4096 _).mp h
  exact absurd hlt (lt_irrefl _)

/-- The buffer is too small for the binary numerals of the upper half only. -/
theorem writesBuffer_iff {value : ℕ} (hv : value < 2 ^ 64) (printer : Printer) (buffer : ℕ)
    (m : Memory) :
    WritesBuffer buffer (printer.print buffer value) m ↔
      (printer = .bin → value < 2 ^ 63) := by
  cases printer with
  | dec =>
    have hinside : WritesBuffer buffer (ncPrintBase buffer value 10) m := by
      apply (writesBuffer_ncPrintBase_iff hv (by norm_num) (by norm_num) buffer m).mpr
      exact hv.trans (by norm_num)
    exact iff_of_true hinside (by simp)
  | hex =>
    have hinside : WritesBuffer buffer (ncPrintBase buffer value 16) m := by
      apply (writesBuffer_ncPrintBase_iff hv (by norm_num) (by norm_num) buffer m).mpr
      exact hv.trans (by norm_num)
    exact iff_of_true hinside (by simp)
  | bin =>
    have hinside : WritesBuffer buffer (ncPrintBase buffer value 2) m ↔ value < 2 ^ 63 :=
      writesBuffer_ncPrintBase_iff hv (by norm_num) (by norm_num) buffer m
    simp only [true_imp_iff]
    exact hinside

theorem writesBuffer_iff_largest :
    WritesBuffer 4096 (Printer.dec.print 4096 (2 ^ 64 - 1)) (fun _ => 0) ↔
      (Printer.dec = .bin → 2 ^ 64 - 1 < 2 ^ 63) :=
  writesBuffer_iff (by norm_num) .dec 4096 fun _ => 0

end GatOS.NumberBuffer
