import GatOS.BMFSRuns
import GatOS.Numerals

/-!
# The disk image

`initialize` of `bmfs.c` makes the image of the system: a disk with an empty directory, in whose
first block the boot record, the boot loader and the kernel are put. They stay there whatever the
utility does with the files of the disk.
-/
namespace GatOS.BMFS
open Octets FileStore Transition Numerals

/-! ### The size of the disk -/

inductive SizeError
  | tooLarge
  | notNumeric
  | invalid
  | tooSmall
deriving DecidableEq

def isdigit (ch : UInt8) : Prop := 48 ≤ ch ∧ ch ≤ 57

instance (ch : UInt8) : Decidable (isdigit ch) := inferInstanceAs (Decidable (_ ∧ _))

def toupper (ch : UInt8) : UInt8 := if 97 ≤ ch ∧ ch ≤ 122 then ch - 32 else ch

/-- `K`, `M`, `G`, `T` and `P` -/
def diskSizeFactor (ch : UInt8) : Option ℕ :=
  if toupper ch = 75 then some 1
  else if toupper ch = 77 then some 2
  else if toupper ch = 71 then some 3
  else if toupper ch = 84 then some 4
  else if toupper ch = 80 then some 5
  else none

/-- The loop over the characters of the size. `i` is the number of those that are behind. -/
def readSize (i : ℕ) (diskSize : ℕ) : List UInt8 → Except SizeError (ℕ × ℕ)
  | [] => .ok (diskSize, 0)
  | ch :: rest =>
    if isdigit ch then
      let n := ch.toNat - 48
      if diskSize < diskSize * 10 % 2 ^ 64 then
        readSize (i + 1) ((diskSize * 10 % 2 ^ 64 + n) % 2 ^ 64) rest
      else if diskSize = 0 then readSize (i + 1) (diskSize + n) rest
      else .error .tooLarge
    else if i = 0 then .error .notNumeric
    else match diskSizeFactor ch with
      | none => .error .invalid
      | some factor => if rest = [] then .ok (diskSize, factor) else .error .invalid

def scale : ℕ → ℕ → Except SizeError ℕ
  | diskSize, 0 => .ok diskSize
  | diskSize, factor + 1 =>
    if diskSize < diskSize * 1024 % 2 ^ 64 then scale (diskSize * 1024 % 2 ^ 64) factor
    else .error .tooLarge

def minimumDiskSize : ℕ := 6 * 1024 * 1024

/-- The size with its unit. A size of 0 gets past the checks. -/
def adjust (diskSize factor : ℕ) : Except SizeError ℕ :=
  if 0 < diskSize then scale diskSize factor else .ok diskSize

def parseSize (size : List UInt8) : Except SizeError ℕ := do
  let (diskSize, factor) ← readSize 0 0 size
  let diskSize ← adjust diskSize factor
  if diskSize < minimumDiskSize then .error .tooSmall else .ok diskSize

/-! ### The image -/

/-- A file of the command line: its content, when it can be opened. -/
abbrev HostFile := Option (List UInt8)

/-- The file is not given, or it can be opened. -/
def opened : Option HostFile → Bool
  | some none => false
  | _ => true

/-- The characters of some digits. -/
def digitChars (l : List ℕ) : List UInt8 := l.map fun d => UInt8.ofNat (48 + d)

/-- The unit behind the digits. -/
inductive IsUnit : List UInt8 → ℕ → Prop
  | none : IsUnit [] 0
  | some {ch factor} (h : diskSizeFactor ch = some factor) : IsUnit [ch] factor

section

variable {v i factor : ℕ} {l rest size : List UInt8} {ds : List ℕ} {ch : UInt8}

theorem isdigit_iff : isdigit ch ↔ ∃ d < 10, ch = UInt8.ofNat (48 + d) := by
  constructor
  · rintro ⟨hlo, hhi⟩
    rw [UInt8.le_iff_toNat_le] at hlo hhi
    have hlo' : 48 ≤ ch.toNat := hlo
    have hhi' : ch.toNat ≤ 57 := hhi
    refine ⟨ch.toNat - 48, by omega, ?_⟩
    rw [show 48 + (ch.toNat - 48) = ch.toNat by omega]
    simp
  · rintro ⟨d, hd, rfl⟩
    interval_cases d
    all_goals decide

theorem digit_value {d : ℕ} (hd : d < 10) : (UInt8.ofNat (48 + d)).toNat - 48 = d := by
  interval_cases d
  all_goals decide

theorem not_isdigit_factor (h : diskSizeFactor ch = some factor) : ¬ isdigit ch := by
  intro hdigit
  obtain ⟨d, hd, rfl⟩ := isdigit_iff.mp hdigit
  have hnone : diskSizeFactor (UInt8.ofNat (48 + d)) = none := by
    interval_cases d
    all_goals decide
  rw [hnone] at h
  cases h

/-- The number goes on with these digits. -/
def extend (v : ℕ) (ds : List ℕ) : ℕ := ds.foldl (fun n d => n * 10 + d) v

@[simp] theorem extend_nil : extend v [] = v := rfl

@[simp] theorem extend_cons {d : ℕ} : extend v (d :: ds) = extend (v * 10 + d) ds := rfl

theorem le_extend : v ≤ extend v ds := by
  induction ds generalizing v with
  | nil => exact le_rfl
  | cons d ds ih =>
    have hrest := @ih (v * 10 + d)
    rw [extend_cons]
    omega

theorem extend_mod : extend (v % 2 ^ 64) ds % 2 ^ 64 = extend v ds % 2 ^ 64 := by
  induction ds generalizing v with
  | nil => simp
  | cons d ds ih =>
    rw [extend_cons, extend_cons, ← @ih (v * 10 + d), ← @ih (v % 2 ^ 64 * 10 + d)]
    congr 2
    omega

/-- The digits are read as long as nothing overflows. -/
theorem readSize_digits (hds : ∀ d ∈ ds, d < 10) (hv : extend v ds < 2 ^ 64) :
    readSize i v (digitChars ds ++ rest) = readSize (i + ds.length) (extend v ds) rest := by
  induction ds generalizing i v with
  | nil => rfl
  | cons d ds ih =>
    have hd := hds d List.mem_cons_self
    have hdigit : isdigit (UInt8.ofNat (48 + d)) := isdigit_iff.mpr ⟨d, hd, rfl⟩
    rw [extend_cons] at hv
    have hle := @le_extend (v * 10 + d) ds
    have hrest := @ih (v * 10 + d) (i + 1) (fun x hx => hds x (List.mem_cons_of_mem d hx)) hv
    have hsmall : v * 10 % 2 ^ 64 = v * 10 := Nat.mod_eq_of_lt (by omega)
    simp only [digitChars] at hrest
    simp only [digitChars, List.map_cons, List.cons_append, readSize, if_pos hdigit,
      digit_value hd, extend_cons, List.length_cons, hsmall]
    rw [show i + (ds.length + 1) = i + 1 + ds.length by omega]
    by_cases hzero : v = 0
    · rw [if_neg (by omega), if_pos hzero, show v + d = v * 10 + d by omega]
      exact hrest
    · rw [if_pos (by omega), Nat.mod_eq_of_lt (show v * 10 + d < 2 ^ 64 by omega)]
      exact hrest

/-- What is accepted consists of digits and a unit. -/
theorem readSize_accepts {w : ℕ} (hv : v < 2 ^ 64) (h : readSize i v l = .ok (w, factor)) :
    ∃ ds suffix, l = digitChars ds ++ suffix ∧ (∀ d ∈ ds, d < 10) ∧ IsUnit suffix factor ∧
      w = extend v ds % 2 ^ 64 ∧ (i = 0 → ds = [] → l = []) := by
  induction l generalizing i v with
  | nil =>
    obtain ⟨rfl, rfl⟩ := Prod.mk.inj (Except.ok.inj h)
    exact ⟨[], [], rfl, by simp, IsUnit.none, (Nat.mod_eq_of_lt hv).symm, fun _ _ => rfl⟩
  | cons ch rest ih =>
    unfold readSize at h
    by_cases hdigit : isdigit ch
    · obtain ⟨d, hd, rfl⟩ := isdigit_iff.mp hdigit
      simp only [if_pos hdigit, digit_value hd] at h
      have hgo : ∀ v', v' < 2 ^ 64 → v' % 2 ^ 64 = (v * 10 + d) % 2 ^ 64 →
          readSize (i + 1) v' rest = .ok (w, factor) →
          ∃ ds suffix, UInt8.ofNat (48 + d) :: rest = digitChars ds ++ suffix ∧
            (∀ d ∈ ds, d < 10) ∧ IsUnit suffix factor ∧ w = extend v ds % 2 ^ 64 ∧
            (i = 0 → ds = [] → UInt8.ofNat (48 + d) :: rest = []) := by
        intro v' hv' hmod hread
        obtain ⟨ds, suffix, rfl, hds, hunit, hw, -⟩ := ih hv' hread
        refine ⟨d :: ds, suffix, rfl, List.forall_mem_cons.mpr ⟨hd, hds⟩, hunit, ?_,
          fun _ hnil => by cases hnil⟩
        rw [hw, extend_cons, ← @extend_mod v', hmod, extend_mod]
      split_ifs at h with hgrows hzero
      · exact hgo _ (Nat.mod_lt _ (by decide)) (by omega) h
      · exact hgo _ (by omega) (by omega) h
    · rw [if_neg hdigit] at h
      by_cases hi : i = 0
      · rw [if_pos hi] at h
        cases h
      · rw [if_neg hi] at h
        cases hfactor : diskSizeFactor ch with
        | none =>
          rw [hfactor] at h
          cases h
        | some k =>
          simp only [hfactor] at h
          split_ifs at h with hrest
          obtain ⟨rfl, rfl⟩ := Prod.mk.inj (Except.ok.inj h)
          subst hrest
          exact ⟨[], [ch], rfl, by simp, IsUnit.some hfactor, (Nat.mod_eq_of_lt hv).symm,
            fun hi' => absurd hi' hi⟩

theorem scale_eq (hv : 0 < v) (h : v * 1024 ^ factor < 2 ^ 64) :
    scale v factor = .ok (v * 1024 ^ factor) := by
  induction factor generalizing v with
  | zero => simp [scale]
  | succ factor ih =>
    rw [pow_succ, Nat.mul_comm (1024 ^ factor), ← Nat.mul_assoc] at h ⊢
    have hle : v * 1024 ≤ v * 1024 * 1024 ^ factor := Nat.le_mul_of_pos_right _ (by positivity)
    have hsmall : v * 1024 % 2 ^ 64 = v * 1024 := Nat.mod_eq_of_lt (by omega)
    rw [scale, hsmall, if_pos (by omega)]
    exact ih (by omega) h

theorem scale_accepts {w : ℕ} (hv : v < 2 ^ 64) (h : scale v factor = .ok w) :
    w = v * 1024 ^ factor % 2 ^ 64 := by
  induction factor generalizing v with
  | zero =>
    obtain rfl := Except.ok.inj h
    rw [pow_zero, Nat.mul_one, Nat.mod_eq_of_lt hv]
  | succ factor ih =>
    rw [scale] at h
    split_ifs at h
    have hstep : v * 1024 * 1024 ^ factor = v * 1024 ^ (factor + 1) := by
      rw [Nat.mul_assoc, ← pow_succ']
    rw [ih (Nat.mod_lt _ (by decide)) h, ← hstep, Nat.mod_mul_mod]

/-- The three checks of an accepted size. -/
theorem parseSize_ok (h : parseSize size = .ok v) : minimumDiskSize ≤ v ∧
    ∃ w factor, readSize 0 0 size = .ok (w, factor) ∧ adjust w factor = .ok v := by
  unfold parseSize at h
  cases hread : readSize 0 0 size with
  | error e =>
    rw [hread] at h
    cases h
  | ok p =>
    rw [hread] at h
    simp only [bind, Except.bind] at h
    cases hadjust : adjust p.1 p.2 with
    | error e =>
      rw [hadjust] at h
      cases h
    | ok w =>
      simp only [hadjust] at h
      split_ifs at h with hmin
      obtain rfl := Except.ok.inj h
      exact ⟨Nat.le_of_not_lt hmin, p.1, p.2, rfl, hadjust⟩

/-- A size is accepted if it is a numeral, perhaps with a unit, of at least 6 MiB; what does not
overflow is read as it is written. -/
theorem parseSize_spec (size : List UInt8) :
    (∀ v, parseSize size = .ok v → minimumDiskSize ≤ v ∧ ∃ ds suffix factor,
      size = digitChars ds ++ suffix ∧ ds ≠ [] ∧ (∀ d ∈ ds, d < 10) ∧ IsUnit suffix factor ∧
      v = value 10 ds * 1024 ^ factor % 2 ^ 64) ∧
    ∀ ds suffix factor, size = digitChars ds ++ suffix → ds ≠ [] → (∀ d ∈ ds, d < 10) →
      IsUnit suffix factor → value 10 ds * 1024 ^ factor < 2 ^ 64 →
      parseSize size = if value 10 ds * 1024 ^ factor < minimumDiskSize then .error .tooSmall
        else .ok (value 10 ds * 1024 ^ factor) := by
  constructor
  · intro v hv
    obtain ⟨hmin, w, factor, hread, hadjust⟩ := parseSize_ok hv
    obtain ⟨ds, suffix, rfl, hds, hunit, hw, hempty⟩ := readSize_accepts (by decide) hread
    have hwlt : w < 2 ^ 64 := by
      rw [hw]
      exact Nat.mod_lt _ (by decide)
    have hpos : 0 < w := by
      by_contra hzero
      rw [adjust, if_neg hzero] at hadjust
      obtain rfl := Except.ok.inj hadjust
      unfold minimumDiskSize at hmin
      omega
    rw [adjust, if_pos hpos] at hadjust
    refine ⟨hmin, ds, suffix, factor, rfl, ?_, hds, hunit, ?_⟩
    · intro hnil
      rw [hempty rfl hnil] at hread
      cases hread
      exact absurd hpos (lt_irrefl 0)
    · rw [scale_accepts hwlt hadjust, hw, Nat.mod_mul_mod]
      rfl
  · rintro ds suffix factor rfl hne hds hunit hlt
    have hvalue : extend 0 ds = value 10 ds := rfl
    have hpow : 0 < 1024 ^ factor := by positivity
    have hsmall : value 10 ds < 2 ^ 64 :=
      lt_of_le_of_lt (Nat.le_mul_of_pos_right _ hpow) hlt
    have hread : readSize 0 0 (digitChars ds ++ suffix) = .ok (value 10 ds, factor) := by
      rw [readSize_digits hds (by rw [hvalue]; exact hsmall), hvalue]
      cases hunit with
      | none => rfl
      | some hfactor =>
        have hpos : 0 + ds.length ≠ 0 := by
          rw [Nat.zero_add]
          exact fun h => hne (List.length_eq_zero_iff.mp h)
        rw [readSize, if_neg (not_isdigit_factor hfactor), if_neg hpos, hfactor]
        simp
    unfold parseSize
    rw [hread]
    simp only [bind, Except.bind]
    by_cases hpos : 0 < value 10 ds
    · rw [adjust, if_pos hpos, scale_eq hpos hlt]
    · rw [adjust, if_neg hpos]
      have hzero : value 10 ds = 0 := by omega
      rw [hzero, Nat.zero_mul]

/-- `6m` -/
theorem parseSize_spec_unit : parseSize [54, 109] = .ok 6291456 :=
  (parseSize_spec [54, 109]).2 [6] [109] 2 rfl (by decide) (by decide) (IsUnit.some (by decide))
    (by decide)

end

/-! ### What the utility leaves alone -/

section

variable {last n b diskSize : ℕ} {d image : Disk} {s : Files} {q : Qsort} {c : Command}
  {size filename mbr boot kernel : List UInt8}

end

end GatOS.BMFS
