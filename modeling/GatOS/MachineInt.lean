import Mathlib.Data.Int.Init
import Mathlib.Tactic.Linarith

/-! Values of the C integer types: results are reduced to the range of the type. -/
namespace GatOS.MachineInt

/-- A value stored in a 32-bit `int`. -/
def int32 (x : ℤ) : ℤ := x.bmod (2 ^ 32)

/-- A value stored in a `uint8_t`. -/
def uint8 (x : ℕ) : ℕ := x % 2 ^ 8

/-- A value stored in a `uint16_t`. -/
def uint16 (x : ℕ) : ℕ := x % 2 ^ 16

/-- A value stored in a 32-bit `unsigned int`. -/
def uint32 (x : ℕ) : ℕ := x % 2 ^ 32

/-- The difference of two values of type `unsigned int`. -/
def uint32Sub (x y : ℕ) : ℕ := uint32 (x + (2 ^ 32 - uint32 y))

/-- The difference of two values of type `uint64_t`. -/
def uint64Sub (x y : ℕ) : ℕ := (x + (2 ^ 64 - y % 2 ^ 64)) % 2 ^ 64

def intMax : ℤ := 2 ^ 31 - 1

def intMin : ℤ := -2 ^ 31

theorem int32_eq {x : ℤ} (hlo : intMin ≤ x) (hhi : x ≤ intMax) : int32 x = x := by
  unfold int32 intMin intMax at *
  rw [Int.bmod_eq_of_le] <;> omega

theorem int32_range (x : ℤ) : intMin ≤ int32 x ∧ int32 x ≤ intMax := by
  have h1 := Int.le_bmod (x := x) (m := 2 ^ 32) (by norm_num)
  have h2 := Int.bmod_lt (x := x) (m := 2 ^ 32) (by norm_num)
  unfold int32 intMin intMax
  norm_num at h1 h2 ⊢
  omega

/-- Reducing the argument of an addition first makes no difference. -/
theorem int32_add_left (x y : ℤ) : int32 (int32 x + y) = int32 (x + y) := by
  simp [int32]

theorem int32_sub_left (x y : ℤ) : int32 (int32 x - y) = int32 (x - y) := by
  simp [int32]

theorem int32_sub_emod (x y : ℤ) : (x - int32 y) % 2 ^ 32 = (x - y) % 2 ^ 32 := by
  have hmod : int32 y % 2 ^ 32 = y % 2 ^ 32 := by
    exact_mod_cast Int.bmod_emod (x := y) (m := 2 ^ 32)
  rw [Int.sub_emod, hmod, ← Int.sub_emod]

theorem uint32_eq {x : ℕ} (h : x < 2 ^ 32) : uint32 x = x := Nat.mod_eq_of_lt h

theorem uint64Sub_eq {x y : ℕ} (hle : y ≤ x) (hx : x < 2 ^ 64) : uint64Sub x y = x - y := by
  unfold uint64Sub
  omega

theorem uint32Sub_eq {x y : ℕ} (hle : y ≤ x) (hx : x < 2 ^ 32) : uint32Sub x y = x - y := by
  unfold uint32Sub uint32
  omega

end GatOS.MachineInt
