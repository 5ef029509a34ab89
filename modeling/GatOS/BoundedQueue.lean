import Mathlib.Data.List.Basic
import Mathlib.Data.List.Range
import Mathlib.Data.Nat.ModEq

/-!
# Bounded queues

A first-in first-out queue of at most `n` items, and the contents of a ring of `n` cells.
-/
namespace GatOS

structure BoundedQueue (α : Type*) (n : ℕ) where
  items : List α
  bound : items.length ≤ n

namespace BoundedQueue

variable {α : Type*} {n : ℕ}

def empty : BoundedQueue α n := ⟨[], Nat.zero_le n⟩

/-- Append as many of the items as there is room for; their number. -/
def enqueue (l : List α) (q : BoundedQueue α n) : ℕ × BoundedQueue α n :=
  let k := min l.length (n - q.items.length)
  (k, ⟨q.items ++ l.take k, by
    rw [List.length_append, List.length_take]
    have := q.bound
    omega⟩)

/-- Remove the `k` oldest items, or all if there are fewer. -/
def dequeue (k : ℕ) (q : BoundedQueue α n) : List α × BoundedQueue α n :=
  (q.items.take k, ⟨q.items.drop k, by
    rw [List.length_drop]
    have := q.bound
    omega⟩)

/-- What came out, followed by what is in the queue, is what went in. -/
def Fifo (q : BoundedQueue α n) (accepted delivered : List α) : Prop :=
  delivered ++ q.items = accepted

theorem fifo_empty : (empty : BoundedQueue α n).Fifo [] [] := rfl

theorem Fifo.enqueue {q : BoundedQueue α n} {accepted delivered : List α}
    (h : q.Fifo accepted delivered) (l : List α) :
    (q.enqueue l).2.Fifo (accepted ++ l.take (q.enqueue l).1) delivered := by
  rw [Fifo, ← h, List.append_assoc]
  rfl

theorem Fifo.dequeue {q : BoundedQueue α n} {accepted delivered : List α}
    (h : q.Fifo accepted delivered) (k : ℕ) :
    (q.dequeue k).2.Fifo accepted (delivered ++ (q.dequeue k).1) := by
  rw [Fifo, ← h, List.append_assoc]
  exact congrArg _ (List.take_append_drop k q.items)

theorem Fifo.isPrefix {q : BoundedQueue α n} {accepted delivered : List α}
    (h : q.Fifo accepted delivered) : delivered <+: accepted := ⟨q.items, h⟩

end BoundedQueue

/-! ### Rings of cells -/

section Ring

variable {α : Type*} {n start count : ℕ} {cells : ℕ → α}

/-- The `count` cells from `start` on, around the ring. -/
def ringContents (n : ℕ) (cells : ℕ → α) (start count : ℕ) : List α :=
  (List.range count).map fun i => cells ((start + i) % n)

@[simp] theorem ringContents_length : (ringContents n cells start count).length = count := by
  simp [ringContents]

theorem ringContents_mod : ringContents n cells (start % n) count =
    ringContents n cells start count := by
  unfold ringContents
  refine List.map_congr_left fun i _ => ?_
  rw [Nat.mod_add_mod]

theorem ringContents_succ : ringContents n cells start (count + 1) =
    ringContents n cells start count ++ [cells ((start + count) % n)] := by
  simp [ringContents, List.range_succ]

theorem ringContents_cons : ringContents n cells start (count + 1) =
    cells (start % n) :: ringContents n cells (start + 1) count := by
  simp only [ringContents, List.range_succ_eq_map, List.map_cons, List.map_map, Nat.add_zero]
  congr 1
  refine List.map_congr_left fun i _ => ?_
  rw [Function.comp_apply, Nat.succ_eq_add_one, Nat.add_assoc start 1 i, Nat.add_comm 1 i]

theorem ringContents_drop (k : ℕ) : (ringContents n cells start count).drop k =
    ringContents n cells (start + k) (count - k) := by
  induction k generalizing start count with
  | zero => simp
  | succ k ih =>
    cases count with
    | zero => simp [ringContents]
    | succ count =>
      rw [ringContents_cons, List.drop_succ_cons, ih]
      congr 1 <;> omega

/-- Two places that are less than a turn apart are different cells. -/
theorem ring_index_ne {i j : ℕ} (hij : i < j) (hj : j < i + n) :
    (start + i) % n ≠ (start + j) % n := fun h => by
  have hmod : i ≡ j [MOD n] := Nat.ModEq.add_left_cancel' start h
  have hdvd := (Nat.modEq_iff_dvd' hij.le).mp hmod
  have := Nat.le_of_dvd (by omega) hdvd
  omega

/-- A value stored behind the last cell joins the contents. -/
theorem ringContents_store (hcount : count < n) (x : α) :
    ringContents n (fun i => if i = (start + count) % n then x else cells i) start (count + 1) =
      ringContents n cells start count ++ [x] := by
  rw [ringContents_succ, if_pos rfl]
  congr 1
  refine List.map_congr_left fun i hi => ?_
  rw [List.mem_range] at hi
  exact if_neg (ring_index_ne hi (by omega))

end Ring

end GatOS
