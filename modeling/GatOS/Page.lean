import Mathlib.Data.List.Basic
import Mathlib.Logic.Function.Basic
import Mathlib.Data.Nat.ModEq

/-!
# Pages with margins

The lines on a page that has room for `height` of them, and the place where the next character
goes. A new line begins at the left margin. When there is no room for it, the first line behind the
top margin goes.
-/
namespace GatOS

/-- `line` is the last line; `top` lines stay when the others move up. -/
structure Page (α : Type*) where
  above : List (ℕ → α)
  line : ℕ → α
  column : ℕ
  left : ℕ
  top : ℕ

namespace Page

variable {α : Type*} {width height f c k : ℕ} {blank a : α} {p : Page α}

/-- What is in column `c` of line `f`. -/
def cell (blank : α) (p : Page α) (f c : ℕ) : α :=
  (((p.above ++ [p.line])[f]?).map fun line => line c).getD blank

/-- A character in the last line. -/
def store (c : ℕ) (a : α) (p : Page α) : Page α :=
  { p with line := Function.update p.line c a }

def newline (height : ℕ) (blank : α) (p : Page α) : Page α :=
  let lines := p.above ++ [p.line]
  { p with
    above := if lines.length < height then lines else lines.eraseIdx (min p.top (height - 1))
    line := fun _ => blank
    column := p.left }

/-- A line that is full is finished. -/
def put (width height : ℕ) (blank a : α) (p : Page α) : Page α :=
  if p.column + 1 = width then (p.store p.column a).newline height blank
  else { p.store p.column a with column := p.column + 1 }

/-- Takes back the last character, but none before the left margin. -/
def erase (width height : ℕ) (blank : α) (p : Page α) : Page α :=
  if p.column = p.left then
    -- a blank that fills the line
    if p.column + 1 = width then p.put width height blank blank else p.store p.column blank
  else { p.store (p.column - 1) blank with column := p.column - 1 }

/-- The line goes on at the left margin. -/
def setMargins (left top : ℕ) (p : Page α) : Page α := { p with left, top, column := left }

/-- The margins stay, but the first line begins in the first column. -/
def clear (blank : α) (p : Page α) : Page α :=
  { p with above := [], line := fun _ => blank, column := 0 }

/-! ### The characters on a page -/

theorem cell_line : p.cell blank p.above.length c = p.line c := by
  simp [cell]

theorem cell_below (hf : p.above.length < f) : p.cell blank f c = blank := by
  have hlength : (p.above ++ [p.line]).length ≤ f := by
    rw [List.length_append, List.length_singleton]
    omega
  simp [cell, List.getElem?_eq_none hlength]

theorem cell_store : (p.store k a).cell blank f c =
    if f = p.above.length ∧ c = k then a else p.cell blank f c := by
  rcases Nat.lt_trichotomy f p.above.length with hlt | rfl | hgt
  · simp [cell, store, List.getElem?_append_left hlt, hlt.ne]
  · have hline : (p.store k a).cell blank p.above.length c = (p.store k a).line c := cell_line
    rw [hline, cell_line, store]
    by_cases hc : c = k
    · simp [hc]
    · simp [hc]
  · rw [cell_below hgt, cell_below (p := p.store k a) hgt, if_neg (by omega)]

theorem cell_blankLine (above : List (ℕ → α)) (q : Page α) (hq : q.above = above)
    (hline : q.line = fun _ => blank) :
    q.cell blank f c = ((above[f]?).map fun line => line c).getD blank := by
  rw [cell, hq, hline]
  rcases Nat.lt_trichotomy f above.length with hlt | rfl | hgt
  · rw [List.getElem?_append_left hlt]
  · simp
  · have hlength : (above ++ [fun _ => blank]).length ≤ f := by
      rw [List.length_append, List.length_singleton]
      omega
    rw [List.getElem?_eq_none hlength, List.getElem?_eq_none hgt.le]

/-- There is room for a new line. -/
theorem cell_newline_room (hroom : p.above.length + 1 < height) :
    (p.newline height blank).above.length = p.above.length + 1 ∧
      (p.newline height blank).cell blank f c = p.cell blank f c := by
  have habove : (p.newline height blank).above = p.above ++ [p.line] := by
    simp [newline, hroom]
  constructor
  · rw [habove, List.length_append, List.length_singleton]
  · rw [cell_blankLine _ _ habove rfl, cell]

/-- Without room the lines behind the top margin move up. -/
theorem cell_newline_full (hfull : p.above.length + 1 = height) :
    (p.newline height blank).above.length = p.above.length ∧
      (p.newline height blank).cell blank f c =
        if f < min p.top (height - 1) then p.cell blank f c else p.cell blank (f + 1) c := by
  have hlength : (p.above ++ [p.line]).length = height := by
    rw [List.length_append, List.length_singleton, hfull]
  have habove : (p.newline height blank).above =
      (p.above ++ [p.line]).eraseIdx (min p.top (height - 1)) := by
    simp [newline, hfull]
  constructor
  · rw [habove, List.length_eraseIdx_of_lt (by omega)]
    omega
  · rw [cell_blankLine _ _ habove rfl, List.getElem?_eraseIdx, cell, cell]
    split_ifs
    · rfl
    · rfl

end Page
end GatOS
