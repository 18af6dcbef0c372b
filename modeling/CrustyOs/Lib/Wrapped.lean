import Mathlib.Data.List.DropRight
import Mathlib.Tactic.Common

/-! Text in lines of bounded length, seen through a window that shows the last ones. -/
namespace CrustyOs.Lib

/-- The line being written and the finished lines, latest first. -/
structure Wrapped (α : Type) where
  line : List α
  above : List (List α)

namespace Wrapped

variable {α : Type} {t : Wrapped α} {c : α} {rows cols i j : Nat}

def empty : Wrapped α := ⟨[], []⟩

def newline (t : Wrapped α) : Wrapped α := ⟨[], t.line :: t.above⟩

def put (cols : Nat) (t : Wrapped α) (c : α) : Wrapped α :=
  if t.line.length < cols then ⟨t.line ++ [c], t.above⟩ else ⟨[c], t.line :: t.above⟩

def lines (t : Wrapped α) : List (List α) := (t.line :: t.above).reverse

/-- Row `i`, column `j` of a window on the last `rows` lines. -/
def cell (rows : Nat) (t : Wrapped α) (i j : Nat) : Option α :=
  (t.lines.rtake rows)[i]?.bind fun row => row[j]?

def cursor (rows : Nat) (t : Wrapped α) : Nat := min t.above.length (rows - 1)

theorem cursor_lt (pos : 0 < rows) : t.cursor rows < rows := by
  unfold cursor
  omega

theorem put_fits (pos : 0 < cols) : (t.put cols c).line.length ≤ cols := by
  unfold put
  split
  · next room =>
    rw [List.length_append]
    exact room
  · exact pos

theorem cell_empty (rows i j : Nat) : (empty : Wrapped α).cell rows i j = none := by
  have blank : ∀ line ∈ (empty : Wrapped α).lines.rtake rows, line = [] := by
    intro line hline
    exact List.mem_singleton.mp (List.mem_of_mem_drop hline)
  unfold cell
  cases row : ((empty : Wrapped α).lines.rtake rows)[i]? with
  | none => rfl
  | some line =>
    rw [blank line (List.mem_of_getElem? row)]
    rfl

theorem cell_eq (pos : 0 < rows) : t.cell rows i j =
    if i ≤ t.cursor rows then (t.line :: t.above)[t.cursor rows - i]?.bind fun row => row[j]? else none := by
  have size : ((t.line :: t.above).take rows).length = t.cursor rows + 1 := by
    unfold cursor
    rw [List.length_take, List.length_cons]
    omega
  unfold cell lines
  rw [List.rtake_eq_reverse_take_reverse, List.reverse_reverse]
  split
  · next low =>
    rw [List.getElem?_reverse (by omega), size, List.getElem?_take_of_lt (by unfold cursor; omega)]
    congr 2
  · next high =>
    rw [List.getElem?_eq_none (by rw [List.length_reverse]; omega)]
    rfl

theorem cell_newline_below (room : t.above.length + 1 < rows) :
    t.newline.cell rows i j = t.cell rows i j := by
  have here : t.cursor rows = t.above.length := Nat.min_eq_left (by omega)
  have below : t.newline.cursor rows = t.above.length + 1 := Nat.min_eq_left (by simp [newline]; omega)
  rw [cell_eq (by omega), cell_eq (by omega), here, below]
  unfold newline
  cases Nat.lt_trichotomy i (t.above.length + 1) with
  | inl old =>
    rw [if_pos (by omega), if_pos (by omega), Nat.succ_sub (by omega)]
    rfl
  | inr rest =>
    cases rest with
    | inl new =>
      rw [if_pos (by omega), if_neg (by omega), new, Nat.sub_self]
      rfl
    | inr past => rw [if_neg (by omega), if_neg (by omega)]

theorem cell_newline_scroll (full : rows ≤ t.above.length + 1) (pos : 0 < rows) (hi : i < rows) :
    t.newline.cell rows i j = if i + 1 < rows then t.cell rows (i + 1) j else none := by
  have here : t.cursor rows = rows - 1 := Nat.min_eq_right (by omega)
  have last : t.newline.cursor rows = rows - 1 := Nat.min_eq_right (by simp [newline]; omega)
  rw [cell_eq pos, cell_eq pos, here, last, if_pos (by omega)]
  unfold newline
  split
  · next inside =>
    rw [if_pos (by omega), show rows - 1 - i = rows - 1 - (i + 1) + 1 by omega]
    rfl
  · next bottom =>
    rw [show rows - 1 - i = 0 by omega]
    rfl

theorem cell_append (pos : 0 < rows) :
    cell rows ⟨t.line ++ [c], t.above⟩ i j =
      if i = t.cursor rows ∧ j = t.line.length then some c else t.cell rows i j := by
  have same : cursor rows ⟨t.line ++ [c], t.above⟩ = t.cursor rows := rfl
  rw [cell_eq pos, cell_eq pos, same]
  cases Nat.lt_trichotomy i (t.cursor rows) with
  | inl higher =>
    rw [if_pos (by omega), if_neg (by omega), if_pos (by omega),
      show t.cursor rows - i = t.cursor rows - (i + 1) + 1 by omega]
    rfl
  | inr rest =>
    cases rest with
    | inl here =>
      rw [here, Nat.sub_self, if_pos (Nat.le_refl _), if_pos (Nat.le_refl _)]
      show (t.line ++ [c])[j]? = if _ then some c else t.line[j]?
      rw [List.getElem?_append]
      grind
    | inr lower => rw [if_neg (by omega), if_neg (by omega), if_neg (by omega)]

end Wrapped
end CrustyOs.Lib
