import Mathlib.Data.List.Basic

/-!
# Text on rows of a fixed width

A teletype prints one character after the other and starts a new row at a line break
and after the last column.  What a window shows is the last rows of all that was
printed.  The two lemmas on `cellAt` say what a character and a new row change there.
-/

namespace Machine

variable {α : Type*}

/-- The rows that are complete and the row that is being printed. -/
structure Teletype (α : Type*) where
  done : List (List α)
  row : List α

namespace Teletype

def blank : Teletype α := { done := [], row := [] }

def put (c : α) (t : Teletype α) : Teletype α := { t with row := t.row ++ [c] }

def newRow (t : Teletype α) : Teletype α := { done := t.done ++ [t.row], row := [] }

/-- One character on rows of `w` columns. -/
def feed (breaks : α → Prop) [DecidablePred breaks] (w : Nat) (t : Teletype α) (c : α) :
    Teletype α :=
  if breaks c then t.newRow
  else if (t.put c).row.length < w then t.put c else (t.put c).newRow

/-- The rows, the one that is being printed last. -/
def rows (t : Teletype α) : List (List α) := t.done ++ [t.row]

/-- What a window of `h` rows shows. -/
def lastRows (h : Nat) (t : Teletype α) : List (List α) := t.rows.drop (t.rows.length - h)

/-- The character at a row and a column of the window, if there is one. -/
def cellAt (h i j : Nat) (t : Teletype α) : Option α := ((t.lastRows h)[i]?.getD [])[j]?

/-- The row of the window that is being printed. -/
def line (h : Nat) (t : Teletype α) : Nat := min t.done.length (h - 1)

variable {h i j w : Nat}

theorem length_rows (t : Teletype α) : t.rows.length = t.done.length + 1 := by
  simp [rows]

theorem cellAt_eq (t : Teletype α) :
    t.cellAt h i j = (t.rows[t.done.length + 1 - h + i]?.getD [])[j]? := by
  simp only [cellAt, lastRows, List.getElem?_drop, length_rows]

/-- Below the last row there are no characters. -/
theorem getElem?_past {l : List (List α)} {k : Nat} (hk : l.length ≤ k) :
    (l[k]?.getD [])[j]? = none := by
  rw [List.getElem?_eq_none hk]
  rfl

/-- Nothing is printed below the row that is being printed. -/
theorem cellAt_blank : (blank : Teletype α).cellAt h i j = none := by
  rw [cellAt_eq]
  simp only [rows, blank, List.nil_append]
  cases (List.length ([] : List (List α)) + 1 - h + i) <;> simp

/-- A character appears where the row that is being printed ends. -/
theorem cellAt_put (t : Teletype α) (c : α) (hi : i < h) :
    (t.put c).cellAt h i j =
      if i = t.line h ∧ j = t.row.length then some c else t.cellAt h i j := by
  have hline : t.line h = min t.done.length (h - 1) := rfl
  rw [cellAt_eq, cellAt_eq]
  simp only [rows, put]
  rcases Nat.lt_trichotomy (t.done.length + 1 - h + i) t.done.length with hlt | heq | hgt
  · rw [List.getElem?_append_left hlt, List.getElem?_append_left hlt, if_neg (by omega)]
  · rw [heq, List.getElem?_append_right (Nat.le_refl _), List.getElem?_append_right (Nat.le_refl _)]
    simp only [Nat.sub_self, List.getElem?_cons_zero, Option.getD_some]
    rcases Nat.lt_trichotomy j t.row.length with hj | hj | hj
    · rw [List.getElem?_append_left hj, if_neg (by omega)]
    · rw [hj, if_pos (by omega)]
      simp
    · rw [if_neg (by omega), List.getElem?_eq_none (by simp; omega),
        List.getElem?_eq_none (by omega)]
  · rw [if_neg (by omega), getElem?_past (by simp; omega), getElem?_past (by simp; omega)]

/-- A new row is empty, and takes the first row from a full window. -/
theorem cellAt_newRow (t : Teletype α) (hi : i < h) :
    t.newRow.cellAt h i j =
      if t.done.length + 1 < h then t.cellAt h i j
      else if i + 1 < h then t.cellAt h (i + 1) j else none := by
  have hnew : t.newRow.rows = t.rows ++ [[]] := rfl
  have hlen : t.newRow.done.length = t.done.length + 1 := by simp [newRow]
  rw [cellAt_eq, cellAt_eq, cellAt_eq, hnew, hlen]
  have hrows := t.length_rows
  by_cases hroom : t.done.length + 1 < h
  · have htop : t.done.length + 1 + 1 - h + i = i := by omega
    have htop' : t.done.length + 1 - h + i = i := by omega
    rw [if_pos hroom, htop, htop']
    rcases Nat.lt_trichotomy i t.rows.length with hlt | heq | hgt
    · rw [List.getElem?_append_left hlt]
    · rw [heq, List.getElem?_append_right (Nat.le_refl _), List.getElem?_eq_none (Nat.le_refl _)]
      simp
    · rw [getElem?_past (by simp; omega), getElem?_past (by omega)]
  · rw [if_neg hroom]
    by_cases hlast : i + 1 < h
    · have hnext : t.done.length + 1 + 1 - h + i = t.done.length + 1 - h + (i + 1) := by omega
      rw [if_pos hlast, hnext, List.getElem?_append_left (by omega)]
    · have hend : t.done.length + 1 + 1 - h + i = t.rows.length := by omega
      rw [if_neg hlast, hend, List.getElem?_append_right (Nat.le_refl _)]
      simp

end Teletype

end Machine
