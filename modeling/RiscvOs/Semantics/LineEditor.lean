import Mathlib.Data.List.Induction

/-! A line of text that is edited at its end, and the row of a terminal that
shows it. -/
namespace Semantics

variable {Symbol : Type*}

/-! ## The line -/

/-- What a key does to the line. -/
inductive Key (Symbol : Type*) where
  | enter
  | erase
  | type (symbol : Symbol)

/-- The line, and the lines that were entered before it. -/
structure Editor (Symbol : Type*) where
  entered : List (List Symbol)
  line : List Symbol

/-- A full line takes no further symbol. -/
def Editor.press (capacity : Nat) (e : Editor Symbol) : Key Symbol → Editor Symbol
  | .enter => ⟨e.entered ++ [e.line], []⟩
  | .erase => { e with line := e.line.dropLast }
  | .type symbol => if e.line.length < capacity then { e with line := e.line ++ [symbol] } else e

/-- What keys come to, from an empty line on. -/
def edit (capacity : Nat) (keys : List (Key Symbol)) : Editor Symbol :=
  keys.foldl (Editor.press capacity) ⟨[], []⟩

variable {capacity : Nat} {keys : List (Key Symbol)} {key : Key Symbol} {e : Editor Symbol}

theorem edit_snoc : edit capacity (keys ++ [key]) = (edit capacity keys).press capacity key := by
  rw [edit, List.foldl_append]
  rfl

/-- A key keeps all lines within the capacity. -/
theorem Editor.press_length_le (hLine : e.line.length ≤ capacity)
    (hEntered : ∀ line ∈ e.entered, line.length ≤ capacity) :
    (e.press capacity key).line.length ≤ capacity ∧
      ∀ line ∈ (e.press capacity key).entered, line.length ≤ capacity := by
  cases key with
  | enter =>
      refine ⟨Nat.zero_le _, fun line hMem => ?_⟩
      rcases List.mem_append.mp hMem with hBefore | hLast
      · exact hEntered line hBefore
      · rw [List.mem_singleton.mp hLast]
        exact hLine
  | erase =>
      refine ⟨?_, hEntered⟩
      change e.line.dropLast.length ≤ capacity
      rw [List.length_dropLast]
      omega
  | type symbol =>
      rw [Editor.press]
      split
      next hRoom =>
        refine ⟨?_, hEntered⟩
        rw [List.length_append, List.length_singleton]
        omega
      next => exact ⟨hLine, hEntered⟩

theorem edit_length_le :
    (edit capacity keys).line.length ≤ capacity ∧
      ∀ line ∈ (edit capacity keys).entered, line.length ≤ capacity := by
  induction keys using List.reverseRecOn with
  | nil => exact ⟨Nat.zero_le _, fun _ hMem => absurd hMem List.not_mem_nil⟩
  | append_singleton keys key ih =>
      rw [edit_snoc]
      exact Editor.press_length_le ih.1 ih.2

/-! ## The row of a terminal -/

/-- The cells of the row; `column` is the one at the cursor. -/
structure Row (Symbol : Type*) where
  cells : List Symbol
  column : Nat

/-- A symbol overwrites the cell at the cursor. -/
def Row.write (r : Row Symbol) (symbol : Symbol) : Row Symbol :=
  ⟨r.cells.take r.column ++ symbol :: r.cells.drop (r.column + 1), r.column + 1⟩

def Row.back (r : Row Symbol) : Row Symbol :=
  { r with column := r.column - 1 }

/-- The row shows the text with nothing but blanks behind it, and the cursor is
behind the text. -/
def Row.Shows (blank : Symbol) (r : Row Symbol) (text : List Symbol) : Prop :=
  r.column = text.length ∧ ∃ k, r.cells = text ++ List.replicate k blank

variable {blank symbol : Symbol} {r : Row Symbol} {text : List Symbol}

theorem Row.Shows.write (h : r.Shows blank text) : (r.write symbol).Shows blank (text ++ [symbol]) := by
  obtain ⟨hColumn, k, hCells⟩ := h
  refine ⟨by rw [Row.write, hColumn, List.length_append]; rfl, k - 1, ?_⟩
  rw [Row.write, hColumn, hCells, List.take_left, ← List.drop_drop, List.drop_left,
    List.drop_replicate, List.append_assoc]
  rfl

theorem Row.Shows.writeAll {word : List Symbol} (h : r.Shows blank text) :
    (word.foldl Row.write r).Shows blank (text ++ word) := by
  induction word generalizing r text with
  | nil => simpa using h
  | cons symbol word ih =>
      rw [List.foldl_cons]
      have hWrite : (r.write symbol).Shows blank (text ++ [symbol]) := h.write
      have hRest := ih hWrite
      rwa [List.append_assoc] at hRest

/-- Going back, writing a blank and going back again erases a symbol. -/
theorem Row.Shows.erase (h : r.Shows blank (text ++ [symbol])) :
    ((r.back.write blank).back).Shows blank text := by
  obtain ⟨hColumn, k, hCells⟩ := h
  rw [List.length_append, List.length_singleton] at hColumn
  have hBack : r.column - 1 = text.length := by omega
  refine ⟨?_, k + 1, ?_⟩
  · change r.column - 1 + 1 - 1 = text.length
    omega
  · change r.cells.take (r.column - 1) ++ blank :: r.cells.drop (r.column - 1 + 1) = _
    rw [hBack, hCells, List.append_assoc, List.take_left, ← List.drop_drop, List.drop_left,
      List.replicate_succ]
    rfl

end Semantics
