import Mathlib.Data.List.Basic
import Mathlib.Tactic.Common

/-!
# Comma-separated text

Rows of fields, a comma between fields and a line feed after each row, with no quoting.  Splitting the text again
gives the rows back as long as no field holds a comma or a line feed (`parse_text`).  So text that is written piece by
piece is read as the rows of the pieces.
-/

namespace Csv

/-- One line: the fields with commas between them, and the line feed. -/
def line (row : List (List Char)) : List Char := [','].intercalate row ++ ['\n']

def text (rows : List (List (List Char))) : List Char := rows.flatMap line

/-- The rows of a text; what stands behind the last line feed is left out. -/
def parse (s : List Char) : List (List (List Char)) := (s.splitOn '\n').dropLast.map (List.splitOn ',')

/-- A field that needs no quoting. -/
def CleanField (field : List Char) : Prop := ',' ∉ field ∧ '\n' ∉ field

instance (field : List Char) : Decidable (CleanField field) := inferInstanceAs (Decidable (_ ∧ _))

/-- A row that can be read back: it has a field, and none needs quoting. -/
def CleanRow (row : List (List Char)) : Prop := row ≠ [] ∧ ∀ field ∈ row, CleanField field

instance (row : List (List Char)) : Decidable (CleanRow row) := inferInstanceAs (Decidable (_ ∧ _))

theorem text_append (rows rows' : List (List (List Char))) : text (rows ++ rows') = text rows ++ text rows' :=
  List.flatMap_append

/-- The fields of a clean row, joined, hold no line feed. -/
theorem not_mem_intercalate {row : List (List Char)} (h : ∀ field ∈ row, CleanField field) :
    '\n' ∉ [','].intercalate row := by
  induction row with
  | nil => simp
  | cons field row ih =>
    have hfield := (h field List.mem_cons_self).2
    have hrest := ih fun f hf => h f (List.mem_cons_of_mem field hf)
    cases row with
    | nil => simpa using hfield
    | cons f row =>
      rw [List.intercalate_cons_cons]
      simp only [List.mem_append, List.mem_singleton, not_or]
      exact ⟨⟨hfield, by decide⟩, hrest⟩

/-- A line is split into the fields it was made of. -/
theorem splitOn_intercalate_of_clean {row : List (List Char)} (h : CleanRow row) :
    ([','].intercalate row).splitOn ',' = row :=
  List.splitOn_intercalate ',' (fun field hfield => (h.2 field hfield).1) h.1

theorem splitOn_text {rows : List (List (List Char))} (h : ∀ row ∈ rows, CleanRow row) :
    (text rows).splitOn '\n' = rows.map [','].intercalate ++ [[]] := by
  induction rows with
  | nil => simp [text]
  | cons row rows ih =>
    have hline : text (row :: rows) = [','].intercalate row ++ '\n' :: text rows := by simp [text, line]
    have hrow := not_mem_intercalate (h row List.mem_cons_self).2
    rw [hline, List.splitOn_append_cons_self_of_not_mem hrow, ih fun r hr => h r (List.mem_cons_of_mem row hr),
      List.map_cons, List.cons_append]

/-- Clean rows are read back. -/
theorem parse_text {rows : List (List (List Char))} (h : ∀ row ∈ rows, CleanRow row) : parse (text rows) = rows := by
  rw [parse, splitOn_text h, List.dropLast_concat, List.map_map]
  refine (List.map_congr_left fun row hrow => ?_).trans (List.map_id rows)
  exact splitOn_intercalate_of_clean (h row hrow)

end Csv
