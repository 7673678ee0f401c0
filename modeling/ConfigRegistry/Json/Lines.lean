import ConfigRegistry.Json.Text

/-!
# Files of one document a line

What a file holds when documents are appended to it one a line, and how it is read: split at the
line breaks, empty lines dropped, every line parsed.
-/

namespace ConfigRegistry.Json

/-- The line of a document. -/
def line (v : Doc) : List Char := render v ++ ['\n']

/-- The file of a sequence of documents. -/
def lines (vs : List Doc) : List Char := vs.flatMap line

/-- Every line of a file, parsed; none when one of them does not parse. -/
def parseLines (text : List Char) : Option (List Doc) :=
  ((text.splitOn '\n').filter fun line => !line.isEmpty).mapM parse

@[simp] theorem lines_nil : lines [] = [] := rfl

@[simp] theorem lines_cons (v : Doc) (vs : List Doc) : lines (v :: vs) = line v ++ lines vs := by
  rw [lines, List.flatMap_cons, lines]

@[simp] theorem lines_append (vs ws : List Doc) : lines (vs ++ ws) = lines vs ++ lines ws := by
  rw [lines, List.flatMap_append, lines, lines]

theorem splitOn_line (v : Doc) (text : List Char) :
    (line v ++ text).splitOn '\n' = render v :: text.splitOn '\n' := by
  rw [line, List.append_assoc, List.singleton_append, List.splitOn, List.splitOn]
  have hnone : ∀ c ∈ render v, (c == '\n') = false := by
    intro c hc
    rw [beq_eq_false_iff_ne]
    rintro rfl
    exact newline_not_mem_render v hc
  exact List.splitOnP_append_cons_of_forall_mem hnone '\n' (by decide) text

/-- A line in front of a file is read first. -/
theorem parseLines_line (v : Doc) (text : List Char) :
    parseLines (line v ++ text) = (parseLines text).map (v :: ·) := by
  have hne : (render v).isEmpty = false := by
    rw [List.isEmpty_eq_false_iff]
    exact render_ne_nil v
  rw [parseLines, splitOn_line, List.filter_cons, hne]
  simp only [Bool.not_false, if_true, List.mapM_cons, parse_render, Option.bind_eq_bind,
    Option.bind_some, Option.pure_def]
  rw [parseLines]
  cases List.mapM parse _ <;> rfl

/-- A file of whole lines reads back. -/
theorem parseLines_lines (vs : List Doc) : parseLines (lines vs) = some vs := by
  induction vs with
  | nil => rfl
  | cons v vs ih => rw [lines_cons, parseLines_line, ih, Option.map_some]

end ConfigRegistry.Json
