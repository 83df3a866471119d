import Mathlib
import HostScript.Dialect.HostText

/-!
# The text of a rendered source

`render` as one equation (`render_text`): the import of the host, the lines of the tree, and the tail that cannot be cut into tokens.
-/

namespace HostScript.Dialect

/-- The tree of the blocks of a source. -/
def nodesOf (source : Source) : List Node := blocks (statements source.lineIndent source.scan.tokens)

/-- The tail of a source that cannot be cut into tokens, without the blanks at its ends. -/
def tailOf (source : Source) : String :=
  match source.scan.ending with
  | .complete _ _ => ""
  | .stopped _ rest => Text.trim rest

theorem tailOf_complete {source : Source} {gap : String} {pos : Position} (h : source.scan.ending = .complete gap pos) :
    tailOf source = "" := by
  unfold tailOf
  rw [h]

/-- The text of a row of lines, each with its line end. -/
def linesText (lines : List String) : List Char := lines.flatMap fun line => line.toList ++ ['\n']

/-- Lines that are put behind a text, with a line end at the end of all. -/
theorem joined_toList (lines : List String) (init : String) :
    (lines.foldl (fun text line => text ++ "\n" ++ line) init ++ "\n").toList = init.toList ++ '\n' :: linesText lines := by
  induction lines generalizing init with
  | nil =>
    rw [List.foldl_nil, String.toList_append]
    rfl
  | cons line lines ih =>
    rw [List.foldl_cons, ih, String.toList_append, String.toList_append, linesText, linesText, List.flatMap_cons]
    simp

/-- The statements of a rendered source are those of its tree. -/
theorem render_indent (source : Source) (number : Nat) :
    ((source.lines.map Line.indent).toArray[number - 1]?).getD 1 = source.lineIndent number := by
  rw [List.getElem?_toArray, List.getElem?_map]
  rfl

/-- A rendered source: the import of the host, an empty line, the lines of the tree and the tail, if there is one. -/
theorem render_text (source : Source) :
    (render source).script.text.toList = hostImportLine.toList ++ '\n' :: '\n' ::
      (linesText (nodeLines 0 [] (nodesOf source)) ++ linesText (if (tailOf source).isEmpty then [] else [tailOf source])) := by
  have htext : (render source).script.text = (nodeLines 0 [] (nodesOf source) ++
      (if (tailOf source).isEmpty then [] else [tailOf source])).foldl (fun text line => text ++ "\n" ++ line)
        (hostImportLine ++ "\n") ++ "\n" := by
    unfold render tailOf nodesOf
    simp only [render_indent]
    cases source.scan.ending <;> rfl
  rw [htext, joined_toList, String.toList_append, List.append_assoc, linesText, List.flatMap_append]
  rfl

end HostScript.Dialect
