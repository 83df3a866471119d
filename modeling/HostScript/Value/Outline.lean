import HostScript.Outline
import HostScript.Text.Escaped
import HostScript.Value.Printer

/-!
# The outline of a value

How diagnostics show a value: every value under the name of its kind.
-/

namespace HostScript.Value

mutual

/-- The outline of a value. -/
def outline : Value → Outline
  | .null => .leaf "Null"
  | .bool b => .tuple "Bool" [.bool b]
  | .number n => .tuple "Number" [.leaf n.debug]
  | .string text => .tuple "String" [.leaf (Text.quoted text)]
  | .array items => .tuple "Array" [.list (outlines items)]
  | .object ⟨entries, _⟩ => .tuple "Object" [.map (entryOutlines entries)]

/-- The outlines of the items of an array. -/
def outlines : List Value → List Outline
  | [] => []
  | item :: rest => outline item :: outlines rest

/-- The outlines of the entries of an object. -/
def entryOutlines : List (Value × Value) → List (Outline × Outline)
  | [] => []
  | (key, value) :: rest => (outline key, outline value) :: entryOutlines rest

end

/-- The text of a value in diagnostics. -/
def debug (v : Value) : String := v.outline.line

end HostScript.Value
