import HostScript.Value.Basic

/-!
# Values of an expected kind

The content of a value that is expected to be of one kind, and the fault when it is of another.
-/

namespace HostScript.Value

/-- The kinds that a value can be expected to have. -/
inductive Expected
  | bool
  | string
  | number
  | array
  | object
  deriving DecidableEq, Repr

/-- The wording when the expectation fails. -/
def Expected.message : Expected → String
  | .bool => "not a bool"
  | .string => "not a string"
  | .number => "not a number"
  | .array => "not an array"
  | .object => "not an object"

/-- The content of a boolean. -/
def asBool : Value → Except Expected Bool
  | .bool b => .ok b
  | _ => .error .bool

/-- The content of a string. -/
def asString : Value → Except Expected String
  | .string text => .ok text
  | _ => .error .string

/-- The content of a number. -/
def asNumber : Value → Except Expected Number
  | .number n => .ok n
  | _ => .error .number

/-- The items of an array. -/
def asArray : Value → Except Expected (List Value)
  | .array items => .ok items
  | _ => .error .array

/-- The table of an object. -/
def asObject : Value → Except Expected (Table Value)
  | .object table => .ok table
  | _ => .error .object

/-- Null. -/
def isNull : Value → Bool
  | .null => true
  | _ => false

/-- The object without entries. -/
def isEmptyObject : Value → Bool
  | .object table => table.entries.isEmpty
  | _ => false

end HostScript.Value
