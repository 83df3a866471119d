import HostScript.Value.Printer

/-!
# Reading and assigning inside a value

`Value.get` reads one step into a container. `Value.modifyPath` descends along a list of keys and changes what it finds there;
on its way it enters a null for every object key that is missing, also when it fails further on.
-/

namespace HostScript.Value

/-- Why a step into a value fails. -/
inductive AccessFault
  /-- The key is no index of an array of the given length. -/
  | arrayIndex (key : Value) (length : Nat)
  /-- The key is no index of the string. -/
  | stringIndex (key : Value)
  /-- A value of the first type cannot be read at a key of the second. -/
  | notIndexable (container key : String)
  /-- Nothing can be assigned inside a value of the type. -/
  | notAssignable (container : String)
  deriving Repr

/-- The wording of an access fault. -/
def AccessFault.message : AccessFault → String
  | .arrayIndex key length => s!"array index {key.compact} out of range (length {length})"
  | .stringIndex key => s!"string index {key.compact} out of range"
  | .notIndexable container key => s!"cannot index {container} with {key}"
  | .notAssignable container => s!"cannot assign into {container}"

/-- The index that a key denotes: a number that stands for a natural number. -/
def index? : Value → Option Nat
  | .number n => n.toNat?
  | _ => none

/-- Reads the value at a key. A key that an object lacks reads as null; an index that an array or a string lacks is a fault. -/
def get (container key : Value) : Except AccessFault Value :=
  match container, key with
  | .object table, _ => .ok ((valueAt? key table).getD .null)
  | .array items, .number n => match n.toNat?.bind (items[·]?) with
    | some item => .ok item
    | none => .error (.arrayIndex key items.length)
  | .string text, .number n => match n.toNat?.bind (text.toList[·]?) with
    | some c => .ok (.string (String.singleton c))
    | none => .error (.stringIndex key)
  | _, _ => .error (.notIndexable container.typeName key.typeName)

/-- Reads the value at a key, where everything missing or out of range reads as null. -/
def getOrNull (container key : Value) : Value :=
  match container with
  | .object table => (valueAt? key table).getD .null
  | .array items => (key.index?.bind (items[·]?)).getD .null
  | _ => .null

/-- Descends along a path and changes the value at its end. The second component tells why the descent failed; the first is the
value afterwards in either case. -/
def modifyPath (change : Value → Value) : List Value → Value → Value × Option AccessFault
  | [], target => (change target, none)
  | key :: path, .object table =>
    let (child, fault) := modifyPath change path ((valueAt? key table).getD .null)
    (.object (insertEntry key child table), fault)
  | key :: path, .array items =>
    match key.index? with
    | none => (.array items, some (.arrayIndex key items.length))
    | some i => match items[i]? with
      | none => (.array items, some (.arrayIndex key items.length))
      | some item =>
        let (child, fault) := modifyPath change path item
        (.array (items.set i child), fault)
  | _ :: _, target => (target, some (.notAssignable target.typeName))

end HostScript.Value
