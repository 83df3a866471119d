import HostScript.Number.Basic
import HostScript.Value.Table

/-!
# Script values

Null, booleans, numbers, strings, arrays and objects. An object is a table of entries, in which any value can be a key. The order by which
they are found is defined on all values: by kind first, then by content. It does not see how a table is laid out.
-/

namespace HostScript

/-- A script value. -/
inductive Value
  | null
  | bool (value : Bool)
  | number (value : Number)
  | string (text : String)
  | array (items : List Value)
  | object (table : Table Value)
  deriving Repr

namespace Value

instance : Inhabited Value := ⟨.null⟩

/-- The object without entries. -/
def emptyObject : Value := .object .empty

/-- The value of a natural number. -/
def ofNat (n : Nat) : Value := .number (.ofNat n)

/-- The name of a value's type, as scripts and diagnostics see it. -/
def typeName : Value → String
  | .null => "null"
  | .bool _ => "bool"
  | .number (.int _) => "int"
  | .number (.float _) => "float"
  | .string _ => "string"
  | .array _ => "array"
  | .object _ => "object"

/-- Null, false, zeros and everything empty count as false. -/
def isTruthy : Value → Bool
  | .null => false
  | .bool b => b
  | .number n => !n.isZero
  | .string text => !text.isEmpty
  | .array items => !items.isEmpty
  | .object table => !table.entries.isEmpty

/-- The place of a value's kind in the order. -/
def kindRank : Value → Nat
  | .null => 0
  | .bool _ => 1
  | .number _ => 2
  | .string _ => 3
  | .array _ => 4
  | .object _ => 5

mutual

/-- The order of values: kinds by their rank, false before true, strings by code points, arrays and objects lexicographically. -/
def compare : Value → Value → Ordering
  | .bool a, .bool b => Ord.compare a b
  | .number a, .number b => a.compare b
  | .string a, .string b => Ord.compare a b
  | .array as, .array bs => compareItems as bs
  | .object ⟨as, _⟩, .object ⟨bs, _⟩ => compareEntries as bs
  | a, b => Ord.compare a.kindRank b.kindRank

/-- The first item that differs decides; a proper beginning is smaller. -/
def compareItems : List Value → List Value → Ordering
  | [], [] => .eq
  | [], _ :: _ => .lt
  | _ :: _, [] => .gt
  | a :: as, b :: bs => match compare a b with
    | .eq => compareItems as bs
    | decided => decided

/-- The first entry that differs decides, by its key and then by its value; a proper beginning is smaller. -/
def compareEntries : List (Value × Value) → List (Value × Value) → Ordering
  | [], [] => .eq
  | [], _ :: _ => .lt
  | _ :: _, [] => .gt
  | (key, value) :: as, (otherKey, otherValue) :: bs => match compare key otherKey with
    | .eq => match compare value otherValue with
      | .eq => compareEntries as bs
      | decided => decided
    | decided => decided

end

/-- Equality as scripts see it: equal in the order, so that an integer can equal a float. -/
def same (a b : Value) : Bool := a.compare b == .eq

/-- The value of a key in a table. -/
def valueAt? (key : Value) (table : Table Value) : Option Value := table.get? key.compare

/-- Puts an entry into a table. An equal key already there stays and takes the new value. -/
def insertEntry (key value : Value) (table : Table Value) : Table Value := table.insert key.compare key value

end Value

end HostScript
