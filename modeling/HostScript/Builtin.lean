import HostScript.Text.Blank
import HostScript.Value.Printer

/-!
# Builtin functions

The functions that every script can call. They depend on nothing but their arguments.
-/

namespace HostScript

/-- The builtin functions. -/
inductive Builtin
  | abs
  | bool
  | float
  | int
  | len
  | max
  | min
  | range
  | round
  | str
  | sum
  | type
  deriving DecidableEq, Repr

namespace Builtin

/-- All builtin functions. -/
def all : List Builtin := [.abs, .bool, .float, .int, .len, .max, .min, .range, .round, .str, .sum, .type]

/-- The name under which a script calls a function. -/
def name : Builtin → String
  | .abs => "abs"
  | .bool => "bool"
  | .float => "float"
  | .int => "int"
  | .len => "len"
  | .max => "max"
  | .min => "min"
  | .range => "range"
  | .round => "round"
  | .str => "str"
  | .sum => "sum"
  | .type => "type"

/-- The function of a name. -/
def ofName? (name : String) : Option Builtin := all.find? fun b => b.name == name

/-- The number of arguments that a function takes; none if it varies. -/
def arity? : Builtin → Option Nat
  | .max | .min | .range => none
  | _ => some 1

/-- Why a function refuses its arguments. -/
inductive Fault
  | oneArgument (function : Builtin)
  | atLeastOneArgument (function : Builtin)
  | argumentRange (function : Builtin) (least most got : Nat)
  | notNumeric (function : Builtin) (got : Value)
  | notInteger (function : Builtin) (got : Value)
  | notArray (function : Builtin) (got : Value)
  | noLength (got : Value)
  | emptyArray (function : Builtin)
  | mixedKinds (function : Builtin)
  | rangeTooLong
  | unreadableText (function : Builtin) (text : String)
  | unconvertible (function : Builtin) (typeName : String)
  | arithmetic (fault : Number.Fault)
  deriving Repr

/-- The greatest number of elements that `range` makes. -/
def maxRangeLength : Int := 0x100000

/-- The wording of a refusal. -/
def Fault.message : Fault → String
  | .oneArgument f => s!"`{f.name}` expects 1 argument"
  | .atLeastOneArgument f => s!"`{f.name}` expects at least 1 argument"
  | .argumentRange f least most got => s!"`{f.name}` expects between {least} and {most} arguments. Got {got}"
  | .notNumeric f got => s!"`{f.name}` expects numeric argument. Got `{got.compact}` instead"
  | .notInteger f got => s!"`{f.name}` expects integer argument. Got `{got.compact}` instead"
  | .notArray f got => s!"`{f.name}` expects array argument. Got `{got.compact}` instead"
  | .noLength got => s!"`len` requires array/object/string argument. Got `{got.compact}`."
  | .emptyArray f => s!"`{f.name}` of an empty array"
  | .mixedKinds f => s!"`{f.name}` requires all numbers or all strings"
  | .rangeTooLong => s!"`range` exceeds {maxRangeLength} elements"
  | .unreadableText f text => s!"`{f.name}` cannot convert `{text}`"
  | .unconvertible f typeName => s!"`{f.name}` cannot convert {typeName}"
  | .arithmetic fault => fault.message

/-- A number is expected. -/
def numeric (f : Builtin) : Value → Except Fault Number
  | .number n => .ok n
  | v => .error (.notNumeric f v)

/-- A number that stands for an integer is expected. -/
def integer (f : Builtin) (v : Value) : Except Fault Int := do
  match (← numeric f v).toInt? with
  | some i => return i
  | none => throw (.notInteger f v)

/-- The number that a value is converted to. -/
def convert (f : Builtin) : Value → Except Fault Number
  | .number n => .ok n
  | .bool b => .ok (.ofNat b.toNat)
  | .string text => match Number.ofText? (Text.trim text) with
    | some n => .ok n
    | none => .error (.unreadableText f text)
  | v => .error (.unconvertible f v.typeName)

/-- A number. -/
def isNumber : Value → Bool
  | .number _ => true
  | _ => false

/-- The values among which `max` and `min` choose: the elements of a single array, or else the arguments. They are all numbers or
all strings. -/
def candidates (f : Builtin) (args : List Value) : Except Fault (Value × List Value) :=
  let items := match args with
    | [.array items] => items
    | _ => args
  match args, items with
  | [], _ => .error (.atLeastOneArgument f)
  | _, [] => .error (.emptyArray f)
  | _, first :: rest =>
    if items.all isNumber || items.all Value.isString then .ok (first, rest) else .error (.mixedKinds f)

/-- Keeps the first of the values that are extreme in the given direction. -/
def extreme (direction : Ordering) (first : Value) (rest : List Value) : Value :=
  rest.foldl (fun best v => if v.compare best == direction then v else best) first

/-- The sum of the items of an array. -/
def total (items : List Value) : Except Fault Number := do
  let n ← items.foldlM (fun sum v => return sum.add (← numeric .sum v)) (Number.ofNat 0)
  n.ensureFinite.mapError .arithmetic

/-- The integers from a start up to, but not including, a stop. -/
def rangeItems (start stop : Int) : Except Fault (List Value) :=
  if maxRangeLength < stop - start then .error .rangeTooLong
  else .ok ((List.range (stop - start).toNat).map fun (k : Nat) => .number (.int (.ofInt (start + k))))

/-- The number of items, entries or characters. It is a machine word, which no container outgrows. -/
def length : Value → Except Fault UInt64
  | .array items => .ok items.length.toUInt64
  | .object table => .ok table.length.toUInt64
  | .string text => .ok text.length.toUInt64
  | v => .error (.noLength v)

/-- Calls a function. -/
def apply (f : Builtin) (args : List Value) : Except Fault Value :=
  match f, args with
  | .abs, [v] => return .number (← numeric f v).abs
  | .bool, [v] => return .bool v.isTruthy
  | .float, [v] => return .number (← convert f v).toFloat
  | .int, [v] => return .number (← convert f v).trunc
  | .len, [v] => return .ofNat (← length v).toNat
  | .max, _ => do
    let (first, rest) ← candidates f args
    return extreme .gt first rest
  | .min, _ => do
    let (first, rest) ← candidates f args
    return extreme .lt first rest
  | .range, [stop] => do return .array (← rangeItems 0 (← integer f stop))
  | .range, [start, stop] => do
    let start ← integer f start
    return .array (← rangeItems start (← integer f stop))
  | .range, _ => .error (.argumentRange f 1 2 args.length)
  | .round, [v] => return .number (← numeric f v).round
  | .str, [v] => return .string v.display
  | .sum, [.array items] => return .number (← total items)
  | .sum, [v] => .error (.notArray f v)
  | .type, [v] => return .string v.typeName
  | _, _ => .error (.oneArgument f)

end Builtin

end HostScript
