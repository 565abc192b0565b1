import Bc3Miner.Foundations.Binary64

/-!
# JSON values

The values that `serde_json` reads a line into, and the ways in which the pool connection looks at
them (`Value` with its index, `as_*` and comparison). Nothing here fails: an index into what is no
array or no object, or past its end, finds null.

A number is a word without a sign, a negative integer or a double, as the reader keeps them, and
`asU64` and `asF64` convert no more than the source's do. What makes a text JSON is not modelled: a
line comes as the value it was read into.
-/

set_option autoImplicit false
set_option relaxedAutoImplicit false

namespace Bc3Miner.Pool

open Foundations

/-- A JSON number: the integers that fit 64 bits are kept as such, every other one as a double. -/
inductive Number
  | posInt (value : UInt64)
  | negInt (value : ℤ)
  | float (value : Binary64)
  deriving DecidableEq

/-- A JSON value. No two fields of an object have one name. -/
inductive Value
  | null
  | bool (value : Bool)
  | number (value : Number)
  | string (value : String)
  | array (values : List Value)
  | object (fields : List (String × Value))

/-- The double nearest to a number. -/
def Number.asF64 : Number → Binary64
  | .posInt value => Binary64.ofNat value.toNat
  | .negInt value => Binary64.round value
  | .float value => value

namespace Value

/-- `value["name"]`. -/
def field (name : String) : Value → Value
  | .object fields => (fields.lookup name).getD .null
  | _ => .null

/-- `value[index]`. -/
def item (index : ℕ) : Value → Value
  | .array values => values.getD index .null
  | _ => .null

def isNull : Value → Bool
  | .null => true
  | _ => false

def asU64 : Value → Option UInt64
  | .number (.posInt value) => some value
  | _ => none

def asF64 : Value → Option Binary64
  | .number value => some value.asF64
  | _ => none

def asStr : Value → Option String
  | .string value => some value
  | _ => none

def asArray : Value → Option (List Value)
  | .array values => some values
  | _ => none

/-- `value == json!(expected)` for an integer: a double never is one, whatever its value. -/
def isInteger (value : Value) (expected : UInt64) : Bool := value.asU64 == some expected

/-- `value == json!(expected)` for a truth value. -/
def isBool (expected : Bool) : Value → Bool
  | .bool value => value == expected
  | _ => false

end Value

end Bc3Miner.Pool
