import TokenScript.Decimal.Format

/-!
# Values

A script computes with signed 64-bit integers, binary64 numbers, texts and truth values.  A fifth
value, `nothing`, stands in for an expression that is empty or that could not be evaluated.

A value has a kind, which messages name; a truth, which conditions test; and a printed form, which
`print` writes.  The printed form of a number is the format `Decimal.Format.printed`.
-/

namespace TokenScript

/-- A number literal. -/
inductive Number where
  | int (n : Int64)
  | float (x : Float)
  deriving DecidableEq

/-- What an expression evaluates to and a variable holds. -/
inductive Value where
  | int (n : Int64)
  | float (x : Float)
  | text (s : String)
  | bool (b : Bool)
  | nothing
  deriving DecidableEq, Inhabited

/-- The value of a literal. -/
def Number.value : Number → Value
  | .int n => .int n
  | .float x => .float x

/-- The kinds of values. -/
inductive Kind where
  | int
  | float
  | text
  | bool
  | nothing
  deriving DecidableEq, Repr

/-- The name of a kind in messages. -/
def Kind.name : Kind → String
  | int => "int"
  | float => "float"
  | text => "string"
  | bool => "bool"
  | nothing => "none"

namespace Value

/-- The kind of a value. -/
def kind : Value → Kind
  | int _ => .int
  | float _ => .float
  | text _ => .text
  | bool _ => .bool
  | nothing => .nothing

/-- Whether a condition with this value holds.  Zeros, the empty text and `nothing` do not; the
undefined number does. -/
def isTruthy : Value → Bool
  | int n => n != 0
  | float x => x != 0.0
  | text s => s != ""
  | bool b => b
  | nothing => false

/-- The value as `print` writes it. -/
def display : Value → String
  | int n => toString n.toInt
  | float x => Decimal.Format.printed.render x
  | text s => s
  | bool true => "true"
  | bool false => "false"
  | nothing => "none"

@[simp] theorem isTruthy_nothing : nothing.isTruthy = false := rfl

@[simp] theorem isTruthy_bool (b : Bool) : (bool b).isTruthy = b := rfl

end Value
end TokenScript
