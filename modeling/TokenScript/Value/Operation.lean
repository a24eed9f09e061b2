import TokenScript.Error
import TokenScript.Word

/-!
# Operators on values

Two integers are combined exactly, as integers without bounds, and the result must fit a word again;
so an integer result is never wrong, only missing.  A number with a fractional part on either side
makes both sides binary64 numbers.  Texts can be joined and ordered, truth values combined bit by
bit.  Everything else is refused with the kinds of both sides.

Division rounds towards the floor, and the remainder has the sign of the divisor.  The word's most
negative integer has no quotient by minus one, and by the same token no remainder.  An exponent must
fit 32 bits, whatever the base.

* `Operator.apply`: a binary operator.
* `Operator.applySign`: a sign in front of its operand.
-/

namespace TokenScript

open EvaluationCause

namespace Value

/-- The number a value denotes among the binary64 numbers; only numbers denote one. -/
def number? : Value → Option Float
  | int n => some (Float.ofInt n.toInt)
  | float x => some x
  | _ => none

/-- Equality as scripts see it: numbers by their binary64 value when one of them is no integer,
values of different kinds never. -/
def equals : Value → Value → Bool
  | int a, int b => a == b
  | int a, float y => Float.ofInt a.toInt == y
  | float x, int b => x == Float.ofInt b.toInt
  | float x, float y => x == y
  | text s, text t => s == t
  | bool a, bool b => a == b
  | nothing, nothing => true
  | _, _ => false

/-- The order of two binary64 numbers, unless one of them is undefined. -/
def orderOfFloats (x y : Float) : Option Ordering :=
  if x < y then some .lt
  else if x == y then some .eq
  else if y < x then some .gt
  else none

/-- The order of two values: integers, texts by code points, and numbers of any kind by their
binary64 value. -/
def order (op : Operator) (left right : Value) : Except EvaluationCause Ordering :=
  match left, right with
  | int a, int b => .ok (compare a.toInt b.toInt)
  | text s, text t => .ok (compare s t)
  | _, _ =>
    match left.number?, right.number? with
    | some x, some y =>
      match orderOfFloats x y with
      | some o => .ok o
      | none => .error (unordered op)
    | _, _ => .error (operandKinds op left.kind right.kind)

end Value

namespace Operator

/-- The integer `n` as a value, if a word can hold it. -/
def checked (op : Operator) (n : Int) : Except EvaluationCause Value :=
  match Word.ofInt? n with
  | some word => .ok (.int word)
  | none => .error (overflow op)

/-- Whether `a` divided by `b` leaves the word: it does only for the most negative integer and minus
one. -/
def quotientEscapes (a b : Int) : Bool := a = Word.least && b = -1

/-- The largest exponent of an integer power: the largest unsigned 32-bit number. -/
def exponentLimit : Nat := 4294967295

/-- The power of a base, unless the exponent or the result is too large.  A base of at least two
has no power from the 64th on that fits a word, so none is computed. -/
def integerPower (base : Int) (exponent : Nat) : Except EvaluationCause Value :=
  if exponentLimit < exponent then .error (overflow .power)
  else if 64 ≤ exponent then
    if base = 0 then checked .power 0
    else if base = 1 then checked .power 1
    else if base = -1 then checked .power (if exponent % 2 = 0 then 1 else -1)
    else .error (overflow .power)
  else checked .power (Int.pow base exponent)

/-- An arithmetic operator on two integers. -/
def integers (op : Operator) (a b : Int) : Except EvaluationCause Value :=
  match op with
  | .plus => checked op (a + b)
  | .minus => checked op (a - b)
  | .star => checked op (a * b)
  | .slash =>
    if b = 0 then .error divisionByZero else .ok (.float (Float.ofInt a / Float.ofInt b))
  | .floorDiv =>
    if b = 0 then .error divisionByZero else checked op (Int.fdiv a b)
  | .percent =>
    if b = 0 then .error divisionByZero
    else if quotientEscapes a b then .error (overflow op)
    else checked op (Int.fmod a b)
  | .power =>
    if b < 0 then .ok (.float (Float.pow (Float.ofInt a) (Float.ofInt b)))
    else integerPower a b.toNat
  | _ => .error (overflow op)

/-- The remainder with the sign of the divisor. -/
def flooredRemainder (x y : Float) : Float :=
  let rest := Binary.remainder x y
  if rest != 0.0 && (decide (rest < 0.0) != decide (y < 0.0)) then rest + y else rest

/-- An arithmetic operator on two binary64 numbers. -/
def floats (op : Operator) (x y : Float) : Except EvaluationCause Value :=
  match op with
  | .plus => .ok (.float (x + y))
  | .minus => .ok (.float (x - y))
  | .star => .ok (.float (x * y))
  | .slash => if y == 0.0 then .error divisionByZero else .ok (.float (x / y))
  | .floorDiv => if y == 0.0 then .error divisionByZero else .ok (.float (x / y).floor)
  | .percent => if y == 0.0 then .error divisionByZero else .ok (.float (flooredRemainder x y))
  | .power => .ok (.float (Float.pow x y))
  | _ => .error (notBinary op)

/-- An arithmetic operator on two values. -/
def arithmetic (op : Operator) (left right : Value) : Except EvaluationCause Value :=
  match left, right with
  | .int a, .int b => integers op a.toInt b.toInt
  | _, _ =>
    match left.number?, right.number? with
    | some x, some y => floats op x y
    | _, _ => .error (operandKinds op left.kind right.kind)

/-- A bitwise operator: on the two's complement of integers, or on truth values. -/
def bitwise (op : Operator) (left right : Value) : Except EvaluationCause Value :=
  match left, right with
  | .int a, .int b =>
    .ok (.int (match op with
      | .ampersand => a &&& b
      | .pipe => a ||| b
      | _ => a ^^^ b))
  | .bool a, .bool b =>
    .ok (.bool (match op with
      | .ampersand => a && b
      | .pipe => a || b
      | _ => a != b))
  | _, _ => .error (operandKinds op left.kind right.kind)

/-- A shift of one integer by another.  To the left it multiplies by a power of two below the 64th
and must fit; to the right it divides towards the floor, by any power. -/
def shift (op : Operator) (left right : Value) : Except EvaluationCause Value :=
  match left, right with
  | .int a, .int b =>
    if b.toInt < 0 then .error negativeShift
    else
      let count := b.toInt.toNat
      match op with
      | .shiftLeft =>
        if 64 ≤ count then .error (overflow op) else checked op (a.toInt * Int.pow 2 count)
      | _ => checked op (Int.fdiv a.toInt (Int.pow 2 (min count 64)))
  | _, _ => .error (operandKinds op left.kind right.kind)

/-- A binary operator applied to its two sides. -/
def apply (op : Operator) (left right : Value) : Except EvaluationCause Value :=
  match op with
  | .equal => .ok (.bool (left.equals right))
  | .notEqual => .ok (.bool (!left.equals right))
  | .less => (Value.order op left right).map fun o => .bool (o == .lt)
  | .lessEqual => (Value.order op left right).map fun o => .bool (o != .gt)
  | .greater => (Value.order op left right).map fun o => .bool (o == .gt)
  | .greaterEqual => (Value.order op left right).map fun o => .bool (o != .lt)
  | .plus =>
    match left, right with
    | .text s, .text t => .ok (.text (s ++ t))
    | _, _ => arithmetic op left right
  | .minus | .star | .slash | .floorDiv | .percent | .power => arithmetic op left right
  | .ampersand | .pipe | .caret => bitwise op left right
  | .shiftLeft | .shiftRight => shift op left right
  | .leftParen | .rightParen => .error (notBinary op)

/-- A sign applied to the operand after it. -/
def applySign (op : Operator) (operand : Value) : Except EvaluationCause Value :=
  match op, operand with
  | .minus, .int n => checked op (-n.toInt)
  | .minus, .float x => .ok (.float (-x))
  | .plus, .int n => .ok (.int n)
  | .plus, .float x => .ok (.float x)
  | _, _ => .error (operandKind op operand.kind)

end Operator
end TokenScript
