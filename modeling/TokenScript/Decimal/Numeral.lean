/-!
# Decimal numerals, read

A decimal numeral is an optional sign, digits with an optional point, and an optional exponent.
`Numeral` keeps what was written as an exact quantity `±digits · 10^exponent`; only
`Numeral.toFloat` rounds, once, to the nearest binary64 number.  Integers are the numerals without
point and exponent, and have a reader of their own because they are bounded by a word and not
rounded.

* `digitsValue`: the number that a run of digits denotes.
* `readNat?`, `readInt?`: digits, with an optional sign.
* `Numeral.read?`: the grammar of a number with a point or an exponent.
-/

namespace TokenScript.Decimal

/-- The value of one decimal digit. -/
def digitValue (c : Char) : Nat := c.toNat - '0'.toNat

/-- The number that a run of digits denotes, most significant digit first. -/
def digitsValue (digits : List Char) : Nat :=
  digits.foldl (fun n c => 10 * n + digitValue c) 0

@[simp] theorem digitsValue_nil : digitsValue [] = 0 := rfl

/-- A non-empty run of digits, as a number. -/
def readNat? (text : List Char) : Option Nat :=
  if text ≠ [] ∧ text.all Char.isDigit then some (digitsValue text) else none

/-- A number that may carry a plus sign. -/
def readUnsigned? : List Char → Option Nat
  | '+' :: text => readNat? text
  | text => readNat? text

/-- A number that may carry either sign. -/
def readInt? : List Char → Option Int
  | '-' :: text => (readNat? text).map fun n => -(n : Int)
  | '+' :: text => (readNat? text).map Int.ofNat
  | text => (readNat? text).map Int.ofNat

/-- A decimal quantity as written: `digits · 10^exponent`, with a sign that a zero keeps. -/
structure Numeral where
  negative : Bool
  digits : Nat
  exponent : Int
  deriving DecidableEq, Repr

namespace Numeral

/-- The sign at the start of a text, and the text after it. -/
def takeSign : List Char → Bool × List Char
  | '-' :: text => (true, text)
  | '+' :: text => (false, text)
  | text => (false, text)

/-- The exponent at the end of a numeral: nothing at all, or a mark and a signed run of digits. -/
def readExponent? : List Char → Option Int
  | [] => some 0
  | c :: text => if c = 'e' ∨ c = 'E' then readInt? text else none

/-- The grammar of a number: a sign, digits with a point among or around them (at least one digit),
and an exponent. -/
def read? (text : List Char) : Option Numeral :=
  let (negative, body) := takeSign text
  let whole := body.takeWhile Char.isDigit
  let (places, tail) : List Char × List Char :=
    match body.dropWhile Char.isDigit with
    | '.' :: tail => (tail.takeWhile Char.isDigit, tail.dropWhile Char.isDigit)
    | tail => ([], tail)
  if whole = [] ∧ places = [] then none
  else (readExponent? tail).map fun exponent =>
    ⟨negative, digitsValue (whole ++ places), exponent - places.length⟩

/-- The number of decimal digits of a positive number; zero has none. -/
def width (n : Nat) : Nat := if n = 0 then 0 else (Nat.toDigits 10 n).length

/-- The largest power of ten that a finite binary64 number reaches is `308`; a quantity of at least
`10^310` is infinite for certain. -/
def hugeWidth : Int := 310

/-- A quantity below `10^(-330)` is less than half the least positive binary64 number. -/
def tinyWidth : Int := -330

/-- The magnitude of a numeral, rounded to the nearest binary64 number.  The two outer cases need no
arithmetic, so an exponent of any size costs nothing. -/
def magnitude (n : Numeral) : Float :=
  let reach := n.exponent + width n.digits
  if n.digits = 0 ∨ reach < tinyWidth then 0.0
  else if hugeWidth < reach then 1.0 / 0.0
  else match n.exponent with
    | .ofNat e => Float.ofScientific n.digits false e
    | .negSucc e => Float.ofScientific n.digits true (e + 1)

/-- A numeral rounded to the nearest binary64 number. -/
def toFloat (n : Numeral) : Float :=
  if n.negative then -n.magnitude else n.magnitude

end Numeral
end TokenScript.Decimal
