import TokenScript.Decimal.Shortest

/-!
# Decimal forms of binary64 numbers

A `Format` is the handful of decisions that turn the shortest digits of a number into text: which
magnitudes are written positionally and which with an exponent, below which magnitude a whole number
keeps a fractional digit, what becomes of ties, and how the numbers without digits are written.

Two formats are in use.  What a script prints never has an exponent; what a record of values stores
has one outside a fixed range of magnitudes.
-/

namespace TokenScript.Decimal

/-- How numbers are written. -/
structure Format where
  /-- Which of two equally near shortest forms is taken. -/
  tie : Tie
  /-- Whether a number whose leading digit counts `10^place` is written without exponent. -/
  positional : Int → Bool
  /-- Whole numbers below `10^pointBelow` end in `.0`. -/
  pointBelow : Int
  /-- The undefined number. -/
  undefined : String
  /-- The infinite numbers, the negative one first. -/
  infinite : String × String

/-- Numbers as a script prints them: every digit in its place, and a whole number below `10^16`
keeps one fractional digit. -/
def Format.printed : Format where
  tie := .up
  positional := fun _ => true
  pointBelow := 16
  undefined := "NaN"
  infinite := ("-inf", "inf")

/-- Numbers as a record stores them: with an exponent below `10^(-5)` and from `10^16` on, and
nothing in place of the numbers that have no digits. -/
def Format.stored : Format where
  tie := .toEven
  positional := fun place => -5 ≤ place && place < 16
  pointBelow := 16
  undefined := "null"
  infinite := ("null", "null")

/-- `count` zeros. -/
def zeros (count : Nat) : List Char := List.replicate count '0'

/-- Digits written out in their places. -/
def positionalText (fmt : Format) (digits : List Char) (exponent : Int) : List Char :=
  let place := exponent + digits.length
  match exponent with
  | .ofNat e =>
    digits ++ zeros e ++ (if place ≤ fmt.pointBelow then ['.', '0'] else [])
  | .negSucc e =>
    let places := e + 1
    if places < digits.length then
      digits.take (digits.length - places) ++ '.' :: digits.drop (digits.length - places)
    else '0' :: '.' :: zeros (places - digits.length) ++ digits

/-- Digits with a point after the first and the power of ten of that one. -/
def scientificText (digits : List Char) (place : Int) : List Char :=
  let mantissa := match digits with
    | [] => []
    | [d] => [d]
    | d :: rest => d :: '.' :: rest
  let mark := if place < 0 then ['e', '-'] else ['e', '+']
  mantissa ++ mark ++ Nat.toDigits 10 place.natAbs

/-- A positive finite number. -/
def Format.magnitude (fmt : Format) (b : Binary) : List Char :=
  let s := b.shortest fmt.tie
  let digits := Nat.toDigits 10 s.digits
  let place := s.exponent + digits.length - 1
  if fmt.positional place then positionalText fmt digits s.exponent
  else scientificText digits place

/-- A number as text. -/
def Format.render (fmt : Format) (x : Float) : String :=
  if x.isNaN then fmt.undefined
  else if x.isInf then if Binary.isNegative x then fmt.infinite.1 else fmt.infinite.2
  else
    let b := Binary.ofFloat x
    let text := if b.mantissa = 0 then ['0', '.', '0'] else fmt.magnitude b
    String.ofList (if Binary.isNegative x then '-' :: text else text)

end TokenScript.Decimal
