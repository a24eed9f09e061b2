/-!
# Binary64 numbers as exact quantities

The magnitude of a finite binary64 number is `mantissa · 2^exponent`, with whole numbers on both
sides.  Printing a number and dividing two numbers with remainder are questions about those whole
numbers, and are answered there, without rounding.

* `Binary.ofFloat`: the fields of a number.
* `Binary.pack`: the number with given fields, when there is one.
* `Binary.remainder`: the exact remainder of a truncating division, with the sign of the dividend.
-/

namespace TokenScript

/-- A magnitude `mantissa · 2^exponent`; `narrow` says that the next smaller number is only half a
step away, as it is at a power of two. -/
structure Binary where
  mantissa : Nat
  exponent : Int
  narrow : Bool
  deriving DecidableEq, Repr

namespace Binary

/-- The exponent of the least positive number. -/
def leastExponent : Int := -1074

/-- The number of fractions between two powers of two: `2^52`. -/
def fractions : Nat := 4503599627370496

/-- The number of biased exponents: `2^11`. -/
def exponents : Nat := 2048

/-- The magnitude of a finite number, from its bits.  Zero has mantissa zero. -/
def ofFloat (x : Float) : Binary :=
  let bits : Nat := x.toBits.toNat
  let fraction : Nat := bits % fractions
  let biased : Nat := bits / fractions % exponents
  if biased = 0 then ⟨fraction, leastExponent, false⟩
  else ⟨fraction + fractions, (biased : Int) - 1075, fraction = 0 ∧ 1 < biased⟩

/-- The sign of a number, also of a zero and of an infinite one. -/
def isNegative (x : Float) : Bool := fractions * exponents ≤ x.toBits.toNat

/-- The number `mantissa · 2^exponent`, for a mantissa below `2^53` and an exponent not below the
least: the mantissa is moved up as far as it and the exponent allow. -/
def pack (mantissa : Nat) (exponent : Int) : Float :=
  if mantissa = 0 then 0.0
  else
    let room := min (52 - (mantissa.log2 : Int)) (exponent - leastExponent)
    let lifted := mantissa * Nat.pow 2 room.toNat
    let bits :=
      if lifted < fractions then lifted
      else (exponent - room + 1075).toNat * fractions + (lifted - fractions)
    Float.ofBits bits.toUInt64

/-- What a truncating division of `x` by `y` leaves over, exactly, with the sign of `x`.  It is
undefined when `x` is infinite or when either is undefined, and `x` itself when `y` is infinite. -/
def remainder (x y : Float) : Float :=
  if x.isNaN || y.isNaN || x.isInf then 0.0 / 0.0
  else if y.isInf then x
  else
    let a := ofFloat x
    let b := ofFloat y
    let low := min a.exponent b.exponent
    let left := a.mantissa * Nat.pow 2 (a.exponent - low).toNat
    let right := b.mantissa * Nat.pow 2 (b.exponent - low).toNat
    let rest := pack (left % right) low
    if isNegative x then -rest else rest

end Binary
end TokenScript
