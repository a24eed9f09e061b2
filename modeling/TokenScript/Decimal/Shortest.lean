import TokenScript.Binary

/-!
# The fewest digits of a binary64 number

A positive finite binary64 number is `mantissa · 2^exponent`.  The reals that round to it form an
interval around it, half a step wide on either side; at a power of two the step below is half the
step above.  The ends belong to the interval exactly when the mantissa is even.

The shortest decimal form of the number is a point of that interval on the coarsest grid of powers
of ten that has one.  A grid with a point in the interval has one next to the number itself, so
two candidates per grid are enough, and of two candidates the nearer is taken.  When both are
equally near, `Tie` says which one: that is a decision of the format and not of the number.

All comparisons are between natural numbers, by clearing the denominators of both powers.

* `Binary.lower`, `Binary.upper`: the ends of the interval.
* `Binary.onGrid?`: the point of one grid that stands for the number.
* `Binary.shortest`: digits and exponent of the shortest form.
-/

namespace TokenScript.Decimal

/-- Which of two equally near neighbours is taken. -/
inductive Tie where
  | up
  | toEven
  deriving DecidableEq, Repr

/-- A quantity `digits · 10^exponent`. -/
structure Scaled where
  digits : Nat
  exponent : Int
  deriving DecidableEq, Repr

end TokenScript.Decimal

namespace TokenScript.Binary

open Decimal

/-- The number in quarter steps, a measure in which the ends of its interval are whole. -/
def middle (b : Binary) : Nat := 4 * b.mantissa

/-- The lower end of the interval, in quarter steps. -/
def lower (b : Binary) : Nat := if b.narrow then b.middle - 1 else b.middle - 2

/-- The upper end of the interval, in quarter steps. -/
def upper (b : Binary) : Nat := b.middle + 2

/-- The grid of multiples of `10^power` seen from a number: one quarter step is `unit` and one grid
step is `pitch`, in a common measure. -/
structure Grid where
  unit : Nat
  pitch : Nat
  deriving Repr

/-- The grid of multiples of `10^power`, measured together with quarter steps. -/
def grid (b : Binary) (power : Int) : Grid :=
  let twos := b.exponent - 2
  ⟨Nat.pow 2 twos.toNat * Nat.pow 10 (-power).toNat,
    Nat.pow 10 power.toNat * Nat.pow 2 (-twos).toNat⟩

/-- Whether the multiple `digits` of the grid's pitch rounds to the number. -/
def covers (b : Binary) (g : Grid) (digits : Nat) : Bool :=
  let point := digits * g.pitch
  let low := b.lower * g.unit
  let high := b.upper * g.unit
  if b.mantissa % 2 = 0 then low ≤ point && point ≤ high else low < point && point < high

/-- The point of a grid that stands for the number, if the grid has one.  The candidates are the
neighbours of the number on the grid. -/
def onGrid? (b : Binary) (tie : Tie) (g : Grid) : Option Nat :=
  let value := b.middle * g.unit
  let below := value / g.pitch
  let above := below + 1
  match 0 < below && b.covers g below, b.covers g above with
  | false, false => none
  | true, false => some below
  | false, true => some above
  | true, true =>
    let down := value - below * g.pitch
    let up := above * g.pitch - value
    if down < up then some below
    else if up < down then some above
    else match tie with
      | .up => some above
      | .toEven => some (if below % 2 = 0 then below else above)

/-- A power of ten above every number with this many binary places. -/
def ceilingPower (b : Binary) : Int :=
  (b.exponent + b.mantissa.log2 + 1) * 30103 / 100000 + 2

/-- More grids than it takes to get from `ceilingPower` to a pitch of a quarter step, which always
has a point in the interval: no number needs more than seventeen digits. -/
def gridCount : Nat := 25

/-- Tries the grids from `10^power` downwards. -/
def search (b : Binary) (tie : Tie) : Nat → Int → Scaled
  | 0, power => ⟨b.middle * (b.grid power).unit / (b.grid power).pitch, power⟩
  | n + 1, power =>
    match b.onGrid? tie (b.grid power) with
    | some digits => ⟨digits, power⟩
    | none => b.search tie n (power - 1)

/-- The shortest form of a positive number. -/
def shortest (b : Binary) (tie : Tie) : Scaled :=
  b.search tie gridCount b.ceilingPower

end TokenScript.Binary
