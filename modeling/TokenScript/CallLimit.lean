import TokenScript.Decimal.Numeral
import TokenScript.Journal
import TokenScript.Text.Blank

/-!
# The limit on nested calls

A script may nest calls only to a limit.  The limit comes from a setting outside the script: a
positive number, cut down to a ceiling.  A setting that is missing, that is no number, that is zero
or that does not fit a machine word leaves the default in place.
-/

namespace TokenScript.CallLimit

/-- The limit without a setting. -/
def default : Nat := 256

/-- The largest limit. -/
def ceiling : Nat := 10000

/-- The largest number that a setting may name at all: the largest unsigned 64-bit number. -/
def largestSetting : Nat := 18446744073709551615

/-- The number that a setting names. -/
def readSetting? (raw : String) : Option Nat :=
  (Decimal.readUnsigned? (Text.trim raw.toList)).filter (· ≤ largestSetting)

/-- The limit under a setting, and what there is to note about the setting. -/
def ofSetting : Option String → Nat × Option Event
  | none => (default, none)
  | some raw =>
    match readSetting? raw with
    | none | some 0 => (default, some (.limitIgnored raw default))
    | some n =>
      if ceiling < n then (ceiling, some (.limitClamped n ceiling)) else (n, none)

end TokenScript.CallLimit
