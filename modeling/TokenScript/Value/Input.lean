import TokenScript.Decimal.Numeral
import TokenScript.Text.Blank
import TokenScript.Value
import TokenScript.Word

/-!
# Values from lines of input

A line that a script reads becomes an integer if, without its outer blanks, it is a signed run of
digits that fits a word; a binary64 number if it is any other numeral; and otherwise a text, with
the blanks left where they are.  The names of infinity and of the undefined number stay texts.
-/

namespace TokenScript

/-- The value that a line of input denotes. -/
def Value.ofLine (line : String) : Value :=
  let body := Text.trim line.toList
  match (Decimal.readInt? body).bind Word.ofInt? with
  | some n => .int n
  | none =>
    match Decimal.Numeral.read? body with
    | some numeral => .float numeral.toFloat
    | none => .text line

end TokenScript
