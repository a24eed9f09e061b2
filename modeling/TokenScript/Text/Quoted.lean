/-!
# Quoted text

The JSON form of a text: double quotes around it, with a backslash before a quote or a backslash,
five short escapes, and four hexadecimal digits for the other control characters below U+0020.
Everything else, U+007F and all non-ASCII text included, stands for itself.
-/

namespace TokenScript.Text

/-- The digits of a number below sixteen to the fourth, as four lower-case hexadecimal digits. -/
def hexFour (n : Nat) : List Char :=
  [n / 4096, n / 256, n / 16, n].map fun d => Nat.digitChar (d % 16)

/-- One character inside the quotes. -/
def quoteChar (c : Char) : List Char :=
  if c = '"' then ['\\', '"']
  else if c = '\\' then ['\\', '\\']
  else if c = '\n' then ['\\', 'n']
  else if c = '\r' then ['\\', 'r']
  else if c = '\t' then ['\\', 't']
  else if c = '\x08' then ['\\', 'b']
  else if c = '\x0c' then ['\\', 'f']
  else if c.toNat < 0x20 then '\\' :: 'u' :: hexFour c.toNat
  else [c]

/-- A text in its JSON quotes. -/
def quote (text : String) : String :=
  "\"" ++ String.ofList (text.toList.flatMap quoteChar) ++ "\""

end TokenScript.Text
