import TokenScript.Text.Quoted
import TokenScript.Value

/-!
# Values as JSON records

A value is filed under its kind: `nothing` is the bare word, every other value an object with one
entry.  Numbers use the format `Decimal.Format.stored`, in which a number without digits is null.
-/

namespace TokenScript

/-- An object with one entry, whose content is already JSON. -/
def jsonEntry (key content : String) : String :=
  "\x7b" ++ Text.quote key ++ ":" ++ content ++ "\x7d"

/-- A list of contents that are already JSON. -/
def jsonList (items : List String) : String :=
  "[" ++ ",".intercalate items ++ "]"

/-- A number literal as a JSON record. -/
def Number.record : Number → String
  | int n => jsonEntry "Int" (toString n.toInt)
  | float x => jsonEntry "Float" (Decimal.Format.stored.render x)

/-- A value as a JSON record. -/
def Value.record : Value → String
  | int n => jsonEntry "Int" (toString n.toInt)
  | float x => jsonEntry "Float" (Decimal.Format.stored.render x)
  | text s => jsonEntry "Str" (Text.quote s)
  | bool true => jsonEntry "Bool" "true"
  | bool false => jsonEntry "Bool" "false"
  | nothing => Text.quote "Nothing"

end TokenScript
