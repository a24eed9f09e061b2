import TokenScript.Token
import TokenScript.Value.Record

/-!
# Tokens as JSON records

A record of a token has its kind, its lexeme and its place.  A kind with contents is filed under its
name; a kind without is the bare name.
-/

namespace TokenScript

/-- A token's kind as JSON. -/
def TokenKind.record : TokenKind → String
  | keyword word => jsonEntry "Keyword" (Text.quote word.label)
  | operator op => jsonEntry "Operator" (Text.quote op.label)
  | assignment => Text.quote "Assignment"
  | identifier name => jsonEntry "Identifier" (Text.quote name)
  | number n => jsonEntry "Number" n.record
  | text contents => jsonEntry "Str" (Text.quote contents)
  | newline => Text.quote "Newline"

/-- A place as JSON. -/
def Span.record (s : Span) : String :=
  "\x7b\"line\":" ++ toString s.line ++ ",\"column\":" ++ toString s.column ++ "\x7d"

/-- A token as JSON. -/
def Token.record (t : Token) : String :=
  "\x7b\"kind\":" ++ t.kind.record ++ ",\"lexeme\":" ++ Text.quote t.lexeme ++
    ",\"span\":" ++ t.span.record ++ "\x7d"

/-- A list of tokens as JSON. -/
def Token.records (tokens : List Token) : String := jsonList (tokens.map Token.record)

end TokenScript
