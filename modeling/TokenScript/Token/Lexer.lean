import TokenScript.Decimal.Numeral
import TokenScript.Error
import TokenScript.Token
import TokenScript.Token.Lexeme
import TokenScript.Word

/-!
# From source text to tokens

A source text is cut into lexemes from the front.  Blanks and comments leave no token but move the
place; every other lexeme becomes one token.  The first place where no class has a lexeme, or where
an integer literal does not fit a word, ends the reading with an error at that place.
-/

namespace TokenScript

namespace Lexeme

/-- The number that a numeric lexeme denotes: an integer without a point, a binary64 number with
one. -/
def number (lexeme : List Char) : Except LexicalCause (Option Number) :=
  if '.' ∈ lexeme then .ok ((Decimal.Numeral.read? lexeme).map fun n => .float n.toFloat)
  else match (Decimal.readNat? lexeme).bind fun n => Word.ofInt? n with
    | some n => .ok (some (.int n))
    | none => .error (.literalOutOfRange (String.ofList lexeme))

/-- The token that a lexeme of a class becomes; a blank and a comment become none. -/
def tokenKind (c : Class) (lexeme : List Char) : Except LexicalCause (Option TokenKind) :=
  match c with
  | .keyword => .ok ((Keyword.ofSpelling? (String.ofList lexeme)).map .keyword)
  | .operator => .ok ((Operator.ofSpelling? (String.ofList lexeme)).map .operator)
  | .assignment => .ok (some .assignment)
  | .identifier => .ok (some (.identifier (String.ofList lexeme)))
  | .number => (number lexeme).map fun n => n.map .number
  | .text => .ok (some (.text (String.ofList (lexeme.drop 1).dropLast)))
  | .newline => .ok (some .newline)
  | .blank | .comment => .ok none

/-- Why no lexeme starts with this character. -/
def refusal (c : Char) : LexicalCause :=
  if c = quoteMark then .unterminatedText else .unexpectedCharacter c

end Lexeme

namespace Token

/-- Reads the tokens of `text`, which starts at the place `here`, behind the tokens read so far. -/
def scan (text : List Char) (here : Span) (tokens : Array Token) : Except Error (Array Token) :=
  match text with
  | [] => .ok tokens
  | first :: others =>
    match h : Lexeme.next? (first :: others) with
    | none => .error ⟨.lexical (Lexeme.refusal first), here⟩
    | some (c, lexeme, rest) =>
      have : rest.length < (first :: others).length := Lexeme.length_rest_lt h
      match Lexeme.tokenKind c lexeme with
      | .error cause => .error ⟨.lexical cause, here⟩
      | .ok none => scan rest (here.after lexeme) tokens
      | .ok (some kind) =>
        scan rest (here.after lexeme) (tokens.push ⟨kind, String.ofList lexeme, here⟩)
termination_by text.length
decreasing_by all_goals assumption

end Token

/-- The tokens of a source text. -/
def tokenize (source : String) : Except Error (Array Token) :=
  Token.scan source.toList Span.start #[]

/-- The number of lines of a source text, a last empty one included. -/
def lineCount (source : String) : Nat := (Span.start.after source.toList).line

end TokenScript
