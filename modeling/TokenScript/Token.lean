import TokenScript.Keyword
import TokenScript.Operator
import TokenScript.Span
import TokenScript.Value

/-!
# Tokens

A script is executed straight from its tokens, so a token carries all that execution needs: what it
is, how it was written, and where it stands.  Line ends are tokens; blanks and comments are not.

An expression is the longest stretch of *value-bearing* tokens: numbers, names, operators and texts.
Every keyword, `=` and line end stops one.
-/

namespace TokenScript

/-- What a token is. -/
inductive TokenKind where
  | keyword (word : Keyword)
  | operator (op : Operator)
  | assignment
  | identifier (name : String)
  | number (n : Number)
  | text (contents : String)
  | newline
  deriving DecidableEq

/-- A token: what it is, how it was written and where it starts. -/
structure Token where
  kind : TokenKind
  lexeme : String
  span : Span
  deriving DecidableEq

namespace Token

/-- The token as messages show it. -/
def shown (t : Token) : String :=
  match t.kind with
  | .newline => "newline"
  | _ => t.lexeme

/-- The reserved word that the token is. -/
def keyword? (t : Token) : Option Keyword :=
  match t.kind with
  | .keyword word => some word
  | _ => none

/-- The operator that the token is. -/
def operator? (t : Token) : Option Operator :=
  match t.kind with
  | .operator op => some op
  | _ => none

/-- The name that the token is. -/
def identifier? (t : Token) : Option String :=
  match t.kind with
  | .identifier name => some name
  | _ => none

/-- Whether the token is this reserved word. -/
def isKeyword (t : Token) (word : Keyword) : Bool := t.kind = .keyword word

/-- Whether the token can be part of an expression. -/
def isValueBearing (t : Token) : Bool :=
  match t.kind with
  | .number _ | .identifier _ | .operator _ | .text _ => true
  | .keyword _ | .assignment | .newline => false

end Token
end TokenScript
