import TokenScript.Keyword
import TokenScript.Operator
import TokenScript.Span
import TokenScript.Text.Unseen
import TokenScript.Value

/-!
# Errors

An error is a cause and a place.  Causes come in five families, one for each stage that can fail:
cutting the source into tokens, recognising a statement, evaluating an expression, finding the end
of a block, and talking to the console.  The families are separate types, so that a function that
can only fail in one way says so in its type: an operator returns an `EvaluationCause` and nothing
else.

The wording lives here, in `message` and `help?`.  Nothing in the library decides anything by
looking at a message.
-/

namespace TokenScript

/-- Why a source text has no tokens. -/
inductive LexicalCause where
  /-- A quote that is never closed. -/
  | unterminatedText
  /-- A character that starts no token. -/
  | unexpectedCharacter (c : Char)
  /-- An integer literal that no word can hold. -/
  | literalOutOfRange (literal : String)
  deriving DecidableEq, Repr

/-- Why a statement cannot be recognised.  What was found in place of the expected token is given as
messages show it; nothing was found at the end of the code. -/
inductive StructuralCause where
  | nameExpected (after : Keyword) (found : Option String)
  | keywordExpected (expected : Keyword) (found : Option String)
  | boundExpected (after : Keyword) (found : Option String)
  /-- A clause of a block after its `else` clause. -/
  | clauseAfterElse (clause : String)
  | functionNameExpected
  deriving DecidableEq, Repr

/-- Why an expression has no value, or a call cannot be made. -/
inductive EvaluationCause where
  | endedUnexpectedly
  | unexpectedToken (shown : String)
  | unclosedParen
  | undefinedName (name : String)
  | undefinedFunction (name : String)
  | callDepthExceeded (limit : Nat) (name : String)
  | boundNotInteger (found : Kind)
  | operandKinds (op : Operator) (left right : Kind)
  | operandKind (op : Operator) (operand : Kind)
  | divisionByZero
  | overflow (op : Operator)
  | negativeShift
  /-- The undefined number has no place in any order. -/
  | unordered (op : Operator)
  | notBinary (op : Operator)
  deriving DecidableEq, Repr

/-- Why something failed. -/
inductive Cause where
  | lexical (cause : LexicalCause)
  | structural (cause : StructuralCause)
  | evaluation (cause : EvaluationCause)
  | unterminatedBlock (opener : String) (terminator : Keyword)
  | console (reason : String)
  deriving DecidableEq, Repr

/-- The family of a cause. -/
inductive ErrorKind where
  | lexical
  | structural
  | evaluation
  | block
  | console
  deriving DecidableEq, Repr

/-- A failure and the place it is reported at. -/
structure Error where
  cause : Cause
  span : Span
  deriving DecidableEq, Repr

/-- The code of a family in diagnostics. -/
def ErrorKind.code : ErrorKind → String
  | lexical => "E_LEX"
  | structural => "E_SYNTAX"
  | evaluation => "E_EVAL"
  | block => "E_BLOCK"
  | console => "E_IO"

/-- The setting that raises the call limit, as messages name it. -/
def callLimitSetting : String := "OKEREW_MAX_CALL_DEPTH"

/-- A word of the language in a message. -/
def ticked (word : String) : String := "`" ++ word ++ "`"

/-- The end of a message that tells what stands in the wrong place. -/
def foundText : Option String → String
  | some shown => ", found " ++ ticked shown
  | none => ", found end of input"

/-- What is wrong with the text, in words. -/
def LexicalCause.message : LexicalCause → String
  | unterminatedText => "unterminated string literal"
  | unexpectedCharacter c => "unexpected character " ++ ticked (Text.shown c)
  | literalOutOfRange literal => "integer literal " ++ ticked literal ++ " is out of range"

/-- What is wrong with the statement, in words. -/
def StructuralCause.message : StructuralCause → String
  | nameExpected after found =>
    "expected a name after " ++ ticked after.spelling ++ foundText found
  | keywordExpected expected found => "expected " ++ ticked expected.spelling ++ foundText found
  | boundExpected after found =>
    "expected a bound after " ++ ticked after.spelling ++ foundText found
  | clauseAfterElse clause => ticked clause ++ " cannot follow " ++ ticked "else"
  | functionNameExpected => "function name must be an identifier"

/-- What is wrong with the expression or the call, in words. -/
def EvaluationCause.message : EvaluationCause → String
  | endedUnexpectedly => "expression ended unexpectedly"
  | unexpectedToken shown => "unexpected " ++ ticked shown ++ " in expression"
  | unclosedParen => "expected `)` to close `(`"
  | undefinedName name => "name " ++ ticked name ++ " is not defined"
  | undefinedFunction name => "function " ++ ticked name ++ " is not defined"
  | callDepthExceeded limit name =>
    "maximum call depth of " ++ toString limit ++ " exceeded in " ++ ticked name
  | boundNotInteger found => "`for` bounds must be integers, found " ++ found.name
  | operandKinds op left right =>
    "unsupported operand types for " ++ op.spelling ++ ": " ++ left.name ++ " and " ++ right.name
  | operandKind op operand =>
    "unsupported operand type for unary " ++ op.spelling ++ ": " ++ operand.name
  | divisionByZero => "division by zero"
  | overflow op => "integer overflow in " ++ ticked op.spelling
  | negativeShift => "negative shift count"
  | unordered op => "cannot order NaN with " ++ ticked op.spelling
  | notBinary op => ticked op.spelling ++ " is not a binary operator"

namespace Cause

/-- The family of a cause. -/
def kind : Cause → ErrorKind
  | lexical _ => .lexical
  | structural _ => .structural
  | evaluation _ => .evaluation
  | unterminatedBlock _ _ => .block
  | console _ => .console

/-- What went wrong, in words. -/
def message : Cause → String
  | lexical cause => cause.message
  | structural cause => cause.message
  | evaluation cause => cause.message
  | unterminatedBlock opener _ => "unterminated " ++ ticked opener ++ " block"
  | console reason => "console I/O failed: " ++ reason

/-- What to do about it, where there is something to say. -/
def help? : Cause → Option String
  | lexical .unterminatedText => some "close the string with a matching `'`"
  | structural .functionNameExpected =>
    some "write `func <name>` followed by the body and `leave`"
  | evaluation (.callDepthExceeded _ _) =>
    some ("check for runaway recursion or raise " ++ callLimitSetting)
  | unterminatedBlock _ terminator =>
    some ("close the block with " ++ ticked terminator.spelling)
  | _ => none

end Cause

namespace Error

/-- The family of an error. -/
def kind (e : Error) : ErrorKind := e.cause.kind

/-- What went wrong. -/
def message (e : Error) : String := e.cause.message

/-- What to do about it. -/
def help? (e : Error) : Option String := e.cause.help?

end Error
end TokenScript
