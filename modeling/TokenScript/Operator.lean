/-!
# Operators

Twenty operators, parentheses among them.  `Operator.all` lists every two-character operator before
every one-character operator, so that the first operator of the list that starts a text is also the
longest one that does.

The binary operators fall into seven levels of precedence, from comparison (loosest) to `*` and its
kin.  `**` stands above all of them and is not a level: it associates to the right and its operands
are of two different kinds, so the reader of expressions treats it apart.
-/

namespace TokenScript

/-- An operator or a parenthesis. -/
inductive Operator where
  | power
  | floorDiv
  | shiftLeft
  | shiftRight
  | equal
  | notEqual
  | greaterEqual
  | lessEqual
  | plus
  | minus
  | star
  | slash
  | percent
  | ampersand
  | pipe
  | caret
  | greater
  | less
  | leftParen
  | rightParen
  deriving DecidableEq, Repr

namespace Operator

/-- Every operator, the two-character ones first. -/
def all : List Operator :=
  [power, floorDiv, shiftLeft, shiftRight, equal, notEqual, greaterEqual, lessEqual, plus, minus,
    star, slash, percent, ampersand, pipe, caret, greater, less, leftParen, rightParen]

theorem mem_all (op : Operator) : op ∈ all := by
  cases op <;> decide

/-- How the operator is written in a script. -/
def spelling : Operator → String
  | power => "**"
  | floorDiv => "//"
  | shiftLeft => "<<"
  | shiftRight => ">>"
  | equal => "=="
  | notEqual => "!="
  | greaterEqual => ">="
  | lessEqual => "<="
  | plus => "+"
  | minus => "-"
  | star => "*"
  | slash => "/"
  | percent => "%"
  | ampersand => "&"
  | pipe => "|"
  | caret => "^"
  | greater => ">"
  | less => "<"
  | leftParen => "("
  | rightParen => ")"

/-- The name under which a JSON record files the operator. -/
def label : Operator → String
  | power => "Power"
  | floorDiv => "FloorDiv"
  | shiftLeft => "ShiftLeft"
  | shiftRight => "ShiftRight"
  | equal => "Equal"
  | notEqual => "NotEqual"
  | greaterEqual => "GreaterEqual"
  | lessEqual => "LessEqual"
  | plus => "Plus"
  | minus => "Minus"
  | star => "Star"
  | slash => "Slash"
  | percent => "Percent"
  | ampersand => "Ampersand"
  | pipe => "Pipe"
  | caret => "Caret"
  | greater => "Greater"
  | less => "Less"
  | leftParen => "LeftParen"
  | rightParen => "RightParen"

/-- The operator with this exact spelling. -/
def ofSpelling? (word : String) : Option Operator :=
  all.find? (·.spelling = word)

/-- The level of precedence of a left-associative binary operator; a higher level binds tighter. -/
def level? : Operator → Option Nat
  | equal | notEqual | less | lessEqual | greater | greaterEqual => some 0
  | pipe => some 1
  | caret => some 2
  | ampersand => some 3
  | shiftLeft | shiftRight => some 4
  | plus | minus => some 5
  | star | slash | floorDiv | percent => some 6
  | power | leftParen | rightParen => none

/-- Whether the operator may stand in front of its only operand. -/
def isSign : Operator → Bool
  | plus | minus => true
  | _ => false

end Operator
end TokenScript
