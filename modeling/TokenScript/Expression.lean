import TokenScript.Store
import TokenScript.Token
import TokenScript.Value.Operation

/-!
# Expressions

An expression is evaluated while it is read, from left to right, in one pass over its tokens.  The
grammar has seven levels of left-associative binary operators, signs that bind tighter, and above
them `**`, whose left side is a primary and whose right side may carry signs:

    binary l  :=  binary (l+1)  (op of level l  binary (l+1))*        for l = 0, ..., 6
    binary 7  :=  unary
    unary     :=  sign unary  |  power
    power     :=  primary  |  primary ** unary
    primary   :=  number  |  text  |  name  |  ( binary 0 )

Scripts may nest parentheses and signs tens of thousands deep, so the reader keeps what is still
waiting for a value on a list and not on the call stack.  `Pending` is one waiting operator.
Before an operator of some level is taken, every waiting operator that binds at least as tightly
is applied; so operators are applied in the same order, and fail in the same order, as by descent
through the grammar.  An open parenthesis puts the waiting operators around it aside, with its own
place.

A reader can be asked for any phrase of the grammar, not only for a whole expression; it then stops
before the first token that cannot continue the phrase.
-/

namespace TokenScript

/-- A failed evaluation and the place of the token to blame. -/
structure Failure where
  cause : EvaluationCause
  span : Span
  deriving DecidableEq, Repr

/-- A failed evaluation as an error. -/
def Failure.toError (f : Failure) : Error := ⟨.evaluation f.cause, f.span⟩

/-- The phrases of the grammar. -/
inductive Phrase where
  | binary (level : Nat)
  | unary
  | power
  | primary
  deriving DecidableEq, Repr

namespace Phrase

/-- A whole expression. -/
def expression : Phrase := .binary 0

/-- Whether the phrase may start with a sign. -/
def admitsSign : Phrase → Bool
  | binary _ | unary => true
  | power | primary => false

/-- Whether the phrase may hold a `**` that is inside no parentheses. -/
def admitsPower : Phrase → Bool
  | primary => false
  | _ => true

/-- Whether the phrase may hold a binary operator of this level that is inside no parentheses. -/
def admitsLevel : Phrase → Nat → Bool
  | binary least, level => least ≤ level
  | _, _ => false

end Phrase

/-- An operator that waits for the value on its right. -/
inductive Pending where
  | binary (level : Nat) (op : Operator) (span : Span) (left : Value)
  | sign (op : Operator) (span : Span)
  | power (span : Span) (base : Value)
  deriving DecidableEq

namespace Pending

/-- The level of a waiting operator; signs and `**` stand above all levels. -/
def level? : Pending → Option Nat
  | binary level _ _ _ => some level
  | sign _ _ | power _ _ => none

/-- Whether a waiting operator is applied before an operator of this level is taken. -/
def bindsAtLeast (p : Pending) (level : Nat) : Bool :=
  match p.level? with
  | some own => level ≤ own
  | none => true

/-- Applies a waiting operator to the value on its right. -/
def apply (p : Pending) (right : Value) : Except Failure Value :=
  match p with
  | binary _ op span left => (op.apply left right).mapError (⟨·, span⟩)
  | sign op span => (op.applySign right).mapError (⟨·, span⟩)
  | power span base => (Operator.power.apply base right).mapError (⟨·, span⟩)

end Pending

/-- Applies the waiting operators, the latest first, as long as they bind at least as tightly as an
operator of this level. -/
def settle (level : Nat) : Value → List Pending → Except Failure (Value × List Pending)
  | value, [] => .ok (value, [])
  | value, p :: waiting =>
    if p.bindsAtLeast level then
      match p.apply value with
      | .ok applied => settle level applied waiting
      | .error failure => .error failure
    else .ok (value, p :: waiting)

/-- The waiting operators around an open parenthesis, and the place of the parenthesis. -/
structure Enclosing where
  paren : Span
  waiting : List Pending
  deriving DecidableEq

/-- Reads a phrase.  With no value at hand an operand must come next, and with one an operator may.
`waiting` are the operators since the innermost open parenthesis, `outer` the open parentheses, and
`last` is the place to blame when the tokens run out. -/
def Phrase.read (phrase : Phrase) (store : Store) (last : Span) :
    Option Value → List Pending → List Enclosing → List Token →
      Except Failure (Value × List Token)
  | none, _, _, [] => .error ⟨.endedUnexpectedly, last⟩
  | none, waiting, outer, t :: rest =>
    let unexpected : Failure := ⟨.unexpectedToken t.shown, t.span⟩
    match t.kind with
    | .number n => phrase.read store last (some n.value) waiting outer rest
    | .text contents => phrase.read store last (some (.text contents)) waiting outer rest
    | .identifier name =>
      match store.get? name with
      | some value => phrase.read store last (some value) waiting outer rest
      | none => .error ⟨.undefinedName name, t.span⟩
    | .operator op =>
      if op = .leftParen then phrase.read store last none [] (⟨t.span, waiting⟩ :: outer) rest
      else if op.isSign && (phrase.admitsSign || !waiting.isEmpty || !outer.isEmpty) then
        phrase.read store last none (.sign op t.span :: waiting) outer rest
      else .error unexpected
    | .keyword _ | .assignment | .newline => .error unexpected
  | some value, waiting, outer, [] =>
    match settle 0 value waiting with
    | .error failure => .error failure
    | .ok (settled, _) =>
      match outer with
      | [] => .ok (settled, [])
      | enclosing :: _ => .error ⟨.unclosedParen, enclosing.paren⟩
  | some value, waiting, outer, t :: rest =>
    let op? := t.operator?
    if op? = some .power && (phrase.admitsPower || !waiting.isEmpty || !outer.isEmpty) then
      phrase.read store last none (.power t.span value :: waiting) outer rest
    else
      match op?.bind fun op => op.level?.map fun level => (op, level) with
      | some (op, level) =>
        match settle level value waiting with
        | .error failure => .error failure
        | .ok (settled, still) =>
          if phrase.admitsLevel level || !still.isEmpty || !outer.isEmpty then
            phrase.read store last none (.binary level op t.span settled :: still) outer rest
          else .ok (settled, t :: rest)
      | none =>
        match settle 0 value waiting with
        | .error failure => .error failure
        | .ok (settled, _) =>
          match outer with
          | [] => .ok (settled, t :: rest)
          | enclosing :: further =>
            if op? = some .rightParen then
              phrase.read store last (some settled) enclosing.waiting further rest
            else .error ⟨.unclosedParen, enclosing.paren⟩

namespace Expression

/-- The place to blame when a list of tokens ends too early. -/
def lastSpan (tokens : List Token) : Span :=
  match tokens.getLast? with
  | some t => t.span
  | none => .nowhere

/-- The value of a complete expression.  No tokens at all are worth `nothing`, and tokens left over
after an expression are an error. -/
def evaluate (store : Store) (run : List Token) : Except Failure Value :=
  if run.isEmpty then .ok .nothing
  else
    match Phrase.expression.read store (lastSpan run) none [] [] run with
    | .error failure => .error failure
    | .ok (value, []) => .ok value
    | .ok (_, extra :: _) => .error ⟨.unexpectedToken extra.shown, extra.span⟩

/-- The index just past the expression that starts at an index: the first token from there on that
is not value-bearing, or the end. -/
def endFrom (tokens : Array Token) (start : Nat) : Nat :=
  if h : start < tokens.size then
    if tokens[start].isValueBearing then endFrom tokens (start + 1) else start
  else tokens.size
termination_by tokens.size - start

/-- The tokens of the expression that starts at an index. -/
def runFrom (tokens : Array Token) (start : Nat) : List Token :=
  (tokens.extract start (endFrom tokens start)).toList

/-- Evaluates the expression that starts at an index. -/
def evaluateFrom (tokens : Array Token) (start : Nat) (store : Store) : Except Failure Value :=
  evaluate store (runFrom tokens start)

end Expression
end TokenScript
