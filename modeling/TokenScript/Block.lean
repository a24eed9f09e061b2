import TokenScript.Error
import TokenScript.Token

/-!
# Blocks

Nothing in the token stream says where a block ends; that is found by scanning.  A `BlockPolicy`
says which words open a nested block, which word closes one, and which words end the scan when no
nested block is open.  Four policies cover the language: the clauses of `if`, the bodies of loops,
`else` clauses, and the bodies of functions.

The words that end a scan are looked at only outside nested blocks, so an inner block never lends
its `elif`, `else` or `end` to an outer one.
-/

namespace TokenScript

/-- How the end of a block is found. -/
structure BlockPolicy where
  /-- The words that open a nested block. -/
  openers : List Keyword
  /-- The word that closes a nested block. -/
  nestedClose : Keyword
  /-- The words that end the block. -/
  stops : List Keyword
  /-- The word that is missing when none of them comes. -/
  terminator : Keyword
  deriving DecidableEq, Repr

namespace BlockPolicy

/-- The words that open a block with an `end`. -/
def endOpeners : List Keyword := [.ifClause, .whileLoop, .forLoop]

theorem mem_endOpeners_iff {word : Keyword} : word ∈ endOpeners ↔ word.opensBlock = true := by
  cases word <;> decide

/-- The clauses of `if` and `elif` end at the next clause or at `end`. -/
def conditional : BlockPolicy where
  openers := endOpeners
  nestedClose := .endBlock
  stops := [.elifClause, .elseClause, .endBlock]
  terminator := .endBlock

/-- The bodies of loops end at their `else` clause or at `end`. -/
def loop : BlockPolicy where
  openers := endOpeners
  nestedClose := .endBlock
  stops := [.elseClause, .endBlock]
  terminator := .endBlock

/-- An `else` clause should end at `end`; it also stops at another clause, which is then refused. -/
def elseClause : BlockPolicy where
  openers := endOpeners
  nestedClose := .endBlock
  stops := [.elifClause, .elseClause, .endBlock]
  terminator := .endBlock

/-- The body of a function ends at its `leave`. -/
def function : BlockPolicy where
  openers := [.func]
  nestedClose := .leave
  stops := [.leave]
  terminator := .leave

/-- The end of a block: an index and the word that stands there. -/
structure Close where
  index : Nat
  keyword : Keyword
  deriving DecidableEq, Repr

/-- Scans from an index on, with `depth` nested blocks open. -/
def scan (policy : BlockPolicy) (tokens : Array Token) (index depth : Nat) : Option Close :=
  if h : index < tokens.size then
    match tokens[index].keyword? with
    | none => scan policy tokens (index + 1) depth
    | some word =>
      if word ∈ policy.openers then scan policy tokens (index + 1) (depth + 1)
      else if depth = 0 ∧ word ∈ policy.stops then some ⟨index, word⟩
      else if word = policy.nestedClose ∧ 0 < depth then scan policy tokens (index + 1) (depth - 1)
      else scan policy tokens (index + 1) depth
  else none
termination_by tokens.size - index

/-- The error of a block that is never closed, at the token that opens it. -/
def unterminated (policy : BlockPolicy) (tokens : Array Token) (start : Nat) : Error :=
  match tokens[start]? with
  | some t => ⟨.unterminatedBlock t.lexeme policy.terminator, t.span⟩
  | none => ⟨.unterminatedBlock "" policy.terminator, .nowhere⟩

/-- The end of the block that opens at `start`. -/
def close (policy : BlockPolicy) (tokens : Array Token) (start : Nat) : Except Error Close :=
  match policy.scan tokens (start + 1) 0 with
  | some found => .ok found
  | none => .error (policy.unterminated tokens start)

end BlockPolicy
end TokenScript
