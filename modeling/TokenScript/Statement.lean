import TokenScript.Value.Input
import TokenScript.World

/-!
# Statements

The token at an index says which statement starts there.  Executing it means to check its form, to
evaluate the expressions in its head, and to say how to go on: `Flow`.  A statement does not execute
the statements inside it; it names the range of tokens that holds them, and the machine does the
rest.

The form of a statement is checked before anything is evaluated: names, keywords and bounds, then
the ends of all its clauses.  So a statement that is malformed has no effect at all.

A condition or a bound that cannot be evaluated is reported and is worth `nothing`; a loop whose
bounds are not both integers does not run, nor does its `else` clause.
-/

namespace TokenScript

/-- The indices of the statements of a block: from `start` up to but not including `stop`. -/
structure Extent where
  start : Nat
  stop : Nat
  deriving DecidableEq, Repr

/-- What both kinds of loops have in common: the line of the opener, the body, and the `else` clause
that runs after the last round. -/
structure Loop where
  line : Nat
  body : Extent
  otherwise : Option Extent
  deriving DecidableEq, Repr

/-- How to go on after a statement; `next` is the index of the statement after it. -/
inductive Flow where
  | advance (next : Nat)
  /-- Run the statements of a block first. -/
  | enter (block : Extent) (next : Nat)
  /-- Run a loop first, as long as the condition at an index holds. -/
  | retest (condition : Nat) (loop : Loop) (next : Nat)
  /-- Run a loop first, once for each integer from `first` to `last`. -/
  | count (name : String) (first last : Int64) (loop : Loop) (next : Nat)
  /-- Run the body of a function first. -/
  | call (body : Code) (next : Nat)
  /-- End the script. -/
  | exit

namespace Statement

open TokenScript.Action

variable {σ : Type}

/-- The place of the last token of the code. -/
def lastSpan (code : Code) : Span :=
  match code.tokens.back? with
  | some t => t.span
  | none => .nowhere

/-- Refuses the token at an index, or the end of the code, as not being what the statement needs. -/
def refuse {α : Type} (code : Code) (index : Nat) (cause : Option String → StructuralCause) :
    Action σ α :=
  match code.tokens[index]? with
  | some t => fail (.structural (cause (some t.shown))) t.span
  | none => fail (.structural (cause none)) (lastSpan code)

/-- The name that must stand at an index, with its place. -/
def expectName (code : Code) (index : Nat) (after : Keyword) : Action σ (String × Span) :=
  match code.tokens[index]? with
  | some t =>
    match t.identifier? with
    | some name => pure (name, t.span)
    | none => refuse code index (.nameExpected after)
  | none => refuse code index (.nameExpected after)

/-- The reserved word that must stand at an index. -/
def expectKeyword (code : Code) (index : Nat) (word : Keyword) : Action σ Unit :=
  match code.tokens[index]? with
  | some t =>
    if t.isKeyword word then pure () else refuse code index (.keywordExpected word)
  | none => refuse code index (.keywordExpected word)

/-- The bound between two indices, which must not be empty. -/
def expectBound (code : Code) (start stop : Nat) (after : Keyword) : Action σ Unit :=
  if stop = start then refuse code start (.boundExpected after) else pure ()

/-! ## Clauses -/

/-- The end of the `else` clause at an index.  It must be the last clause of its block. -/
def elseEnd (code : Code) (start : Nat) : Action σ Nat := do
  let close ← closeOf code start .elseClause
  let t ← tokenAt code close
  if t.isKeyword .endBlock then pure close
  else fail (.structural (.clauseAfterElse t.lexeme)) t.span

/-- A clause of `if`: the index of its condition, which `else` does not have, and its body. -/
structure Clause where
  condition : Option Nat
  body : Extent
  deriving DecidableEq, Repr

/-- The clauses from the one at `start` on, behind those found so far, and the index of the `end`.
-/
def clauses (code : Code) (start : Nat) (found : Array Clause) :
    Action σ (Array Clause × Nat) := do
  let t ← tokenAt code start
  if t.isKeyword .ifClause || t.isKeyword .elifClause then
    let body := Expression.endFrom code.tokens (start + 1)
    let close ← closeOf code start .conditional
    if start < close ∧ close < code.size then
      clauses code close (found.push ⟨some (start + 1), ⟨body, close⟩⟩)
    else throw .fault
  else if t.isKeyword .elseClause then
    let close ← elseEnd code start
    pure (found.push ⟨none, ⟨start + 1, close⟩⟩, close)
  else pure (found, start)
termination_by code.size - start

/-- The `else` clause of a loop whose body ends at `close`, and the index of the `end`. -/
def loopElse (code : Code) (close : Nat) : Action σ (Option Extent × Nat) := do
  let t ← tokenAt code close
  if t.isKeyword .elseClause then
    let stop ← elseEnd code close
    pure (some ⟨close + 1, stop⟩, stop)
  else pure (none, close)

/-! ## Calls and definitions -/

/-- Starts a call: one more is under way, unless that is one too many. -/
def invoke (name : String) (span : Span) : Action σ Code := do
  let world ← get
  let context := world.context
  match context.functions.get? name with
  | none => fail (.evaluation (.undefinedFunction name)) span
  | some body =>
    if context.callLimit ≤ context.depth then
      fail (.evaluation (.callDepthExceeded context.callLimit name)) span
    else
      changeContext fun context => { context with depth := context.depth + 1 }
      note (.callStarted name (context.depth + 1))
      pure body

/-- What becomes of the world when a call starts. -/
theorem run_invoke (name : String) (span : Span) (world : World σ) :
    (invoke name span).run world =
      match world.context.functions.get? name with
      | none => .error (.error ⟨.evaluation (.undefinedFunction name), span⟩) world
      | some body =>
        if world.context.callLimit ≤ world.context.depth then
          .error (.error
            ⟨.evaluation (.callDepthExceeded world.context.callLimit name), span⟩) world
        else
          .ok body
            { world with
              context := { world.context with depth := world.context.depth + 1 }
              journal := world.journal.note (.callStarted name (world.context.depth + 1)) } := by
  simp only [invoke, run_get_bind]
  cases world.context.functions.get? name with
  | none => rfl
  | some body =>
    by_cases h : world.context.callLimit ≤ world.context.depth <;> simp only [h] <;> rfl

/-- `func <name> ... leave` stores the tokens between the name and `leave`. -/
def define (code : Code) (start : Nat) : Action σ Flow := do
  let malformed {α : Type} (span : Span) : Action σ α :=
    fail (.structural .functionNameExpected) span
  match code.tokens[start + 1]? with
  | none =>
    let opener ← tokenAt code start
    malformed opener.span
  | some t =>
    match t.identifier? with
    | none => malformed t.span
    | some name =>
      let close ← closeOf code start .function
      if start + 2 ≤ close ∧ close < code.size then
        let body := code.tokens.extract (start + 2) close
        note (.functionDefined name body)
        store name body
        forgetCloses
        pure (.advance (close + 1))
      else throw .fault

variable [Console σ]

/-- `exec <name>` calls a function; an unknown name is reported. -/
def call (code : Code) (start : Nat) : Action σ Flow := do
  let (name, span) ← expectName code (start + 1) .exec
  let world ← get
  match world.context.functions.get? name with
  | none =>
    report ⟨.undefinedFunction name, span⟩
    pure (.advance (start + 2))
  | some _ =>
    let body ← invoke name span
    pure (.call body (start + 2))

/-! ## Input, output, assignment -/

/-- `input <name>` reads a line into a variable. -/
def input (code : Code) (start : Nat) : Action σ Flow := do
  let (name, _) ← expectName code (start + 1) .input
  let line ← readLine ("Enter value for " ++ name ++ ": ")
  let value := Value.ofLine line
  note (.lineRead name value)
  changeContext fun context => context.assign name value
  pure (.advance (start + 2))

/-- `print <expression>` writes a value; without an expression it writes an empty line. -/
def print (code : Code) (start : Nat) : Action σ Flow := do
  let stop := Expression.endFrom code.tokens (start + 1)
  if stop = start + 1 then
    writeLine ""
    pure (.advance (start + 1))
  else
    let value ← evaluate code (start + 1)
    writeLine value.display
    pure (.advance stop)

/-- A statement that starts with a name: an assignment if `=` follows, a call if the name is that of
a function, and otherwise nothing. -/
def named (code : Code) (start : Nat) (name : String) (span : Span) : Action σ Flow := do
  if (code.tokens[start + 1]?).any fun t => t.kind = .assignment then
    let value ← evaluate code (start + 2)
    note (.assigned name value)
    changeContext fun context => context.assign name value
    pure (.advance (Expression.endFrom code.tokens (start + 2)))
  else
    let world ← get
    match world.context.functions.get? name with
    | some _ =>
      let body ← invoke name span
      pure (.call body (start + 1))
    | none =>
      note (.nameSkipped name)
      pure (.advance (start + 1))

/-! ## Blocks -/

/-- The body of the first clause whose condition holds.  Conditions after it are not evaluated. -/
def firstTaken (code : Code) : List Clause → Action σ (Option Extent)
  | [] => pure none
  | clause :: rest =>
    match clause.condition with
    | none => pure (some clause.body)
    | some condition => do
      let value ← evaluate code condition
      if value.isTruthy then pure (some clause.body) else firstTaken code rest

/-- `if ... elif ... else ... end` runs one clause at most. -/
def branch (code : Code) (start : Nat) : Action σ Flow := do
  let (found, stop) ← clauses code start #[]
  match ← firstTaken code found.toList with
  | some body => pure (.enter body (stop + 1))
  | none => pure (.advance (stop + 1))

/-- `while ... else ... end` runs its body as long as its condition holds. -/
def whileLoop (code : Code) (start : Nat) (line : Nat) : Action σ Flow := do
  let body := Expression.endFrom code.tokens (start + 1)
  let close ← closeOf code start .loop
  let (otherwise, stop) ← loopElse code close
  pure (.retest (start + 1) ⟨line, ⟨body, close⟩, otherwise⟩ (stop + 1))

/-- The integer that the bound at an index comes to.  A bound of another kind is reported, at the
place of the token at `anchor`; one that is `nothing` has been reported already. -/
def bound (code : Code) (start anchor : Nat) : Action σ (Option Int64) := do
  let value ← evaluate code start
  match value with
  | .int n => pure (some n)
  | .nothing => pure none
  | other =>
    let t ← tokenAt code (min anchor (code.size - 1))
    report ⟨.boundNotInteger other.kind, t.span⟩
    pure none

/-- `for <name> in <first> to <last> ... else ... end` runs its body once for each integer between
the bounds, which are evaluated once. -/
def forLoop (code : Code) (start : Nat) (line : Nat) : Action σ Flow := do
  let (name, _) ← expectName code (start + 1) .forLoop
  expectKeyword code (start + 2) .inBound
  let first := start + 3
  let toWord := Expression.endFrom code.tokens first
  expectKeyword code toWord .toBound
  expectBound code first toWord .inBound
  let last := toWord + 1
  let body := Expression.endFrom code.tokens last
  expectBound code last body .toBound
  let close ← closeOf code start .loop
  let (otherwise, stop) ← loopElse code close
  match ← bound code first toWord with
  | none => pure (.advance (stop + 1))
  | some low =>
    match ← bound code last last with
    | none => pure (.advance (stop + 1))
    | some high => pure (.count name low high ⟨line, ⟨body, close⟩, otherwise⟩ (stop + 1))

/-! ## Dispatch -/

/-- Executes the statement that starts at an index.  A word that only makes sense inside a block is
ignored with a warning, and a token that starts no statement is skipped. -/
def execute (code : Code) (start : Nat) : Action σ Flow := do
  let t ← tokenAt code start
  match t.kind with
  | .newline => pure (.advance (start + 1))
  | .identifier name => named code start name t.span
  | .keyword word =>
    match word with
    | .input => input code start
    | .print => print code start
    | .ifClause => branch code start
    | .whileLoop => whileLoop code start t.span.line
    | .forLoop => forLoop code start t.span.line
    | .func => define code start
    | .exec => call code start
    | .exit =>
      note (.exited t.span.line)
      pure .exit
    | .elifClause | .elseClause | .endBlock | .leave | .inBound | .toBound =>
      note (.strayIgnored word t.span)
      pure (.advance (start + 1))
  | .operator _ | .assignment | .number _ | .text _ =>
    note (.tokenSkipped t.shown t.span.line)
    pure (.advance (start + 1))

end Statement
end TokenScript
