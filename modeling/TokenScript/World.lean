import Std.Data.HashMap
import TokenScript.Block
import TokenScript.CallLimit
import TokenScript.Console
import TokenScript.Expression
import TokenScript.FunctionTable

/-!
# The world of a running script

A `Context` is what outlives a run: variables, functions, the limit on nested calls and the number
of calls that are under way.  A `World` adds what a single run needs: the console, the closes of
blocks that were found so far, the bodies that calls are using, and the journal.

An `Action` changes the world and returns a result, or is aborted.  An aborted action keeps the
changes that it made before.  It is aborted by an error of the script, or by a *fault*: looking at a
token beyond the end of the code.  A fault is not an error of any script; it would be a mistake in
this library, and the actions mark it so that its absence can be stated.

Finding the close of a block is a scan, and loops would repeat it in every round, so each close is
remembered under the address of the code and the index of the opener.  Whatever is remembered is
forgotten when a function is stored, since its body may lie where another one lay before.  A world
can do without this memory; it then scans every time, and differs in nothing but the work it does
and the scans that the journal tells of.
-/

namespace TokenScript

/-- What outlives a run of a script. -/
structure Context where
  store : Store
  functions : FunctionTable
  /-- How many calls may be under way at the same time. -/
  callLimit : Nat
  /-- How many calls are under way. -/
  depth : Nat
  deriving Inhabited

namespace Context

/-- A context without variables and functions. -/
def fresh (callLimit : Nat) : Context := ⟨∅, ∅, callLimit, 0⟩

/-- Gives a variable a value. -/
def assign (context : Context) (name : String) (value : Value) : Context :=
  { context with store := context.store.assign name value }

/-- Stores the body of a function, while calls use the bodies at the addresses in `held`. -/
def define (context : Context) (name : String) (body : Array Token) (held : List Nat := []) :
    Context :=
  { context with functions := context.functions.define name body held }

end Context

/-- The closes that were found, by the address of the code and the index of the opener. -/
abbrev CloseMemo := Std.HashMap (Nat × Nat) Nat

/-- Everything that a running script can observe or change. -/
structure World (σ : Type) where
  context : Context
  console : σ
  /-- The addresses of the bodies that are being called, the innermost call first. -/
  held : List Nat
  /-- The closes that are remembered, in a world that remembers any. -/
  closes : Option CloseMemo
  journal : Journal

/-- Why an action was abandoned. -/
inductive Abort where
  /-- The script is at fault, or its console. -/
  | error (e : Error)
  /-- A token beyond the end of the code was asked for. -/
  | fault
  deriving DecidableEq, Repr

/-- Something that a script does: it changes the world and returns a result, or is abandoned. -/
abbrev Action (σ α : Type) := EStateM Abort (World σ) α

namespace Action

variable {σ : Type}

/-- An action that starts with a look at the world. -/
theorem run_get_bind {α : Type} (f : World σ → Action σ α) (world : World σ) :
    (get >>= f).run world = (f world).run world :=
  rfl

/-- Abandons the script with an error. -/
def fail {α : Type} (cause : Cause) (span : Span) : Action σ α := throw (.error ⟨cause, span⟩)

/-- Notes an event in the journal. -/
def note (event : Event) : Action σ Unit :=
  modify fun world => { world with journal := world.journal.note event }

/-- Changes the context. -/
def changeContext (change : Context → Context) : Action σ Unit :=
  modify fun world => { world with context := change world.context }

/-- Stores the body of a function. -/
def store (name : String) (body : Array Token) : Action σ Unit :=
  modify fun world => { world with context := world.context.define name body world.held }

/-- The token at an index of the code. -/
def tokenAt (code : Code) (index : Nat) : Action σ Token :=
  match code.tokens[index]? with
  | some t => pure t
  | none => throw .fault

/-- The close of the block that opens at `start`: the one that is remembered, or else the one that
scanning finds, which is then remembered. -/
def closeOf (code : Code) (start : Nat) (policy : BlockPolicy) : Action σ Nat := do
  let world ← get
  match world.closes.bind (·[(code.address, start)]?) with
  | some index => pure index
  | none =>
    match policy.close code.tokens start with
    | .error e => throw (.error e)
    | .ok found =>
      note (.blockMatched start found.index found.keyword)
      modify fun world =>
        { world with closes := world.closes.map (·.insert (code.address, start) found.index) }
      pure found.index

/-- What becomes of the world when a close is looked for. -/
theorem run_closeOf (code : Code) (start : Nat) (policy : BlockPolicy) (world : World σ) :
    (closeOf code start policy).run world =
      match world.closes.bind (·[(code.address, start)]?) with
      | some index => .ok index world
      | none =>
        match policy.close code.tokens start with
        | .error e => .error (.error e) world
        | .ok found =>
          .ok found.index
            { world with
              journal := world.journal.note (.blockMatched start found.index found.keyword)
              closes := world.closes.map (·.insert (code.address, start) found.index) } := by
  rw [closeOf, run_get_bind]
  cases world.closes.bind (·[(code.address, start)]?) with
  | some index => rfl
  | none => cases policy.close code.tokens start <;> rfl

/-- Forgets all closes. -/
def forgetCloses : Action σ Unit :=
  modify fun world => { world with closes := world.closes.map fun _ => ∅ }

variable [Console σ]

/-- Asks the console for a line; the end of input counts as an empty line. -/
def readLine (prompt : String) : Action σ String := do
  let world ← get
  match Console.readLine prompt world.console with
  | (answer, console) =>
    set { world with console := console }
    match answer with
    | .ok line => pure (line.getD "")
    | .error reason => fail (.console reason) .nowhere

/-- What becomes of the world when a line is asked for. -/
theorem run_readLine (prompt : String) (world : World σ) :
    (readLine prompt).run world =
      match Console.readLine prompt world.console with
      | (.ok line, console) => .ok (line.getD "") { world with console := console }
      | (.error reason, console) =>
        .error (.error ⟨.console reason, .nowhere⟩) { world with console := console } := by
  rw [readLine, run_get_bind]
  rcases Console.readLine prompt world.console with ⟨_ | _, _⟩ <;> rfl

/-- Writes a line to the console. -/
def writeLine (line : String) : Action σ Unit := do
  let world ← get
  match Console.writeLine line world.console with
  | (answer, console) =>
    set { world with console := console }
    match answer with
    | .ok () => pure ()
    | .error reason => fail (.console reason) .nowhere

/-- What becomes of the world when a line is written. -/
theorem run_writeLine (line : String) (world : World σ) :
    (writeLine line).run world =
      match Console.writeLine line world.console with
      | (.ok (), console) => .ok () { world with console := console }
      | (.error reason, console) =>
        .error (.error ⟨.console reason, .nowhere⟩) { world with console := console } := by
  rw [writeLine, run_get_bind]
  rcases Console.writeLine line world.console with ⟨_ | _, _⟩ <;> rfl

/-- Tells the reader of the output about a failed evaluation.  The script goes on. -/
def report (failure : Failure) : Action σ Unit := do
  let e := failure.toError
  note (.failureReported e)
  writeLine ("Error evaluating expression: " ++ e.message)

/-- The value of the expression at an index of the code; one that fails is reported and worth
`nothing`. -/
def evaluate (code : Code) (start : Nat) : Action σ Value := do
  let world ← get
  match Expression.evaluateFrom code.tokens start world.context.store with
  | .ok value => pure value
  | .error failure =>
    report failure
    pure .nothing

end Action
end TokenScript
