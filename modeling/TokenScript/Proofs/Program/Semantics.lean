import Mathlib.Logic.Function.Basic
import TokenScript.Console
import TokenScript.Expression
import TokenScript.Machine
import TokenScript.Proofs.Program.Syntax
import TokenScript.Value.Input

/-!
# What programs mean

The direct meaning of a program that is given as a tree.  A `State` is what a program can observe or
change; its functions are bodies, not tokens.  An `Effect` is what happens in a straight line:
evaluating a run, writing a line, asking for one, changing a variable.  It fails only when the
console does, or when a call is one too many; a run that cannot be evaluated is reported and is
worth `nothing`.

`Statement.head` is what a statement does by itself, before anything inside it runs, and returns the
task that is left.  `Runs task state outcome final` is the big-step relation: the task, started in a
state, ends in the final state with the outcome.  There are no indices here, no scans and no memory
of them: blocks are subtrees.

* `Statement.head`: the effect of a statement, and what is left of it.
* `Runs`: the meaning of tasks.
-/

namespace TokenScript.Program

/-- What a program can observe or change. -/
structure State (σ : Type) where
  store : Store
  functions : String → Option Body
  /-- How many calls may be under way at the same time. -/
  callLimit : Nat
  /-- How many calls are under way. -/
  depth : Nat
  console : σ

/-- Something that happens in a straight line. -/
abbrev Effect (σ α : Type) := EStateM Error (State σ) α

variable {σ : Type}

namespace Effect

/-- Gives a variable a value. -/
def assign (name : String) (value : Value) : Effect σ Unit :=
  modify fun state => { state with store := state.store.assign name value }

/-- Stores the body of a function, in place of any other of that name. -/
def define (name : String) (body : Body) : Effect σ Unit :=
  modify fun state => { state with functions := Function.update state.functions name (some body) }

/-- Starts a call: one more is under way, unless that is one too many. -/
def enter (name : Name) : Effect σ Unit := do
  let state ← get
  if state.callLimit ≤ state.depth then
    throw ⟨.evaluation (.callDepthExceeded state.callLimit name.text), name.mark.span⟩
  else set { state with depth := state.depth + 1 }

variable [Console σ]

/-- Asks the console for a line; the end of input counts as an empty line. -/
def ask (prompt : String) : Effect σ String := fun state =>
  match Console.readLine prompt state.console with
  | (.ok line, console) => .ok (line.getD "") { state with console := console }
  | (.error reason, console) =>
    .error ⟨.console reason, .nowhere⟩ { state with console := console }

/-- Writes a line to the console. -/
def write (line : String) : Effect σ Unit := fun state =>
  match Console.writeLine line state.console with
  | (.ok (), console) => .ok () { state with console := console }
  | (.error reason, console) =>
    .error ⟨.console reason, .nowhere⟩ { state with console := console }

/-- Tells the reader of the output why something has no value. -/
def report (cause : EvaluationCause) : Effect σ Unit :=
  write ("Error evaluating expression: " ++ cause.message)

/-- The value of a run; one that fails is reported and worth `nothing`. -/
def evaluate (run : Run) : Effect σ Value := do
  let state ← get
  match Expression.evaluate state.store run.tokens with
  | .ok value => pure value
  | .error failure =>
    report failure.cause
    pure .nothing

/-- The integer that a bound comes to.  One of another kind is reported. -/
def bound (bound : Bound) : Effect σ (Option Int64) := do
  match ← evaluate bound.toRun with
  | .int n => pure (some n)
  | .nothing => pure none
  | other =>
    report (.boundNotInteger other.kind)
    pure none

end Effect

/-- Something that is run to its end. -/
inductive Task where
  | done
  /-- End the whole program. -/
  | exit
  | block (block : Block)
  /-- As long as the condition holds the body is run, and then the ending. -/
  | whileLoop (condition : Run) (body : Body) (ending : Ending)
  /-- The body is run for the integers from `next` to `last`, and then the ending. -/
  | forLoop (name : String) (next last : Int) (body : Body) (ending : Ending)
  /-- A call that is under way already: the body is run, and then the call ends. -/
  | call (body : Body)

/-- The `else` clause of an ending, if it has one. -/
def Ending.task : Ending → Task
  | .close _ => .done
  | .otherwise _ body _ => .block body.block

section

variable [Console σ]

/-- The block of the first branch whose condition holds, or else the `else` clause. -/
def Branches.choose : Branches → Effect σ Task
  | .elif _ condition body rest => do
    let value ← Effect.evaluate condition
    if value.isTruthy then pure (.block body.block) else rest.choose
  | .last ending => pure ending.task

/-- What a statement does by itself, and what is left of it then. -/
def Statement.head : Statement → Effect σ Task
  | .print _ run =>
    if run.tokens = [] then do
      Effect.write ""
      pure .done
    else do
      let value ← Effect.evaluate run
      Effect.write value.display
      pure .done
  | .assign name _ run => do
    let value ← Effect.evaluate run
    Effect.assign name.text value
    pure .done
  | .input _ name => do
    let line ← Effect.ask ("Enter value for " ++ name.text ++ ": ")
    Effect.assign name.text (Value.ofLine line)
    pure .done
  | .exit _ => pure .exit
  | .exec _ name => do
    let state ← get
    match state.functions name.text with
    | some body =>
      Effect.enter name
      pure (.call body)
    | none =>
      Effect.report (.undefinedFunction name.text)
      pure .done
  | .call name => do
    let state ← get
    match state.functions name.text with
    | some body =>
      Effect.enter name
      pure (.call body)
    | none => pure .done
  | .branch _ condition body branches => do
    let value ← Effect.evaluate condition
    if value.isTruthy then pure (.block body.block) else branches.choose
  | .whileLoop _ condition body ending => pure (.whileLoop condition body ending)
  | .forLoop _ name _ first _ last body ending => do
    match ← Effect.bound first with
    | none => pure .done
    | some low =>
      match ← Effect.bound last with
      | none => pure .done
      | some high => pure (.forLoop name.text low.toInt high.toInt body ending)
  | .func _ name body _ => do
    Effect.define name.text body
    pure .done

/-- The state in which a variable has a value. -/
def State.assign (state : State σ) (name : String) (value : Value) : State σ :=
  { state with store := state.store.assign name value }

/-- The state with one call less under way. -/
def State.endCall (state : State σ) : State σ := { state with depth := state.depth - 1 }

/-- A task, started in a state, ends with an outcome in another state. -/
inductive Runs : Task → State σ → Outcome → State σ → Prop
  | done {s : State σ} : Runs .done s (.done .next) s
  | exit {s : State σ} : Runs .exit s (.done .exit) s
  -- blocks: one statement after another, until one ends the program
  | nil {s : State σ} : Runs (.block .nil) s (.done .next) s
  | cons_failed {statement : Statement} {eol : Mark} {rest : Block} {s s₁ : State σ} {e : Error} :
    statement.head.run s = .error e s₁ →
      Runs (.block (.cons statement eol rest)) s (.failed e) s₁
  | cons_stop {statement : Statement} {eol : Mark} {rest : Block} {task : Task}
    {s s₁ s₂ : State σ} {o : Outcome} :
    statement.head.run s = .ok task s₁ → Runs task s₁ o s₂ → o ≠ .done .next →
      Runs (.block (.cons statement eol rest)) s o s₂
  | cons {statement : Statement} {eol : Mark} {rest : Block} {task : Task}
    {s s₁ s₂ s₃ : State σ} {o : Outcome} :
    statement.head.run s = .ok task s₁ → Runs task s₁ (.done .next) s₂ →
      Runs (.block rest) s₂ o s₃ → Runs (.block (.cons statement eol rest)) s o s₃
  -- a call runs the body that was found, whatever becomes of the name meanwhile
  | call {body : Body} {s s₁ : State σ} {o : Outcome} :
    Runs (.block body.block) s o s₁ → Runs (.call body) s o s₁.endCall
  -- `while` tests its condition before every round
  | while_failed {condition : Run} {body : Body} {ending : Ending} {s s₁ : State σ} {e : Error} :
    (Effect.evaluate condition).run s = .error e s₁ →
      Runs (.whileLoop condition body ending) s (.failed e) s₁
  | while_end {condition : Run} {body : Body} {ending : Ending} {value : Value}
    {s s₁ s₂ : State σ} {o : Outcome} :
    (Effect.evaluate condition).run s = .ok value s₁ → value.isTruthy = false →
      Runs ending.task s₁ o s₂ → Runs (.whileLoop condition body ending) s o s₂
  | while_stop {condition : Run} {body : Body} {ending : Ending} {value : Value}
    {s s₁ s₂ : State σ} {o : Outcome} :
    (Effect.evaluate condition).run s = .ok value s₁ → value.isTruthy = true →
      Runs (.block body.block) s₁ o s₂ → o ≠ .done .next →
      Runs (.whileLoop condition body ending) s o s₂
  | while_round {condition : Run} {body : Body} {ending : Ending} {value : Value}
    {s s₁ s₂ s₃ : State σ} {o : Outcome} :
    (Effect.evaluate condition).run s = .ok value s₁ → value.isTruthy = true →
      Runs (.block body.block) s₁ (.done .next) s₂ →
      Runs (.whileLoop condition body ending) s₂ o s₃ →
      Runs (.whileLoop condition body ending) s o s₃
  -- `for` counts up to and including its last integer
  | for_end {name : String} {next last : Int} {body : Body} {ending : Ending} {s s₁ : State σ}
    {o : Outcome} :
    last < next → Runs ending.task s o s₁ → Runs (.forLoop name next last body ending) s o s₁
  | for_stop {name : String} {next last : Int} {body : Body} {ending : Ending} {s s₁ : State σ}
    {o : Outcome} :
    next ≤ last → Runs (.block body.block) (s.assign name (.int (Int64.ofInt next))) o s₁ →
      o ≠ .done .next → Runs (.forLoop name next last body ending) s o s₁
  | for_round {name : String} {next last : Int} {body : Body} {ending : Ending}
    {s s₁ s₂ : State σ} {o : Outcome} :
    next ≤ last →
      Runs (.block body.block) (s.assign name (.int (Int64.ofInt next))) (.done .next) s₁ →
      Runs (.forLoop name (next + 1) last body ending) s₁ o s₂ →
      Runs (.forLoop name next last body ending) s o s₂

end

end TokenScript.Program
