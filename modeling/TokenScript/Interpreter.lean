import TokenScript.Machine
import TokenScript.Token.Lexer

/-!
# Running scripts

A context passes from run to run, so variables and functions that one script leaves behind are
there for the next one.  Three things can be run: a source text, a range of tokens, and a function
by name.  Each starts with an empty memory of closes and reports how it ended, the context it
leaves, its console and its journal.

Every function here takes a number of steps and returns `none` when the script needs more.
-/

namespace TokenScript

/-- What a run leaves behind. -/
structure Report (σ : Type) where
  outcome : Outcome
  context : Context
  console : σ
  journal : Journal

namespace Report

/-- What a run leaves behind that ended in a world. -/
def ofWorld {σ : Type} (outcome : Outcome) (world : World σ) : Report σ :=
  ⟨outcome, world.context, world.console, world.journal⟩

/-- Notes an event after the run. -/
def note {σ : Type} (report : Report σ) (event : Event) : Report σ :=
  { report with journal := report.journal.note event }

end Report

namespace Context

variable {σ : Type} [Console σ]

/-- The world of a run that starts in this context; it remembers closes, and none so far. -/
def world (context : Context) (console : σ) (journal : Journal) : World σ :=
  ⟨context, console, [], some ∅, journal⟩

/-- Runs a machine and reports. -/
def finish (fuel : Nat) (machine : Machine σ) : Option (Report σ) :=
  (machine.run fuel).map fun (outcome, world) => .ofWorld outcome world

/-- Runs the tokens with the indices of a range. -/
def runRange (fuel : Nat) (context : Context) (console : σ) (journal : Journal)
    (tokens : Array Token) (extent : Extent) : Option (Report σ) :=
  finish fuel (.start (.program tokens) extent (context.world console journal))

/-- Calls a function; `span` is blamed if that is impossible. -/
def runCall (fuel : Nat) (context : Context) (console : σ) (journal : Journal)
    (name : String) (span : Span) : Option (Report σ) :=
  match (Statement.invoke name span).run (context.world console journal) with
  | .error abort world => some (.ofWorld abort.outcome world)
  | .ok body world => finish fuel ⟨[.block body 0 body.size, .call], world.hold body⟩

/-- Notes the end of a run that did not fail. -/
def noteEnd (report : Report σ) : Report σ :=
  match report.outcome with
  | .done signal =>
    report.note (.runFinished signal report.context.store.size report.context.functions.size)
  | _ => report

omit [Console σ] in
@[simp] theorem outcome_noteEnd (report : Report σ) :
    (noteEnd report).outcome = report.outcome := by
  unfold noteEnd
  split <;> rfl

omit [Console σ] in
@[simp] theorem context_noteEnd (report : Report σ) :
    (noteEnd report).context = report.context := by
  unfold noteEnd
  split <;> rfl

omit [Console σ] in
@[simp] theorem console_noteEnd (report : Report σ) :
    (noteEnd report).console = report.console := by
  unfold noteEnd
  split <;> rfl

/-- Runs a whole program. -/
def runTokens (fuel : Nat) (context : Context) (console : σ) (journal : Journal)
    (tokens : Array Token) : Option (Report σ) :=
  let journal := journal.note (.runStarted tokens.size)
  (context.runRange fuel console journal tokens ⟨0, tokens.size⟩).map noteEnd

/-- Runs a source text.  One that has no tokens fails without any effect. -/
def runSource (fuel : Nat) (context : Context) (console : σ) (journal : Journal)
    (source : String) : Option (Report σ) :=
  match tokenize source with
  | .error e => some ⟨.failed e, context, console, journal⟩
  | .ok tokens =>
    let journal := journal.note (.tokenized tokens.size (lineCount source))
    context.runTokens fuel console journal tokens

end Context
end TokenScript
