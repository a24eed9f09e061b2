import TokenScript.Error
import TokenScript.Token.Layout

/-!
# The journal

While a script runs the library notes what happens: warnings about things that are ignored, the
course of the run, and at the finest grain every assignment and every block that is matched.  An
`Event` is such a note as data; its severity, its message and its fields are functions of it.

A journal keeps the events up to a severity, or none at all.  What it keeps never changes what a
script does.
-/

namespace TokenScript

/-- How important an event is, the most important first. -/
inductive Severity where
  | warn
  | debug
  | trace
  deriving DecidableEq, Repr

namespace Severity

/-- The name of a severity. -/
def name : Severity → String
  | warn => "WARN"
  | debug => "DEBUG"
  | trace => "TRACE"

/-- A number that is smaller for a more important severity. -/
def rank : Severity → Nat
  | warn => 0
  | debug => 1
  | trace => 2

end Severity

/-- How a stretch of code ended, when nothing failed. -/
inductive Signal where
  /-- Execution ran off the end. -/
  | next
  /-- A statement asked for the whole script to end. -/
  | exit
  deriving DecidableEq, Repr

/-- The name of a signal in the journal. -/
def Signal.name : Signal → String
  | next => "Next"
  | exit => "Exit"

/-- Something that happened. -/
inductive Event where
  | tokenized (tokens lines : Nat)
  | runStarted (tokens : Nat)
  | runFinished (signal : Signal) (names functions : Nat)
  | callStarted (function : String) (depth : Nat)
  | blockMatched (start close : Nat) (keyword : Keyword)
  | lineRead (name : String) (value : Value)
  | assigned (name : String) (value : Value)
  | nameSkipped (name : String)
  | tokenSkipped (shown : String) (line : Nat)
  | strayIgnored (keyword : Keyword) (span : Span)
  | exited (line : Nat)
  | whileFinished (line iterations : Nat)
  | forFinished (line : Nat) (iterations : Int)
  | functionDefined (name : String) (body : Array Token)
  | failureReported (error : Error)
  | limitClamped (value ceiling : Nat)
  | limitIgnored (raw : String) (default : Nat)

namespace Event

/-- The severity of an event. -/
def severity : Event → Severity
  | strayIgnored .. | failureReported _ | limitClamped .. | limitIgnored .. => .warn
  | tokenized .. | runStarted _ | runFinished .. | callStarted .. | lineRead .. | exited _
  | whileFinished .. | forFinished .. | functionDefined .. => .debug
  | blockMatched .. | assigned .. | nameSkipped _ | tokenSkipped .. => .trace

/-- The message of an event. -/
def message : Event → String
  | tokenized .. => "tokenized source"
  | runStarted _ => "span run"
  | runFinished .. => "program finished"
  | callStarted .. => "span call"
  | blockMatched .. => "matched block"
  | lineRead .. => "input"
  | assigned .. => "assign"
  | nameSkipped _ => "bare identifier is not a function; skipping"
  | tokenSkipped .. => "skipping token"
  | strayIgnored keyword _ => "ignoring stray " ++ ticked keyword.spelling
  | exited _ => "exit"
  | whileFinished .. => "while loop finished"
  | forFinished .. => "for loop finished"
  | functionDefined .. => "defined function"
  | failureReported error => error.message
  | limitClamped .. => callLimitSetting ++ " is above the ceiling; clamping"
  | limitIgnored .. => "ignoring invalid " ++ callLimitSetting

/-- The line and the column of a place, both counted from one. -/
def placeFields (span : Span) : List (String × String) :=
  [("line", toString span.line), ("column", toString (span.column + 1))]

/-- The named details of an event. -/
def fields : Event → List (String × String)
  | tokenized tokens lines => [("tokens", toString tokens), ("lines", toString lines)]
  | runStarted tokens => [("tokens", toString tokens)]
  | runFinished signal names functions =>
    [("signal", signal.name), ("variables", toString names),
      ("functions", toString functions)]
  | callStarted function depth => [("function", function), ("depth", toString depth)]
  | blockMatched start close keyword =>
    [("start", toString start), ("close", toString close), ("keyword", keyword.spelling)]
  | lineRead name value => [("variable", name), ("value", value.display)]
  | assigned name value => [("variable", name), ("value", value.display)]
  | nameSkipped name => [("name", name)]
  | tokenSkipped shown line => [("token", shown), ("line", toString line)]
  | strayIgnored _ span => placeFields span
  | exited line => [("line", toString line)]
  | whileFinished line iterations =>
    [("line", toString line), ("iterations", toString iterations)]
  | forFinished line iterations =>
    [("line", toString line), ("iterations", toString iterations)]
  | functionDefined name body =>
    [("function", name), ("tokens", toString body.size), ("body", Token.layout body.toList)]
  | failureReported error => ("code", error.kind.code) :: placeFields error.span
  | limitClamped value ceiling => [("value", toString value), ("ceiling", toString ceiling)]
  | limitIgnored raw default => [("value", raw), ("default", toString default)]

end Event

/-- The events that were kept, the latest first, and the least important severity that is kept. -/
structure Journal where
  threshold : Option Severity
  entries : List Event := []
  deriving Inhabited

namespace Journal

/-- A journal that keeps nothing. -/
def silent : Journal := ⟨none, []⟩

/-- Whether an event is important enough. -/
def keeps (journal : Journal) (event : Event) : Bool :=
  match journal.threshold with
  | some least => event.severity.rank ≤ least.rank
  | none => false

/-- Notes an event, if it is important enough. -/
def note (journal : Journal) (event : Event) : Journal :=
  if journal.keeps event then { journal with entries := event :: journal.entries } else journal

/-- The kept events in order. -/
def events (journal : Journal) : List Event := journal.entries.reverse

@[simp] theorem threshold_note (journal : Journal) (event : Event) :
    (journal.note event).threshold = journal.threshold := by
  unfold note
  split <;> rfl

end Journal
end TokenScript
