/-!
# Consoles

A script talks to a console: it asks for a line with a prompt, and it writes lines.  A console is
a value; asking and writing return the console as it is afterwards.  Either may fail with a
reason, and a console has no more lines when the answer is `none`.

* `Console`: the two operations.
* `Console.Buffered`: lines that are given beforehand, and a transcript.
* `Console.Faulty`: a console that fails from some read or write on.
-/

namespace TokenScript

/-- Something that can be asked for a line and told one. -/
class Console (σ : Type) where
  /-- Shows a prompt and reads a line without its end. -/
  readLine : String → σ → Except String (Option String) × σ
  /-- Writes a line. -/
  writeLine : String → σ → Except String Unit × σ

namespace Console

/-- One entry of a transcript. -/
inductive Exchange where
  | prompt (text : String)
  | line (text : String)
  deriving DecidableEq, Repr

/-- A console that holds its input lines and records what it shows, the latest entry first. -/
structure Buffered where
  inputs : List String
  transcript : List Exchange := []
  deriving DecidableEq, Repr, Inhabited

namespace Buffered

/-- The prompts that were shown, in order. -/
def prompts (console : Buffered) : List String :=
  console.transcript.reverse.filterMap fun
    | .prompt text => some text
    | .line _ => none

/-- The lines that were written, in order. -/
def output (console : Buffered) : List String :=
  console.transcript.reverse.filterMap fun
    | .prompt _ => none
    | .line text => some text

instance : Console Buffered where
  readLine prompt console :=
    let transcript := .prompt prompt :: console.transcript
    match console.inputs with
    | [] => (.ok none, ⟨[], transcript⟩)
    | line :: rest => (.ok (some line), ⟨rest, transcript⟩)
  writeLine line console := (.ok (), ⟨console.inputs, .line line :: console.transcript⟩)

end Buffered

/-- A console that works for a number of reads and a number of writes and fails afterwards.  A
number that is not given never runs out. -/
structure Faulty (σ : Type) where
  inner : σ
  readsLeft : Option Nat
  writesLeft : Option Nat

namespace Faulty

/-- The reason that a faulty console gives. -/
def reason : String := "device gone"

/-- One less, if there is a number at all. -/
def spend (left : Option Nat) : Option Nat := left.map (· - 1)

instance {σ : Type} [Console σ] : Console (Faulty σ) where
  readLine prompt console :=
    if console.readsLeft = some 0 then (.error reason, console)
    else
      let (answer, inner) := Console.readLine prompt console.inner
      (answer, { console with inner := inner, readsLeft := spend console.readsLeft })
  writeLine line console :=
    if console.writesLeft = some 0 then (.error reason, console)
    else
      let (answer, inner) := Console.writeLine line console.inner
      (answer, { console with inner := inner, writesLeft := spend console.writesLeft })

end Faulty
end Console
end TokenScript
