import TokenScript.Error

/-!
# Diagnostics

A diagnostic is the text that explains an error to the writer of a script: the message, the place,
the line of the source with a caret under the column, and a word of help.  An error without a place
has no line to show.

Lines are cut at line feeds, and a carriage return before the line feed is not part of the line.
The caret line has a fixed margin.
-/

namespace TokenScript

/-- What a diagnostic tells about an error. -/
structure Diagnostic where
  kind : ErrorKind
  message : String
  span : Span
  help? : Option String
  deriving DecidableEq, Repr

namespace Diagnostic

/-- What a diagnostic tells about an error of the library. -/
def ofError (e : Error) : Diagnostic := ⟨e.kind, e.message, e.span, e.help?⟩

/-- A line without the carriage return before its line feed. -/
def dropReturn (line : List Char) : List Char :=
  if line.getLast? = some '\r' then line.dropLast else line

/-- The line of a text with this number, counted from zero.  The text after the last line feed is a
line only if it is not empty, and keeps its carriage return. -/
def lineAt? : Nat → List Char → Option (List Char)
  | number, text =>
    let line := text.takeWhile (· ≠ '\n')
    match number, text.dropWhile (· ≠ '\n') with
    | 0, [] => if line = [] then none else some line
    | 0, _ :: _ => some (dropReturn line)
    | _ + 1, [] => none
    | n + 1, _ :: rest => lineAt? n rest

/-- A number, filled up on the left to three characters. -/
def gutter (line : Nat) : String :=
  let digits := toString line
  String.ofList (List.replicate (3 - digits.length) ' ') ++ digits

/-- The source line and the caret below it; nothing for an error without a place. -/
def excerpt (d : Diagnostic) (source : String) : String :=
  match d.span.line with
  | 0 => ""
  | n + 1 =>
    let line := String.ofList ((lineAt? n source.toList).getD [])
    let pad := String.ofList (List.replicate d.span.column ' ')
    "   |\n" ++ gutter (n + 1) ++ " | " ++ line ++ "\n   | " ++ pad ++ "^\n"

/-- The text of a diagnostic about a source text that goes by the name `file`. -/
def render (d : Diagnostic) (file source : String) : String :=
  let place := file ++ ":" ++ d.span.render
  let head := "error[" ++ d.kind.code ++ "]: " ++ d.message ++ "\n  --> " ++ place ++ "\n"
  let help := match d.help? with
    | some text => "\nhelp: " ++ text ++ "\n"
    | none => ""
  head ++ d.excerpt source ++ help

end Diagnostic
end TokenScript
