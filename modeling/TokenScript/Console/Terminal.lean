import TokenScript.Console

/-!
# Terminals

A terminal is a console on byte streams.  Prompts are written without a line end, lines with one.  A
line of input reaches to the next line feed or to the end of the stream; all carriage returns and
line feeds at its end are dropped, and it must be valid UTF-8.

The bytes of the input stream may arrive piece by piece.  A read that needs more bytes than have
arrived, while more may still come, fails and leaves its prompt in `starved?`.  The program around
the terminal then shows the prompt, fetches bytes, and repeats the step that failed: a step is a
function of the machine before it, so nothing is lost and nothing is done twice.
-/

namespace TokenScript.Console

/-- A console on byte streams. -/
structure Terminal where
  /-- The bytes of input that have arrived. -/
  arrived : ByteArray
  /-- How many of them have been read. -/
  consumed : Nat := 0
  /-- Whether no more bytes will arrive. -/
  ended : Bool
  /-- The prompt of a read that failed for want of bytes. -/
  starved? : Option String := none
  /-- Whether the prompt of the next read has been shown already. -/
  prompted : Bool := false
  /-- The texts that were written, the latest first. -/
  written : List String := []
  deriving Inhabited

namespace Terminal

/-- The byte of a line feed. -/
def lineFeed : UInt8 := 10

/-- The index just past the next line feed, if there is one. -/
def lineEnd? (bytes : ByteArray) (index : Nat) : Option Nat :=
  if h : index < bytes.size then
    if bytes[index] = lineFeed then some (index + 1) else lineEnd? bytes (index + 1)
  else none
termination_by bytes.size - index

/-- A line without the carriage returns and line feeds at its end. -/
def dropLineEnd (line : String) : String :=
  String.ofList (line.toList.reverse.dropWhile fun c => c = '\n' || c = '\r').reverse

/-- The reason for refusing a line that is no text. -/
def notText : String := "stream did not contain valid UTF-8"

/-- The reason for refusing a read for want of bytes. -/
def noBytes : String := "no input has arrived"

/-- Everything that was written, in order. -/
def output (t : Terminal) : String := String.join t.written.reverse

/-- The terminal after its prompt was shown and more bytes arrived, perhaps the last ones.  The
bytes that were read already are dropped. -/
def supply (t : Terminal) (bytes : ByteArray) (ended : Bool) : Terminal :=
  { t with
    arrived := t.arrived.extract t.consumed t.arrived.size ++ bytes
    consumed := 0
    ended := ended
    starved? := none
    prompted := true }

instance : Console Terminal where
  readLine prompt terminal :=
    let written := if terminal.prompted then terminal.written else prompt :: terminal.written
    let shown := { terminal with written := written, prompted := false }
    let taken (stop : Nat) : Except String (Option String) × Terminal :=
      let rest := { shown with consumed := stop }
      if stop = terminal.consumed then (.ok none, rest)
      else match String.fromUTF8? (terminal.arrived.extract terminal.consumed stop) with
        | some line => (.ok (some (dropLineEnd line)), rest)
        | none => (.error notText, rest)
    match lineEnd? terminal.arrived terminal.consumed with
    | some stop => taken stop
    | none =>
      if terminal.ended then taken terminal.arrived.size
      else (.error noBytes, { terminal with starved? := some prompt })
  writeLine line terminal :=
    (.ok (), { terminal with written := "\n" :: line :: terminal.written })

end Terminal
end TokenScript.Console
