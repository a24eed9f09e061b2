import TokenScript.CommandLine

/-!
# The program

The outer layer: it reads the arguments, the script file and standard input, and writes to standard
output and standard error.  What to read and what to write is decided by the library.

A script runs step by step on a terminal.  After each step the texts that it wrote are printed;
when a step wants input that has not arrived, the prompt is printed, a line is fetched, and the
step is taken again.
-/

namespace TokenScript.Program

/-- The wording of a failure of the operating system, whose number may come negated. -/
def systemText (code : UInt32) (details : String) : String :=
  let number := min code.toNat (UInt32.size - code.toNat)
  match ReadFailure.numbered.find? (·.1 = number) with
  | some (_, failure) => failure.reason
  | none => details ++ " (os error " ++ toString number ++ ")"

/-- The wording of a failure to read a file. -/
def failureText : IO.Error → String
  | .noFileOrDirectory _ code details | .invalidArgument _ code details
  | .permissionDenied _ code details | .inappropriateType _ code details => systemText code details
  | other => toString other

/-- The source text of a script file. -/
def load (path : String) : IO (Except LoadError String) := do
  if Script.isNamed path then
    try
      let bytes ← IO.FS.readBinFile path
      pure (Script.decode path bytes)
    catch e => pure (.error (.unreadable path (failureText e)))
  else pure (.error .wrongExtension)

/-- Reads bytes up to and including the next line feed, and tells whether the stream has ended. -/
partial def fetchLine (stdin : IO.FS.Stream) (bytes : ByteArray) : IO (ByteArray × Bool) := do
  let byte ← stdin.read 1
  if byte.isEmpty then pure (bytes, true)
  else if byte[0]? = some Console.Terminal.lineFeed then pure (bytes ++ byte, false)
  else fetchLine stdin (bytes ++ byte)

/-- Prints what a terminal has written since the last time. -/
def flush (stdout : IO.FS.Stream) (world : World Console.Terminal) :
    IO (World Console.Terminal) := do
  if world.console.written.isEmpty then pure world
  else
    stdout.putStr world.console.output
    stdout.flush
    pure { world with console := { world.console with written := [] } }

/-- Runs a machine to its end, on the streams of the process. -/
partial def drive (stdin stdout : IO.FS.Stream) (machine : Machine Console.Terminal) :
    IO Outcome := do
  match machine.step with
  | .running next => drive stdin stdout { next with world := ← flush stdout next.world }
  | .halted outcome world =>
    match world.console.starved? with
    | none =>
      let _ ← flush stdout world
      pure outcome
    | some prompt =>
      stdout.putStr prompt
      stdout.flush
      let (bytes, ended) ← fetchLine stdin .empty
      let fed := { machine.world with console := machine.world.console.supply bytes ended }
      drive stdin stdout { machine with world := fed }

/-- Prints a reply. -/
def send (reply : Reply) : IO UInt32 := do
  (← IO.getStdout).putStr reply.stdout
  (← IO.getStderr).putStr reply.stderr
  pure reply.code.toUInt32

/-- Runs a source text that goes by a path. -/
def runScript (path source : String) : IO UInt32 := do
  match tokenize source with
  | .error e => send (.ofError path source "" e)
  | .ok tokens =>
    let setting ← IO.getEnv callLimitSetting
    let context := Context.fresh (CallLimit.ofSetting setting).1
    let terminal : Console.Terminal := { arrived := .empty, ended := false }
    let machine : Machine Console.Terminal :=
      .start (.program tokens) ⟨0, tokens.size⟩ (context.world terminal .silent)
    let outcome ← drive (← IO.getStdin) (← IO.getStdout) machine
    send (.ofOutcome path source "" outcome)

end TokenScript.Program

/-- The program. -/
def main (arguments : List String) : IO UInt32 := do
  match TokenScript.Reply.ofInvocation (TokenScript.Invocation.parse none arguments) with
  | .error reply => TokenScript.Program.send reply
  | .ok path =>
    match ← TokenScript.Program.load path with
    | .error e => TokenScript.Program.send (.ofLoadError e)
    | .ok source => TokenScript.Program.runScript path source
