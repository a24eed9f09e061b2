import TokenScript.Console.Terminal
import TokenScript.Diagnostic
import TokenScript.Interpreter
import TokenScript.Script
import TokenScript.Text.Plain
import TokenScript.Text.Similarity

/-!
# The command line

The command takes one argument, the script to run, and two flags.  Arguments are read from left to
right, and the first flag or mistake decides; after `--` everything is a file.  An empty file name
is a mistake that is noticed late: when a flag comes, or at the end.

A flag has a letter, of which only the first in an argument counts, and a name.  It takes no value,
not even an empty one.  To a name that is no flag's the answer proposes the flag with the most
similar name, or else to pass the argument as a file.

A `Reply` is all that the command leaves behind: what it wrote and its exit code.  The code is zero
for a script that ran to its end, one for a script that could not be loaded or that failed, and two
for a mistake in the arguments.
-/

namespace TokenScript

/-- What a command wrote, and its exit code. -/
structure Reply where
  code : Nat
  stdout : String
  stderr : String
  deriving DecidableEq, Repr

/-- The flags of the command. -/
inductive Flag where
  | help
  | version
  deriving DecidableEq, Repr

namespace Flag

/-- Every flag. -/
def all : List Flag := [help, version]

/-- The name of a flag. -/
def name : Flag → String
  | help => "help"
  | version => "version"

/-- The letter of a flag. -/
def letter : Flag → Char
  | help => 'h'
  | version => 'V'

/-- How the name of a flag is written as an argument. -/
def text (flag : Flag) : String := "--" ++ flag.name

/-- The flag of a name. -/
def ofName? (name : String) : Option Flag := all.find? (·.name = name)

/-- The flag of a letter. -/
def ofLetter? (letter : Char) : Option Flag := all.find? (·.letter = letter)

/-- The flag that a wrong name may have been meant for. -/
def similar? (name : String) : Option Flag :=
  (Text.Similarity.closest? name (all.map Flag.name)).bind ofName?

end Flag

/-- A mistake in the arguments. -/
inductive ArgumentError where
  | missingFile
  | emptyFile
  /-- One file too many. -/
  | extraFile (argument : String)
  | unknownLetter (letter : Char)
  | unknownName (name : String)
  /-- A flag with a value. -/
  | unneededValue (flag : Flag) (value : String)
  deriving DecidableEq, Repr

/-- What the arguments ask for. -/
inductive Invocation where
  | tell (flag : Flag)
  | refuse (e : ArgumentError)
  | run (path : String)
  deriving DecidableEq, Repr

namespace Invocation

/-- Something to do, unless the file name that came before is empty. -/
def unlessEmpty (file : Option String) (invocation : Invocation) : Invocation :=
  if file = some "" then .refuse .emptyFile else invocation

/-- The file at the end of the arguments. -/
def conclude : Option String → Invocation
  | none => .refuse .missingFile
  | some path => unlessEmpty (some path) (.run path)

/-- Reads arguments that are all files. -/
def parseFiles : Option String → List String → Invocation
  | file, [] => conclude file
  | none, path :: rest => parseFiles (some path) rest
  | some _, extra :: _ => .refuse (.extraFile extra)

/-- A flag by its name, with the value that may follow after an equals sign. -/
def ofName (file : Option String) (argument : List Char) : Invocation :=
  let name := String.ofList (argument.takeWhile (· ≠ '='))
  match Flag.ofName? name, argument.dropWhile (· ≠ '=') with
  | some flag, [] => unlessEmpty file (.tell flag)
  | some flag, _ :: value => .refuse (.unneededValue flag (String.ofList value))
  | none, _ => .refuse (.unknownName name)

/-- A flag by its letter. -/
def ofLetter (file : Option String) (letter : Char) : Invocation :=
  match Flag.ofLetter? letter with
  | some flag => unlessEmpty file (.tell flag)
  | none => .refuse (.unknownLetter letter)

/-- Reads arguments; `file` is the one that came already. -/
def parse : Option String → List String → Invocation
  | file, [] => conclude file
  | file, argument :: rest =>
    match argument.toList with
    | ['-', '-'] => parseFiles file rest
    | '-' :: '-' :: named => ofName file named
    | '-' :: letter :: _ => ofLetter file letter
    | _ =>
      match file with
      | none => parse (some argument) rest
      | some _ => .refuse (.extraFile argument)

end Invocation

namespace CommandLine

/-- How the command is used, with some of its flags. -/
def usageWith (flags : List Flag) : String :=
  "Usage: okerew " ++ String.join (flags.map fun flag => flag.text ++ " ") ++ "<FILE>\n"

/-- How the command is used. -/
def usage : String := usageWith []

/-- What `--help` prints. -/
def helpText : String :=
  "Runs an Okerew script\n\n" ++ usage ++
    "\nArguments:\n  <FILE>  Script to run; must end in `.okerew`\n\n" ++
    "Options:\n  -h, --help     Print help\n  -V, --version  Print version\n"

/-- What `--version` prints. -/
def versionText : String := "okerew 0.1.0\n"

/-- The last line about every mistake in the arguments. -/
def hint : String := "\nFor more information, try '--help'.\n"

/-- The first lines about an argument that has no place. -/
def unexpected (argument : String) : String :=
  "error: unexpected argument '" ++ Text.plain argument ++ "' found\n\n"

/-- The proposal to pass an argument as a file. -/
def tipFile (argument : String) : String :=
  let argument := Text.plain argument
  "  tip: to pass '" ++ argument ++ "' as a value, use '-- " ++ argument ++ "'\n\n"

/-- The proposal of a flag. -/
def tipFlag (flag : Flag) : String :=
  "  tip: a similar argument exists: '" ++ flag.text ++ "'\n\n"

end CommandLine

open CommandLine in
/-- What is wrong with the arguments, in words.  Arguments are repeated as plain text. -/
def ArgumentError.text : ArgumentError → String
  | missingFile =>
    "error: the following required arguments were not provided:\n  <FILE>\n\n" ++ usage ++ hint
  | emptyFile =>
    "error: a value is required for '<FILE>' but none was supplied\n" ++ hint
  | extraFile argument => unexpected argument ++ usage ++ hint
  | unknownLetter letter =>
    let argument := String.ofList ['-', letter]
    unexpected argument ++ tipFile argument ++ usage ++ hint
  | unknownName name =>
    let argument := "--" ++ name
    match Flag.similar? name with
    | some flag => unexpected argument ++ tipFlag flag ++ usageWith [flag] ++ hint
    | none => unexpected argument ++ tipFile argument ++ usage ++ hint
  | unneededValue flag value =>
    "error: unexpected value '" ++ Text.plain value ++ "' for '" ++ flag.text ++
      "' found; no more were expected\n\n" ++ usageWith [flag] ++ hint

namespace Reply

/-- The reply to a script that cannot be loaded. -/
def ofLoadError (e : LoadError) : Reply :=
  let usage := match e with
    | .wrongExtension => CommandLine.usage
    | .unreadable _ _ => ""
  ⟨1, "", "Error: " ++ e.message ++ "\n" ++ usage⟩

/-- The reply to a script that failed after it wrote `output`. -/
def ofError (path source output : String) (e : Error) : Reply :=
  ⟨1, output, (Diagnostic.ofError e).render path source⟩

/-- The reply to a script that ended. -/
def ofOutcome (path source output : String) : Outcome → Reply
  | .done _ => ⟨0, output, ""⟩
  | .failed e => ofError path source output e
  | .fault => ⟨1, output, ""⟩

/-- The reply to arguments that ask for no script, or for one by its path. -/
def ofInvocation : Invocation → Except Reply String
  | .tell .help => .error ⟨0, CommandLine.helpText, ""⟩
  | .tell .version => .error ⟨0, CommandLine.versionText, ""⟩
  | .refuse e => .error ⟨2, "", e.text⟩
  | .run path => .ok path

end Reply

namespace CommandLine

/-- Runs a source text that goes by a path on a terminal. -/
def runScript (fuel : Nat) (setting : Option String) (terminal : Console.Terminal)
    (path source : String) : Option Reply :=
  match tokenize source with
  | .error e => some (.ofError path source "" e)
  | .ok tokens =>
    let context := Context.fresh (CallLimit.ofSetting setting).1
    (context.runTokens fuel terminal .silent tokens).map fun report =>
      .ofOutcome path source report.console.output report.outcome

/-- The whole command: arguments, a working directory, the setting of the call limit, and the
bytes of standard input. -/
def run (fuel : Nat) (arguments : List String) (tree : FileTree) (setting : Option String)
    (stdin : ByteArray) : Option Reply :=
  match Reply.ofInvocation (Invocation.parse none arguments) with
  | .error reply => some reply
  | .ok path =>
    match Script.load tree path with
    | .error e => some (.ofLoadError e)
    | .ok source =>
      let terminal : Console.Terminal := { arrived := stdin, ended := true }
      runScript fuel setting terminal path source

end CommandLine
end TokenScript
