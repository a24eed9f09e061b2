import TokenScript.FileTree

/-!
# Script files

A script is a file with a fixed extension that holds UTF-8 text.  The extension is looked at before
the file, so a missing file of another kind is refused for its extension.
-/

namespace TokenScript

/-- Why a script cannot be loaded. -/
inductive LoadError where
  | wrongExtension
  | unreadable (path : String) (reason : String)
  deriving DecidableEq, Repr

/-- What went wrong, in words. -/
def LoadError.message : LoadError → String
  | wrongExtension => "The file must have a .okerew extension."
  | unreadable path reason => "could not read `" ++ path ++ "`: " ++ reason

namespace Script

/-- The extension of every script. -/
def extension : String := "okerew"

/-- Whether a path names a script. -/
def isNamed (path : String) : Bool := Path.extension? path = some extension

/-- The source text in the bytes of a file. -/
def decode (path : String) (bytes : ByteArray) : Except LoadError String :=
  match String.fromUTF8? bytes with
  | some source => .ok source
  | none => .error (.unreadable path ReadFailure.notText.reason)

/-- The source text of the script that a path leads to. -/
def load (tree : FileTree) (path : String) : Except LoadError String :=
  if isNamed path then
    match tree.read path with
    | .ok bytes => decode path bytes
    | .error failure => .error (.unreadable path failure.reason)
  else .error .wrongExtension

end Script
end TokenScript
