/-!
# Files and paths

A `FileTree` is a working directory with the files and directories that were made from there.  A
path is walked component by component: every component but the last must lead to a directory, and so
must the last one if something follows it, be it only a slash.  What else lies outside the working
directory is unknown and taken to be empty.

Walking can fail, and each way to fail has the wording and the number that the operating system
gives it.
-/

namespace TokenScript

/-- Why a file cannot be read. -/
inductive ReadFailure where
  | noEntry
  | notDirectory
  | isDirectory
  | nameTooLong
  | nulByte
  | notText
  deriving DecidableEq, Repr

/-- The failures that the operating system numbers. -/
def ReadFailure.numbered : List (Nat × ReadFailure) :=
  [(2, .noEntry), (20, .notDirectory), (21, .isDirectory), (36, .nameTooLong)]

/-- The wording of a failure. -/
def ReadFailure.reason : ReadFailure → String
  | noEntry => "No such file or directory (os error 2)"
  | notDirectory => "Not a directory (os error 20)"
  | isDirectory => "Is a directory (os error 21)"
  | nameTooLong => "File name too long (os error 36)"
  | nulByte => "file name contained an unexpected NUL byte"
  | notText => "stream did not contain valid UTF-8"

namespace Path

/-- The components of a path, empty ones included. -/
def components (path : String) : List String :=
  path.splitOn "/"

/-- The components that name something, without empty ones and single dots. -/
def names (path : String) : List String :=
  (components path).filter fun name => name ≠ "" && name ≠ "."

/-- Goes up from the directory that some names lead to.  The names of a place above the working
directory are as many double dots as it lies above. -/
def parent (names : List String) : List String :=
  if names.all (· = "..") then names ++ [".."] else names.dropLast

/-- Follows one name from the directory that some names lead to. -/
def child (names : List String) (name : String) : List String :=
  if name = ".." then parent names else names ++ [name]

/-- The name of the file that a path leads to. -/
def fileName? (path : String) : Option String :=
  (names path).getLast?.filter (· ≠ "..")

/-- What follows the last dot of the file's name, if something stands before that dot. -/
def extension? (path : String) : Option String :=
  (fileName? path).bind fun name =>
    let reversed := name.toList.reverse
    let tail := reversed.takeWhile (· ≠ '.')
    match reversed.dropWhile (· ≠ '.') with
    | _ :: _ :: _ => some (String.ofList tail.reverse)
    | _ => none

/-- The most bytes that a component may have. -/
def componentLimit : Nat := 255

/-- The most bytes that a path may have. -/
def limit : Nat := 4095

end Path

/-- A working directory: each entry has the names that lead to it, and its bytes if it is a file. -/
structure FileTree where
  entries : List (List String × Option ByteArray)
  deriving Inhabited

namespace FileTree

/-- A place: a file, a directory that names lead to from the working directory, or one that only an
absolute path leads to. -/
inductive Node where
  | file (bytes : ByteArray)
  | directory (names : List String)
  | absolute

/-- An empty working directory. -/
def empty : FileTree := ⟨[]⟩

/-- Adds a file, with its bytes, or a directory, and the directories on the way to it. -/
def add (tree : FileTree) (path : String) (bytes : Option ByteArray) : FileTree :=
  match (Path.names path).foldl (fun way name => Path.child (way.headD []) name :: way) [] with
  | [] => tree
  | place :: way => ⟨(place, bytes) :: tree.entries ++ way.map (·, none)⟩

/-- What the names lead to: an entry, or a directory that an entry lies in. -/
def find? (tree : FileTree) (names : List String) : Option Node :=
  match tree.entries.find? (·.1 = names) with
  | some (_, some bytes) => some (.file bytes)
  | some (_, none) => some (.directory names)
  | none =>
    if tree.entries.any fun entry => names.isPrefixOf entry.1 then some (.directory names)
    else none

/-- Follows one component of a path. -/
def enter (tree : FileTree) (node : Node) (component : String) : Except ReadFailure Node :=
  match node with
  | .file _ => .error .notDirectory
  | .directory names =>
    if component = "" ∨ component = "." then .ok node
    else if component = ".." then .ok (.directory (Path.parent names))
    else if Path.componentLimit < component.utf8ByteSize then .error .nameTooLong
    else match tree.find? (names ++ [component]) with
      | some found => .ok found
      | none => .error .noEntry
  | .absolute =>
    if component = "" ∨ component = "." ∨ component = ".." then .ok .absolute
    else if Path.componentLimit < component.utf8ByteSize then .error .nameTooLong
    else .error .noEntry

/-- The bytes of the file that a path leads to. -/
def read (tree : FileTree) (path : String) : Except ReadFailure ByteArray := do
  if path.toList.contains '\x00' then throw .nulByte
  if Path.limit < path.utf8ByteSize then throw .nameTooLong
  if path = "" then throw .noEntry
  let start : Node := if path.toList.head? = some '/' then .absolute else .directory []
  match ← (Path.components path).foldlM tree.enter start with
  | .file bytes => pure bytes
  | .directory _ | .absolute => throw .isDirectory

end FileTree
end TokenScript
