/-!
Files as a command sees them: paths in their normal form, a folder of named files, and the ways
in which reading can fail.
-/
namespace Lox.Command

inductive ReadFailure where
  | missing
  | isFolder
  | notFolder
  | nameTooLong
  | nullInPath
  | other (reason : String)
  deriving DecidableEq

namespace ReadFailure

def reason : ReadFailure → String
  | .missing => "No such file or directory"
  | .isFolder => "Is a directory"
  | .notFolder => "Not a directory"
  | .nameTooLong => "File name too long"
  | .nullInPath => "embedded null byte"
  | .other reason => reason

end ReadFailure

namespace Path

def names (path : String) : List String :=
  ((path.toList.splitOn '/').map String.ofList).filter fun name => name ≠ "" ∧ name ≠ "."

/-- The slashes that start a path. Two are kept, any other number counts as one. -/
def root (path : String) : String :=
  match path.toList.takeWhile (· = '/') with
  | [] => ""
  | ['/', '/'] => "//"
  | _ => "/"

/-- A path without detours other than the ones upwards. -/
def normal (path : String) : String :=
  let text := root path ++ "/".intercalate (names path)
  if text = "" then "." else text

end Path

/-- The files below a working folder by their names from there, each with its bytes, or none for
a folder. -/
structure Folder where
  entries : List (List String × Option (List Nat))

namespace Folder

inductive Found where
  | file (bytes : List Nat)
  | folder
  | nothing

/-- What stands under a row of names. A folder is there if anything is below it. -/
def find (f : Folder) (names : List String) : Found :=
  match f.entries.lookup names with
  | some (some bytes) => .file bytes
  | some none => .folder
  | none => if f.entries.any fun (path, _) => names.isPrefixOf path then .folder else .nothing

/-- The longest name and the longest path, in bytes. -/
def maxName : Nat := 255

def maxPath : Nat := 4095

/-- Walks a path from a place inside the folder, or from above it (`none`), where no file is
known. -/
def walk (f : Folder) : Option (List String) → List String → Except ReadFailure (List Nat)
  | _, [] => .error .isFolder
  | place, ".." :: rest =>
    match place with
    | some (name :: names) => walk f (some (name :: names).dropLast) rest
    | _ => walk f none rest
  | place, name :: rest =>
    if maxName < name.utf8ByteSize then .error .nameTooLong
    else
      match place with
      | none => .error .missing
      | some names =>
        match f.find (names ++ [name]) with
        | .nothing => .error .missing
        | .folder => walk f (some (names ++ [name])) rest
        | .file bytes => if rest.isEmpty then .ok bytes else .error .notFolder

def read (f : Folder) (path : String) : Except ReadFailure (List Nat) :=
  if path.toList.contains (Char.ofNat 0) then .error .nullInPath
  else if maxPath < (Path.normal path).utf8ByteSize then .error .nameTooLong
  else walk f (if Path.root path = "" then some [] else none) (Path.names path)

end Folder

end Lox.Command
