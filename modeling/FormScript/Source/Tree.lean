import FormScript.Text.Quoted

/-!
# Files and paths

A path is walked name by name. Every name but the last must lead to a directory, and so must the
last if a slash follows it; `.` stays and `..` goes back, which also requires a directory to be in.
So a path through something that is missing is missing, even if it goes back at once.

A tree lists the files and the directories below a starting directory. Nothing is known about what
is outside of it, except that there are directories.
-/

namespace FormScript

/-- Why a path cannot be used. -/
inductive AccessFault where
  | noEntry
  | notDirectory
  | isDirectory
  | nameTooLong
  | zeroInName
  | notText
deriving DecidableEq, Repr

namespace AccessFault

/-- The number, kind and message of a fault of the system. -/
def system? : AccessFault → Option (Nat × String × String)
  | noEntry => some (2, "NotFound", "No such file or directory")
  | notDirectory => some (20, "NotADirectory", "Not a directory")
  | isDirectory => some (21, "IsADirectory", "Is a directory")
  | nameTooLong => some (36, "InvalidFilename", "File name too long")
  | zeroInName | notText => none

/-- The kind and message of a fault that is found without asking the system. -/
def own : AccessFault → String × String
  | zeroInName => ("InvalidInput", "file name contained an unexpected NUL byte")
  | _ => ("InvalidData", "stream did not contain valid UTF-8")

/-- The fault in words. -/
def text (f : AccessFault) : String :=
  match f.system? with
  | some (number, _, message) => s!"{message} (os error {number})"
  | none => f.own.2

/-- The fault with all that is known about it. -/
def details (f : AccessFault) : String :=
  match f.system? with
  | some (number, kind, message) =>
    s!"Os \x7b code: {number}, kind: {kind}, message: {quoted message} \x7d"
  | none => s!"Error \x7b kind: {f.own.1}, message: {quoted f.own.2} \x7d"

end AccessFault

/-- What a path leads to. A file comes with its own name. -/
inductive Found where
  | directory
  | file (name : String) (bytes : ByteArray)

/-- What a program can see of files: what is at a path, and whether a file can be written there. -/
structure FileView where
  look : String → Except AccessFault Found
  canWrite : String → Except AccessFault Unit

/-- The files and directories below a directory, by the names that lead there. -/
structure FileTree where
  files : List (List String × ByteArray) := []
  directories : List (List String) := []

/-- A directory: one of the tree, or one outside of it. -/
inductive Place where
  | inside (names : List String)
  | outside
deriving DecidableEq, Repr

/-- The directory above. -/
def Place.parent : Place → Place
  | inside [] => outside
  | inside names => inside names.dropLast
  | outside => outside

namespace FileTree

/-- Whether there is a directory: one that is listed, or one that something else is in. -/
def isDirectory (t : FileTree) (names : List String) : Bool :=
  names.isEmpty || t.directories.any names.isPrefixOf ||
    t.files.any fun (path, _) => path.length != names.length && names.isPrefixOf path

/-- Where a name leads from a directory. -/
inductive Spot where
  | directory (place : Place)
  | file (name : String) (bytes : ByteArray)

/-- Longest name, in bytes. -/
def nameBytes : Nat := 255

/-- Longest path, in bytes. -/
def pathBytes : Nat := 4095

/-- Follows one name. -/
def enter (t : FileTree) (p : Place) (name : String) : Except AccessFault Spot :=
  if name = "." then .ok (.directory p)
  else if name = ".." then .ok (.directory p.parent)
  else if nameBytes < name.utf8ByteSize then .error .nameTooLong
  else
    match p with
    | .outside => .error .noEntry
    | .inside names =>
      let path := names ++ [name]
      match t.files.lookup path with
      | some bytes => .ok (.file name bytes)
      | none => if t.isDirectory path then .ok (.directory (.inside path)) else .error .noEntry

/-- Follows names one after the other. -/
def walk (t : FileTree) (p : Place) : List String → Except AccessFault Spot
  | [] => .ok (.directory p)
  | name :: names =>
    match t.enter p name with
    | .error e => .error e
    | .ok (.directory q) => walk t q names
    | .ok (.file own bytes) => if names.isEmpty then .ok (.file own bytes) else .error .notDirectory

/-- The names in a path. -/
def pathNames (path : String) : List String := (path.splitOn "/").filter (· ≠ "")

/-- Where a path starts. -/
def pathStart (path : String) : Place := if path.startsWith "/" then .outside else .inside []

/-- Whether a path has the character that no name can have. -/
def hasZero (path : String) : Bool := path.toList.contains '\x00'

/-- What a path leads to. -/
def look (t : FileTree) (path : String) : Except AccessFault Found :=
  if hasZero path then .error .zeroInName
  else if path.isEmpty then .error .noEntry
  else if pathBytes < path.utf8ByteSize then .error .nameTooLong
  else
    match t.walk (pathStart path) (pathNames path) with
    | .error e => .error e
    | .ok (.directory _) => .ok .directory
    | .ok (.file name bytes) =>
      if path.endsWith "/" then .error .notDirectory else .ok (.file name bytes)

/-- The names of the file that is made by writing to a path, if it is one of the tree. -/
def target (t : FileTree) (path : String) : Except AccessFault (Option (List String)) :=
  if hasZero path then .error .zeroInName
  else if pathBytes < path.utf8ByteSize then .error .nameTooLong
  else
    match (pathNames path).getLast? with
    | none => .error (if path.isEmpty then .noEntry else .isDirectory)
    | some name =>
      match t.walk (pathStart path) (pathNames path).dropLast with
      | .error e => .error e
      | .ok (.file _ _) => .error .notDirectory
      | .ok (.directory p) =>
        if path.endsWith "/" then .error .isDirectory
        else
          match t.enter p name, p with
          | .ok (.directory _), _ => .error .isDirectory
          | .error .nameTooLong, _ => .error .nameTooLong
          | _, .inside names => .ok (some (names ++ [name]))
          | _, .outside => .ok none

/-- What can be seen of a tree. -/
def view (t : FileTree) : FileView where
  look := t.look
  canWrite path := (t.target path).map fun _ => ()

end FileTree

end FormScript
