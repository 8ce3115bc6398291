import FormScript.Code
import FormScript.Diagnostic
import FormScript.Limits
import FormScript.Source.Bytes
import FormScript.Source.Size
import FormScript.Source.Tree
import FormScript.Text.Blank
import FormScript.Text.Lowercase
import FormScript.Text.Quoted

/-!
# Loading a source file

A file is turned away for the first of these reasons: there is no path, nothing is there, it is no
file, it is too large, it is empty, it has another extension than the one required, it is no text,
it has too many lines. Its size is known before it is read, so nothing too large is ever decoded.
-/

namespace FormScript

/-- The extension of source files. -/
def sourceExtension : String := "nih"

/-- The extension in a file's name: what follows the last point, unless the point comes first. -/
def extensionOf? (name : String) : Option String :=
  match name.toList.reverse.span (· != '.') with
  | (_, []) | (_, [_]) => none
  | (reversed, _ :: _ :: _) => some (String.ofList reversed.reverse)

/-- What is known about a file before it is read. -/
structure FileFacts where
  name : String
  size : Nat
  extension : Option String
deriving DecidableEq, Repr, Inhabited

/-- Whether the file has the extension of source files. -/
def FileFacts.isSource (f : FileFacts) : Bool := f.extension == some sourceExtension

/-- The extension, as it is told. -/
def FileFacts.extensionText (f : FileFacts) : String := f.extension.getD "none"

/-- The facts about a file. -/
def FileFacts.ofFile (name : String) (bytes : ByteArray) : FileFacts :=
  { name, size := bytes.size, extension := (extensionOf? name).map lowercase }

/-- Why a file is turned away. -/
inductive FileCause where
  | emptyPath
  | unreadablePath
  | notFound
  | notAFile
  | tooLarge (size : Nat)
  | empty
  | wrongExtension (found : Option String)
  | invalidEncoding
  | tooManyLines (lines : Nat)
deriving DecidableEq, Repr

/-- A file that is turned away, and why. -/
structure FileError where
  path : String
  cause : FileCause
deriving DecidableEq, Repr

namespace FileError

/-- What a reader is told. -/
def message (e : FileError) : String :=
  match e.cause with
  | .emptyPath | .unreadablePath | .notAFile => s!"Invalid file path: {e.path}"
  | .notFound => s!"File not found: {e.path}"
  | .tooLarge size => s!"File too large: {e.path} is {size} bytes (max: {Limits.fileBytes})"
  | .empty => s!"File is empty: {e.path}"
  | .wrongExtension found =>
    let shown := match found with
      | some ext => s!"Some({quoted ext})"
      | none => "None"
    s!"Invalid file extension for {e.path}: expected .nih, found {shown}"
  | .invalidEncoding => s!"Invalid UTF-8 encoding in file: {e.path}"
  | .tooManyLines lines =>
    s!"File exceeds maximum line count: {e.path} has {lines} lines (max: {Limits.fileLines})"

/-- The code of the failure. -/
def code (e : FileError) : Code :=
  match e.cause with
  | .emptyPath | .unreadablePath | .notAFile => .invalidPath
  | .notFound => .fileNotFound
  | .tooLarge _ => .fileTooLarge
  | .empty => .emptyFile
  | .wrongExtension _ => .invalidExtension
  | .invalidEncoding => .invalidEncoding
  | .tooManyLines _ => .tooManyLines

/-- The failure as a user is shown it. -/
def diagnostic (e : FileError) : Diagnostic := .ofFile e.path e.code e.message

end FileError

/-- A file that was read. -/
structure Loaded where
  facts : FileFacts
  source : String
  lines : Nat
deriving DecidableEq, Repr, Inhabited

/-- Number of characters of the source. -/
def Loaded.chars (l : Loaded) : Nat := l.source.length

/-- The end of loading a file: the file, or why it was turned away with what was known by then. -/
inductive Loading where
  | refused (error : FileError) (facts : Option FileFacts)
  | loaded (loaded : Loaded)

/-- The file, or why it was turned away. -/
def Loading.result : Loading → Except FileError Loaded
  | refused e _ => .error e
  | loaded l => .ok l

/-- Reads a file that is there. -/
def readFile (requireExtension : Bool) (path : String) (facts : FileFacts) (bytes : ByteArray) :
    Loading :=
  let refuse := fun cause => Loading.refused ⟨path, cause⟩ (some facts)
  if Limits.fileBytes < facts.size then refuse (.tooLarge facts.size)
  else if facts.size = 0 then refuse .empty
  else if requireExtension && !facts.isSource then refuse (.wrongExtension facts.extension)
  else
    match decodeText? bytes with
    | none => refuse .invalidEncoding
    | some source =>
      let count := (lines source.toList).length
      if Limits.fileLines < count then refuse (.tooManyLines count)
      else .loaded { facts, source, lines := count }

/-- Loads a source file. -/
def loadFile (view : FileView) (requireExtension : Bool) (path : String) : Loading :=
  if path.isEmpty then .refused ⟨path, .emptyPath⟩ none
  else
    match view.look path with
    | .error _ => .refused ⟨path, .notFound⟩ none
    | .ok .directory => .refused ⟨path, .notAFile⟩ none
    | .ok (.file name bytes) => readFile requireExtension path (.ofFile name bytes) bytes

/-- The path that bytes spell. -/
def pathOfBytes (bytes : ByteArray) : Except FileError String :=
  match decodeText? bytes with
  | some path => .ok path
  | none => .error ⟨String.ofList (showBytes bytes.toList), .unreadablePath⟩

end FormScript
