import WordCalc.Command.Options
import WordCalc.Session

/-!
# The report of the command

The command reads a program, evaluates its lines and reports what came of it.

* A *source* is the bytes of a program, from a file or from the standard input; they must be UTF-8.
  A file is decoded as a whole and then cut into lines. A stream is cut where it has line feeds and
  decoded piece by piece, up to the first piece that is no text.
* A *folder* of named files stands for a file system. A path is followed part by part. What lies
  outside the folder is reached by `..` or a leading slash and holds no files.
* The *report* is what the command prints and which code it ends with. A program that succeeds
  reports its stack and, on demand, its definitions; a fault or a reading failure is reported as an
  error.
-/

namespace WordCalc

/-! ## Sources -/

/-- Why a program cannot be read. -/
inductive ReadError where
  | notFound
  /-- The path leads to a folder. -/
  | isFolder
  /-- The path goes through something that is no folder. -/
  | notFolder
  /-- The bytes are not UTF-8. -/
  | notText
  /-- Another reason, as the system words it. -/
  | other (reason : String)
  deriving DecidableEq

/-- The wording of a reading failure. -/
def ReadError.message : ReadError → String
  | notFound => "No such file or directory (os error 2)"
  | isFolder => "Is a directory (os error 21)"
  | notFolder => "Not a directory (os error 20)"
  | notText => "stream did not contain valid UTF-8"
  | other reason => reason

/-- The text that the bytes encode. -/
def decode (bytes : ByteArray) : Except ReadError String :=
  match String.fromUTF8? bytes with
  | some text => .ok text
  | none => .error .notText

/-- The lines of a file. -/
def linesOfFile (bytes : ByteArray) : Except ReadError (List String) :=
  (decode bytes).map textLines

/-- The lines of a stream; 10 is the line feed. -/
def linesOfStream (bytes : ByteArray) : Except ReadError (List String) :=
  (pieces 10 bytes.toList).mapM fun piece => (decode ⟨piece.toArray⟩).map lineOfPiece

/-! ## Folders -/

/-- A folder of files. -/
structure Folder where
  files : List (String × ByteArray)

/-- Where a path has led so far. -/
inductive Place where
  /-- The folder itself. -/
  | here
  /-- A folder around it. -/
  | outside
  | file (content : ByteArray)

namespace Folder

/-- The place that `part` names as seen from `place`. An empty part names the same folder. -/
def enter (folder : Folder) (place : Place) (part : String) : Except ReadError Place :=
  match place with
  | .file _ => .error .notFolder
  | .outside => if part = "" ∨ part = "." ∨ part = ".." then .ok .outside else .error .notFound
  | .here =>
    if part = "" ∨ part = "." then .ok .here
    else if part = ".." then .ok .outside
    else
      match folder.files.lookup part with
      | some content => .ok (.file content)
      | none => .error .notFound

/-- The content of the file at `path`. -/
def open? (folder : Folder) (path : String) : Except ReadError ByteArray :=
  let start := if path.toList.head? = some '/' then Place.outside else Place.here
  let parts := (path.toList.splitOnP (· = '/')).map String.ofList
  match parts.foldlM folder.enter start with
  | .ok (.file content) => .ok content
  | .ok .here | .ok .outside => .error .isFolder
  | .error e => .error e

end Folder

/-! ## Reports -/

/-- What the command leaves behind. -/
structure Report where
  code : UInt32
  stdout : String
  stderr : String

namespace Report

/-- A failure in words. -/
def failure (message : String) : Report := ⟨1, "", message ++ "\n"⟩

/-- The report on a session that has evaluated its program. -/
def success (o : Options) (s : Session) : Report :=
  ⟨0, s.stack.text ++ "\n" ++ (if o.listDefinitions then s.dictionary.text else ""), ""⟩

/-- The report on a program, given by its lines if they could be read. -/
def ofLines (o : Options) : Except ReadError (List String) → Report
  | .error e => failure ("failed to read input: " ++ e.message)
  | .ok lines =>
    match (Session.fresh o.settings).evalLines lines with
    | ⟨.ok (), s, _⟩ => success o s
    | ⟨.error f, _, _⟩ => failure f.message

/-- The lines of the program that the options name, in a folder and with a standard input. -/
def linesIn (o : Options) (folder : Folder) (stdin : ByteArray) : Except ReadError (List String) :=
  match o.path with
  | none => linesOfStream stdin
  | some path =>
    match folder.open? path with
    | .ok bytes => linesOfFile bytes
    | .error e => .error e

/-- The report of the command in a folder, unless its arguments ask for none. -/
def inFolder (args : List String) (folder : Folder) (stdin : ByteArray) :
    Except UsageError (Option Report) :=
  match Options.read args with
  | .error e => .error e
  | .ok .help => .ok none
  | .ok (.evaluate o) => .ok (some (ofLines o (linesIn o folder stdin)))

end Report

end WordCalc
