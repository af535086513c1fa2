/-!
# File trees

The files that a run can see, by their paths from the root.  A path is walked segment by
segment, so `..` leads to the directory above the one reached so far.
-/

namespace BlFront

inductive FileFault where
  | missing
  | notDirectory
  | isDirectory
  | notText
  | nameTooLong
  deriving DecidableEq, Repr

namespace FileFault

def message : FileFault → String
  | .missing => "No such file or directory (os error 2)"
  | .notDirectory => "Not a directory (os error 20)"
  | .isDirectory => "Is a directory (os error 21)"
  | .notText => "stream did not contain valid UTF-8"
  | .nameTooLong => "File name too long (os error 36)"

end FileFault

abbrev Path : Type := List String

namespace Path

/-- An empty segment and a dot lead nowhere. -/
def isIdle (segment : String) : Bool := segment == "" || segment == "."

def trimEnd (path : Path) : Path := (path.reverse.dropWhile isIdle).reverse

/-- The path without its last segment that leads somewhere. -/
def parent? (path : Path) : Option Path :=
  match trimEnd path with
  | [] => none
  | p => some (trimEnd p.dropLast)

/-- A reversed path and all that are left when segments are taken off, longest first. -/
def ascend : Path → List Path
  | [] => [[]]
  | segment :: up => (segment :: up) :: ascend up

def ancestors (path : Path) : List Path :=
  ((ascend path.reverse).filter fun p => !(p.head?.any isIdle)).map List.reverse

/-- The number of bytes of a path from the root, with a slash before each segment. -/
def byteLength (path : Path) : Nat := path.foldl (fun n segment => n + 1 + segment.utf8ByteSize) 0

def text (path : Path) : String := "/".intercalate (path.dropWhile isIdle)

end Path

inductive Place where
  | file (path : Path) (content : ByteArray)
  | directory (path : Path)

structure FileTree where
  files : List (Path × ByteArray)
  directories : List Path
  /-- The directory at which relative paths start. -/
  current : Path

namespace FileTree

def hasDirectory (t : FileTree) (path : Path) : Bool :=
  path.isEmpty || (t.files.map (·.1.dropLast) ++ t.current :: t.directories).any path.isPrefixOf

def place? (t : FileTree) (path : Path) : Option Place :=
  match t.files.lookup path with
  | some content => some (.file path content)
  | none => if t.hasDirectory path then some (.directory path) else none

def segmentLimit : Nat := 255

/-- One segment further.  Above the root is the root. -/
def step (t : FileTree) (segment : String) : Place → Except FileFault Place
  | .file _ _ => .error .notDirectory
  | .directory path =>
    if Path.isIdle segment then .ok (.directory path)
    else if segment == ".." then .ok (.directory path.dropLast)
    else if segmentLimit < segment.utf8ByteSize then .error .nameTooLong
    else match t.place? (path ++ [segment]) with
      | some place => .ok place
      | none => .error .missing

def walk (t : FileTree) (path : Path) : Except FileFault Place :=
  path.foldlM (fun place segment => t.step segment place) (.directory [])

def pathLimit : Nat := 4095

/-- Whether a path leads to a file.  A path that is too long leads nowhere. -/
def isFile (t : FileTree) (path : Path) : Bool :=
  match t.walk path with
  | .ok (.file _ _) => decide (path.byteLength ≤ pathLimit)
  | _ => false

def absolute (t : FileTree) (text : String) : Path :=
  if "/".isPrefixOf text then text.splitOn "/" else t.current ++ text.splitOn "/"

/-- The file at a path: where it lies, and its content if that is text. -/
def read (t : FileTree) (path : Path) : Except FileFault (Path × String) := do
  match ← t.walk path with
  | .directory _ => .error .isDirectory
  | .file place content =>
    match String.fromUTF8? content with
    | some text => .ok (place, text)
    | none => .error .notText

def readText (t : FileTree) (text : String) : Except FileFault (Path × String) :=
  if pathLimit < text.utf8ByteSize then .error .nameTooLong else t.read (t.absolute text)

end FileTree

end BlFront
