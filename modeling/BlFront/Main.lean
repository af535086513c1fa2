import BlFront.Command.Basic

/-!
# The program

Collects the files that a run can ask for, and hands the run's texts to the outside.
-/

namespace BlFront.Main

/-- A path without idle segments and without steps up, as far as its text shows them. -/
def settle (path : Path) : Path :=
  (path.foldl (fun up segment =>
    if Path.isIdle segment then up
    else if segment == ".." then up.drop 1
    else segment :: up) []).reverse

def pathText (path : Path) : String := "/" ++ "/".intercalate path

def addFile (tree : FileTree) (path : Path) : IO FileTree := do
  match ← (IO.FS.readBinFile (pathText path)).toBaseIO with
  | .ok content => return { tree with files := (path, content) :: tree.files }
  | .error _ => return tree

def isDirectory (path : Path) : IO Bool := do
  match ← (IO.FS.realPath (pathText path)).toBaseIO with
  | .ok place => place.isDir
  | .error _ => return false

def addDirectory (tree : FileTree) (path : Path) : IO FileTree := do
  if ← isDirectory path then return { tree with directories := path :: tree.directories }
  return tree

/-- The input, the manifests above it, and the directories on the way to it. -/
def collect (words : List String) : IO FileTree := do
  let current := settle ((← IO.currentDir).toString.splitOn "/")
  let start : FileTree := ⟨[], [], current⟩
  match Command.Request.ofWords words with
  | .ok (.run _ input) =>
    let path := settle (start.absolute input)
    let manifests := (Path.ancestors path.dropLast).map (· ++ [Manifest.fileName])
    let tree ← (path :: manifests).foldlM addFile start
    (Path.ancestors path).foldlM addDirectory tree
  | _ => return start

end BlFront.Main

def main (words : List String) : IO UInt32 := do
  let outcome := BlFront.Command.run (← BlFront.Main.collect words) words
  (← IO.getStdout).putStr outcome.stdout
  (← IO.getStderr).putStr outcome.stderr
  return outcome.exitCode.toUInt32
