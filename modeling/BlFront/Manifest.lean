import BlFront.FileTree
import BlFront.LineMap
import BlFront.Phase
import BlFront.Text.Blank
import BlFront.Toml.Document

/-!
# Manifests

A manifest names a project and sets how its files are analysed.  Keys that it does not know
are skipped; a known key with a value of another kind makes the whole text malformed.
-/

namespace BlFront

structure Manifest where
  name : String
  entry : Option String
  /-- The last phase that runs, if not all of them do. -/
  stopAfter : Option Phase
  tabSize : UInt32
  filter : String
  rootDir : String
  deriving Repr

inductive ManifestError where
  | notFound (directory : String)
  | unreadable (cause : String)
  | malformed
  | zeroTabSize
  | emptyName
  deriving DecidableEq, Repr

namespace ManifestError

def message : ManifestError → String
  | .notFound directory => "no Blc.toml found (searched from " ++ directory ++ ")"
  | .unreadable cause => "failed to read Blc.toml: " ++ cause
  | .malformed => "invalid Blc.toml: not a manifest"
  | .zeroTabSize => "invalid Blc.toml: [analysis] tab_size must be at least 1"
  | .emptyName => "invalid Blc.toml: [project] name must not be empty"

end ManifestError

namespace Manifest

def fileName : String := "Blc.toml"

def defaultFilter : String := "warn"

/-! ### Records -/

/-- The fields of a record, by name or in the order of their declaration. -/
inductive Fields where
  | named (entries : List (String × Toml.Item))
  | listed (elements : List Toml.Item)

namespace Fields

/-- A point in time has fields of its own, which no record here knows. -/
def ofItem? : Toml.Item → Option Fields
  | .table t | .inline t => some (.named t.entries)
  | .array elements => some (.listed elements)
  | .series tables => some (.listed (tables.map .table))
  | .moment => some (.named [])
  | _ => none

def get? (fields : Fields) (name : String) (place : Nat) : Option Toml.Item :=
  match fields with
  | .named entries => OrderedMap.get? entries name
  | .listed elements => elements[place]?

/-- A field with a value of the right kind, or what stands for a missing one. -/
def read? (fields : Fields) (name : String) (place : Nat) (ofItem? : Toml.Item → Option α)
    (absent : Option α) : Option α :=
  match fields.get? name place with
  | some item => ofItem? item
  | none => absent

end Fields

/-! ### Values -/

def text? : Toml.Item → Option String
  | .string text => some text
  | _ => none

def word? : Toml.Item → Option UInt32
  | .integer i => if 0 ≤ i ∧ i ≤ 0xFFFFFFFF then some (UInt32.ofNat i.toNat) else none
  | _ => none

def isEmptyGroup : Toml.Item → Bool
  | .table t | .inline t => t.entries.isEmpty
  | .array elements => elements.isEmpty
  | .series tables => tables.isEmpty
  | _ => false

/-- A phase is its name, or the only key of a table, with nothing in it. -/
def phase? : Toml.Item → Option Phase
  | .string name => Phase.ofName? name
  | .table t | .inline t =>
    match t.entries with
    | [(name, item)] => if isEmptyGroup item then Phase.ofName? name else none
    | _ => none
  | _ => none

/-! ### Sections -/

def project? (item : Toml.Item) : Option (String × Option String) := do
  let fields ← Fields.ofItem? item
  let name ← fields.read? "name" 0 text? none
  let entry ← fields.read? "entry" 1 (fun i => (text? i).map some) (some none)
  return (name, entry)

def analysis? (item : Toml.Item) : Option (Option Phase × UInt32) := do
  let fields ← Fields.ofItem? item
  let stopAfter ← fields.read? "stop_after" 0 (fun i => (phase? i).map some) (some none)
  let tabSize ← fields.read? "tab_size" 1 word? (some LineMap.defaultTabSize)
  return (stopAfter, tabSize)

def log? (item : Toml.Item) : Option String := do
  let fields ← Fields.ofItem? item
  fields.read? "filter" 0 text? (some defaultFilter)

/-- The manifest that a table describes, before its values are checked. -/
def ofTable? (t : Toml.Table) (rootDir : String) : Option Manifest := do
  let fields := Fields.named t.entries
  let (name, entry) ← fields.read? "project" 0 project? none
  let (stopAfter, tabSize) ←
    fields.read? "analysis" 1 analysis? (some (none, LineMap.defaultTabSize))
  let filter ← fields.read? "log" 2 log? (some defaultFilter)
  return { name, entry, stopAfter, tabSize, filter, rootDir }

/-- A manifest whose name is not blank and whose tabs have a width. -/
def check (m : Manifest) : Except ManifestError Manifest :=
  if (Text.trim m.name.toList).isEmpty then .error .emptyName
  else if m.tabSize = 0 then .error .zeroTabSize
  else .ok m

def parse (content rootDir : String) : Except ManifestError Manifest :=
  match Toml.Table.ofText? content.toList >>= (ofTable? · rootDir) with
  | some m => m.check
  | none => .error .malformed

/-! ### Files -/

def locate? (files : FileTree) (directory : Path) : Option Path :=
  (directory.ancestors.map (· ++ [fileName])).find? files.isFile

def load (files : FileTree) (path : Path) : Except ManifestError Manifest :=
  match files.read path with
  | .ok (_, content) => parse content (Path.text (path.parent?.getD []))
  | .error fault => .error (.unreadable fault.message)

def loadFor (files : FileTree) (source : Path) : Except ManifestError Manifest :=
  let directory := source.parent?.getD []
  match locate? files directory with
  | some path => load files path
  | none => .error (.notFound (Path.text directory))

theorem tabSize_ne_zero_of_check {m m' : Manifest} (h : m.check = .ok m') : m'.tabSize ≠ 0 := by
  unfold check at h
  split at h
  · simp at h
  · split at h
    · simp at h
    · simp only [Except.ok.injEq] at h
      exact h ▸ ‹_›

end Manifest

end BlFront
