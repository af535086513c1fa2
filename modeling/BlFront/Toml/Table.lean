import BlFront.OrderedMap
import BlFront.Toml.Text

/-!
# Tables

A table maps keys to items.  A table that only lies on the way to another one is implicit
until it gets a header of its own; one that came about through a dotted key is dotted, and
only dotted keys of the same block may add to it.
-/

namespace BlFront.Toml

mutual

inductive Item where
  | string (text : String)
  | integer (value : Int)
  | float
  | boolean (value : Bool)
  | moment
  | array (elements : List Item)
  | inline (table : Table)
  | table (table : Table)
  /-- The tables under one header in double brackets. -/
  | series (tables : List Table)

structure Table where
  entries : List (String × Item)
  isImplicit : Bool
  isDotted : Bool

end

namespace Table

def empty : Table := ⟨[], false, false⟩

def get? (t : Table) (key : String) : Option Item := OrderedMap.get? t.entries key

def insert (t : Table) (key : String) (item : Item) : Table :=
  { t with entries := OrderedMap.insert key item t.entries }

/-- Changes the table at the end of a path; what is missing on the way comes about.  A
dotted path only leads through implicit tables. -/
def alter (dotted : Bool) (change : Table → Option Table) : List String → Table → Option Table
  | [], t => change t
  | key :: path, t =>
    match t.get? key with
    | none => do
        let child ← alter dotted change path ⟨[], true, dotted⟩
        return t.insert key (.table child)
    | some (.table child) =>
      if dotted && !child.isImplicit then none
      else do
        let child ← alter dotted change path child
        return t.insert key (.table child)
    | some (.series tables) => do
        let last ← tables.getLast?
        let last ← alter dotted change path last
        return t.insert key (.series (tables.dropLast ++ [last]))
    | some _ => none

def assign (t : Table) (path : KeyPath) (item : Item) : Option Table :=
  let add := fun (parent : Table) =>
    if parent.isDotted == path.parents.isEmpty || (parent.get? path.key).isSome then none
    else some (parent.insert path.key item)
  t.alter true add path.parents

def assignAll (t : Table) (pairs : List (KeyPath × Item)) : Option Table :=
  pairs.foldlM (fun t pair => t.assign pair.1 pair.2) t

/-- Adds a table with a header of its own.  It may be there already if it is implicit. -/
def define (t : Table) (path : KeyPath) (pairs : List (KeyPath × Item)) : Option Table :=
  let add := fun (parent : Table) => do
    let start ← match parent.get? path.key with
      | none => some empty
      | some (.table child) =>
        if child.isImplicit && !child.isDotted then some { child with isImplicit := false }
        else none
      | some _ => none
    return parent.insert path.key (.table (← start.assignAll pairs))
  t.alter false add path.parents

def extend (t : Table) (path : KeyPath) (pairs : List (KeyPath × Item)) : Option Table :=
  let add := fun (parent : Table) => do
    let tables ← match parent.get? path.key with
      | none => some []
      | some (.series tables) => some tables
      | some _ => none
    return parent.insert path.key (.series (tables ++ [← empty.assignAll pairs]))
  t.alter false add path.parents

end Table

end BlFront.Toml
