/-!
# Trees as text

A tree is written with one entry a line, four blanks for each level, and a comma behind
every entry.
-/

namespace BlFront.Output

inductive Tree where
  | leaf (text : String)
  | list (items : List Tree)
  | tuple (name : String) (items : List Tree)
  | record (name : String) (entries : List (String × Tree))

namespace Tree

def indent (depth : Nat) : String := String.ofList (List.replicate (4 * depth) ' ')

/-- Entries on lines of their own between brackets; without entries nothing is between. -/
def bracket (opening closing : String) (depth : Nat) (entries : List String) : String :=
  if entries.isEmpty then opening ++ closing
  else opening ++ "\n" ++ String.join (entries.map fun e => indent (depth + 1) ++ e ++ ",\n")
    ++ indent depth ++ closing

mutual

def render (depth : Nat) : Tree → String
  | .leaf text => text
  | .list items => bracket "[" "]" depth (renderAll (depth + 1) items)
  | .tuple name items => bracket (name ++ "(") ")" depth (renderAll (depth + 1) items)
  | .record name entries =>
    bracket (name ++ " \x7b") "\x7d" depth (renderEntries (depth + 1) entries)

def renderAll (depth : Nat) : List Tree → List String
  | [] => []
  | t :: ts => render depth t :: renderAll depth ts

def renderEntries (depth : Nat) : List (String × Tree) → List String
  | [] => []
  | (name, t) :: entries => (name ++ ": " ++ render depth t) :: renderEntries depth entries

end

def text (t : Tree) : String := t.render 0

def option : Option Tree → Tree
  | none => .leaf "None"
  | some t => .tuple "Some" [t]

end Tree

end BlFront.Output
