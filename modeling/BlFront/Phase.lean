/-!
# Phases of the analysis

Five phases in a fixed order.  A phase runs only if every earlier one found nothing wrong.
-/

namespace BlFront

inductive Phase where
  | resolveReferences
  | resolveTypes
  | checkInferred
  | checkTypes
  | checkReturns
  deriving DecidableEq, Repr

namespace Phase

def all : List Phase :=
  [.resolveReferences, .resolveTypes, .checkInferred, .checkTypes, .checkReturns]

def name : Phase → String
  | .resolveReferences => "resolve-references"
  | .resolveTypes => "resolve-types"
  | .checkInferred => "check-inferred"
  | .checkTypes => "check-types"
  | .checkReturns => "check-returns"

def ofName? (name : String) : Option Phase := all.find? (·.name == name)

def rank : Phase → Nat
  | .resolveReferences => 0
  | .resolveTypes => 1
  | .checkInferred => 2
  | .checkTypes => 3
  | .checkReturns => 4

def later (p : Phase) : List Phase := all.filter fun q => decide (p.rank < q.rank)

/-- The phases up to this one, itself included. -/
def upTo (p : Phase) : List Phase := all.filter fun q => decide (q.rank ≤ p.rank)

end Phase

end BlFront
