import BlFront.Log.Directive

/-!
# Log filters

A filter is a list of directives.  Of those that apply to an event the most specific one
decides whether it is shown.
-/

namespace BlFront.Log

abbrev Filter : Type := List Directive

namespace Filter

/-- Reads directives between commas, up to the first that is none. -/
def parse (text : String) : Except Fault Filter :=
  ((text.splitOn ",").filter (· != "")).mapM fun piece => Directive.parse piece.toList

def warnings : Filter := [{ Directive.blank with threshold := Level.warn.rank }]

/-- The directives that events can be held against.  Those with a word on fields come last. -/
def statics (f : Filter) : List Directive :=
  let known := f.filter (·.isStatic)
  known.filter (·.fields.isEmpty) ++ known.filter fun d => !d.fields.isEmpty

/-- Whether an event is shown.  An empty filter shows errors. -/
def shows (f : Filter) (e : Event) : Bool :=
  if f.isEmpty then e.level == .error
  else match f.statics.filter (·.matchesEvent e) with
    | [] => false
    | d :: ds => decide (e.level.rank ≤ (ds.foldl Directive.moreSpecific d).threshold)

end Filter

end BlFront.Log
