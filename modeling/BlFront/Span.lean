/-!
# Source ranges

A span is a half-open range of byte offsets into one source text.  Spans carry no
file: the text they point into is known to whoever prints them.
-/

namespace BlFront

/-- The bytes from `start` up to, not including, `stop`. -/
structure Span where
  start : Nat
  stop : Nat
  deriving DecidableEq, Repr, Inhabited

namespace Span

/-- The span of nodes that stand nowhere in a source text. -/
def dummy : Span := ⟨0, 0⟩

def between? (start stop : Nat) : Option Span := if start ≤ stop then some ⟨start, stop⟩ else none

def point (offset : Nat) : Span := ⟨offset, offset⟩

def merge (a b : Span) : Span := ⟨min a.start b.start, max a.stop b.stop⟩

def length (s : Span) : Nat := s.stop - s.start

def isEmpty (s : Span) : Bool := s.start == s.stop

instance : ToString Span where
  toString s := s!"{s.start}..{s.stop}"

@[simp] theorem merge_start (a b : Span) : (a.merge b).start = min a.start b.start := rfl

@[simp] theorem merge_stop (a b : Span) : (a.merge b).stop = max a.stop b.stop := rfl

end Span

end BlFront
