import BlFront.Proofs.Token.Tiling

/-!
# Offsets between characters

A text can be cut at the offsets at which one of its characters ends, and between two such offsets a
slice is defined.
-/

namespace BlFront

namespace Text

variable {cs text rest : List Char} {n : Nat}

/-- The offset is where a character of the text ends, or where the text starts. -/
def Cuts (cs : List Char) (offset : Nat) : Prop :=
  ∃ before after, cs = before ++ after ∧ byteLength before = offset

theorem eq_append_of_dropBytes? (h : dropBytes? n cs = some rest) :
    ∃ before, cs = before ++ rest ∧ byteLength before = n := by
  fun_induction dropBytes? n cs with
  | case1 cs =>
    cases h
    exact ⟨[], rfl, rfl⟩
  | case2 => cases h
  | case3 n c cs fits ih =>
    obtain ⟨before, rfl, length⟩ := ih h
    refine ⟨c :: before, rfl, ?_⟩
    rw [byteLength_cons]
    omega
  | case4 => cases h

theorem eq_append_of_takeBytes? (h : takeBytes? n cs = some text) :
    ∃ after, cs = text ++ after ∧ byteLength text = n := by
  fun_induction takeBytes? n cs generalizing text with
  | case1 cs =>
    cases h
    exact ⟨cs, rfl, rfl⟩
  | case2 => cases h
  | case3 n c cs fits ih =>
    obtain ⟨more, taken, rfl⟩ := Option.map_eq_some_iff.mp h
    obtain ⟨after, rfl, length⟩ := ih taken
    refine ⟨after, rfl, ?_⟩
    rw [byteLength_cons]
    omega
  | case4 => cases h

theorem eq_nil_of_byteLength (h : byteLength cs = 0) : cs = [] := by
  cases cs with
  | nil => rfl
  | cons c cs =>
    have := c.utf8Size_pos
    rw [byteLength_cons] at h
    omega

namespace Cuts

variable {start stop : Nat}

theorem zero : Cuts cs 0 := ⟨[], cs, rfl, rfl⟩

theorem behind (before : List Char) (h : Cuts cs n) : Cuts (before ++ cs) (byteLength before + n) := by
  obtain ⟨front, after, rfl, rfl⟩ := h
  exact ⟨before ++ front, after, by simp, by simp⟩

theorem cons (c : Char) (h : Cuts cs n) : Cuts (c :: cs) (c.utf8Size + n) := by
  simpa using h.behind [c]

theorem le (h : Cuts cs n) : n ≤ byteLength cs := by
  obtain ⟨before, after, rfl, rfl⟩ := h
  rw [byteLength_append]
  omega

/-- Between two offsets of which each is one of a character there is a slice. -/
theorem slice (h : Cuts cs start) (h' : Cuts cs stop) (ordered : start ≤ stop) :
    ∃ text, slice? start stop cs = some text := by
  obtain ⟨before, after, rfl, rfl⟩ := h
  obtain ⟨upTo, behind, same, rfl⟩ := h'
  rcases List.append_eq_append_iff.mp same with ⟨between, rfl, rfl⟩ | ⟨between, rfl, rfl⟩
  · rw [byteLength_append]
    exact ⟨between, slice?_append ..⟩
  · rw [byteLength_append] at ordered ⊢
    obtain rfl : between = [] := eq_nil_of_byteLength (by omega)
    exact ⟨[], by simpa using slice?_append upTo [] after⟩

end Cuts

theorem cuts_of_slice? {start stop : Nat} (h : slice? start stop cs = some text) :
    Cuts cs start ∧ Cuts cs stop ∧ start ≤ stop := by
  unfold slice? at h
  split at h
  · next ordered =>
      obtain ⟨rest, dropped, taken⟩ := Option.bind_eq_some_iff.mp h
      obtain ⟨before, rfl, first⟩ := eq_append_of_dropBytes? dropped
      obtain ⟨after, rfl, length⟩ := eq_append_of_takeBytes? taken
      refine ⟨⟨before, text ++ after, rfl, first⟩, ⟨before ++ text, after, by simp, ?_⟩, ordered⟩
      rw [byteLength_append]
      omega
  · cases h

end Text

/-- The span is a piece of the text, which starts and ends between characters. -/
structure Span.Readable (source : List Char) (span : Span) : Prop where
  ordered : span.start ≤ span.stop
  inside : span.stop ≤ Text.byteLength source
  cut : ∃ text, Text.slice? span.start span.stop source = some text

variable {source : List Char} {span : Span}

theorem Span.readable_of_cuts (start : Text.Cuts source span.start)
    (stop : Text.Cuts source span.stop) (ordered : span.start ≤ span.stop) : span.Readable source :=
  ⟨ordered, stop.le, start.slice stop ordered⟩

theorem Span.Readable.cuts (h : span.Readable source) :
    Text.Cuts source span.start ∧ Text.Cuts source span.stop := by
  obtain ⟨text, cut⟩ := h.cut
  obtain ⟨start, stop, _⟩ := Text.cuts_of_slice? cut
  exact ⟨start, stop⟩

/-- All places that a diagnostic points at. -/
def Diagnostic.spans (d : Diagnostic) : List Span := d.span.toList ++ d.related.map (·.span)

theorem Diagnostic.spans_errorAt (message : String) (span : Span) :
    (errorAt message span).spans = [span] := rfl

end BlFront
