import BlFront.Proofs.Text.Cuts

/-!
# Where a scan complains

A complaint about a piece is about a front part of its text, and a comment without an end is reported
from where it starts to the end of the text.  So the spans of a scan's diagnostics are pieces of the
text, as the spans of its tokens are.
-/

namespace BlFront

open List

variable {cs : List Char} {p : Problem}

namespace Token

open Text

/-- The comment that a gap leaves open starts in the gap, unless the gap starts in it. -/
theorem gap_unclosed {mode : GapMode} {offset start : Nat}
    (h : (gap mode offset cs).unclosed = some start) :
    (gap mode offset cs).rest = [] ∧
      (mode = .block start ∨ ∃ n, start = offset + n ∧ Cuts cs n) := by
  fun_induction gap mode offset cs with
  | case1 => cases h
  | case2 offset cs ih =>
    obtain ⟨last, same | ⟨n, rfl, cuts⟩⟩ := ih h
    · cases same
    · exact ⟨last, .inr ⟨2 + n, Nat.add_assoc .., cuts.behind ['/', '/']⟩⟩
  | case3 offset cs ih =>
    obtain ⟨last, same | ⟨n, rfl, cuts⟩⟩ := ih h
    · cases same
      exact ⟨last, .inr ⟨0, rfl, .zero⟩⟩
    · exact ⟨last, .inr ⟨2 + n, Nat.add_assoc .., cuts.behind ['/', '*']⟩⟩
  | case4 offset c cs _ _ blank ih =>
    obtain ⟨last, same | ⟨n, rfl, cuts⟩⟩ := ih h
    · cases same
    · exact ⟨last, .inr ⟨c.utf8Size + n, Nat.add_assoc .., cuts.cons c⟩⟩
  | case5 => cases h
  | case6 => cases h
  | case7 offset c cs ih =>
    obtain ⟨last, same | ⟨n, rfl, cuts⟩⟩ := ih h
    · split at same <;> cases same
    · exact ⟨last, .inr ⟨c.utf8Size + n, Nat.add_assoc .., cuts.cons c⟩⟩
  | case8 =>
    cases h
    exact ⟨rfl, .inl rfl⟩
  | case9 start' offset cs ih =>
    obtain ⟨last, same | ⟨n, rfl, cuts⟩⟩ := ih h
    · cases same
    · exact ⟨last, .inr ⟨2 + n, Nat.add_assoc .., cuts.behind ['*', '/']⟩⟩
  | case10 start' offset c cs _ ih =>
    obtain ⟨last, same | ⟨n, rfl, cuts⟩⟩ := ih h
    · exact ⟨last, .inl same⟩
    · exact ⟨last, .inr ⟨c.utf8Size + n, Nat.add_assoc .., cuts.cons c⟩⟩

/-- A complaint about the rest of a string literal ends behind one of its characters. -/
theorem stringTail_problems {length : Nat} (mem : p ∈ (stringTail length cs).problems) :
    ∃ n, p.length = length + n ∧ Cuts cs n := by
  fun_induction stringTail length cs with
  | case1 length =>
    cases mem_singleton.mp mem
    exact ⟨0, rfl, .zero⟩
  | case2 length =>
    cases mem_singleton.mp mem
    exact ⟨1, rfl, Cuts.zero.cons '\\'⟩
  | case3 length c cs read x known ih =>
    obtain ⟨n, same, cuts⟩ := ih mem
    refine ⟨1 + (c.utf8Size + n), ?_, (cuts.cons c).cons '\\'⟩
    omega
  | case4 length c cs read unknown ih =>
    rcases mem_cons.mp mem with rfl | mem
    · refine ⟨1 + c.utf8Size, ?_, (Cuts.zero.cons c).cons '\\'⟩
      show read = _
      omega
    · obtain ⟨n, same, cuts⟩ := ih mem
      refine ⟨1 + (c.utf8Size + n), ?_, (cuts.cons c).cons '\\'⟩
      omega
  | case5 => cases mem
  | case6 length cs =>
    cases mem_singleton.mp mem
    exact ⟨1, rfl, Cuts.zero.cons '\n'⟩
  | case7 length c cs _ _ _ _ ih =>
    obtain ⟨n, same, cuts⟩ := ih mem
    exact ⟨c.utf8Size + n, by omega, cuts.cons c⟩

theorem other_problems {c : Char} (mem : p ∈ (other c cs).problems) : Cuts (c :: cs) p.length := by
  unfold other at mem
  split at mem
  · next quote =>
      obtain ⟨n, length, cuts⟩ := stringTail_problems mem
      rw [length, quote]
      exact cuts.cons '"'
  · split at mem
    · simp only [number] at mem
      split at mem
      · split at mem <;> cases mem
      · cases mem
    · split at mem
      · cases mem
      · cases mem_singleton.mp mem
        exact Cuts.zero.cons c

/-- A complaint about a piece is about a front part of it. -/
theorem piece_problems {c : Char} (mem : p ∈ (piece c cs).problems) : Cuts (c :: cs) p.length := by
  have one : ∀ cs, p ∈ (oneOrMore c cs).problems → Cuts (c :: cs) p.length := by
    intro cs mem
    unfold oneOrMore at mem
    split at mem
    · cases mem
    · cases mem_singleton.mp mem
      exact Cuts.zero.cons c
    · exact other_problems mem
  cases cs with
  | nil => exact one [] mem
  | cons d ds =>
    unfold piece at mem
    simp only at mem
    split at mem
    · cases mem
    · exact one (d :: ds) mem

section Scans

variable {cursor : Cursor}

/-- An open comment reaches from a character of the gap up to the end of the text. -/
theorem unclosedComment_readable (placed : cursor.WellPlaced) {g : Gap}
    (skipped : gap .plain cursor.offset cursor.rest = g) {d : Diagnostic}
    (mem : d ∈ unclosedComment g.unclosed (cursor.offset + byteLength g.text)) :
    ∀ span ∈ d.spans, span.Readable cursor.source := by
  obtain ⟨read, source, offset⟩ := placed
  obtain ⟨start, found, rfl⟩ := mem_map.mp mem
  have unclosed : g.unclosed = some start := by simpa using found
  subst skipped
  obtain ⟨last, same | ⟨n, rfl, cuts⟩⟩ := gap_unclosed unclosed
  · cases same
  have whole := gap_append .plain cursor.offset cursor.rest
  rw [last, append_nil] at whole
  rw [whole, source, offset, Diagnostic.spans_errorAt]
  rintro span here
  rw [mem_singleton] at here
  subst here
  refine Span.readable_of_cuts (cuts.behind read) ⟨_, [], (append_nil _).symm, by simp⟩ ?_
  exact Nat.add_le_add_left cuts.le _

/-- Every place that a scan points at is a piece of the text. -/
theorem scanFrom_readable (cursor : Cursor) (placed : cursor.WellPlaced) :
    ∀ d ∈ (scanFrom cursor).diagnostics, ∀ span ∈ d.spans, span.Readable cursor.source := by
  fun_induction scanFrom cursor with
  | case1 cursor skipped before unclosed last =>
    intro d mem
    exact unclosedComment_readable placed rfl mem
  | case2 cursor skipped before unclosed c cs found cut behind token problems later ih =>
    have comments := fun d mem => unclosedComment_readable (d := d) placed rfl mem
    obtain ⟨read, source, offset⟩ := placed
    have split : skipped.text ++ skipped.rest = cursor.rest := gap_append _ _ _
    have pieces : cut.text ++ cut.rest = c :: cs := piece_append c cs
    rw [found] at split
    have start : before.offset = byteLength (read ++ skipped.text) := by
      simp [before, Cursor.past, offset]
    have whole : cursor.source = (read ++ skipped.text) ++ c :: cs := by
      rw [source, ← split, append_assoc]
    have onward := ih ⟨read ++ skipped.text ++ cut.text, by
      simp [behind, before, Cursor.past, whole, ← pieces], by
      simp [behind, Cursor.past, start, Nat.add_assoc]⟩
    intro d mem
    rcases mem_append.mp mem with mem | mem
    · rcases mem_append.mp mem with mem | mem
      · exact comments d mem
      · obtain ⟨p, complaint, rfl⟩ := mem_map.mp mem
        intro span here
        rw [Diagnostic.spans_errorAt, mem_singleton] at here
        subst here
        rw [start, whole]
        exact Span.readable_of_cuts (Cuts.zero.behind _) ((piece_problems complaint).behind _)
          (Nat.le_add_right _ _)
    · exact onward d mem

end Scans

/-- The tokens of a scan, and the places that it points at, are pieces of the text. -/
theorem scan_readable (source : List Char) :
    (∀ t ∈ (scan source).tokens, t.span.Readable source) ∧
      ∀ d ∈ (scan source).diagnostics, ∀ span ∈ d.spans, span.Readable source := by
  refine ⟨fun t mem => ?_, scanFrom_readable (.ofText source) (Cursor.wellPlaced_ofText source)⟩
  have tiling := scanFrom_tiles (.ofText source) (Cursor.wellPlaced_ofText source)
  obtain ⟨text, stands⟩ := tiling.stands t mem
  obtain ⟨start, stop, ordered⟩ := cuts_of_slice? stands.cut
  exact Span.readable_of_cuts start stop ordered

end Token

end BlFront
