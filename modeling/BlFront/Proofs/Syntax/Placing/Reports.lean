import BlFront.Proofs.Syntax.Placing.Nesting
import BlFront.Proofs.Syntax.Reading.Unit

/-!
# What a parse points at

A report of a parse points at a token, behind a token, or at a statement that was read.  So its places
start and end where tokens do, and can be cut from the text.  The same holds of the nodes of the unit,
whether it was read without errors or not.
-/

namespace BlFront

/-! ### Ends of tokens -/

section Spans

variable {source : List Char} {tokens : List Token} {span : Span}

theorem Span.Bounded.merge {a b : Span} (h : a.Bounded tokens) (h' : b.Bounded tokens) :
    (a.merge b).Bounded tokens := by
  refine ⟨?_, ?_⟩
  · rw [Span.merge_start]
    rcases Nat.le_total a.start b.start with le | le
    · rw [Nat.min_eq_left le]
      exact h.start
    · rw [Nat.min_eq_right le]
      exact h'.start
  · rw [Span.merge_stop]
    rcases Nat.le_total a.stop b.stop with le | le
    · rw [Nat.max_eq_right le]
      exact h'.stop
    · rw [Nat.max_eq_left le]
      exact h.stop

/-- What starts and ends where tokens do is a piece of the text if the tokens are. -/
theorem Span.Edged.readable (h : span.Edged tokens) (cut : ∀ t ∈ tokens, t.span.Readable source) :
    span.Readable source := by
  have edge : ∀ {offset}, (∃ t ∈ tokens, offset = t.span.start ∨ offset = t.span.stop) →
      Text.Cuts source offset := by
    rintro offset ⟨t, mem, rfl | rfl⟩
    · exact (cut t mem).cuts.1
    · exact (cut t mem).cuts.2
  exact Span.readable_of_cuts (edge h.start) (edge h.stop) h.ordered

end Spans

namespace Parser

/-! ### Units -/

/-- The unit reaches from the first token to the end of the text, or to a token that was not read. -/
theorem Completes.nests {s s' : State} {u : CompilationUnit} (h : Completes s u s') (lined : s.Lined)
    (behind : ∀ t ∈ s.rest, t.span.stop ≤ s.last.span.start) :
    u.tag.span.Bounded s.tokens ∧ u.tag.span.start ≤ u.tag.span.stop ∧
      u.tag.span.Encloses (u.statements.map Stmt.span) := by
  obtain ⟨hi, laid, next, _⟩ := h.makes.placed lined
  have onward := h.makes.onward
  have same : u.tag.span = s.current.span.merge s'.current.span := by rw [h.tag]
  refine ⟨?_, ?_, ?_, ?_⟩
  · rw [same]
    exact (Span.bounded_of_mem s.current_mem).merge
      (Span.bounded_of_mem (onward.tokens_subset s'.current_mem))
  · have := lined.proper _ s.current_mem
    rw [same, Span.merge_start, Span.merge_stop]
    omega
  · intro span mem
    obtain ⟨x, listed, rfl⟩ := List.mem_map.mp mem
    have has : u.HasStmt ⟨none, none⟩ x := .top listed
    have bounded := (u.tells_of_entered has.entered).bounded (h.makes.grounded lined)
    have inside := laid.within _ (CompilationUnit.mem_entered.mp has.entered)
    rw [x.span_part] at bounded
    have inside : s.current.span.start ≤ x.span.start ∧ x.span.stop ≤ hi := x.span_part ▸ inside
    rw [same, Span.merge_start, Span.merge_stop]
    refine ⟨by omega, ?_⟩
    -- the first token that was not read is behind all statements, or else the end of the text is
    have last : x.span.stop ≤ s'.current.span.stop := by
      cases rest : s'.rest with
      | nil =>
        have atEnd : s'.current = s.last := by rw [State.current, rest, ← onward.last]; rfl
        obtain ⟨t, mem, stop⟩ := bounded.stop
        have := behind t mem
        have := lined.proper s.last (by simp [State.tokens])
        rw [atEnd]
        omega
      | cons t more =>
        have first : s'.current = t := by simp [State.current, rest]
        have mem : t ∈ s'.rest := by simp [rest]
        have := next t mem
        have := (onward.lined lined).order.proper t mem
        rw [first]
        omega
    omega
  · rw [u.tour_eq] at laid
    have row := laid.row_stmts.1
    simp only [Stmt.span_part] at row
    exact row.ordered

/-! ### Texts -/

section Texts

variable (source : List Char)

/-- The unit itself encloses its statements, and all reports point at ends of tokens. -/
theorem ofTokens_scan :
    ((ofText source).unit.tag.span.Bounded (Token.scan source).tokens ∧
      (ofText source).unit.tag.span.start ≤ (ofText source).unit.tag.span.stop ∧
      (ofText source).unit.tag.span.Encloses ((ofText source).unit.statements.map Stmt.span)) ∧
    ∀ d ∈ (ofTokens (Token.scan source).tokens).diagnostics, ∀ span ∈ d.spans,
      span.Edged (Token.scan source).tokens := by
  obtain ⟨s, _, diagnostics, completes⟩ := exists_completes (Token.scan source).tokens
  have lined := scan_lined source
  obtain ⟨last, behind⟩ := scan_last source
  have ends : (State.ofTokens (Token.scan source).tokens).last.span.start = Text.byteLength source := by
    show (State.lastToken _).span.start = _
    rw [last]
    rfl
  obtain ⟨bounded, nests⟩ := completes.nests lined (by rwa [ends])
  refine ⟨⟨bounded.mono (scan_subset source), nests⟩, fun d mem span told => ?_⟩
  obtain ⟨more, same, reports⟩ := completes.makes.onward.diagnostics
  rw [diagnostics, same] at mem
  exact ((reports d mem).edged lined span told).mono (scan_subset source)

/-- The places of a unit, nodes and names of superclasses alike, start and end where tokens do. -/
theorem ofText_tells {span : Span} (told : (ofText source).unit.Tells span) :
    span.Bounded (Token.scan source).tokens ∧ span.start ≤ span.stop := by
  obtain ⟨⟨lo, hi, laid⟩, grounded⟩ := ofText_laid source
  exact ⟨told.bounded (grounded.mono (List.takeWhile_sublist _).subset), told.ordered laid⟩

/-- A node starts and ends where tokens do and encloses the nodes right inside it. -/
theorem ofText_nodes {span : Span} {children : List Span}
    (node : (ofText source).unit.NodeAt span children) :
    span.Bounded (Token.scan source).tokens ∧ span.start ≤ span.stop ∧ span.Encloses children := by
  obtain ⟨⟨bounded, ordered, encloses⟩, _⟩ := ofTokens_scan source
  obtain ⟨⟨lo, hi, laid⟩, _⟩ := ofText_laid source
  have nests := node.nests laid encloses
  rcases node.tells with rfl | told
  · exact ⟨bounded, ordered, nests⟩
  · obtain ⟨bounded, ordered⟩ := ofText_tells source told
    exact ⟨bounded, ordered, nests⟩

/-- All that is reported on a text points at pieces of it. -/
theorem ofText_diagnostics {d : Diagnostic} (mem : d ∈ (ofText source).diagnostics) :
    ∀ span ∈ d.spans, span.Readable source := by
  obtain ⟨tokens, scanned⟩ := Token.scan_readable source
  intro span told
  rcases List.mem_append.mp mem with mem | mem
  · exact scanned d mem span told
  · obtain ⟨_, reports⟩ := ofTokens_scan source
    exact (reports d mem span told).readable tokens

end Texts

end Parser

end BlFront
