import BlFront.Proofs.Syntax.Reading.Stmt
import BlFront.Proofs.Token.Reports

/-!
# Units that are read

Whatever the tokens are, they make a unit, and no two of its nodes have the same number.  The tokens of
a text stand in order, so the unit of a text is laid out in order too.  A number is only given out behind
a token that was consumed for it, so there are no more numbers than tokens, and bytes.
-/

namespace BlFront

open List

/-- No two nodes of a unit have the same number, and each has a greater one than all that is inside
it. -/
structure CompilationUnit.NumberedUpward (unit : CompilationUnit) : Prop where
  distinct : unit.ids.Nodup
  listed : ∀ n, unit.HasNode n → n ∈ unit.ids
  below : ∀ site ∈ unit.sites, ∀ n, site.1.id? = some n →
    n.index < unit.tag.id.index ∧ ∀ part ∈ site.2, ∀ m, part.id? = some m → n.index < m.index

namespace Parser

theorem Completes.numberedUpward {s s' : State} {u : CompilationUnit} (h : Completes s u s') :
    u.NumberedUpward := by
  have numbered := h.makes.numbered
  have last : u.tag.id.index = s'.nextId := by rw [h.tag]
  refine ⟨?_, fun n node => ?_, fun site mem n node => ?_⟩
  · refine nodup_cons.mpr ⟨fun mem => ?_, numbered.nodup⟩
    have := (numbered.bounds _ mem).2
    omega
  · rcases node.mem_ids with rfl | ⟨part, entered, node⟩
    · exact .head _
    · exact .tail _ (mem_filterMap.mpr ⟨part, entered, node⟩)
  · obtain ⟨here, inner, same, below⟩ := numbered.sunk.lt mem node
    rw [append_nil] at same
    exact ⟨last ▸ (numbered.bounds n here).2, same ▸ below⟩

theorem ofTokens_wellNumbered (tokens : List Token) : (ofTokens tokens).unit.WellNumbered := by
  obtain ⟨s, _, _, completes⟩ := exists_completes tokens
  exact completes.numberedUpward.distinct

theorem ofText_wellNumbered (source : List Char) : (ofText source).unit.WellNumbered :=
  ofTokens_wellNumbered _

/-! ### Tokens of a text -/

section Texts

variable (source : List Char)

/-- The tokens of a text but the last are those that a parse reads, and the last ends the text. -/
theorem scan_splits : ∃ before, (Token.scan source).tokens = before ++ [.eofAt (Text.byteLength source)] ∧
    ∀ t ∈ before, t.kind ≠ .eof ∧ t.span.start < t.span.stop :=
  (Token.scanFrom_tiles (.ofText source) (Cursor.wellPlaced_ofText source)).ends

theorem scan_inOrder : InOrder (State.ofTokens (Token.scan source).tokens).rest := by
  have tiling := Token.scanFrom_tiles (.ofText source) (Cursor.wellPlaced_ofText source)
  refine ⟨fun t mem => ?_, tiling.ordered.sublist (takeWhile_sublist _)⟩
  obtain ⟨before, tokens, proper⟩ := scan_splits source
  have inside := (State.ofTokens_proper (Token.scan source).tokens).rest t mem
  have mem := (takeWhile_sublist _).subset mem
  rw [tokens] at mem
  rcases mem_append.mp mem with mem | mem
  · exact (proper t mem).2
  · rw [mem_singleton.mp mem] at inside
    exact absurd rfl inside

/-- The end of the text is the token that a parse stops at, and it is behind all others. -/
theorem scan_last : State.lastToken (Token.scan source).tokens = .eofAt (Text.byteLength source) ∧
    ∀ t ∈ (State.ofTokens (Token.scan source).tokens).rest, t.span.stop ≤ Text.byteLength source := by
  obtain ⟨before, tokens, proper⟩ := scan_splits source
  constructor
  · have none : before.find? (·.kind == .eof) = none := by
      rw [List.find?_eq_none]
      intro t mem same
      exact (proper t mem).1 (by simpa using same)
    have found : (Token.scan source).tokens.find? (·.kind == .eof) =
        some (.eofAt (Text.byteLength source)) := by
      rw [tokens, List.find?_append, none]
      rfl
    rw [State.lastToken, found]
  · intro t mem
    have inside := (State.ofTokens_proper (Token.scan source).tokens).rest t mem
    have mem := (takeWhile_sublist _).subset mem
    rw [tokens] at mem
    rcases mem_append.mp mem with mem | mem
    · have ordered :=
        (Token.scanFrom_tiles (.ofText source) (Cursor.wellPlaced_ofText source)).ordered
      exact (pairwise_append.mp (tokens ▸ ordered)).2.2 t mem _ (.head _)
    · rw [mem_singleton.mp mem] at inside
      exact absurd rfl inside

theorem scan_subset :
    (State.ofTokens (Token.scan source).tokens).tokens ⊆ (Token.scan source).tokens := by
  obtain ⟨before, tokens, _⟩ := scan_splits source
  have last : State.lastToken (Token.scan source).tokens ∈ (Token.scan source).tokens := by
    rw [(scan_last source).1, tokens]
    simp
  refine cons_subset.mpr ⟨?_, cons_subset.mpr ⟨last, (takeWhile_sublist _).subset⟩⟩
  show (Token.scan source).tokens.head?.getD _ ∈ _
  cases first : (Token.scan source).tokens.head? with
  | none => exact last
  | some t => exact mem_of_mem_head? first

theorem scan_lined : (State.ofTokens (Token.scan source).tokens).Lined where
  order := scan_inOrder source
  proper t mem := ((Token.scan_readable source).1 t (scan_subset source mem)).ordered

theorem ofText_laid : (∃ lo hi, Laid lo hi (ofText source).unit.tour) ∧
    Grounded (State.ofTokens (Token.scan source).tokens).rest (ofText source).unit.tour := by
  obtain ⟨s, _, _, completes⟩ := exists_completes (Token.scan source).tokens
  obtain ⟨hi, laid, _⟩ := completes.makes.placed (scan_lined source)
  exact ⟨⟨_, hi, laid⟩, completes.makes.grounded (scan_lined source)⟩

end Texts

/-- A tour of a parsed unit enters no part that starts before the end of a variable it has left. -/
theorem stop_le_start {source : List Char} {before after : List Visit} {p q : Part}
    (tour : (ofText source).unit.tour = before ++ .enter q :: after) (left : .leave p ∈ before)
    (isVariable : p.isVariable = true) : p.span.stop ≤ q.span.start := by
  obtain ⟨⟨lo, hi, laid⟩, _⟩ := ofText_laid source
  rw [tour] at laid
  exact (pairwise_append.mp laid.pairwise).2.2 _ left _ (.head _) p q rfl isVariable
    rfl

/-! ### Numbers and tokens -/

/-- Tokens that stand in order take at least a byte each. -/
theorem InOrder.length_le {tokens : List Token} (h : InOrder tokens) {lo hi : Nat} (le : lo ≤ hi)
    (behind : ∀ t ∈ tokens, lo ≤ t.span.start) (before : ∀ t ∈ tokens, t.span.stop ≤ hi) :
    lo + tokens.length ≤ hi := by
  induction tokens generalizing lo with
  | nil => exact le
  | cons t rest ih =>
    have := h.proper t (by simp)
    have := behind t (by simp)
    have := ih (h.suffix (suffix_cons t rest)) (before t (by simp))
      (pairwise_cons.mp h.ordered).1 fun u mem => before u (by simp [mem])
    rw [length_cons]
    omega

end Parser

end BlFront
