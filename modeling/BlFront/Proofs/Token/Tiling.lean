import BlFront.Proofs.Token.Lexemes
import Mathlib.Data.List.Infix

/-!
# Tokens tile the text

The tokens of a text stand in order in it, and between them stands nothing but white space and
comments.
-/

namespace BlFront

open List

namespace Text

/-- A text that starts with a character has this character's bytes and those of the rest. -/
theorem byteLength_cons_eq_succ (c : Char) (cs : List Char) : ∃ n, byteLength (c :: cs) = n + 1 ∧
    c.utf8Size ≤ n + 1 ∧ n + 1 - c.utf8Size = byteLength cs := by
  have := c.utf8Size_pos
  refine ⟨c.utf8Size + byteLength cs - 1, ?_, ?_, ?_⟩
  · rw [byteLength_cons]
    omega
  · omega
  · omega

theorem dropBytes?_append (a b : List Char) : dropBytes? (byteLength a) (a ++ b) = some b := by
  induction a with
  | nil => simp [dropBytes?]
  | cons c a ih =>
    obtain ⟨n, length, fits, left⟩ := byteLength_cons_eq_succ c a
    rw [length, cons_append, dropBytes?, if_pos fits, left, ih]

theorem takeBytes?_append (a b : List Char) : takeBytes? (byteLength a) (a ++ b) = some a := by
  induction a with
  | nil => simp [takeBytes?]
  | cons c a ih =>
    obtain ⟨n, length, fits, left⟩ := byteLength_cons_eq_succ c a
    rw [length, cons_append, takeBytes?, if_pos fits, left, ih, Option.map_some]

theorem slice?_append (a b c : List Char) :
    slice? (byteLength a) (byteLength a + byteLength b) (a ++ (b ++ c)) = some b := by
  rw [slice?, if_pos (Nat.le_add_right _ _), dropBytes?_append, Option.bind_some,
    Nat.add_sub_cancel_left, takeBytes?_append]

end Text

namespace Token

open Text

/-! ### Gaps -/

/-- White space and comments in front of the text `after`.  All comments are closed, or the last one
reaches the end of the text. -/
inductive Filler (after : List Char) : Bool → List Char → Prop
  | nil : Filler after true []
  | blank {closed : Bool} {c : Char} {cs : List Char} (blank : isBlank c = true)
      (more : Filler after closed cs) : Filler after closed (c :: cs)
  | line {closed : Bool} {body cs : List Char} (inside : '\n' ∉ body)
      (ends : ∀ c, (cs ++ after).head? = some c → c = '\n') (more : Filler after closed cs) :
      Filler after closed ('/' :: '/' :: (body ++ cs))
  | block {closed : Bool} {body cs : List Char} (inside : ¬['*', '/'] <:+: body ++ ['*'])
      (more : Filler after closed cs) : Filler after closed ('/' :: '*' :: (body ++ '*' :: '/' :: cs))
  | unclosed {body : List Char} (inside : ¬['*', '/'] <:+: body) (last : after = []) :
      Filler after false ('/' :: '*' :: body)

/-- What a gap is that starts in a mode. -/
def GapMode.Fills (g : Gap) : GapMode → Prop
  | .plain => Filler g.rest g.unclosed.isNone g.text
  | .line => ∃ body cs, g.text = body ++ cs ∧ '\n' ∉ body ∧
      (∀ c, (cs ++ g.rest).head? = some c → c = '\n') ∧ Filler g.rest g.unclosed.isNone cs
  | .block _ =>
    (g.rest = [] ∧ g.unclosed.isNone = false ∧ ¬['*', '/'] <:+: g.text) ∨
    ∃ body cs, g.text = body ++ '*' :: '/' :: cs ∧ ¬['*', '/'] <:+: body ++ ['*'] ∧
      Filler g.rest g.unclosed.isNone cs

/-- A text does not close a comment if it does not do so at once or later. -/
theorem not_closing_cons {c : Char} {cs : List Char} (now : ∀ ds, c = '*' → cs ≠ '/' :: ds)
    (later : ¬['*', '/'] <:+: cs) : ¬['*', '/'] <:+: c :: cs := by
  rw [infix_cons_iff]
  rintro (⟨ds, same⟩ | closes)
  · rw [cons_append, cons_append] at same
    obtain ⟨rfl, rest⟩ := List.cons.inj same
    exact now ds rfl rest.symm
  · exact later closes

theorem gap_fills (mode : GapMode) (offset : Nat) (cs : List Char) : mode.Fills (gap mode offset cs) := by
  fun_induction gap mode offset cs with
  | case1 offset => exact .nil
  | case2 offset cs ih =>
    obtain ⟨body, more, text, inside, ends, filler⟩ := ih
    change Filler _ _ ('/' :: '/' :: _)
    rw [text]
    exact .line inside ends filler
  | case3 offset cs ih =>
    change Filler _ _ ('/' :: '*' :: _)
    rcases ih with ⟨last, unclosed, inside⟩ | ⟨body, more, text, inside, filler⟩
    · simp only [Gap.cons]
      rw [unclosed]
      exact .unclosed inside last
    · rw [text]
      exact .block inside filler
  | case4 offset c cs _ _ blank ih => exact .blank blank ih
  | case5 offset c cs _ _ solid => exact .nil
  | case6 offset => exact ⟨[], [], rfl, by simp, by simp, .nil⟩
  | case7 offset c cs ih =>
    split at ih
    · next lineFeed =>
        subst lineFeed
        exact ⟨[], _, rfl, by simp, by simp [Gap.cons], .blank (by decide) ih⟩
    · next other =>
        obtain ⟨body, more, text, inside, ends, filler⟩ := ih
        rw [if_neg other]
        refine ⟨c :: body, more, ?_, ?_, ends, filler⟩
        · simp [Gap.cons, text]
        · simp [inside, Ne.symm other]
  | case8 start offset => exact .inl ⟨rfl, rfl, by simp⟩
  | case9 start offset cs ih => exact .inr ⟨[], _, rfl, by decide, ih⟩
  | case10 start offset c cs open_ ih =>
    have split := gap_append (.block start) (offset + c.utf8Size) cs
    rcases ih with ⟨last, unclosed, inside⟩ | ⟨body, more, text, inside, filler⟩
    · refine .inl ⟨last, unclosed, not_closing_cons (fun ds star same => ?_) inside⟩
      rw [last, append_nil, same] at split
      exact open_ ds star split.symm
    · refine .inr ⟨c :: body, more, by simp [Gap.cons, text], ?_, filler⟩
      refine not_closing_cons (fun ds star same => ?_) inside
      rw [text] at split
      cases body with
      | nil => cases same
      | cons d body =>
        obtain ⟨rfl, _⟩ := List.cons.inj same
        exact open_ _ star split.symm

/-! ### Tokens in a text -/

/-- The text of a token in a source. -/
structure Stands (source : List Char) (t : Token) (text : List Char) : Prop where
  cut : slice? t.span.start t.span.stop source = some text
  verbatim : t.kind ≠ .stringLiteral → t.lexeme = String.ofList text
  quote : t.kind = .stringLiteral → text.head? = some '"'

/-- Where the text in front of a token starts, given the tokens before it. -/
def gapStart (offset : Nat) (before : List Token) : Nat :=
  (before.getLast?.map (·.span.stop)).getD offset

/-- The tokens of a source from an offset on, and what stands between them. -/
structure Tiling (source : List Char) (offset : Nat) (s : Scan) : Prop where
  /-- The end of the text is the last token and no other one. -/
  ends : ∃ before, s.tokens = before ++ [eofAt (byteLength source)] ∧
    ∀ t ∈ before, t.kind ≠ .eof ∧ t.span.start < t.span.stop
  stands : ∀ t ∈ s.tokens, ∃ text, Stands source t text
  behind : ∀ t ∈ s.tokens, offset ≤ t.span.start
  ordered : s.tokens.Pairwise fun t u => t.span.stop ≤ u.span.start
  gaps : ∀ before t after, s.tokens = before ++ t :: after → ∃ text rest closed,
    slice? (gapStart offset before) t.span.start source = some text ∧
    dropBytes? t.span.start source = some rest ∧ Filler rest closed text ∧
    (closed = false → hasErrors s.diagnostics = true)
  valid : hasErrors s.diagnostics = false → ∀ t ∈ s.tokens, t.kind ≠ .invalid ∧
    ∃ value text, t.lexeme = String.ofList value ∧
      slice? t.span.start t.span.stop source = some text ∧ Lexeme t.kind value text

theorem gapStart_cons (offset : Nat) (t : Token) (before : List Token) :
    gapStart offset (t :: before) = gapStart t.span.stop before := by
  cases h : before.getLast? with
  | none => simp [gapStart, List.getLast?_cons, h]
  | some u => simp [gapStart, List.getLast?_cons, h]

theorem hasErrors_append (ds ds' : List Diagnostic) :
    hasErrors (ds ++ ds') = (hasErrors ds || hasErrors ds') := any_append

section Steps

variable {read filler : List Char} {ds : List Diagnostic} {closed : Bool}

/-- Behind the last token stands a gap. -/
theorem tiling_end (gap : Filler [] closed filler)
    (reported : closed = false → hasErrors ds = true) :
    Tiling (read ++ filler) (byteLength read) ⟨[eofAt (byteLength (read ++ filler))], ds⟩ where
  ends := ⟨[], rfl, by simp⟩
  stands t ht := by
    cases mem_singleton.mp ht
    refine ⟨[], ?_, fun _ => rfl, by simp [eofAt]⟩
    simpa [eofAt, Span.point] using slice?_append (read ++ filler) [] []
  behind t ht := by
    cases mem_singleton.mp ht
    simp [eofAt, Span.point]
  ordered := pairwise_singleton _ _
  gaps before t after split := by
    obtain ⟨rfl, rfl, rfl⟩ : before = [] ∧ eofAt (byteLength (read ++ filler)) = t ∧ after = [] := by
      simpa [eq_comm, append_eq_cons_iff] using split
    refine ⟨filler, [], closed, ?_, ?_, gap, reported⟩
    · simpa [eofAt, Span.point, gapStart] using slice?_append read filler []
    · simpa [eofAt, Span.point] using dropBytes?_append (read ++ filler) []
  valid _ t ht := by
    cases mem_singleton.mp ht
    refine ⟨by simp [eofAt], [], [], rfl, ?_, .eof⟩
    simpa [eofAt, Span.point] using slice?_append (read ++ filler) [] []

variable {kind : TokenKind} {lexeme text rest : List Char}

/-- In front of the tokens that are known stands a gap and one more token. -/
theorem Tiling.cons {t : Token} {s : Scan} {source : List Char}
    (split : source = read ++ (filler ++ (text ++ rest)))
    (span : t.span = ⟨byteLength (read ++ filler), byteLength (read ++ filler ++ text)⟩)
    (inside : t.kind ≠ .eof) (some : text ≠ []) (stands : Stands source t text)
    (gap : Filler (text ++ rest) closed filler) (reported : closed = false → hasErrors ds = true)
    (valid : hasErrors ds = false → ∃ value, t.lexeme = String.ofList value ∧ Lexeme t.kind value text)
    (later : Tiling source t.span.stop s) :
    Tiling source (byteLength read) ⟨t :: s.tokens, ds ++ s.diagnostics⟩ := by
  have start : t.span.start = byteLength read + byteLength filler := by simp [span]
  have stop : t.span.stop = t.span.start + byteLength text := by simp [span, Nat.add_assoc]
  have long : 0 < byteLength text := by
    obtain ⟨c, cs, rfl⟩ := exists_cons_of_ne_nil some
    exact Nat.lt_of_lt_of_le c.utf8Size_pos (Nat.le_add_right _ _)
  constructor
  case ends =>
    obtain ⟨before, tokens, ih⟩ := later.ends
    refine ⟨t :: before, by rw [tokens]; rfl, ?_⟩
    rw [forall_mem_cons]
    exact ⟨⟨inside, by omega⟩, ih⟩
  case stands => exact forall_mem_cons.mpr ⟨⟨text, stands⟩, later.stands⟩
  case behind =>
    refine forall_mem_cons.mpr ⟨by omega, fun u hu => ?_⟩
    have := later.behind u hu
    omega
  case ordered => exact pairwise_cons.mpr ⟨later.behind, later.ordered⟩
  case gaps =>
    intro before u after tokens
    cases before with
    | nil =>
      obtain ⟨rfl, _⟩ := List.cons.inj tokens
      refine ⟨filler, text ++ rest, closed, ?_, ?_, gap, fun open_ => ?_⟩
      · rw [split, start]
        exact slice?_append read filler (text ++ rest)
      · rw [split, span, ← append_assoc]
        exact dropBytes?_append (read ++ filler) (text ++ rest)
      · rw [hasErrors_append, reported open_, Bool.true_or]
    | cons first before =>
      obtain ⟨rfl, others⟩ := List.cons.inj tokens
      obtain ⟨filler', rest', closed', cut, behind, gap', reported'⟩ := later.gaps _ _ _ others
      refine ⟨filler', rest', closed', ?_, behind, gap', fun open_ => ?_⟩
      · rwa [gapStart_cons]
      · rw [hasErrors_append, reported' open_, Bool.or_true]
  case valid =>
    intro clean
    rw [hasErrors_append, Bool.or_eq_false_iff] at clean
    obtain ⟨value, lexeme, isLexeme⟩ := valid clean.1
    exact forall_mem_cons.mpr ⟨⟨isLexeme.kind_ne_invalid, value, text, lexeme, stands.cut, isLexeme⟩,
      later.valid clean.2⟩

end Steps

theorem hasErrors_unclosedComment {unclosed : Option Nat} (h : unclosed.isNone = false) (stop : Nat) :
    hasErrors (unclosedComment unclosed stop) = true := by
  cases unclosed with
  | none => cases h
  | some start => rfl

theorem hasErrors_problems {problems : List Problem} {offset : Nat}
    (h : hasErrors (problems.map fun p => .errorAt p.message ⟨offset, offset + p.length⟩) = false) :
    problems = [] := by
  cases problems with
  | nil => rfl
  | cons p problems => cases h

theorem scanFrom_tiles (cursor : Cursor) (placed : cursor.WellPlaced) :
    Tiling cursor.source cursor.offset (scanFrom cursor) := by
  fun_induction scanFrom cursor with
  | case1 cursor skipped before unclosed last =>
    obtain ⟨read, source, offset⟩ := placed
    have split : skipped.text ++ skipped.rest = cursor.rest := gap_append _ _ _
    have filler : Filler skipped.rest skipped.unclosed.isNone skipped.text := gap_fills .plain _ _
    rw [last, append_nil] at split
    rw [last] at filler
    have stop : before.offset = byteLength (read ++ skipped.text) := by
      simp [before, Cursor.past, offset]
    rw [stop, source, offset, ← split]
    exact tiling_end filler fun open_ => hasErrors_unclosedComment open_ _
  | case2 cursor skipped before unclosed c cs found cut behind token problems later ih =>
    obtain ⟨read, source, offset⟩ := placed
    have split : skipped.text ++ skipped.rest = cursor.rest := gap_append _ _ _
    have filler : Filler skipped.rest skipped.unclosed.isNone skipped.text := gap_fills .plain _ _
    have pieces : cut.text ++ cut.rest = c :: cs := piece_append c cs
    have wellCut : cut.WellCut := piece_wellCut c cs
    rw [found, ← pieces] at split filler
    have start : before.offset = byteLength (read ++ skipped.text) := by
      simp [before, Cursor.past, offset]
    have stop : behind.offset = byteLength (read ++ skipped.text ++ cut.text) := by
      simp [behind, Cursor.past, start, Nat.add_assoc]
    have whole : cursor.source = read ++ (skipped.text ++ (cut.text ++ cut.rest)) := by
      rw [source, split]
    have span : token.span =
        ⟨byteLength (read ++ skipped.text), byteLength (read ++ skipped.text ++ cut.text)⟩ := by
      rw [← start, ← stop]
      rfl
    have cutOff : slice? token.span.start token.span.stop cursor.source = some cut.text := by
      rw [span, whole, ← append_assoc, byteLength_append _ cut.text]
      exact slice?_append _ _ _
    have tiled : Tiling cursor.source token.span.stop later :=
      ih ⟨read ++ skipped.text ++ cut.text, by simp [behind, before, Cursor.past, whole], stop⟩
    rw [offset]
    refine tiled.cons whole span wellCut.inside (piece_text_ne_nil c cs)
      ⟨cutOff, fun other => ?_, wellCut.quote⟩ filler (fun open_ => ?_) fun clean => ?_
    · exact congrArg String.ofList (wellCut.verbatim other)
    · rw [hasErrors_append, hasErrors_unclosedComment open_, Bool.true_or]
    · rw [hasErrors_append, Bool.or_eq_false_iff] at clean
      exact ⟨cut.lexeme, rfl, wellCut.valid (hasErrors_problems clean.2)⟩

/-- The tokens of a text are in order and end with its end.  Each has the text at its span, between
them stands nothing but white space and comments, and without a complaint each is well formed. -/
theorem scan_tiles (source : List Char) : Tiling source 0 (scan source) :=
  scanFrom_tiles (.ofText source) (Cursor.wellPlaced_ofText source)

end Token

end BlFront
