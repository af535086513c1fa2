import BlFront.Proofs.Syntax.Reading.Unit
import Mathlib.Data.Nat.Digits.Defs

/-!
# Literals of numbers

The scanner cuts off a number only where a digit starts it, and takes a point only in front of a
digit.  So without the underscores there is a digit on each side of every point, and the parser reads
the number with its value.  What does not fit 64 bits is read as zero, with one report.
-/

namespace BlFront

open List

variable {digits whole places : List Char}

/-! ### Digits -/

namespace Decimal

/-- One or more digits. -/
structure Digits (cs : List Char) : Prop where
  nonempty : cs ≠ []
  digit : ∀ c ∈ cs, isDigit c = true

theorem value_eq_ofDigits (digits : List Char) :
    value digits = Nat.ofDigits 10 (digits.reverse.map digitValue) := by
  induction digits using List.reverseRecOn with
  | nil => rfl
  | append_singleton digits last ih =>
    rw [value, foldl_append, ← value, ih, reverse_append, map_append, Nat.ofDigits_append]
    simp [Nat.ofDigits_cons, Nat.add_comm]

theorem Digits.splitSign (h : Digits digits) (rest : List Char) :
    splitSign (digits ++ rest) = (false, digits ++ rest) := by
  obtain ⟨nonempty, digit⟩ := h
  obtain ⟨c, cs, rfl⟩ := exists_cons_of_ne_nil nonempty
  have first := digit c (.head _)
  unfold Decimal.splitSign
  split
  · next same =>
      cases (List.cons.inj same).1
      cases first
  · next same =>
      cases (List.cons.inj same).1
      cases first
  · rfl

theorem Digits.int64? (h : Digits digits) : int64? digits =
    if value digits ≤ 2 ^ 63 - 1 then some (value digits : Int) else none := by
  have natural : natural? digits = some (value digits) := by
    rw [natural?, if_pos]
    simpa [h.nonempty] using h.digit
  have plain := h.splitSign []
  rw [append_nil] at plain
  have read : integer? digits = some (value digits : Int) := by
    rw [integer?, plain]
    simp [natural]
  rw [Decimal.int64?, read, Option.filter_some]
  by_cases fits : value digits ≤ 2 ^ 63 - 1
  · rw [if_pos fits, if_pos]
    refine decide_eq_true ⟨?_, ?_⟩
    · rw [leastInt64]
      omega
    · rw [greatestInt64]
      omega
  · rw [if_neg fits, if_neg]
    intro within
    have := (of_decide_eq_true within).2
    rw [greatestInt64] at this
    omega

/-- A text with digits on both sides of a point is a fraction. -/
theorem Digits.float? (h : Digits whole) (h' : Digits places) :
    float? (whole ++ '.' :: places) =
      some (ofScientific false (whole ++ places) (-(places.length : Int))) := by
  have front : (whole ++ '.' :: places).takeWhile isDigit = whole ∧
      (whole ++ '.' :: places).dropWhile isDigit = '.' :: places := by
    rw [takeWhile_append_of_pos h.digit, dropWhile_append_of_pos h.digit]
    exact ⟨append_nil _, rfl⟩
  have back : places.takeWhile isDigit = places ∧ places.dropWhile isDigit = [] := by
    rw [takeWhile_eq_self_iff, dropWhile_eq_nil_iff]
    exact ⟨h'.digit, h'.digit⟩
  have read : fraction? false (whole ++ '.' :: places) =
      some (ofScientific false (whole ++ places) (-(places.length : Int))) := by
    simp [fraction?, front, back, exponent?, h.nonempty, guard]
  rw [Decimal.float?, h.splitSign]
  simp only [read]
  rfl

end Decimal

/-! ### Tokens -/

namespace Token

/-- A token is cut off as a piece, or it ends the text. -/
theorem scanFrom_pieces (cursor : Cursor) : ∀ t ∈ (scanFrom cursor).tokens,
    t.kind = .eof ∨ ∃ c cs, t.kind = (piece c cs).kind ∧
      t.lexeme = String.ofList (piece c cs).lexeme := by
  fun_induction scanFrom cursor with
  | case1 cursor skipped before unclosed last =>
    rintro t mem
    rw [mem_singleton.mp mem]
    exact .inl rfl
  | case2 cursor skipped before unclosed c cs found cut behind token problems later ih =>
    exact forall_mem_cons.mpr ⟨.inr ⟨c, cs, rfl, rfl⟩, ih⟩

theorem lexeme_of_number {source : List Char} {t : Token} (mem : t ∈ (scan source).tokens)
    (number : t.kind = .intLiteral ∨ t.kind = .floatLiteral) :
    ∃ text, Lexeme t.kind t.lexeme.toList text := by
  rcases scanFrom_pieces _ t mem with last | ⟨c, cs, kind, lexeme⟩
  · rw [last] at number
    simp at number
  · have cut := piece_wellCut c cs
    rw [kind] at number
    rw [kind, lexeme, String.toList_ofList]
    exact ⟨_, cut.valid (cut.number number)⟩

end Token

namespace Parser

/-- Without underscores the parts of a number are digits. -/
theorem digits_filter {c : Char} {cs : List Char} (start : Token.isDigit c = true)
    (parts : ∀ x ∈ cs, Token.isNumberPart x = true) :
    Decimal.Digits ((c :: cs).filter (· != '_')) := by
  have other : c ≠ '_' := by
    rintro rfl
    cases start
  refine ⟨fun none => ?_, fun x mem => ?_⟩
  · rw [filter_cons_of_pos (by simpa using other)] at none
    cases none
  · obtain ⟨mem, solid⟩ := mem_filter.mp mem
    rcases mem_cons.mp mem with rfl | mem
    · exact start
    · have part := parts x mem
      simp only [Token.isNumberPart, Bool.or_eq_true, beq_iff_eq] at part
      exact part.resolve_right (by simpa using solid)

/-- The digits of an integer. -/
theorem digitsOf_integer {source : List Char} {t : Token} (mem : t ∈ (Token.scan source).tokens)
    (integer : t.kind = .intLiteral) : Decimal.Digits (digitsOf t.lexeme) := by
  obtain ⟨text, lexeme⟩ := Token.lexeme_of_number mem (.inl integer)
  rw [integer] at lexeme
  rw [digitsOf]
  generalize t.lexeme.toList = value at lexeme
  cases lexeme with
  | fixed spelled => cases spelled
  | integer start parts => exact digits_filter start parts

theorem digitsOf_float {source : List Char} {t : Token} (mem : t ∈ (Token.scan source).tokens)
    (float : t.kind = .floatLiteral) : ∃ whole places, digitsOf t.lexeme = whole ++ '.' :: places ∧
      Decimal.Digits whole ∧ Decimal.Digits places := by
  obtain ⟨text, lexeme⟩ := Token.lexeme_of_number mem (.inr float)
  rw [float] at lexeme
  rw [digitsOf]
  generalize t.lexeme.toList = value at lexeme
  cases lexeme with
  | fixed spelled => cases spelled
  | @float d e ds es start parts digit fraction =>
    refine ⟨_, _, ?_, digits_filter start parts, digits_filter digit fraction⟩
    rw [filter_append, filter_cons_of_pos (a := '.') (by decide)]

/-! ### Literals -/

/-- Wherever an expression may stand, a token is read as the literal that the expression starts with,
and this is what is said about it. -/
def ReadAs (t : Token) (value : Literal) (said : List Diagnostic) : Prop :=
  ∀ (s : State) (rest : List Token), s.rest = t :: rest → ∀ depth least,
    exprAt (depth + 1) least s =
      Parse.sized
        (fun n => operators (exprAt depth) least n (.literal ⟨⟨s.nextId⟩, t.span⟩ value))
        { s with rest := rest, previous := t, diagnostics := s.diagnostics ++ said }.draw

theorem readAs_of_literalOf? {t : Token} {literal : Parse Literal} {value : Literal}
    {said : List Diagnostic} (isLiteral : literalOf? t = some literal)
    (unary : UnaryOp.ofToken? t.kind = none)
    (reads : ∀ s, literal s = (some value, { s with diagnostics := s.diagnostics ++ said })) :
    ReadAs t value said := by
  intro s rest tokens depth least
  have current : s.current = t := by simp [State.current, tokens]
  have first : operand (exprAt depth) s = (some (.literal ⟨⟨s.nextId⟩, t.span⟩ value),
      { s with rest := rest, previous := t, diagnostics := s.diagnostics ++ said }.draw) := by
    simp [operand, primary, currentSpan, peek, Parser.current, advance, spanFrom, previousSpan,
      freshTag, freshId, current, tokens, unary, isLiteral, reads, Span.merge_self]
  rw [exprAt, layer, Parse.bind_apply, first]

/-- No fraction of a text is rejected. -/
theorem message_ne_invalid {source : List Char} {d : Diagnostic}
    (mem : d ∈ (ofTokens (Token.scan source).tokens).diagnostics) (text : String) :
    d.message ≠ "invalid float literal" ++ text := by
  intro message
  obtain ⟨s, _, diagnostics, completes⟩ := exists_completes (Token.scan source).tokens
  obtain ⟨more, same, reports⟩ := completes.makes.onward.diagnostics
  rw [diagnostics, same] at mem
  obtain ⟨t, here, float, malformed⟩ := (reports d mem).malformed (by rw [message]; simp)
  obtain ⟨whole, places, split, digits, digits'⟩ := digitsOf_float (scan_subset source here) float
  rw [split, digits.float? digits'] at malformed
  cases malformed

end Parser

/-- The number that digits stand for. -/
def decimalValue (digits : List Char) : Nat :=
  Nat.ofDigits 10 (digits.reverse.map fun c => c.toNat - '0'.toNat)

/-- The tokens that stand for numbers are read with the value of their digits, wherever an expression
may stand: an integer as long as it fits 64 bits, and with one report and as zero otherwise, and a
fraction always, because it has a digit on each side of the point. -/
theorem number_literals_keep_value (source : List Char) :
    (∀ t ∈ (Token.scan source).tokens,
      (t.kind = .intLiteral →
        Text.slice? t.span.start t.span.stop source = some t.lexeme.toList ∧
        ∃ digits, t.lexeme.toList.filter (· != '_') = digits ∧ Decimal.Digits digits ∧
          if decimalValue digits ≤ 2 ^ 63 - 1 then
            Parser.ReadAs t (.int (decimalValue digits)) []
          else Parser.ReadAs t (.int 0)
            [.errorAt ("integer literal '" ++ t.lexeme ++ "' is out of range") t.span]) ∧
      (t.kind = .floatLiteral →
        Text.slice? t.span.start t.span.stop source = some t.lexeme.toList ∧
        ∃ whole places, t.lexeme.toList.filter (· != '_') = whole ++ '.' :: places ∧
          Decimal.Digits whole ∧ Decimal.Digits places ∧
          Parser.ReadAs t
            (.float (Decimal.ofScientific false (whole ++ places) (-(places.length : Int)))) [])) ∧
    ∀ d ∈ (Parser.ofTokens (Token.scan source).tokens).diagnostics, ∀ text,
      d.message ≠ "invalid float literal" ++ text := by
  refine ⟨fun t mem => ?_, fun d mem => Parser.message_ne_invalid mem⟩
  obtain ⟨text, stands⟩ :=
    (Token.scanFrom_tiles (.ofText source) (Cursor.wellPlaced_ofText source)).stands t mem
  have written : t.kind ≠ .stringLiteral →
      Text.slice? t.span.start t.span.stop source = some t.lexeme.toList := by
    intro other
    rw [stands.verbatim other, String.toList_ofList]
    exact stands.cut
  refine ⟨fun integer => ⟨written (by simp [integer]), ?_⟩,
    fun float => ⟨written (by simp [float]), ?_⟩⟩
  · have digits := Parser.digitsOf_integer mem integer
    have value : decimalValue (t.lexeme.toList.filter (· != '_')) =
        Decimal.value (Parser.digitsOf t.lexeme) := (Decimal.value_eq_ofDigits _).symm
    have isLiteral : Parser.literalOf? t = some (Parser.intLiteral t) := by
      rw [Parser.literalOf?, integer]
    refine ⟨_, rfl, digits, ?_⟩
    rw [value]
    split
    · next fits =>
        refine Parser.readAs_of_literalOf? isLiteral (by rw [integer]; rfl) fun s => ?_
        rw [Parser.intLiteral, digits.int64?, if_pos fits]
        simp
    · next tooGreat =>
        refine Parser.readAs_of_literalOf? isLiteral (by rw [integer]; rfl) fun s => ?_
        rw [Parser.intLiteral, digits.int64?, if_neg tooGreat]
        rfl
  · obtain ⟨whole, places, split, digits, digits'⟩ := Parser.digitsOf_float mem float
    have isLiteral : Parser.literalOf? t = some (Parser.floatLiteral t) := by
      rw [Parser.literalOf?, float]
    refine ⟨whole, places, split, digits, digits', ?_⟩
    refine Parser.readAs_of_literalOf? isLiteral (by rw [float]; rfl) fun s => ?_
    rw [Parser.floatLiteral, split, digits.float? digits']
    simp

theorem number_literals_keep_value_grouped :
    Parser.ReadAs ⟨.intLiteral, "0_7_", ⟨0, 4⟩⟩ (.int 7) [] ∧
      Parser.ReadAs ⟨.intLiteral, "9223372036854775808", ⟨5, 24⟩⟩ (.int 0)
        [.errorAt "integer literal '9223372036854775808' is out of range" ⟨5, 24⟩] ∧
      ∃ value, Parser.ReadAs ⟨.floatLiteral, "0_.5_", ⟨25, 30⟩⟩ (.float value) [] := by
  obtain ⟨numbers, _⟩ := number_literals_keep_value "0_7_,9223372036854775808,0_.5_".toList
  obtain ⟨_, small, rfl, _, seven⟩ := (numbers ⟨.intLiteral, "0_7_", ⟨0, 4⟩⟩ (by decide +kernel)).1 rfl
  obtain ⟨_, great, rfl, _, zero⟩ :=
    (numbers ⟨.intLiteral, "9223372036854775808", ⟨5, 24⟩⟩ (by decide +kernel)).1 rfl
  obtain ⟨_, whole, places, _, _, _, half⟩ :=
    (numbers ⟨.floatLiteral, "0_.5_", ⟨25, 30⟩⟩ (by decide +kernel)).2 rfl
  rw [if_pos (by decide +kernel)] at seven
  rw [if_neg (by decide +kernel)] at zero
  exact ⟨seven, zero, _, half⟩

end BlFront
