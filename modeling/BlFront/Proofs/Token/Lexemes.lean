import BlFront.Token.Scan
import Mathlib.Data.List.TakeWhile

/-!
# Lexemes

Which texts are tokens of which kind, and that the scanner cuts off only such texts unless it
complains.
-/

namespace BlFront

variable {c : Char} {text : List Char} {kind : TokenKind}

/-- The text of a kind that has only one. -/
def TokenKind.spelling? : TokenKind → Option String
  | .kwFun => some "fun"
  | .kwVar => some "var"
  | .kwStruct => some "struct"
  | .kwClass => some "class"
  | .kwIf => some "if"
  | .kwElse => some "else"
  | .kwWhile => some "while"
  | .kwReturn => some "return"
  | .kwTrue => some "true"
  | .kwFalse => some "false"
  | .kwUnit => some "unit"
  | .kwSelf => some "self"
  | .plus => some "+"
  | .minus => some "-"
  | .star => some "*"
  | .slash => some "/"
  | .percent => some "%"
  | .equalEqual => some "=="
  | .bangEqual => some "!="
  | .less => some "<"
  | .greater => some ">"
  | .lessEqual => some "<="
  | .greaterEqual => some ">="
  | .ampAmp => some "&&"
  | .pipePipe => some "||"
  | .bang => some "!"
  | .equal => some "="
  | .arrow => some "->"
  | .dot => some "."
  | .leftParen => some "("
  | .rightParen => some ")"
  | .leftBrace => some "\x7b"
  | .rightBrace => some "\x7d"
  | .leftBracket => some "["
  | .rightBracket => some "]"
  | .comma => some ","
  | .semicolon => some ";"
  | .colon => some ":"
  | .intLiteral | .floatLiteral | .stringLiteral | .identifier | .invalid | .eof => none

namespace Token

/-- The text between the quotes of a string literal, with the value that it stands for. -/
inductive Quoted : List Char → List Char → Prop
  | nil : Quoted [] []
  | plain {c : Char} {value text : List Char} (quote : c ≠ '"') (backslash : c ≠ '\\')
      (lineFeed : c ≠ '\n') (more : Quoted value text) : Quoted (c :: value) (c :: text)
  | escape {c e : Char} {value text : List Char} (stands : unescape? e = some c)
      (more : Quoted value text) : Quoted (c :: value) ('\\' :: e :: text)

/-- The texts of a kind, with the lexemes that their tokens keep.  No text is of the kind for what
is invalid. -/
inductive Lexeme : TokenKind → List Char → List Char → Prop
  | fixed {kind : TokenKind} {text : List Char} (spelled : kind.spelling? = some (String.ofList text)) :
      Lexeme kind text text
  | identifier {c : Char} {cs : List Char} (start : isNameStart c = true)
      (parts : ∀ x ∈ cs, isNamePart x = true)
      (free : ∀ kind : TokenKind, kind.spelling? ≠ some (String.ofList (c :: cs))) :
      Lexeme .identifier (c :: cs) (c :: cs)
  | integer {d : Char} {ds : List Char} (start : isDigit d = true)
      (parts : ∀ x ∈ ds, isNumberPart x = true) : Lexeme .intLiteral (d :: ds) (d :: ds)
  | float {d e : Char} {ds es : List Char} (start : isDigit d = true)
      (parts : ∀ x ∈ ds, isNumberPart x = true) (digit : isDigit e = true)
      (fraction : ∀ x ∈ es, isNumberPart x = true) :
      Lexeme .floatLiteral (d :: ds ++ '.' :: e :: es) (d :: ds ++ '.' :: e :: es)
  | string {value text : List Char} (quoted : Quoted value text) :
      Lexeme .stringLiteral value ('"' :: (text ++ ['"']))
  | eof : Lexeme .eof [] []

theorem Lexeme.kind_ne_invalid {value : List Char} (h : Lexeme kind value text) :
    kind ≠ .invalid := by
  rintro rfl
  cases h with
  | fixed spelled => cases spelled

/-! ### Pieces -/

/-- What holds of each piece, and what holds of it if there is no complaint about it. -/
structure Piece.WellCut (p : Piece) : Prop where
  inside : p.kind ≠ .eof
  verbatim : p.kind ≠ .stringLiteral → p.lexeme = p.text
  quote : p.kind = .stringLiteral → p.text.head? = some '"'
  number : p.kind = .intLiteral ∨ p.kind = .floatLiteral → p.problems = []
  valid : p.problems = [] → Lexeme p.kind p.lexeme p.text

/-- A piece without a value of its own, about which there is no complaint. -/
theorem Piece.wellCut_plain {rest : List Char} (inside : kind ≠ .eof)
    (other : kind ≠ .stringLiteral) (valid : Lexeme kind text text) :
    (Piece.plain kind text rest).WellCut where
  inside := inside
  verbatim _ := rfl
  quote same := absurd same other
  number _ := rfl
  valid _ := valid

theorem kind_stringTail (length : Nat) (cs : List Char) :
    (stringTail length cs).kind = .stringLiteral := by
  fun_induction stringTail length cs <;> simp_all [Piece.precede, unterminated]

/-- Without a complaint the literal is closed, and its lexeme is its value. -/
theorem stringTail_quoted (length : Nat) (cs : List Char) (clean : (stringTail length cs).problems = []) :
    ∃ body, (stringTail length cs).text = body ++ ['"'] ∧ Quoted (stringTail length cs).lexeme body := by
  fun_induction stringTail length cs with
  | case1 length => cases clean
  | case2 length => cases clean
  | case3 length c cs read x stands ih =>
    obtain ⟨body, text, quoted⟩ := ih (by simpa [Piece.precede] using clean)
    exact ⟨'\\' :: c :: body, by simp [Piece.precede, text], .escape stands quoted⟩
  | case4 length c cs read unknown ih => simp [Piece.precede] at clean
  | case5 length cs notEscape closed => exact ⟨[], rfl, .nil⟩
  | case6 length cs notQuote notEscape => cases clean
  | case7 length c cs notEscape notLast notQuote notLineFeed ih =>
    obtain ⟨body, text, quoted⟩ := ih (by simpa [Piece.precede] using clean)
    refine ⟨c :: body, by simp [Piece.precede, text], .plain notQuote ?_ notLineFeed quoted⟩
    rintro rfl
    cases cs with
    | nil => exact notEscape rfl rfl
    | cons d ds => exact notLast d ds rfl rfl

theorem number_wellCut (start : isDigit c = true) (cs : List Char) : (number c cs).WellCut := by
  have whole : ∀ x ∈ cs.takeWhile isNumberPart, isNumberPart x = true := fun _ => List.mem_takeWhile_imp
  unfold number
  dsimp only
  split
  · next d ds _ =>
      split
      · next digit =>
          have part : isNumberPart d = true := by simp [isNumberPart, digit]
          rw [List.takeWhile_cons_of_pos part]
          exact Piece.wellCut_plain (by decide) (by decide)
            (.float start whole digit fun _ => List.mem_takeWhile_imp)
      · exact Piece.wellCut_plain (by decide) (by decide) (.integer start whole)
  · exact Piece.wellCut_plain (by decide) (by decide) (.integer start whole)

theorem keywords_spelled : ∀ entry ∈ TokenKind.keywords, entry.2.spelling? = some entry.1 := by
  decide

theorem ofKeyword?_spelled {word : String} (h : TokenKind.ofKeyword? word = some kind) :
    kind.spelling? = some word := by
  obtain ⟨before, after, entries, _⟩ := List.lookup_eq_some_iff.mp h
  exact keywords_spelled (word, kind) (by rw [entries]; simp)

/-- What is spelled like a name is a keyword. -/
theorem ofKeyword?_of_spelled {cs : List Char} (start : isNameStart c = true)
    (spelled : kind.spelling? = some (String.ofList (c :: cs))) :
    TokenKind.ofKeyword? (String.ofList (c :: cs)) = some kind := by
  obtain ⟨word, same, text⟩ : ∃ word, String.ofList (c :: cs) = word ∧ word.toList = c :: cs :=
    ⟨_, rfl, String.toList_ofList⟩
  rw [same] at spelled ⊢
  cases kind <;> cases spelled
  all_goals first
    | rfl
    | (cases text; exact absurd start (by decide))

theorem word_wellCut (start : isNameStart c = true) (cs : List Char) : (word c cs).WellCut := by
  unfold word
  dsimp only
  cases found : TokenKind.ofKeyword? (String.ofList (c :: cs.takeWhile isNamePart)) with
  | none =>
    refine Piece.wellCut_plain (by simp) (by simp)
      (.identifier start (fun _ => List.mem_takeWhile_imp) fun kind spelled => ?_)
    rw [ofKeyword?_of_spelled start spelled] at found
    cases found
  | some kind =>
    have spelled := ofKeyword?_spelled found
    refine Piece.wellCut_plain ?_ ?_ (.fixed spelled) <;>
      · rintro rfl
        cases spelled

theorem other_wellCut (c : Char) (cs : List Char) : (other c cs).WellCut := by
  unfold other
  split
  · next quote =>
      subst quote
      refine ⟨?_, ?_, fun _ => rfl, ?_, fun clean => ?_⟩
      · simp [kind_stringTail]
      · simp [kind_stringTail]
      · simp [kind_stringTail]
      · obtain ⟨body, text, quoted⟩ := stringTail_quoted 1 cs clean
        simp only [kind_stringTail, text]
        exact .string quoted
  · split
    · next digit => exact number_wellCut digit cs
    · split
      · next start => exact word_wellCut start cs
      · exact ⟨by simp, fun _ => rfl, by simp, by simp, by simp⟩

theorem single?_spelled (h : single? c = some kind) :
    kind.spelling? = some (String.ofList [c]) := by
  unfold single? at h
  split at h <;> first | (cases h; rfl) | cases h

theorem pair?_spelled {d : Char} (h : pair? c d = some kind) :
    kind.spelling? = some (String.ofList [c, d]) := by
  unfold pair? at h
  split at h <;> first | (cases h; rfl) | cases h

theorem Piece.wellCut_fixed {rest : List Char}
    (spelled : kind.spelling? = some (String.ofList text)) :
    (Piece.plain kind text rest).WellCut := by
  refine wellCut_plain ?_ ?_ (.fixed spelled) <;>
    · rintro rfl
      cases spelled

theorem oneOrMore_wellCut (c : Char) (cs : List Char) : (oneOrMore c cs).WellCut := by
  unfold oneOrMore
  split
  · next kind found => exact Piece.wellCut_fixed (single?_spelled found)
  · next kind message _ half =>
      have fixed : kind = .ampAmp ∨ kind = .pipePipe := by
        unfold half? at half
        split at half <;> cases half <;> simp
      refine ⟨?_, fun _ => rfl, fun same => ?_, ?_, by simp⟩
      · rcases fixed with rfl | rfl <;> simp
      · rcases fixed with rfl | rfl <;> cases same
      · rcases fixed with rfl | rfl <;> simp
  · exact other_wellCut c cs

theorem piece_wellCut (c : Char) (cs : List Char) : (piece c cs).WellCut := by
  cases cs with
  | nil => exact oneOrMore_wellCut c []
  | cons d ds =>
    unfold piece
    dsimp only
    split
    · next kind found => exact Piece.wellCut_fixed (pair?_spelled found)
    · exact oneOrMore_wellCut c (d :: ds)

end Token

end BlFront
