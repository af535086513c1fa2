import BlFront.Proofs.Token.Tiling

/-!
# Reading back what is written

Words that are written one after another with white space between them are scanned as exactly these
words.  No lookahead of the scanner reaches over a white-space character.
-/

namespace BlFront.Token

open List

variable {c d : Char} {cs filler rest text value : List Char} {kind : TokenKind}

open Text

/-! ### Written forms -/

/-- A character between the quotes of a string literal. -/
def escaped : Char → List Char
  | '\n' => ['\\', 'n']
  | '\t' => ['\\', 't']
  | '\r' => ['\\', 'r']
  | '\\' => ['\\', '\\']
  | '"' => ['\\', '"']
  | '\x00' => ['\\', '0']
  | c => [c]

/-- The text of a token with a lexeme. -/
def written (kind : TokenKind) (lexeme : List Char) : List Char :=
  if kind = .stringLiteral then '"' :: (lexeme.flatMap escaped ++ ['"']) else lexeme

/-- The lexemes of a kind.  A string literal may have any value. -/
def Spells (kind : TokenKind) (lexeme : List Char) : Prop :=
  kind = .stringLiteral ∨ kind ≠ .eof ∧ Lexeme kind lexeme lexeme

/-- White space and closed comments. -/
inductive Trivia : List Char → Prop
  | nil : Trivia []
  | blank {c : Char} {cs : List Char} (blank : isBlank c = true) (more : Trivia cs) : Trivia (c :: cs)
  | line {body cs : List Char} (inside : '\n' ∉ body) (more : Trivia cs) :
      Trivia ('/' :: '/' :: (body ++ '\n' :: cs))
  | block {body cs : List Char} (inside : ¬['*', '/'] <:+: body ++ ['*']) (more : Trivia cs) :
      Trivia ('/' :: '*' :: (body ++ '*' :: '/' :: cs))

/-- What may stand between two words. -/
inductive Separator : List Char → Prop
  | mk {c : Char} {cs : List Char} (blank : isBlank c = true) (more : Trivia cs) : Separator (c :: cs)

/-- Words in order, with a separator between each two of them. -/
inductive Rendering : List (TokenKind × List Char) → List Char → Prop
  | nil : Rendering [] []
  | last (kind : TokenKind) (lexeme : List Char) : Rendering [(kind, lexeme)] (written kind lexeme)
  | cons (kind : TokenKind) (lexeme : List Char) {next : TokenKind × List Char}
      {words : List (TokenKind × List Char)} {between text : List Char} (apart : Separator between)
      (more : Rendering (next :: words) text) :
      Rendering ((kind, lexeme) :: next :: words) (written kind lexeme ++ (between ++ text))

/-- The kinds and lexemes of the tokens of a scan. -/
def Scan.words (s : Scan) : List (TokenKind × List Char) :=
  s.tokens.map fun t => (t.kind, t.lexeme.toList)

theorem quoted_escaped (c : Char) (more : Quoted value text) :
    Quoted (c :: value) (escaped c ++ text) := by
  unfold escaped
  split
  · exact .escape rfl more
  · exact .escape rfl more
  · exact .escape rfl more
  · exact .escape rfl more
  · exact .escape rfl more
  · exact .escape rfl more
  · next lineFeed _ _ backslash quote _ => exact .plain quote backslash lineFeed more

theorem quoted_flatMap_escaped (value : List Char) : Quoted value (value.flatMap escaped) := by
  induction value with
  | nil => exact .nil
  | cons c value ih => exact quoted_escaped c ih

theorem Spells.lexeme {lexeme : List Char} (h : Spells kind lexeme) :
    kind ≠ .eof ∧ Lexeme kind lexeme (written kind lexeme) := by
  unfold written
  split
  · next string =>
      subst string
      exact ⟨by decide, .string (quoted_flatMap_escaped lexeme)⟩
  · next other => exact h.resolve_left other

/-! ### Nothing reaches over white space -/

/-- A text that ends or goes on with white space. -/
def Apart (rest : List Char) : Prop := ∀ c, rest.head? = some c → isBlank c = true

/-- White space is below the signs, digits and letters of the language or above all of them. -/
theorem toNat_of_isBlank (h : isBlank c = true) : c.toNat ≤ 32 ∨ 133 ≤ c.toNat := by
  simp only [isBlank, blankRanges, any_cons, any_nil, Bool.or_eq_true, decide_eq_true_eq,
    Bool.or_false] at h
  omega

theorem isDigit_iff (c : Char) : isDigit c = true ↔ 48 ≤ c.toNat ∧ c.toNat ≤ 57 := by
  simp only [isDigit, decide_eq_true_eq]
  rfl

theorem isNameStart_iff (c : Char) : isNameStart c = true ↔
    (97 ≤ c.toNat ∧ c.toNat ≤ 122) ∨ (65 ≤ c.toNat ∧ c.toNat ≤ 90) ∨ c = '_' := by
  simp only [isNameStart, Bool.or_eq_true, decide_eq_true_eq, beq_iff_eq, or_assoc]
  rfl

theorem isNamePart_of_isBlank (h : isBlank c = true) : isNamePart c = false := by
  have range := toNat_of_isBlank h
  rw [Bool.eq_false_iff]
  intro part
  rw [isNamePart, Bool.or_eq_true, isNameStart_iff, isDigit_iff] at part
  rcases part with (_ | _ | rfl) | _
  · omega
  · omega
  · exact absurd h (by decide)
  · omega

theorem isNumberPart_of_isBlank (h : isBlank c = true) : isNumberPart c = false := by
  have range := toNat_of_isBlank h
  rw [Bool.eq_false_iff]
  intro part
  rw [isNumberPart, Bool.or_eq_true, isDigit_iff, beq_iff_eq] at part
  rcases part with _ | rfl
  · omega
  · exact absurd h (by decide)

/-- A run of characters ends where white space starts. -/
theorem Apart.takeWhile_append (apart : Apart rest) {p : Char → Bool}
    (stops : ∀ c, isBlank c = true → p c = false) (parts : ∀ x ∈ cs, p x = true) :
    (cs ++ rest).takeWhile p = cs ∧ (cs ++ rest).dropWhile p = rest := by
  rw [takeWhile_append_of_pos parts, dropWhile_append_of_pos parts]
  cases rest with
  | nil => simp
  | cons c rest =>
    have stop : p c = false := stops c (apart c rfl)
    simp [stop]

theorem pair?_of_isBlank (c : Char) (h : isBlank d = true) : pair? c d = none := by
  unfold pair?
  split <;> first | rfl | exact absurd h (by decide)

/-- A piece that no second character can make longer. -/
theorem Apart.piece_eq (apart : Apart rest) (c : Char) : piece c rest = oneOrMore c rest := by
  cases rest with
  | nil => rfl
  | cons d rest => simp only [piece, pair?_of_isBlank c (apart d rfl)]

/-- Literals, names and white space start with no character of an operator or delimiter. -/
theorem piece_eq_other (h : c = '"' ∨ isDigit c = true ∨ isNameStart c = true ∨ isBlank c = true)
    (cs : List Char) : piece c cs = other c cs := by
  have alone : ∀ d, pair? c d = none := by
    intro d
    unfold pair?
    split <;> first | rfl | exact absurd h (by decide)
  have notSingle : single? c = none := by
    unfold single?
    split <;> first | rfl | exact absurd h (by decide)
  have notHalf : half? c = none := by
    unfold half?
    split <;> first | rfl | exact absurd h (by decide)
  have whole : oneOrMore c cs = other c cs := by
    rw [oneOrMore, notSingle, notHalf]
  cases cs with
  | nil => exact whole
  | cons d ds => simpa only [piece, alone d] using whole

/-- White space starts no token. -/
theorem problems_piece_of_isBlank (h : isBlank c = true) (cs : List Char) :
    (piece c cs).problems ≠ [] := by
  have notQuote : c ≠ '"' := by
    rintro rfl
    exact absurd h (by decide)
  have notPart : ¬(isNameStart c || isDigit c) = true := by
    rw [← isNamePart, isNamePart_of_isBlank h]
    exact Bool.false_ne_true
  rw [Bool.or_eq_true, not_or] at notPart
  rw [piece_eq_other (.inr (.inr (.inr h))), other, if_neg notQuote, if_neg notPart.2, if_neg notPart.1]
  exact cons_ne_nil _ _

theorem piece_slash (cs : List Char) : piece '/' cs = .plain .slash ['/'] cs := by
  cases cs with
  | nil => rfl
  | cons d ds => simp [piece, pair?, oneOrMore, single?]

theorem piece_quote (cs : List Char) :
    piece '"' cs = { stringTail 1 cs with text := '"' :: (stringTail 1 cs).text } := by
  rw [piece_eq_other (.inl rfl), other, if_pos rfl]

theorem piece_of_isDigit (h : isDigit c = true) (cs : List Char) : piece c cs = number c cs := by
  have notQuote : c ≠ '"' := by
    rintro rfl
    exact absurd h (by decide)
  rw [piece_eq_other (.inr (.inl h)), other, if_neg notQuote, if_pos h]

theorem piece_of_isNameStart (h : isNameStart c = true) (cs : List Char) :
    piece c cs = word c cs := by
  have notQuote : c ≠ '"' := by
    rintro rfl
    exact absurd h (by decide)
  have notDigit : ¬isDigit c = true := by
    rw [isDigit_iff]
    rcases (isNameStart_iff c).mp h with _ | _ | rfl
    · omega
    · omega
    · decide
  rw [piece_eq_other (.inr (.inr (.inl h))), other, if_neg notQuote, if_neg notDigit, if_pos h]

/-! ### Pieces -/

theorem stringTail_of_quoted (quoted : Quoted value text) (length : Nat) (rest : List Char) :
    stringTail length (text ++ '"' :: rest) = ⟨.stringLiteral, value, text ++ ['"'], rest, []⟩ := by
  induction quoted generalizing length with
  | nil => rfl
  | plain quote backslash lineFeed more ih =>
    rw [cons_append, stringTail, if_neg quote, if_neg lineFeed, ih]
    · rfl
    · intro same
      exact absurd same backslash
    · intro _ _ same
      exact absurd same backslash
  | escape stands more ih =>
    simp only [cons_append, stringTail, stands, ih, Piece.precede, nil_append]

variable {ds : List Char}

theorem number_of_parts (apart : Apart rest)
    (parts : ∀ x ∈ ds, isNumberPart x = true) :
    number d (ds ++ rest) = .plain .intLiteral (d :: ds) rest := by
  obtain ⟨taken, left⟩ := apart.takeWhile_append (fun _ => isNumberPart_of_isBlank) parts
  rw [number, taken, left]
  cases rest with
  | nil => rfl
  | cons c rest =>
    have notPoint : c ≠ '.' := by
      rintro rfl
      exact absurd (apart '.' rfl) (by decide)
    split
    · next found => exact absurd (List.cons.inj found).1 notPoint
    · rfl

theorem number_of_fraction {e : Char} {es : List Char} (apart : Apart rest)
    (parts : ∀ x ∈ ds, isNumberPart x = true) (digit : isDigit e = true)
    (fraction : ∀ x ∈ es, isNumberPart x = true) :
    number d (ds ++ '.' :: e :: es ++ rest) = .plain .floatLiteral (d :: ds ++ '.' :: e :: es) rest := by
  have run : ∀ x ∈ e :: es, isNumberPart x = true :=
    forall_mem_cons.mpr ⟨by rw [isNumberPart, digit, Bool.true_or], fraction⟩
  obtain ⟨taken, left⟩ := apart.takeWhile_append (fun _ => isNumberPart_of_isBlank) run
  have point : isNumberPart '.' = false := by decide
  have whole : (ds ++ '.' :: (e :: es ++ rest)).takeWhile isNumberPart = ds := by
    simp [takeWhile_append_of_pos parts, point]
  have rest' : (ds ++ '.' :: (e :: es ++ rest)).dropWhile isNumberPart = '.' :: e :: (es ++ rest) := by
    simp [dropWhile_append_of_pos parts, point]
  rw [append_assoc, cons_append, number, whole, rest']
  simp only [digit, if_true]
  rw [← cons_append, taken, left]

theorem word_of_parts (apart : Apart rest) (parts : ∀ x ∈ cs, isNamePart x = true) :
    word c (cs ++ rest) =
      .plain ((TokenKind.ofKeyword? (String.ofList (c :: cs))).getD .identifier) (c :: cs) rest := by
  obtain ⟨taken, left⟩ := apart.takeWhile_append (fun _ => isNamePart_of_isBlank) parts
  rw [word, taken, left]

/-- A kind with one spelling is a sign of one or two characters or a keyword. -/
theorem spelling?_cases (spelled : kind.spelling? = some (String.ofList text)) :
    (∃ c, text = [c] ∧ single? c = some kind) ∨ (∃ c d, text = [c, d] ∧ pair? c d = some kind) ∨
      ∃ c cs, text = c :: cs ∧ isNameStart c = true ∧ (∀ x ∈ cs, isNamePart x = true) ∧
        TokenKind.ofKeyword? (String.ofList text) = some kind := by
  obtain ⟨word, spelling, same⟩ : ∃ word, kind.spelling? = some word ∧ text = word.toList :=
    ⟨_, spelled, String.toList_ofList.symm⟩
  subst same
  rw [String.ofList_toList]
  cases kind <;> cases spelling
  all_goals first
    | exact .inl ⟨_, rfl, rfl⟩
    | exact .inr (.inl ⟨_, _, rfl, rfl⟩)
    | exact .inr (.inr ⟨_, _, rfl, by decide, all_eq_true.mp rfl, rfl⟩)

/-- The scanner cuts a lexeme off a text in which white space or the end follows. -/
theorem Lexeme.piece_eq (h : Lexeme kind value text) (inside : kind ≠ .eof) (apart : Apart rest) :
    ∃ c cs, text = c :: cs ∧ piece c (cs ++ rest) = ⟨kind, value, text, rest, []⟩ := by
  cases h with
  | fixed spelled =>
    rcases spelling?_cases spelled with ⟨c, rfl, found⟩ | ⟨c, d, rfl, found⟩ |
      ⟨c, cs, rfl, start, parts, found⟩
    · refine ⟨c, [], rfl, ?_⟩
      rw [nil_append, apart.piece_eq, oneOrMore, found]
      rfl
    · refine ⟨c, [d], rfl, ?_⟩
      simp only [singleton_append, piece, found]
      rfl
    · refine ⟨c, cs, rfl, ?_⟩
      rw [piece_of_isNameStart start, word_of_parts apart parts, found]
      rfl
  | identifier start parts free =>
    refine ⟨_, _, rfl, ?_⟩
    have other := Option.eq_none_iff_forall_ne_some.mpr
      fun kind found => free kind (ofKeyword?_spelled found)
    rw [piece_of_isNameStart start, word_of_parts apart parts, other]
    rfl
  | integer start parts =>
    refine ⟨_, _, rfl, ?_⟩
    rw [piece_of_isDigit start, number_of_parts apart parts]
    rfl
  | float start parts digit fraction =>
    refine ⟨_, _, cons_append, ?_⟩
    rw [piece_of_isDigit start, number_of_fraction apart parts digit fraction]
    rfl
  | string quoted =>
    refine ⟨_, _, rfl, ?_⟩
    rw [piece_quote, append_assoc, singleton_append, stringTail_of_quoted quoted]
  | eof => exact absurd rfl inside

/-! ### Gaps -/

/-- In front of `rest` exactly `filler` is skipped. -/
def Skips (filler rest : List Char) : Prop :=
  ∀ offset, gap .plain offset (filler ++ rest) = ⟨filler, rest, none⟩

theorem skips_nil : Skips [] [] := fun _ => rfl

variable {body : List Char}

theorem Skips.line (more : Skips cs rest) (inside : '\n' ∉ body) (offset : Nat) :
    gap .line offset (body ++ '\n' :: (cs ++ rest)) = ⟨body ++ '\n' :: cs, rest, none⟩ := by
  induction body generalizing offset with
  | nil =>
    rw [nil_append, gap, if_pos rfl, more]
    rfl
  | cons c body ih =>
    obtain ⟨other, inside⟩ := ne_and_not_mem_of_not_mem_cons inside
    rw [cons_append, gap, if_neg (Ne.symm other), ih inside]
    rfl

theorem Skips.block (more : Skips cs rest)
    (inside : ¬['*', '/'] <:+: body ++ ['*']) (start offset : Nat) :
    gap (.block start) offset (body ++ '*' :: '/' :: (cs ++ rest)) =
      ⟨body ++ '*' :: '/' :: cs, rest, none⟩ := by
  induction body generalizing offset with
  | nil =>
    rw [nil_append, gap, more]
    rfl
  | cons c body ih =>
    rw [cons_append, infix_cons_iff, not_or] at inside
    rw [cons_append, gap, ih inside.2]
    · rfl
    · rintro ds rfl same
      apply inside.1
      cases body with
      | nil => cases same
      | cons d body =>
        obtain ⟨rfl, _⟩ := List.cons.inj same
        simp

theorem Trivia.skips (trivia : Trivia filler) (solid : Skips [] rest) : Skips filler rest := by
  induction trivia with
  | nil => exact solid
  | blank blank more ih =>
    intro offset
    rw [cons_append, gap, if_pos blank, ih]
    · rfl
    · rintro _ rfl
      exact absurd blank (by decide)
    · rintro _ rfl
      exact absurd blank (by decide)
  | line inside more ih =>
    intro offset
    simp only [cons_append, append_assoc, gap, ih.line inside]
    rfl
  | block inside more ih =>
    intro offset
    simp only [cons_append, append_assoc, gap, ih.block inside]
    rfl

/-- A word is not skipped.  A slash is a word only if no comment starts with it. -/
theorem Lexeme.solid (h : Lexeme kind value text) (inside : kind ≠ .eof) (apart : Apart rest) :
    Skips [] (text ++ rest) := by
  intro offset
  obtain ⟨c, cs, rfl, cut⟩ := h.piece_eq inside apart
  have solid : ¬isBlank c = true := by
    intro blank
    apply problems_piece_of_isBlank blank (cs ++ rest)
    rw [cut]
  have slash : c = '/' → cs = [] := by
    rintro rfl
    have text := congrArg Piece.text cut
    rw [piece_slash] at text
    exact (List.cons.inj text).2.symm
  have noComment : ∀ d ds, isBlank d = false → c = '/' → cs ++ rest ≠ d :: ds := by
    intro d ds notBlank same follows
    rw [slash same, nil_append] at follows
    have blank : isBlank d = true := apart d (by rw [follows]; rfl)
    exact absurd blank (by rw [notBlank]; decide)
  rw [nil_append, cons_append, gap, if_neg solid]
  · exact fun ds same => noComment '/' ds (by decide) same
  · exact fun ds same => noComment '*' ds (by decide) same

/-! ### Scans -/

/-- The scan ends behind a gap that reaches the end of the text. -/
theorem scanFrom_end {cursor : Cursor}
    (skipped : gap .plain cursor.offset cursor.rest = ⟨filler, [], none⟩) :
    (scanFrom cursor).words = [(.eof, [])] ∧ (scanFrom cursor).diagnostics = [] := by
  rw [scanFrom]
  split
  · simp [Scan.words, eofAt, skipped, unclosedComment]
  · next found => simp [skipped] at found

/-- One word is read, and the scan goes on behind it. -/
theorem scanFrom_word (h : Lexeme kind value text) (inside : kind ≠ .eof) (apart : Apart rest)
    (trivia : Trivia filler) (cursor : Cursor) (here : cursor.rest = filler ++ (text ++ rest)) :
    ∃ behind : Cursor, behind.rest = rest ∧
      (scanFrom cursor).words = (kind, value) :: (scanFrom behind).words ∧
      (scanFrom cursor).diagnostics = (scanFrom behind).diagnostics := by
  have skipped := trivia.skips (h.solid inside apart) cursor.offset
  obtain ⟨c, cs, rfl, cut⟩ := h.piece_eq inside apart
  rw [← here] at skipped
  refine ⟨(cursor.past filler (c :: cs ++ rest)).past (c :: cs) rest, rfl, ?_⟩
  rw [scanFrom.eq_def cursor]
  dsimp only
  split
  · next found => simp [skipped] at found
  · next d ds found =>
      obtain ⟨rfl, rfl⟩ : c = d ∧ cs ++ rest = ds := by simpa [skipped] using found
      simp [Scan.words, skipped, cut, unclosedComment]

variable {words : List (TokenKind × List Char)}

theorem scanFrom_rendering (rendered : Rendering words text)
    (spelled : ∀ w ∈ words, Spells w.1 w.2) (trivia : Trivia filler) (cursor : Cursor)
    (here : cursor.rest = filler ++ text) :
    (scanFrom cursor).words = words ++ [(.eof, [])] ∧ (scanFrom cursor).diagnostics = [] := by
  induction rendered generalizing filler cursor with
  | nil =>
    have skipped := trivia.skips skips_nil cursor.offset
    rw [← here] at skipped
    exact scanFrom_end skipped
  | last kind lexeme =>
    obtain ⟨inside, isLexeme⟩ := (spelled _ (.head _)).lexeme
    have apart : Apart [] := by simp [Apart]
    obtain ⟨behind, rest, read, clean⟩ :=
      scanFrom_word isLexeme inside apart trivia cursor (by rw [here, append_nil])
    have last : gap .plain behind.offset behind.rest = ⟨[], [], none⟩ := by
      rw [rest]
      exact skips_nil _
    rw [read, clean, (scanFrom_end last).1, (scanFrom_end last).2]
    exact ⟨rfl, rfl⟩
  | cons kind lexeme apart more ih =>
    obtain ⟨first, others⟩ := forall_mem_cons.mp spelled
    obtain ⟨inside, isLexeme⟩ := first.lexeme
    cases apart with
    | mk blank trivia' =>
      obtain ⟨behind, rest, read, clean⟩ :=
        scanFrom_word isLexeme inside (by simpa [Apart] using blank) trivia cursor here
      obtain ⟨later, laterClean⟩ := ih others (.blank blank trivia') behind rest
      rw [read, clean, later, laterClean]
      exact ⟨rfl, rfl⟩

/-- Words that are written with separators between them are scanned as these words, then the end of
the text, without a complaint. -/
theorem scan_undoes_rendering {text : List Char}
    (spelled : ∀ w ∈ words, Spells w.1 w.2) (rendered : Rendering words text) :
    (scan text).words = words ++ [(.eof, [])] ∧ (scan text).diagnostics = [] :=
  scanFrom_rendering rendered spelled .nil (.ofText text) rfl

/-- Words next to what they could be mistaken for: a slash before comments, a quote and a backslash in
a literal, a keyword that starts a name. -/
def closeWords : List (TokenKind × List Char) :=
  [(.slash, ['/']), (.stringLiteral, ['"', '\\', 'é', '\n']), (.kwIf, ['i', 'f']),
   (.identifier, ['i', 'f', 'f']), (.floatLiteral, ['1', '_', '.', '0'])]

def closeText : List Char := "/ //\n/***/\"\\\"\\\\é\\n\"\tif iff 1_.0".toList

theorem closeWords_spelled : ∀ w ∈ closeWords, Spells w.1 w.2 := by
  have fraction : Lexeme .floatLiteral (['1', '_'] ++ ['.', '0']) (['1', '_'] ++ ['.', '0']) :=
    .float (by decide) (all_eq_true.mp rfl) (by decide) (by simp)
  have free : ∀ kind : TokenKind, kind.spelling? ≠ some (String.ofList ['i', 'f', 'f']) := by
    intro kind
    cases kind <;> decide
  simp only [closeWords, forall_mem_cons]
  exact ⟨.inr ⟨by decide, .fixed rfl⟩, .inl rfl, .inr ⟨by decide, .fixed rfl⟩,
    .inr ⟨by decide, .identifier (by decide) (all_eq_true.mp rfl) free⟩, .inr ⟨by decide, fraction⟩,
    by simp⟩

theorem closeText_rendering : Rendering closeWords closeText := by
  have blank : ∀ c, isBlank c = true → Separator [c] := fun c h => .mk h .nil
  have block : Trivia ('/' :: '*' :: (['*'] ++ ['*', '/'])) := .block (by decide) .nil
  have comments : Separator (' ' :: '/' :: '/' :: ([] ++ '\n' :: '/' :: '*' :: (['*'] ++ ['*', '/']))) :=
    .mk (by decide) (.line (by simp) block)
  exact .cons _ _ comments <| .cons _ _ (blank '\t' (by decide)) <|
    .cons _ _ (blank ' ' (by decide)) <| .cons _ _ (blank ' ' (by decide)) <| .last _ _

theorem scan_undoes_rendering_closeText :
    (scan closeText).words = closeWords ++ [(.eof, [])] ∧ (scan closeText).diagnostics = [] :=
  scan_undoes_rendering closeWords_spelled closeText_rendering

end BlFront.Token
