import BlFront.Proofs.Syntax.Accepting.Stmt

/-!
# Printing and parsing

A tree is written down in words, with parentheses only around a part that is looser than its place
allows.  Tokens that spell the words derive the tree again, and so the parser reads it back.

A floating point number has many spellings; the one to use is given for each node.
-/

namespace BlFront

open List

open Grammar

/-! ### Words -/

/-- What matters of a token: its kind, and its lexeme if the kind does not tell it. -/
inductive Word where
  | mark (kind : TokenKind)
  | text (kind : TokenKind) (lexeme : String)
  deriving DecidableEq, Repr

def Token.toWord (t : Token) : Word :=
  match t.kind with
  | .intLiteral | .floatLiteral | .stringLiteral | .identifier => .text t.kind t.lexeme
  | kind => .mark kind

/-- A token has the kind that a word tells, and its lexeme. -/
def Word.Fits : Word → Token → Prop
  | .mark kind, t => t.kind = kind
  | .text kind lexeme, t => t.kind = kind ∧ t.lexeme = lexeme

theorem Token.toWord_fits (t : Token) : t.toWord.Fits t := by
  unfold Token.toWord
  split
  all_goals first | exact ⟨rfl, rfl⟩ | rfl

/-- Words with commas between them. -/
def withCommas : List (List Word) → List Word
  | [] => []
  | [ws] => ws
  | ws :: more => ws ++ .mark .comma :: withCommas more

/-! ### The words of a tree -/

def TypeExpr.words : TypeExpr → List Word
  | .named _ name => [.text .identifier name]
  | .array _ element => .mark .leftBracket :: (element.words ++ [.mark .rightBracket])

def TypedName.words (n : TypedName) : List Word :=
  .text .identifier n.name :: .mark .colon :: n.type.words

def Literal.word (lexeme : String) : Literal → Word
  | .int value => .text .intLiteral (toString value)
  | .float _ => .text .floatLiteral lexeme
  | .string value => .text .stringLiteral value
  | .bool true => .mark .kwTrue
  | .bool false => .mark .kwFalse
  | .unit => .mark .kwUnit

/-- The level of the grammar to which an expression belongs without parentheses. -/
def Expr.level : Expr → Nat
  | .assign _ _ _ => 1
  | .binary _ op _ _ => op.level
  | .unary _ _ _ => 8
  | .select _ _ _ => 9
  | .call _ _ _ | .methodCall _ _ _ _ | .index _ _ _ => 10
  | .literal _ _ | .array _ _ | .reference _ _ | .selfRef _ => 11

/-- The words of an expression at a place for expressions of a level. -/
def parenthesized (level : Nat) (e : Expr) (ws : List Word) : List Word :=
  if e.level < level then .mark .leftParen :: (ws ++ [.mark .rightParen]) else ws

mutual

/-- The words of an expression; `lexeme` gives the spelling of a floating point number. -/
def Expr.words (lexeme : Tag → String) : Expr → List Word
  | .literal tag value => [value.word (lexeme tag)]
  | .array _ elements =>
    .mark .leftBracket :: (withCommas (exprsWords lexeme elements) ++ [.mark .rightBracket])
  | .reference _ name => [.text .identifier name]
  | .selfRef _ => [.mark .kwSelf]
  | .unary _ op operand => .mark op.kind :: parenthesized 8 operand (operand.words lexeme)
  | .binary _ op left right =>
    parenthesized op.level left (left.words lexeme) ++
      .mark op.kind :: parenthesized (op.level + 1) right (right.words lexeme)
  | .assign _ target value =>
    parenthesized 2 target (target.words lexeme) ++ .mark .equal :: value.words lexeme
  | .call _ callee args =>
    parenthesized 10 callee (callee.words lexeme) ++
      .mark .leftParen :: (withCommas (exprsWords lexeme args) ++ [.mark .rightParen])
  | .methodCall _ receiver method args =>
    parenthesized 9 receiver (receiver.words lexeme) ++
      .mark .dot :: .text .identifier method ::
        .mark .leftParen :: (withCommas (exprsWords lexeme args) ++ [.mark .rightParen])
  | .select _ object field =>
    parenthesized 9 object (object.words lexeme) ++ [.mark .dot, .text .identifier field]
  | .index _ object position =>
    parenthesized 9 object (object.words lexeme) ++
      .mark .leftBracket :: (position.words lexeme ++ [.mark .rightBracket])

def exprsWords (lexeme : Tag → String) : List Expr → List (List Word)
  | [] => []
  | e :: es => e.words lexeme :: exprsWords lexeme es

end

/-- The words of a type behind a mark, or none. -/
def typeWords (mark : TokenKind) : Option TypeExpr → List Word
  | none => []
  | some type => .mark mark :: type.words

def StructDecl.words (d : StructDecl) : List Word :=
  .mark .kwStruct :: .text .identifier d.name :: .mark .leftBrace ::
    (withCommas (d.fields.map TypedName.words) ++ [.mark .rightBrace])

def VarDecl.words (lexeme : Tag → String) (d : VarDecl) : List Word :=
  .mark .kwVar :: .text .identifier d.name ::
    (typeWords .colon d.type ++ .mark .equal :: (d.initializer.words lexeme ++ [.mark .semicolon]))

def superclassWords : Option Ident → List Word
  | none => []
  | some i => [.mark .colon, .text .identifier i.name]

mutual

def FunctionDecl.words (lexeme : Tag → String) : FunctionDecl → List Word
  | ⟨_, name, params, returnType, body⟩ =>
    .mark .kwFun :: .text .identifier name :: .mark .leftParen ::
      (withCommas (params.map TypedName.words) ++ .mark .rightParen ::
        (typeWords .arrow returnType ++ body.words lexeme))

def Block.words (lexeme : Tag → String) : Block → List Word
  | ⟨_, statements⟩ => .mark .leftBrace :: (stmtsWords lexeme statements ++ [.mark .rightBrace])

/-- The fields of a class stand before its methods. -/
def ClassDecl.words (lexeme : Tag → String) : ClassDecl → List Word
  | ⟨_, name, superclass, fields, methods⟩ =>
    .mark .kwClass :: .text .identifier name ::
      (superclassWords superclass ++ .mark .leftBrace ::
        (fields.flatMap (fun f => f.words ++ [.mark .semicolon]) ++
          (methodsWords lexeme methods ++ [.mark .rightBrace])))

def Stmt.words (lexeme : Tag → String) : Stmt → List Word
  | .funDecl decl => decl.words lexeme
  | .structDecl decl => decl.words
  | .classDecl decl => decl.words lexeme
  | .varDecl decl => decl.words lexeme
  | .block block => block.words lexeme
  | .ifElse _ condition thenBranch none =>
    .mark .kwIf :: .mark .leftParen ::
      (condition.words lexeme ++ .mark .rightParen :: thenBranch.words lexeme)
  | .ifElse _ condition thenBranch (some elseBranch) =>
    .mark .kwIf :: .mark .leftParen ::
      (condition.words lexeme ++ .mark .rightParen ::
        (thenBranch.words lexeme ++ .mark .kwElse :: elseBranch.words lexeme))
  | .whileLoop _ condition body =>
    .mark .kwWhile :: .mark .leftParen ::
      (condition.words lexeme ++ .mark .rightParen :: body.words lexeme)
  | .returnStmt _ none => [.mark .kwReturn, .mark .semicolon]
  | .returnStmt _ (some value) => .mark .kwReturn :: (value.words lexeme ++ [.mark .semicolon])
  | .exprStmt _ expr => expr.words lexeme ++ [.mark .semicolon]

def stmtsWords (lexeme : Tag → String) : List Stmt → List Word
  | [] => []
  | s :: ss => s.words lexeme ++ stmtsWords lexeme ss

def methodsWords (lexeme : Tag → String) : List FunctionDecl → List Word
  | [] => []
  | f :: fs => f.words lexeme ++ methodsWords lexeme fs

end

def CompilationUnit.words (lexeme : Tag → String) (u : CompilationUnit) : List Word :=
  stmtsWords lexeme u.statements

/-! ### Trees that can be written -/

/-- Integers are natural numbers of 63 bits, and a floating point number has the value of its
lexeme. -/
def Literal.printable (lexeme : String) : Literal → Bool
  | .int value => decide (0 ≤ value ∧ value ≤ Decimal.greatestInt64)
  | .float value => decide (Decimal.float? (Parser.digitsOf lexeme) = some value)
  | _ => true

mutual

def Expr.printable (lexeme : Tag → String) : Expr → Bool
  | .literal tag value => value.printable (lexeme tag)
  | .array _ elements => printableExprs lexeme elements
  | .reference _ _ | .selfRef _ => true
  | .unary _ _ operand => operand.printable lexeme
  | .binary _ _ left right => left.printable lexeme && right.printable lexeme
  | .assign _ target value => target.printable lexeme && value.printable lexeme
  | .call _ callee args => callee.printable lexeme && printableExprs lexeme args
  | .methodCall _ receiver _ args => receiver.printable lexeme && printableExprs lexeme args
  | .select _ object _ => object.printable lexeme
  | .index _ object position => object.printable lexeme && position.printable lexeme

def printableExprs (lexeme : Tag → String) : List Expr → Bool
  | [] => true
  | e :: es => e.printable lexeme && printableExprs lexeme es

end

mutual

def FunctionDecl.printable (lexeme : Tag → String) : FunctionDecl → Bool
  | ⟨_, _, _, _, body⟩ => body.printable lexeme

def Block.printable (lexeme : Tag → String) : Block → Bool
  | ⟨_, statements⟩ => printableStmts lexeme statements

def ClassDecl.printable (lexeme : Tag → String) : ClassDecl → Bool
  | ⟨_, _, _, _, methods⟩ => printableMethods lexeme methods

/-- An `else` must not be taken by an `if` that the branch before it leaves open. -/
def Stmt.printable (lexeme : Tag → String) : Stmt → Bool
  | .funDecl decl => decl.printable lexeme
  | .structDecl _ => true
  | .classDecl decl => decl.printable lexeme
  | .varDecl decl => decl.initializer.printable lexeme
  | .block block => block.printable lexeme
  | .ifElse _ condition thenBranch none => condition.printable lexeme && thenBranch.printable lexeme
  | .ifElse _ condition thenBranch (some elseBranch) =>
    condition.printable lexeme && thenBranch.printable lexeme && !thenBranch.endsOpen &&
      elseBranch.printable lexeme
  | .whileLoop _ condition body => condition.printable lexeme && body.printable lexeme
  | .returnStmt _ none => true
  | .returnStmt _ (some value) => value.printable lexeme
  | .exprStmt _ expr => expr.printable lexeme

def printableStmts (lexeme : Tag → String) : List Stmt → Bool
  | [] => true
  | s :: ss => s.printable lexeme && printableStmts lexeme ss

def printableMethods (lexeme : Tag → String) : List FunctionDecl → Bool
  | [] => true
  | f :: fs => f.printable lexeme && printableMethods lexeme fs

end

def CompilationUnit.printable (lexeme : Tag → String) (u : CompilationUnit) : Bool :=
  printableStmts lexeme u.statements

/-! ### Numbers -/

theorem Decimal.isDigit_of_isDigit {c : Char} (h : c.isDigit = true) : Decimal.isDigit c = true := by
  simpa [Decimal.isDigit, Char.isDigit, Char.le_def] using h

/-- The numeral of a natural number is read as that number. -/
theorem Decimal.natural?_toDigits (n : Nat) : Decimal.natural? (Nat.toDigits 10 n) = some n := by
  have digits : (Nat.toDigits 10 n).all Decimal.isDigit = true := by
    rw [all_eq_true]
    exact fun c mem => isDigit_of_isDigit (Nat.isDigit_of_mem_toDigits (by decide) (by decide) mem)
  have value : Decimal.value (Nat.toDigits 10 n) = n :=
    Nat.ofDigitChars_toDigits (by decide) (by decide)
  have some : (Nat.toDigits 10 n).isEmpty = false := by simp
  unfold Decimal.natural?
  rw [digits, some, value]
  rfl

theorem Decimal.splitSign_toDigits (n : Nat) :
    Decimal.splitSign (Nat.toDigits 10 n) = (false, Nat.toDigits 10 n) := by
  have digit : ∀ c ∈ Nat.toDigits 10 n, c.isDigit = true :=
    fun c mem => Nat.isDigit_of_mem_toDigits (by decide) (by decide) mem
  unfold Decimal.splitSign
  split
  · next same => exact absurd (digit '-' (by rw [same]; exact mem_cons_self ..)) (by decide)
  · next same => exact absurd (digit '+' (by rw [same]; exact mem_cons_self ..)) (by decide)
  · rfl

theorem filter_toString (n : Nat) :
    (toString (n : Int)).toList.filter (· != '_') = Nat.toDigits 10 n := by
  have chars : (toString (n : Int)).toList = Nat.toDigits 10 n := Nat.toList_repr
  rw [chars, filter_eq_self]
  intro c mem
  have digit := Nat.isDigit_of_mem_toDigits (by decide) (by decide) mem
  simp only [bne_iff_ne, ne_eq]
  rintro rfl
  simp at digit

/-- The words of a literal are those of a token that spells it. -/
theorem Literal.spells {lexeme : String} {value : Literal} {t : Token}
    (h : value.printable lexeme = true) (written : (value.word lexeme).Fits t) : Spells t value := by
  cases value with
  | int v =>
    obtain ⟨kind, text⟩ := written
    obtain ⟨nonneg, le⟩ : 0 ≤ v ∧ v ≤ Decimal.greatestInt64 := by simpa [Literal.printable] using h
    obtain ⟨n, rfl⟩ := Int.eq_ofNat_of_zero_le nonneg
    refine .int kind ?_
    have fits : Decimal.leastInt64 ≤ (n : Int) := by
      have : Decimal.leastInt64 ≤ 0 := by decide
      omega
    unfold Decimal.int64? Decimal.integer?
    rw [text, filter_toString, Decimal.splitSign_toDigits]
    simp [Decimal.natural?_toDigits, fits, le]
  | float v =>
    obtain ⟨kind, text⟩ := written
    refine .float kind ?_
    rw [text]
    exact of_decide_eq_true h
  | string v =>
    obtain ⟨kind, rfl⟩ := written
    exact .string kind
  | bool v =>
    cases v with
    | true => exact .yes written
    | false => exact .no written
  | unit => exact .unit written

/-! ### Written words -/

/-- The tokens by which the first list is longer than the second fit the words. -/
def Written (ws : List Word) (a b : List Token) : Prop :=
  ∃ front, a = front ++ b ∧ List.Forall₂ Word.Fits ws front

/-- Tokens that fit the words derive the tree, up to what is lost in plain trees. -/
def Reads {α : Type} (phrase : Phrase) (plain : phrase.Tree → α) (ws : List Word)
    (x : phrase.Tree) : Prop :=
  ∀ ⦃a b : List Token⦄, Written ws a b → ∃ x', plain x' = plain x ∧ Derives phrase a x' b

section Written

variable {ws more : List Word} {w : Word} {a b : List Token}

theorem written_nil : Written [] a b ↔ a = b := by
  constructor
  · rintro ⟨_, rfl, ⟨⟩⟩
    rfl
  · rintro rfl
    exact ⟨[], rfl, .nil⟩

theorem written_cons :
    Written (w :: ws) a b ↔ ∃ t m, a = t :: m ∧ w.Fits t ∧ Written ws m b := by
  constructor
  · rintro ⟨front, rfl, fits⟩
    obtain ⟨t, rest, first, others, rfl⟩ := forall₂_cons_left_iff.mp fits
    exact ⟨t, rest ++ b, rfl, first, rest, rfl, others⟩
  · rintro ⟨t, m, rfl, first, front, rfl, others⟩
    exact ⟨t :: front, rfl, .cons first others⟩

theorem written_append : Written (ws ++ more) a b ↔ ∃ m, Written ws a m ∧ Written more m b := by
  induction ws generalizing a with
  | nil => simp [written_nil]
  | cons w ws ih =>
    simp only [cons_append, written_cons, ih]
    constructor
    · rintro ⟨t, m, rfl, first, n, before, behind⟩
      exact ⟨n, ⟨t, m, rfl, first, before⟩, behind⟩
    · rintro ⟨n, ⟨t, m, rfl, first, before⟩, behind⟩
      exact ⟨t, m, rfl, first, n, before, behind⟩

/-- Words end in a token of their own. -/
theorem Written.ends (h : Written ws a b) (longer : b.length < a.length) :
    ∃ seen last, a = seen ++ last :: b := by
  obtain ⟨front, rfl, -⟩ := h
  rcases eq_nil_or_concat front with rfl | ⟨seen, last, rfl⟩
  · simp at longer
  · exact ⟨seen, last, by simp⟩

/-- A list whose items are read, with commas between them. -/
theorem withCommas_read {α β : Type} {Item : List Token → α → List Token → Prop}
    {Items Inner : List Token → List α → List Token → Prop} (listing : Parser.Listing Item Items Inner)
    {plain : α → β} {words : α → List Word} {xs : List α}
    (items : ∀ x ∈ xs, ∀ ⦃a b⦄, Written (words x) a b → ∃ x', plain x' = plain x ∧ Item a x' b)
    (h : Written (withCommas (xs.map words)) a b) :
    ∃ xs', xs'.map plain = xs.map plain ∧ Inner a xs' b ∧ (xs ≠ [] → Items a xs' b) := by
  induction xs generalizing a with
  | nil =>
    obtain rfl := written_nil.mp h
    exact ⟨[], rfl, listing.none, fun some => absurd rfl some⟩
  | cons x xs ih =>
    cases xs with
    | nil =>
      obtain ⟨x', same, read⟩ := items x (by simp) h
      exact ⟨[x'], by simp [same], listing.some (listing.last read), fun _ => listing.last read⟩
    | cons next xs =>
      simp only [map_cons, withCommas, written_append, written_cons] at h
      obtain ⟨_, first, c, _, rfl, comma, others⟩ := h
      obtain ⟨x', same, read⟩ := items x (by simp) first
      obtain ⟨xs', sames, -, more⟩ := ih (fun y mem => items y (by simp [mem])) others
      have all := listing.next read comma (more (by simp))
      exact ⟨x' :: xs', by simpa [same] using sames, listing.some all, fun _ => all⟩

end Written

/-! ### Types -/

theorem TypeExpr.derives (t : TypeExpr) : Reads .type TypeExpr.plain t.words t := by
  induction t with
  | named tag name =>
    intro a b h
    simp only [TypeExpr.words, written_cons, written_nil, Word.Fits] at h
    obtain ⟨n, _, rfl, ⟨kind, rfl⟩, rfl⟩ := h
    exact ⟨.named ⟨tag.id, n.span⟩ n.lexeme, rfl, .named kind⟩
  | array tag element ih =>
    intro a b h
    simp only [TypeExpr.words, written_cons, written_append, written_nil, Word.Fits] at h
    obtain ⟨l, _, rfl, opens, m, inner, r, _, rfl, closes, rfl⟩ := h
    obtain ⟨element', same, derives⟩ := ih inner
    exact ⟨.array ⟨tag.id, l.span.merge r.span⟩ element', by simp only [TypeExpr.plain, same],
      .arrayType opens derives closes⟩

theorem typeAfter_derives {mark : TokenKind} (t : Option TypeExpr) :
    Reads (.typeAfter mark) (Option.map TypeExpr.plain) (typeWords mark t) t := by
  intro a b h
  cases t with
  | none =>
    obtain rfl := written_nil.mp h
    exact ⟨none, rfl, .untyped⟩
  | some t =>
    obtain ⟨m, _, rfl, marks, written⟩ := written_cons.mp h
    obtain ⟨t', same, derives⟩ := t.derives written
    exact ⟨some t', by simp [same], .typed marks derives⟩

theorem TypedName.derives (n : TypedName) : Reads .typedName TypedName.plain n.words n := by
  intro a b h
  simp only [TypedName.words, written_cons, Word.Fits] at h
  obtain ⟨name, _, rfl, ⟨kind, same⟩, c, _, rfl, colon, written⟩ := h
  obtain ⟨type', sameType, derives⟩ := n.type.derives written
  exact ⟨⟨⟨n.tag.id, _⟩, _, type'⟩, by simp only [TypedName.plain, same, sameType],
    .typedName kind colon derives⟩

theorem fields_listing :
    Parser.Listing (Derives .typedName) (Derives .fields) (Derives .fields) :=
  ⟨.lastField, .nextField, .noFields, id⟩

/-! ### Expressions -/

theorem Expr.level_pos (e : Expr) : 1 ≤ e.level := by
  cases e with
  | binary _ op _ _ => exact Nat.le_of_lt op.level_bounds.1
  | _ => simp [Expr.level]

/-- An expression at its place, in parentheses if it needs them. -/
theorem reads_parenthesized {level : Nat} {e : Expr} {ws : List Word} (le : level ≤ 11)
    (inner : Reads (.expr e.level) Expr.plain ws e) :
    Reads (.expr level) Expr.plain (parenthesized level e ws) e := by
  intro a b h
  unfold parenthesized at h
  split at h
  · simp only [written_cons, written_append, written_nil, Word.Fits] at h
    obtain ⟨l, _, rfl, opens, m, written, r, _, rfl, closes, rfl⟩ := h
    obtain ⟨e', same, derives⟩ := inner written
    have whole : Derives (.expr 1) _ e' _ := derives.lower e.level_pos
    refine ⟨e'.withSpan (l.span.merge r.span), by simp [same], ?_⟩
    exact (Derives.paren opens whole closes).lower le
  · obtain ⟨e', same, derives⟩ := inner h
    exact ⟨e', same, derives.lower (by omega)⟩

/-- A whole expression, at a place where none needs parentheses. -/
theorem Reads.inner {e : Expr} {ws : List Word} (h : Reads (.expr e.level) Expr.plain ws e) :
    Reads (.expr 1) Expr.plain ws e := by
  intro a b written
  obtain ⟨e', same, derives⟩ := h written
  exact ⟨e', same, derives.lower e.level_pos⟩

variable {lexeme : Tag → String}

theorem exprsWords_eq_map (es : List Expr) :
    exprsWords lexeme es = es.map (Expr.words lexeme) := by
  induction es with
  | nil => rfl
  | cons e es ih => rw [exprsWords, ih, map_cons]

theorem plainExprs_eq_map (es : List Expr) : plainExprs es = es.map Expr.plain := by
  induction es with
  | nil => rfl
  | cons e es ih => rw [plainExprs, ih, map_cons]

theorem args_read {es : List Expr}
    (each : ∀ e ∈ es, Reads (.expr e.level) Expr.plain (e.words lexeme) e) :
    Reads .args plainExprs (withCommas (exprsWords lexeme es)) es := by
  intro a b h
  rw [exprsWords_eq_map] at h
  obtain ⟨es', sames, derives, -⟩ := withCommas_read Parser.args_listing
    (fun e mem => (each e mem).inner) h
  exact ⟨es', by rw [plainExprs_eq_map, plainExprs_eq_map, sames], derives⟩

mutual

theorem Expr.derives (e : Expr) (ok : e.printable lexeme = true) :
    Reads (.expr e.level) Expr.plain (e.words lexeme) e := by
  intro a b h
  match e with
  | .literal tag value =>
    simp only [Expr.words, written_cons, written_nil] at h
    obtain ⟨t, _, rfl, word, rfl⟩ := h
    exact ⟨.literal ⟨tag.id, t.span⟩ value, rfl, .literal (Literal.spells ok word)⟩
  | .array tag elements =>
    simp only [Expr.words, written_cons, written_append, written_nil, Word.Fits] at h
    obtain ⟨l, _, rfl, opens, m, inner, r, _, rfl, closes, rfl⟩ := h
    obtain ⟨elements', same, derives⟩ := args_read (exprs_derive elements ok) inner
    exact ⟨.array ⟨tag.id, l.span.merge r.span⟩ elements', by simp only [Expr.plain, same],
      .array opens derives closes⟩
  | .reference tag name =>
    simp only [Expr.words, written_cons, written_nil, Word.Fits] at h
    obtain ⟨n, _, rfl, ⟨kind, rfl⟩, rfl⟩ := h
    exact ⟨.reference ⟨tag.id, n.span⟩ n.lexeme, rfl, .reference kind⟩
  | .selfRef tag =>
    simp only [Expr.words, written_cons, written_nil, Word.Fits] at h
    obtain ⟨t, _, rfl, word, rfl⟩ := h
    exact ⟨.selfRef ⟨tag.id, t.span⟩, rfl, .selfRef word⟩
  | .unary tag op operand =>
    simp only [Expr.words, written_cons, Word.Fits] at h
    obtain ⟨t, _, rfl, word, inner⟩ := h
    obtain ⟨x, same, derives⟩ := reads_parenthesized (by decide) (operand.derives ok) inner
    have sign : t.kind = op.kind := word
    exact ⟨.unary ⟨tag.id, t.span.merge x.span⟩ op x, by simp only [Expr.plain, same],
      .unary sign derives⟩
  | .binary tag op left right =>
    simp only [Expr.printable, Bool.and_eq_true] at ok
    simp only [Expr.words, written_cons, written_append, Word.Fits] at h
    obtain ⟨_, before, t, _, rfl, word, behind⟩ := h
    have bounds := op.level_bounds
    obtain ⟨x, same, leftDerives⟩ := reads_parenthesized (by omega) (left.derives ok.1) before
    obtain ⟨y, same', rightDerives⟩ := reads_parenthesized (by omega) (right.derives ok.2) behind
    have sign : t.kind = op.kind := word
    exact ⟨.binary ⟨tag.id, x.span.merge y.span⟩ op x y, by simp only [Expr.plain, same, same'],
      .binary leftDerives sign rightDerives⟩
  | .assign tag target value =>
    simp only [Expr.printable, Bool.and_eq_true] at ok
    simp only [Expr.words, written_cons, written_append, Word.Fits] at h
    obtain ⟨_, before, t, _, rfl, word, behind⟩ := h
    obtain ⟨x, same, leftDerives⟩ := reads_parenthesized (by decide) (target.derives ok.1) before
    obtain ⟨y, same', rightDerives⟩ := (value.derives ok.2).inner behind
    exact ⟨.assign ⟨tag.id, x.span.merge y.span⟩ x y, by simp only [Expr.plain, same, same'],
      .assign leftDerives word rightDerives⟩
  | .call tag callee args =>
    simp only [Expr.printable, Bool.and_eq_true] at ok
    simp only [Expr.words, written_cons, written_append, written_nil, Word.Fits] at h
    obtain ⟨_, before, l, _, rfl, opens, _, inner, r, _, rfl, closes, rfl⟩ := h
    obtain ⟨x, same, head⟩ := reads_parenthesized (by decide) (callee.derives ok.1) before
    obtain ⟨args', sames, derives⟩ := args_read (exprs_derive args ok.2) inner
    exact ⟨.call ⟨tag.id, x.span.merge r.span⟩ x args', by simp only [Expr.plain, same, sames],
      .call head opens derives closes⟩
  | .methodCall tag receiver method args =>
    simp only [Expr.printable, Bool.and_eq_true] at ok
    simp only [Expr.words, written_cons, written_append, written_nil, Word.Fits] at h
    obtain ⟨_, before, d, _, rfl, dot, n, _, rfl, ⟨kind, rfl⟩, l, _, rfl, opens, _, inner, r, _,
      rfl, closes, rfl⟩ := h
    obtain ⟨x, same, head⟩ := reads_parenthesized (by decide) (receiver.derives ok.1) before
    obtain ⟨args', sames, derives⟩ := args_read (exprs_derive args ok.2) inner
    exact ⟨.methodCall ⟨tag.id, x.span.merge r.span⟩ x n.lexeme args',
      by simp only [Expr.plain, same, sames], .methodCall head dot kind opens derives closes⟩
  | .select tag object field =>
    simp only [Expr.words, written_cons, written_append, written_nil, Word.Fits] at h
    obtain ⟨_, before, d, _, rfl, dot, n, _, rfl, ⟨kind, rfl⟩, rfl⟩ := h
    obtain ⟨x, same, head⟩ := reads_parenthesized (by decide) (object.derives ok) before
    exact ⟨.select ⟨tag.id, x.span.merge n.span⟩ x n.lexeme, by simp only [Expr.plain, same],
      .select head dot kind⟩
  | .index tag object position =>
    simp only [Expr.printable, Bool.and_eq_true] at ok
    simp only [Expr.words, written_cons, written_append, written_nil, Word.Fits] at h
    obtain ⟨_, before, l, _, rfl, opens, _, inner, r, _, rfl, closes, rfl⟩ := h
    obtain ⟨x, same, head⟩ := reads_parenthesized (by decide) (object.derives ok.1) before
    obtain ⟨p, same', derives⟩ := (position.derives ok.2).inner inner
    exact ⟨.index ⟨tag.id, x.span.merge r.span⟩ x p, by simp only [Expr.plain, same, same'],
      .index head opens derives closes⟩

theorem exprs_derive (es : List Expr) (ok : printableExprs lexeme es = true) :
    ∀ e ∈ es, Reads (.expr e.level) Expr.plain (e.words lexeme) e := by
  match es with
  | [] => simp
  | e :: es =>
    rw [printableExprs, Bool.and_eq_true] at ok
    exact forall_mem_cons.mpr ⟨e.derives ok.1, exprs_derive es ok.2⟩

end

/-! ### Statements -/

theorem fieldMembers_derive (xs : List TypedName) {fs : List FunctionDecl} {a m b : List Token}
    (h : Written (xs.flatMap fun f => f.words ++ [.mark .semicolon]) a m)
    (methods : Derives .members m ([], fs) b) :
    ∃ xs' : List TypedName, xs'.map TypedName.plain = xs.map TypedName.plain ∧
      Derives .members a (xs', fs) b := by
  induction xs generalizing a with
  | nil =>
    obtain rfl := written_nil.mp h
    exact ⟨[], rfl, methods⟩
  | cons x xs ih =>
    simp only [flatMap_cons, append_assoc, written_append, written_cons, written_nil] at h
    obtain ⟨_, first, _, ⟨t, _, rfl, semicolon, rfl⟩, others⟩ := h
    obtain ⟨x', same, derives⟩ := x.derives first
    obtain ⟨xs', sames, more⟩ := ih others
    exact ⟨x' :: xs', by simp [same, sames], .fieldMember derives semicolon more⟩

theorem inherits_derives (i : Option Ident) {a b : List Token} (h : Written (superclassWords i) a b) :
    ∃ i' : Option Ident, i'.map Ident.plain = i.map Ident.plain ∧ Inherits a i' b := by
  cases i with
  | none =>
    obtain rfl := written_nil.mp h
    exact ⟨none, rfl, .nothing⟩
  | some i =>
    simp only [superclassWords, written_cons, written_nil, Word.Fits] at h
    obtain ⟨c, _, rfl, colon, n, _, rfl, ⟨kind, same⟩, rfl⟩ := h
    exact ⟨some ⟨n.lexeme, n.span⟩, by simp [Ident.plain, same], .named colon kind⟩

theorem StructDecl.derives (d : StructDecl) : Reads .stmt Stmt.plain d.words (.structDecl d) := by
  intro a b h
  simp only [StructDecl.words, written_cons, written_append, written_nil, Word.Fits] at h
  obtain ⟨k, _, rfl, keyword, n, _, rfl, ⟨kind, same⟩, l, _, rfl, opens, _, inner, r, _, rfl, closes,
    rfl⟩ := h
  obtain ⟨fields', sames, derives, -⟩ :=
    withCommas_read fields_listing (fun f _ => f.derives) inner
  exact ⟨.structDecl ⟨⟨d.tag.id, k.span.merge r.span⟩, n.lexeme, fields'⟩,
    by simp only [Stmt.plain, StructDecl.plain, same, sames],
    .structDecl keyword kind opens derives closes⟩

theorem VarDecl.derives (d : VarDecl) (ok : d.initializer.printable lexeme = true) :
    Reads .stmt Stmt.plain (d.words lexeme) (.varDecl d) := by
  intro a b h
  simp only [VarDecl.words, written_cons, written_append, written_nil, Word.Fits] at h
  obtain ⟨k, _, rfl, keyword, n, _, rfl, ⟨kind, same⟩, _, typed, q, _, rfl, sign, _, value, t, _, rfl,
    semicolon, rfl⟩ := h
  obtain ⟨type', sameType, written⟩ := typeAfter_derives d.type typed
  obtain ⟨e', sameValue, derives⟩ := (d.initializer.derives ok).inner value
  exact ⟨.varDecl ⟨⟨d.tag.id, k.span.merge t.span⟩, n.lexeme, type', e'⟩,
    by simp only [Stmt.plain, VarDecl.plain, same, sameType, sameValue],
    .varDecl keyword kind written sign derives semicolon⟩

theorem Stmt.endsOpen_plain (s : Stmt) : s.plain.endsOpen = s.endsOpen := by
  match s with
  | .ifElse _ _ _ none => rfl
  | .ifElse _ _ _ (some elseBranch) => exact elseBranch.endsOpen_plain
  | .whileLoop _ _ body => exact body.endsOpen_plain
  | .funDecl _ | .structDecl _ | .classDecl _ | .varDecl _ | .block _ | .returnStmt _ _
  | .exprStmt _ _ => rfl

mutual

theorem FunctionDecl.derives (f : FunctionDecl) (ok : f.printable lexeme = true) :
    Reads .function FunctionDecl.plain (f.words lexeme) f := by
  intro a b h
  match f with
  | ⟨tag, name, params, returnType, body⟩ =>
    simp only [FunctionDecl.words, written_cons, written_append, Word.Fits] at h
    obtain ⟨k, _, rfl, keyword, n, _, rfl, ⟨kind, same⟩, l, _, rfl, opens, _, inner, r, _, rfl,
      closes, _, typed, does⟩ := h
    obtain ⟨params', sames, list, -⟩ :=
      withCommas_read Parser.params_listing (fun p _ => p.derives) inner
    obtain ⟨type', sameType, returns⟩ := typeAfter_derives returnType typed
    obtain ⟨body', sameBody, derives⟩ := body.derives ok does
    exact ⟨⟨⟨tag.id, k.span.merge body'.tag.span⟩, n.lexeme, params', type', body'⟩,
      by simp only [FunctionDecl.plain, same, sames, sameType, sameBody],
      .function keyword kind opens list closes returns derives⟩

theorem Block.derives (block : Block) (ok : block.printable lexeme = true) :
    Reads .block Block.plain (block.words lexeme) block := by
  intro a b h
  match block with
  | ⟨tag, statements⟩ =>
    simp only [Block.words, written_cons, written_append, written_nil, Word.Fits] at h
    obtain ⟨l, _, rfl, opens, _, inner, r, _, rfl, closes, rfl⟩ := h
    obtain ⟨statements', sames, derives⟩ := stmts_derive statements ok inner
    exact ⟨⟨⟨tag.id, l.span.merge r.span⟩, statements'⟩, by simp only [Block.plain, sames],
      .block opens derives closes⟩

theorem ClassDecl.derives (d : ClassDecl) (ok : d.printable lexeme = true) :
    Reads .stmt Stmt.plain (d.words lexeme) (.classDecl d) := by
  intro a b h
  match d with
  | ⟨tag, name, superclass, fields, methods⟩ =>
    simp only [ClassDecl.words, written_cons, written_append, written_nil, Word.Fits] at h
    obtain ⟨k, _, rfl, keyword, n, _, rfl, ⟨kind, same⟩, _, inherited, l, _, rfl, opens, _, listed,
      _, coded, r, _, rfl, closes, rfl⟩ := h
    obtain ⟨superclass', sameSuper, inherits⟩ := inherits_derives superclass inherited
    obtain ⟨methods', sameMethods, members⟩ := methods_derive methods ok coded
    obtain ⟨fields', sameFields, derives⟩ := fieldMembers_derive fields listed members
    exact ⟨.classDecl ⟨⟨tag.id, k.span.merge r.span⟩, n.lexeme, superclass', fields', methods'⟩,
      by simp only [Stmt.plain, ClassDecl.plain, same, sameSuper, sameFields, sameMethods],
      .classDecl keyword kind inherits opens derives closes⟩

theorem Stmt.derives (s : Stmt) (ok : s.printable lexeme = true) :
    Reads .stmt Stmt.plain (s.words lexeme) s := by
  intro a b h
  match s with
  | .funDecl f =>
    obtain ⟨f', same, derives⟩ := f.derives ok h
    exact ⟨.funDecl f', by simp only [Stmt.plain, same], .funDecl derives⟩
  | .structDecl d => exact d.derives h
  | .classDecl d => exact d.derives ok h
  | .varDecl d => exact d.derives ok h
  | .block block =>
    obtain ⟨block', same, derives⟩ := block.derives ok h
    exact ⟨.block block', by simp only [Stmt.plain, same], .blockStmt derives⟩
  | .ifElse tag condition thenBranch none =>
    simp only [Stmt.printable, Bool.and_eq_true] at ok
    simp only [Stmt.words, written_cons, written_append, Word.Fits] at h
    obtain ⟨k, _, rfl, keyword, l, _, rfl, opens, _, tested, r, m, rfl, closes, branched⟩ := h
    obtain ⟨cond, sameCond, condDerives⟩ := (condition.derives ok.1).inner tested
    obtain ⟨first, sameFirst, branch⟩ := thenBranch.derives ok.2 branched
    obtain ⟨seen, last, ends⟩ := branched.ends branch.length_le
    exact ⟨.ifElse ⟨tag.id, k.span.merge last.span⟩ cond first none,
      by simp only [Stmt.plain, sameCond, sameFirst],
      .ifThen keyword opens condDerives closes branch ends⟩
  | .ifElse tag condition thenBranch (some elseBranch) =>
    simp only [Stmt.printable, Bool.and_eq_true, Bool.not_eq_true'] at ok
    obtain ⟨⟨⟨okCond, okFirst⟩, closed⟩, okSecond⟩ := ok
    simp only [Stmt.words, written_cons, written_append, Word.Fits] at h
    obtain ⟨k, _, rfl, keyword, l, _, rfl, opens, _, tested, r, m, rfl, closes, _, branched, e, _,
      rfl, other, alternative⟩ := h
    obtain ⟨cond, sameCond, condDerives⟩ := (condition.derives okCond).inner tested
    obtain ⟨first, sameFirst, branch⟩ := thenBranch.derives okFirst branched
    obtain ⟨second, sameSecond, otherwise⟩ := elseBranch.derives okSecond alternative
    obtain ⟨seen, last, ends⟩ := alternative.ends otherwise.length_le
    have firstClosed : first.endsOpen = false := by
      rw [← first.endsOpen_plain, sameFirst, thenBranch.endsOpen_plain, closed]
    exact ⟨.ifElse ⟨tag.id, k.span.merge last.span⟩ cond first (some second),
      by simp only [Stmt.plain, sameCond, sameFirst, sameSecond],
      .ifElse keyword opens condDerives closes branch firstClosed other otherwise ends⟩
  | .whileLoop tag condition body =>
    simp only [Stmt.printable, Bool.and_eq_true] at ok
    simp only [Stmt.words, written_cons, written_append, Word.Fits] at h
    obtain ⟨k, _, rfl, keyword, l, _, rfl, opens, _, tested, r, m, rfl, closes, repeated⟩ := h
    obtain ⟨cond, sameCond, condDerives⟩ := (condition.derives ok.1).inner tested
    obtain ⟨body', sameBody, loop⟩ := body.derives ok.2 repeated
    obtain ⟨seen, last, ends⟩ := repeated.ends loop.length_le
    exact ⟨.whileLoop ⟨tag.id, k.span.merge last.span⟩ cond body',
      by simp only [Stmt.plain, sameCond, sameBody],
      .whileLoop keyword opens condDerives closes loop ends⟩
  | .returnStmt tag none =>
    simp only [Stmt.words, written_cons, written_nil, Word.Fits] at h
    obtain ⟨k, _, rfl, keyword, t, _, rfl, semicolon, rfl⟩ := h
    exact ⟨.returnStmt ⟨tag.id, k.span.merge t.span⟩ none, rfl, .bareReturn keyword semicolon⟩
  | .returnStmt tag (some value) =>
    simp only [Stmt.words, written_cons, written_append, written_nil, Word.Fits] at h
    obtain ⟨k, _, rfl, keyword, _, written, t, _, rfl, semicolon, rfl⟩ := h
    obtain ⟨e, same, derives⟩ := (value.derives ok).inner written
    exact ⟨.returnStmt ⟨tag.id, k.span.merge t.span⟩ (some e),
      by simp only [Stmt.plain, Option.map_some, same], .valueReturn keyword derives semicolon⟩
  | .exprStmt tag expr =>
    simp only [Stmt.words, written_cons, written_append, written_nil, Word.Fits] at h
    obtain ⟨_, written, t, _, rfl, semicolon, rfl⟩ := h
    obtain ⟨e, same, derives⟩ := (expr.derives ok).inner written
    exact ⟨.exprStmt ⟨tag.id, e.span.merge t.span⟩ e, by simp only [Stmt.plain, same],
      .exprStmt derives semicolon⟩

theorem stmts_derive (ss : List Stmt) (ok : printableStmts lexeme ss = true) :
    Reads .stmts plainStmts (stmtsWords lexeme ss) ss := by
  intro a b h
  match ss with
  | [] =>
    obtain rfl := written_nil.mp h
    exact ⟨[], rfl, .noStmts⟩
  | s :: ss =>
    simp only [printableStmts, Bool.and_eq_true] at ok
    obtain ⟨m, first, others⟩ := written_append.mp h
    obtain ⟨s', same, derives⟩ := s.derives ok.1 first
    obtain ⟨ss', sames, more⟩ := stmts_derive ss ok.2 others
    exact ⟨s' :: ss', by simp only [plainStmts, same, sames], .nextStmt derives more⟩

theorem methods_derive (fs : List FunctionDecl) (ok : printableMethods lexeme fs = true)
    {a b : List Token} (h : Written (methodsWords lexeme fs) a b) :
    ∃ fs' : List FunctionDecl, plainMethods fs' = plainMethods fs ∧
      Derives .members a ([], fs') b := by
  match fs with
  | [] =>
    obtain rfl := written_nil.mp h
    exact ⟨[], rfl, .noMembers⟩
  | f :: fs =>
    simp only [printableMethods, Bool.and_eq_true] at ok
    obtain ⟨m, first, others⟩ := written_append.mp h
    obtain ⟨f', same, derives⟩ := f.derives ok.1 first
    obtain ⟨fs', sames, more⟩ := methods_derive fs ok.2 others
    exact ⟨f' :: fs', by simp only [plainMethods, same, sames], .methodMember derives more⟩

end

/-! ### The round trip -/

/-- Every tree that can be written is read back from its words, without an error and the same up to
identities and places. -/
theorem words_parse_back (lexeme : Tag → String) (u : CompilationUnit)
    (ok : u.printable lexeme = true)
    (tokens : List Token) (spelled : (Parser.textOf tokens).map Token.toWord = u.words lexeme) :
    hasErrors (Parser.ofTokens tokens).diagnostics = false ∧
      (Parser.ofTokens tokens).unit.plain = u.plain := by
  have written : Written (stmtsWords lexeme u.statements) (Parser.textOf tokens) [] := by
    refine ⟨Parser.textOf tokens, by rw [append_nil], ?_⟩
    rw [show stmtsWords lexeme u.statements = _ from spelled.symm, forall₂_map_left_iff]
    exact forall₂_same.mpr fun t _ => t.toWord_fits
  obtain ⟨ss, same, derives⟩ := stmts_derive u.statements ok written
  obtain ⟨clean, read⟩ := Parser.ofTokens_accepts derives
  exact ⟨clean, by rw [CompilationUnit.plain, read, same, CompilationUnit.plain]⟩

/-- A branch in braces, so that the `else` behind it is not taken from inside, and a field that is
called, with a product of a sum. -/
def bracedBranch : CompilationUnit :=
  ⟨.blank, [.ifElse .blank (.reference .blank "a")
    (.block ⟨.blank, [.ifElse .blank (.reference .blank "b") (.returnStmt .blank none) none]⟩)
    (some (.exprStmt .blank (.call .blank (.select .blank (.reference .blank "x") "f")
      [.binary .blank .mul
        (.binary .blank .add (.literal .blank (.int 1)) (.literal .blank (.float .zero)))
        (.literal .blank (.int 3))])))]⟩

/-- `if (a) { if (b) return; } else (x.f)((1 + 0.0) * 3);` -/
def bracedTokens : List Token :=
  [⟨.kwIf, "if", ⟨0, 2⟩⟩, ⟨.leftParen, "(", ⟨3, 4⟩⟩, ⟨.identifier, "a", ⟨4, 5⟩⟩,
   ⟨.rightParen, ")", ⟨5, 6⟩⟩, ⟨.leftBrace, "\x7b", ⟨7, 8⟩⟩, ⟨.kwIf, "if", ⟨9, 11⟩⟩,
   ⟨.leftParen, "(", ⟨12, 13⟩⟩, ⟨.identifier, "b", ⟨13, 14⟩⟩, ⟨.rightParen, ")", ⟨14, 15⟩⟩,
   ⟨.kwReturn, "return", ⟨16, 22⟩⟩, ⟨.semicolon, ";", ⟨22, 23⟩⟩, ⟨.rightBrace, "\x7d", ⟨24, 25⟩⟩,
   ⟨.kwElse, "else", ⟨26, 30⟩⟩, ⟨.leftParen, "(", ⟨31, 32⟩⟩, ⟨.identifier, "x", ⟨32, 33⟩⟩,
   ⟨.dot, ".", ⟨33, 34⟩⟩, ⟨.identifier, "f", ⟨34, 35⟩⟩, ⟨.rightParen, ")", ⟨35, 36⟩⟩,
   ⟨.leftParen, "(", ⟨36, 37⟩⟩, ⟨.leftParen, "(", ⟨37, 38⟩⟩, ⟨.intLiteral, "1", ⟨38, 39⟩⟩,
   ⟨.plus, "+", ⟨40, 41⟩⟩, ⟨.floatLiteral, "0.0", ⟨42, 45⟩⟩, ⟨.rightParen, ")", ⟨45, 46⟩⟩,
   ⟨.star, "*", ⟨47, 48⟩⟩, ⟨.intLiteral, "3", ⟨49, 50⟩⟩, ⟨.rightParen, ")", ⟨50, 51⟩⟩,
   ⟨.semicolon, ";", ⟨51, 52⟩⟩, ⟨.eof, "", ⟨52, 52⟩⟩]

theorem words_parse_back_bracedBranch :
    bracedBranch.printable (fun _ => "0.0") = true ∧
      (Parser.textOf bracedTokens).map Token.toWord = bracedBranch.words (fun _ => "0.0") ∧
      hasErrors (Parser.ofTokens bracedTokens).diagnostics = false ∧
        (Parser.ofTokens bracedTokens).unit.plain = bracedBranch.plain := by
  have ok : bracedBranch.printable (fun _ => "0.0") = true := by decide +kernel
  have spelled : (Parser.textOf bracedTokens).map Token.toWord = bracedBranch.words (fun _ => "0.0") := by
    decide +kernel
  exact ⟨ok, spelled, words_parse_back _ bracedBranch ok bracedTokens spelled⟩

end BlFront
