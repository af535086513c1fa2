import BlFront.Proofs.Syntax.Veil
import BlFront.Syntax.Parser.Stmt

/-!
# The parser does not look at places

Given tokens without places, every parse function does the same as with them: it makes the same nodes
with the same identities, takes the same tokens and says the same, all without places.
-/

namespace BlFront.Parser

variable {α β γ δ : Type} {f : α → β} {g : γ → δ}

def State.bare (s : State) : State where
  rest := s.rest.map Token.bare
  last := s.last.bare
  previous := s.previous.bare
  nextId := s.nextId
  drawn := s.drawn.map (Prod.map id (List.map Token.bare))
  diagnostics := s.diagnostics.map Diagnostic.bare
  exhausted := s.exhausted

theorem State.bare_current (s : State) : s.bare.current = s.current.bare := by
  cases h : s.rest <;> simp [State.current, State.bare, h]

/-- One parse function does without places what another does with them; a function takes what the one
makes to what the other makes. -/
def Blind (f : α → β) (p : Parse α) (p' : Parse β) : Prop :=
  ∀ s, p' s.bare = ((p s).1.map f, (p s).2.bare)

/-- A parse function does the same without places as with them. -/
abbrev BlindIn (f : α → α) (p : Parse α) : Prop := Blind f p p

/-! ### Combinations -/

namespace Blind

variable {p : Parse α} {p' : Parse β}

theorem pure {a : α} {b : β} (same : b = f a) : Blind f (pure a) (pure b) := fun _ => by
  rw [same]; rfl

theorem bind (h : Blind f p p') {k : α → Parse γ} {k' : β → Parse δ}
    (rest : ∀ a, Blind g (k a) (k' (f a))) : Blind g (p >>= k) (p' >>= k') := by
  intro s
  rw [Parse.bind_apply, Parse.bind_apply, h s]
  generalize p s = result
  obtain ⟨a, s'⟩ := result
  cases a with
  | none => rfl
  | some a => exact rest a s'

theorem map (h : Blind f p p') {k : α → γ} {k' : β → δ} (same : ∀ a, k' (f a) = g (k a)) :
    Blind g (k <$> p) (k' <$> p') :=
  h.bind fun a => .pure (same a)

theorem stop (f : α → β) : Blind f .stop .stop := fun _ => rfl

theorem exhaust (f : α → β) : Blind f .exhaust .exhaust := fun _ => rfl

theorem attempt (h : Blind f p p') : Blind (Option.map f) p.attempt p'.attempt := by
  intro s
  rw [Parse.attempt, h s]
  rfl

theorem sized {p : Nat → Parse α} {p' : Nat → Parse β} (h : ∀ n, Blind f (p n) (p' n)) :
    Blind f (.sized p) (.sized p') := by
  intro s
  have same : s.bare.rest.length = s.rest.length := List.length_map _
  rw [Parse.sized, same]
  exact h _ s

theorem ite {c : Prop} [Decidable c] {q : Parse α} {q' : Parse β} (yes : Blind f p p')
    (no : Blind f q q') : Blind f (if c then p else q) (if c then p' else q') := by
  split
  · exact yes
  · exact no

/-- Two alternatives with the same continuation. -/
theorem branch {c : Prop} [Decidable c] {q : Parse α} {q' : Parse β} {k : α → Parse γ}
    {k' : β → Parse δ} (yes : Blind f p p') (no : Blind f q q')
    (rest : ∀ a, Blind g (k a) (k' (f a))) :
    Blind g (if c then p >>= k else q >>= k) (if c then p' >>= k' else q' >>= k') :=
  .ite (yes.bind rest) (no.bind rest)

end Blind

/-! ### Tokens -/

theorem current_blind : BlindIn Token.bare current := fun s => by
  rw [current, s.bare_current]; rfl

theorem peek_blind : BlindIn (fun kind => kind) peek := fun s => by
  rw [peek, s.bare_current]; rfl

theorem currentSpan_blind : BlindIn (fun _ => Span.dummy) currentSpan := fun s => by
  rw [currentSpan, s.bare_current]; rfl

theorem previousSpan_blind : BlindIn (fun _ => Span.dummy) previousSpan := fun _ => rfl

theorem advance_blind : BlindIn Token.bare advance := by
  intro s
  obtain ⟨rest, last, previous, nextId, drawn, diagnostics, exhausted⟩ := s
  cases rest <;> rfl

theorem report_blind {d d' : Diagnostic} (same : d' = d.bare) :
    Blind (fun u => u) (report d) (report d') := by
  intro s
  simp [report, State.bare, same]

theorem freshTag_blind (span : Span) {span' : Span} (none : span' = .dummy) :
    Blind (Tag.veiled .dense) (freshTag span) (freshTag span') := fun _ => by
  rw [none]; rfl

theorem spanFrom_blind (start : Span) {start' : Span} (none : start' = .dummy) :
    Blind (fun _ => Span.dummy) (spanFrom start) (spanFrom start') := fun _ => by
  rw [none]; rfl

/-- A new node from a start on. -/
theorem tagFrom_blind (start : Span) {start' : Span} (none : start' = .dummy) {k : Tag → Parse γ}
    {k' : Tag → Parse δ} (rest : ∀ tag, Blind g (k tag) (k' (tag.veiled .dense))) :
    Blind g (do k (← freshTag (← spanFrom start))) (do k' (← freshTag (← spanFrom start'))) :=
  (spanFrom_blind start none).bind fun span => (freshTag_blind span rfl).bind rest

theorem missing_bare (kind : TokenKind) (found : Token) (before : Span) :
    missing kind found.bare .dummy = (missing kind found before).bare := by
  rw [missing, missing]
  split <;> rfl

theorem refuse_blind (f : α → β) (expected : String) : Blind f (refuse expected) (refuse expected) :=
  current_blind.bind fun _ => (report_blind rfl).bind fun _ => .stop f

theorem expect_blind (kind : TokenKind) : BlindIn Token.bare (expect kind) :=
  peek_blind.bind fun _ => .ite advance_blind <|
    current_blind.bind fun found => previousSpan_blind.bind fun before =>
      (report_blind (missing_bare kind found before)).bind fun _ => .stop _

theorem expectName_blind : BlindIn (Ident.veiled .dense) expectName :=
  (expect_blind .identifier).bind fun _ => .pure rfl

theorem eat_blind (kind : TokenKind) : BlindIn (fun b => b) (eat kind) :=
  peek_blind.bind fun _ => .ite (advance_blind.bind fun _ => .pure rfl) (.pure rfl)

/-- What follows a token of some kind, if one comes. -/
theorem optional_blind (kind : TokenKind) {p : Parse α} {p' : Parse β} (h : Blind f p p')
    {k : Option α → Parse γ} {k' : Option β → Parse δ} (rest : ∀ a, Blind g (k a) (k' (a.map f))) :
    Blind g (do if ← eat kind then some <$> p >>= k else pure none >>= k)
      (do if ← eat kind then some <$> p' >>= k' else pure none >>= k') :=
  (eat_blind kind).bind fun _ => .branch (h.map fun _ => rfl) (.pure rfl) rest

theorem skipToBoundary_bare (behind : Token) (rest : List Token) :
    skipToBoundary behind.bare (rest.map Token.bare) =
      Prod.map Token.bare (List.map Token.bare) (skipToBoundary behind rest) := by
  induction rest generalizing behind with
  | nil => rfl
  | cons token rest ih =>
    rw [List.map_cons, skipToBoundary, skipToBoundary, ih token, Token.bare_kind, Token.bare_kind]
    split <;> rfl

theorem synchronize_blind : BlindIn (fun u => u) synchronize := by
  intro s
  obtain ⟨rest, last, previous, nextId, drawn, diagnostics, exhausted⟩ := s
  cases rest with
  | nil => rfl
  | cons token rest =>
    rw [synchronize, State.bare]
    simp only [List.map_cons, skipToBoundary_bare]
    rfl

section Lists

variable {item : Parse α} {item' : Parse β}

theorem commaSeparated_blind (h : Blind f item item') (fuel : Nat) :
    Blind (List.map f) (commaSeparated item fuel) (commaSeparated item' fuel) := by
  induction fuel with
  | zero => exact .exhaust _
  | succ fuel ih =>
    exact h.bind fun x => (eat_blind .comma).bind fun _ =>
      .ite (ih.bind fun _ => .pure rfl) (.pure rfl)

theorem listUntil_blind (close : TokenKind) (h : Blind f item item') :
    Blind (List.map f) (listUntil close item) (listUntil close item') :=
  peek_blind.bind fun _ => .branch (.pure rfl) (.sized (commaSeparated_blind h)) fun _ =>
    (expect_blind close).bind fun _ => .pure rfl

end Lists

/-! ### Types -/

theorem typeAt_blind (depth : Nat) : BlindIn (TypeExpr.veiled .dense) (typeAt depth) := by
  induction depth with
  | zero => exact .exhaust _
  | succ depth ih =>
    refine currentSpan_blind.bind fun start => peek_blind.bind fun kind => ?_
    split
    · exact advance_blind.bind fun token => (freshTag_blind start rfl).bind fun _ => .pure rfl
    · exact advance_blind.bind fun _ => ih.bind fun element => (expect_blind _).bind fun _ =>
        tagFrom_blind start rfl fun _ => .pure rfl
    · exact refuse_blind _ _

theorem typeExpr_blind : BlindIn (TypeExpr.veiled .dense) typeExpr := .sized typeAt_blind

theorem typedName_blind : BlindIn (TypedName.veiled .dense) typedName :=
  expectName_blind.bind fun name => (expect_blind .colon).bind fun _ => typeExpr_blind.bind fun type =>
    (freshTag_blind _ (by rw [type.span_veiled]; rfl)).bind fun _ => .pure rfl

/-! ### Expressions -/

theorem intLiteral_blind (token : Token) :
    Blind (fun v => v) (intLiteral token) (intLiteral token.bare) := by
  unfold intLiteral
  simp only [Token.bare_lexeme]
  cases Decimal.int64? (digitsOf token.lexeme) with
  | some value => exact .pure rfl
  | none => exact (report_blind rfl).bind fun _ => .pure rfl

theorem floatLiteral_blind (token : Token) :
    Blind (fun v => v) (floatLiteral token) (floatLiteral token.bare) := by
  unfold floatLiteral
  simp only [Token.bare_lexeme]
  cases Decimal.float? (digitsOf token.lexeme) with
  | some value => exact .pure rfl
  | none => exact (report_blind rfl).bind fun _ => .pure rfl

theorem literalOf?_blind (token : Token) :
    Option.Rel (Blind fun v => v) (literalOf? token) (literalOf? token.bare) := by
  rw [literalOf?, literalOf?, Token.bare_kind]
  split
  · exact .some (intLiteral_blind token)
  · exact .some (floatLiteral_blind token)
  all_goals first | exact .some (.pure rfl) | exact .none

section Layers

variable {expr : Parse Expr} {exprs : Nat → Parse Expr}

theorem primary_blind (h : BlindIn Expr.bare expr) : BlindIn Expr.bare (primary expr) := by
  refine currentSpan_blind.bind fun start => current_blind.bind fun token => ?_
  have literals := literalOf?_blind token
  generalize literalOf? token = found, literalOf? token.bare = found' at literals ⊢
  cases literals with
  | some literal =>
    exact advance_blind.bind fun _ => literal.bind fun _ => tagFrom_blind start rfl fun _ => .pure rfl
  | none =>
    simp only [Token.bare_kind]
    split
    · exact advance_blind.bind fun _ => tagFrom_blind start rfl fun _ => .pure rfl
    · exact advance_blind.bind fun _ => tagFrom_blind start rfl fun _ => .pure rfl
    · exact advance_blind.bind fun _ => h.bind fun inner => (expect_blind _).bind fun _ =>
        (spanFrom_blind start rfl).bind fun span => .pure (inner.withSpan_veiled .dense span).symm
    · exact advance_blind.bind fun _ => (listUntil_blind _ h).bind fun elements =>
        tagFrom_blind start rfl fun _ => .pure (by simp [Expr.veiled])
    · exact refuse_blind _ _

theorem operand_blind (h : ∀ least, BlindIn Expr.bare (exprs least)) :
    BlindIn Expr.bare (operand exprs) := by
  refine currentSpan_blind.bind fun start => peek_blind.bind fun kind => ?_
  split
  · exact advance_blind.bind fun _ => (h _).bind fun inner =>
      (freshTag_blind _ (by simp)).bind fun _ => .pure rfl
  · exact primary_blind (h 0)

theorem member_blind (h : BlindIn Expr.bare expr) (object : Expr) :
    Blind Expr.bare (member expr object) (member expr object.bare) := by
  refine expectName_blind.bind fun name => (eat_blind _).bind fun _ => .ite ?_ ?_
  · exact (listUntil_blind _ h).bind fun args =>
      tagFrom_blind object.span (by simp) fun _ => .pure (by simp [Expr.veiled, Ident.veiled])
  · exact tagFrom_blind object.span (by simp) fun _ => .pure rfl

theorem suffix?_blind (h : BlindIn Expr.bare expr) (head : Expr) :
    Blind (Option.map Expr.bare) (suffix? expr head) (suffix? expr head.bare) := by
  refine peek_blind.bind fun kind => ?_
  split
  · exact advance_blind.bind fun _ => (listUntil_blind _ h).bind fun args =>
      tagFrom_blind head.span (by simp) fun _ => .pure (by simp [Expr.veiled])
  · exact advance_blind.bind fun _ => (member_blind h head).bind fun _ => .pure rfl
  · exact advance_blind.bind fun _ => h.bind fun position => (expect_blind _).bind fun _ =>
      tagFrom_blind head.span (by simp) fun _ => .pure rfl
  · exact .pure rfl

theorem suffixes_blind (h : BlindIn Expr.bare expr) (fuel : Nat) (head : Expr) :
    Blind Expr.bare (suffixes expr fuel head) (suffixes expr fuel head.bare) := by
  induction fuel generalizing head with
  | zero => exact .exhaust _
  | succ fuel ih =>
    refine (suffix?_blind h head).bind fun longer => ?_
    cases longer with
    | some longer => exact ih longer
    | none => exact .pure rfl

theorem combine_bare (tag : Tag) (kind : TokenKind) (left right : Expr) :
    combine (tag.veiled .dense) kind left.bare right.bare =
      (combine tag kind left right).bare := by
  rw [combine, combine]
  split <;> rfl

theorem operators_blind (h : ∀ least, BlindIn Expr.bare (exprs least)) (least fuel : Nat)
    (head : Expr) :
    Blind Expr.bare (operators exprs least fuel head) (operators exprs least fuel head.bare) := by
  induction fuel generalizing head with
  | zero => exact .exhaust _
  | succ fuel ih =>
    refine (Blind.sized fun n => suffixes_blind (h 0) n head).bind fun left =>
      peek_blind.bind fun kind => ?_
    split
    · exact .pure rfl
    · refine .ite (.pure rfl) <| advance_blind.bind fun _ => (h _).bind fun right =>
        (freshTag_blind _ (by simp)).bind fun tag => ?_
      rw [combine_bare]
      exact ih _

end Layers

theorem exprAt_blind (depth least : Nat) : BlindIn Expr.bare (exprAt depth least) := by
  induction depth generalizing least with
  | zero => exact .exhaust _
  | succ depth ih =>
    exact (operand_blind ih).bind fun head => .sized fun n => operators_blind ih least n head

theorem expression_blind : BlindIn Expr.bare expression := .sized fun n => exprAt_blind n 0

/-! ### Statements -/

theorem varDeclaration_blind : BlindIn (VarDecl.veiled .dense) varDeclaration :=
  currentSpan_blind.bind fun start => advance_blind.bind fun _ => expectName_blind.bind fun _ =>
    optional_blind .colon typeExpr_blind fun _ => (expect_blind .equal).bind fun _ =>
      expression_blind.bind fun _ => (expect_blind .semicolon).bind fun _ =>
        tagFrom_blind start rfl fun _ => .pure rfl

theorem returnStatement_blind : BlindIn Stmt.bare returnStatement :=
  currentSpan_blind.bind fun start => advance_blind.bind fun _ => peek_blind.bind fun _ =>
    .branch (.pure rfl) (expression_blind.map fun _ => rfl) fun _ =>
      (expect_blind .semicolon).bind fun _ => tagFrom_blind start rfl fun _ => .pure rfl

theorem expressionStatement_blind : BlindIn Stmt.bare expressionStatement :=
  expression_blind.bind fun expr => (expect_blind .semicolon).bind fun _ =>
    tagFrom_blind expr.span (by simp) fun _ => .pure rfl

theorem condition_blind : BlindIn Expr.bare condition :=
  (expect_blind .leftParen).bind fun _ => expression_blind.bind fun _ =>
    (expect_blind .rightParen).bind fun _ => .pure rfl

theorem structFields_blind (fuel : Nat) :
    BlindIn (List.map (TypedName.veiled .dense)) (structFields fuel) := by
  induction fuel with
  | zero => exact .exhaust _
  | succ fuel ih =>
    exact peek_blind.bind fun _ => .ite (.pure rfl) <| typedName_blind.bind fun field =>
      (eat_blind .comma).bind fun _ => .ite (ih.bind fun _ => .pure rfl) (.pure rfl)

theorem structDeclaration_blind : BlindIn (StructDecl.veiled .dense) structDeclaration :=
  currentSpan_blind.bind fun start => advance_blind.bind fun _ => expectName_blind.bind fun _ =>
    (expect_blind .leftBrace).bind fun _ => (Blind.sized structFields_blind).bind fun _ =>
      (expect_blind .rightBrace).bind fun _ => tagFrom_blind start rfl fun _ => .pure rfl

/-! ### Blocks -/

def Reach.bare : Reach → Reach
  | .notSince _ => .notSince .dummy
  | reach => reach

theorem Reach.bare_after (reach : Reach) (stmt : Stmt) :
    reach.bare.after stmt.bare = (reach.after stmt).bare := by
  cases reach with
  | yes =>
    cases stmt with
    | ifElse _ _ _ elseBranch => cases elseBranch <;> rfl
    | _ => rfl
  | _ => rfl

theorem warnUnreachable_blind (reach : Reach) (stmt : Stmt) :
    Blind (fun u => u) (warnUnreachable reach stmt) (warnUnreachable reach.bare stmt.bare) := by
  cases reach with
  | notSince returned =>
    refine report_blind ?_
    rw [unreachable, Stmt.span, stmt.tag_veiled]
    rfl
  | _ => exact .pure rfl

section Layers

variable {stmt : Parse Stmt} (h : BlindIn Stmt.bare stmt)

include h

theorem statements_blind (closes : TokenKind → Bool) (fuel : Nat) (reach : Reach) :
    Blind (List.map Stmt.bare) (statements closes stmt fuel reach)
      (statements closes stmt fuel reach.bare) := by
  induction fuel generalizing reach with
  | zero => exact .exhaust _
  | succ fuel ih =>
    refine peek_blind.bind fun kind => .ite (.pure rfl) <| h.attempt.bind fun made => ?_
    cases made with
    | none => exact synchronize_blind.bind fun _ => ih reach
    | some made =>
      refine (warnUnreachable_blind reach made).bind fun _ => .bind (f := List.map Stmt.bare) ?_
        fun _ => .pure rfl
      rw [Reach.bare_after]
      exact ih _

theorem block_blind : BlindIn (Block.veiled .dense) (block stmt) :=
  currentSpan_blind.bind fun start => (expect_blind .leftBrace).bind fun _ =>
    (Blind.sized fun n => statements_blind h _ n .yes).bind fun stmts =>
      (expect_blind .rightBrace).bind fun _ =>
        tagFrom_blind start rfl fun _ => .pure (by simp [Block.veiled])

theorem funDeclaration_blind : BlindIn (FunctionDecl.veiled .dense) (funDeclaration stmt) :=
  currentSpan_blind.bind fun start => advance_blind.bind fun _ => expectName_blind.bind fun name =>
    (expect_blind .leftParen).bind fun _ => (listUntil_blind _ typedName_blind).bind fun params =>
      optional_blind .arrow typeExpr_blind fun _ => (block_blind h).bind fun body =>
        (freshTag_blind _ (by rw [body.tag_veiled]; rfl)).bind fun _ => .pure rfl

theorem classMembers_blind (fuel : Nat) :
    Blind (Prod.map (List.map (TypedName.veiled .dense)) (List.map (FunctionDecl.veiled .dense))) (classMembers stmt fuel)
      (classMembers stmt fuel) := by
  induction fuel with
  | zero => exact .exhaust _
  | succ fuel ih =>
    refine peek_blind.bind fun kind => ?_
    split
    · exact .pure rfl
    · exact .pure rfl
    · exact (funDeclaration_blind h).bind fun method => ih.bind fun members => .pure rfl
    · exact typedName_blind.bind fun field => (expect_blind .semicolon).bind fun _ =>
        ih.bind fun members => .pure rfl

theorem classDeclaration_blind : BlindIn (ClassDecl.veiled .dense) (classDeclaration stmt) :=
  currentSpan_blind.bind fun start => advance_blind.bind fun _ => expectName_blind.bind fun name =>
    optional_blind .colon expectName_blind fun _ => (expect_blind .leftBrace).bind fun _ =>
      (Blind.sized (classMembers_blind h)).bind fun members => (expect_blind .rightBrace).bind fun _ =>
        tagFrom_blind start rfl fun _ => .pure (by simp [ClassDecl.veiled, Ident.veiled])

theorem ifStatement_blind : BlindIn Stmt.bare (ifStatement stmt) :=
  currentSpan_blind.bind fun start => advance_blind.bind fun _ => condition_blind.bind fun _ =>
    h.bind fun _ => optional_blind .kwElse h fun elseBranch =>
      tagFrom_blind start rfl fun _ => .pure (by cases elseBranch <;> rfl)

theorem whileStatement_blind : BlindIn Stmt.bare (whileStatement stmt) :=
  currentSpan_blind.bind fun start => advance_blind.bind fun _ => condition_blind.bind fun _ =>
    h.bind fun _ => tagFrom_blind start rfl fun _ => .pure rfl

theorem statementLayer_blind : BlindIn Stmt.bare (statementLayer stmt) := by
  refine peek_blind.bind fun kind => ?_
  split
  · exact (funDeclaration_blind h).map fun _ => rfl
  · exact structDeclaration_blind.map fun _ => rfl
  · exact (classDeclaration_blind h).map fun _ => rfl
  · exact varDeclaration_blind.map fun _ => rfl
  · exact (block_blind h).map fun _ => rfl
  · exact ifStatement_blind h
  · exact whileStatement_blind h
  · exact returnStatement_blind
  · exact expressionStatement_blind

end Layers

theorem statementAt_blind (depth : Nat) : BlindIn Stmt.bare (statementAt depth) := by
  induction depth with
  | zero => exact .exhaust _
  | succ depth ih => exact statementLayer_blind ih

/-! ### Units -/

theorem unit_blind : BlindIn CompilationUnit.bare unit :=
  currentSpan_blind.bind fun start =>
    (Blind.sized fun n => statements_blind (.sized statementAt_blind) _ n .no).bind fun stmts =>
      currentSpan_blind.bind fun stop => (freshTag_blind (start.merge stop) rfl).bind fun _ =>
        .pure (by simp [CompilationUnit.bare, CompilationUnit.veiled])

theorem lastToken_bare (tokens : List Token) :
    State.lastToken (tokens.map Token.bare) = (State.lastToken tokens).bare := by
  have found : (tokens.map Token.bare).find? (·.kind == .eof) =
      (tokens.find? (·.kind == .eof)).map Token.bare := by
    rw [List.find?_map]
    rfl
  rw [State.lastToken, State.lastToken, found, List.getLast?_map]
  cases tokens.find? (·.kind == .eof) with
  | some token => rfl
  | none => cases tokens.getLast? <;> rfl

theorem State.ofTokens_bare (tokens : List Token) :
    State.ofTokens (tokens.map Token.bare) = (State.ofTokens tokens).bare := by
  have rest : (tokens.map Token.bare).takeWhile (·.kind != .eof) =
      (tokens.takeWhile (·.kind != .eof)).map Token.bare := List.takeWhile_map ..
  rw [State.ofTokens, State.ofTokens, lastToken_bare, rest]
  cases tokens <;> rfl

/-- The unit of tokens without places, and what is said about it. -/
theorem ofTokens_bare (tokens : List Token) : ofTokens (tokens.map Token.bare) =
    ⟨(ofTokens tokens).unit.bare, (ofTokens tokens).diagnostics.map Diagnostic.bare⟩ := by
  rw [ofTokens, ofTokens, State.ofTokens_bare, unit_blind, State.bare_current]
  generalize unit (State.ofTokens tokens) = result
  obtain ⟨made, s⟩ := result
  cases made <;> rfl

end BlFront.Parser
