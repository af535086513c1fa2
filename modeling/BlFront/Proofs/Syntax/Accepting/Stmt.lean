import BlFront.Proofs.Syntax.Accepting.Expr

/-!
# Statements are accepted

As for expressions there is one lemma for each production; together they say that every phrase is
accepted, and that a text which derives statements is a unit without errors.
-/

namespace BlFront.Parser

open List

variable {cond : Expr} {xs : List Stmt} {tag : Tag} {k l n r t : Token} {x : TypedName}

open Grammar

variable {a b c d : List Token}

/-- An expression in front of a token that goes on with no expression. -/
theorem Accepted.expression {e : Expr} {kind : TokenKind} (h : Accepted (.expr 1) a e (t :: b))
    (next : t.kind = kind) (suffix : startsSuffix kind = false) (power : bindingPower? kind = none) :
    Accepts expression a (t :: b) (·.plain = e.plain) :=
  .sized (h.inner (Nat.lt_succ_self _) next suffix power)

/-! ### Parts of declarations -/

theorem accepted_noFields : Accepted .fields a [] a := by
  intro closes fuel enough
  cases fuel with
  | zero => omega
  | succ fuel =>
    refine .peeked closes ?_
    exact .pure rfl

theorem accepted_lastField (item : Accepted .typedName a x b) (starts : nextKind a = .identifier) :
    Accepted .fields a [x] b := by
  intro closes fuel enough
  cases fuel with
  | zero => omega
  | succ fuel =>
    refine .peeked starts ?_
    exact Accepts.bind item fun y same => .uneaten (by simp [closes]) (.pure (by simp [same]))

theorem accepted_nextField {xs : List TypedName} (item : Accepted .typedName a x (t :: b))
    (starts : nextKind a = .identifier) (length : (t :: b).length + 1 ≤ a.length)
    (comma : t.kind = .comma) (more : Accepted .fields b xs c) :
    Accepted .fields a (x :: xs) c := by
  intro closes fuel enough
  simp only [length_cons] at length
  cases fuel with
  | zero => omega
  | succ fuel =>
    refine .peeked starts ?_
    exact Accepts.bind item fun y same => .eaten comma <|
      (more closes fuel (by omega)).bind fun ys sames => .pure (by simp [same, sames])

theorem layered_statementAt (depth : Nat) : Layered depth (statementAt depth) :=
  fun _ _ _ fits h => h depth fits

theorem layered_statement (n : Nat) : Layered n statement :=
  fun _ _ _ _ h => .sized (h _ (Nat.le_succ _))

theorem accepted_block {ss : List Stmt} (opens : l.kind = .leftBrace)
    (inner : Accepted .stmts a ss (r :: b)) (closes : r.kind = .rightBrace) :
    Accepted .block (l :: a) ⟨tag, ss⟩ b := by
  intro depth fits
  refine .placed fun _ => .expected opens ?_
  have stmts := inner depth (statementAt depth) (· == .rightBrace) (a.length + 1) .yes
    (layered_statementAt depth) (by simpa using fits) (Nat.lt_succ_self _) (by simp)
    (.inr (by simp [closes]))
  refine (Accepts.sized stmts).bind fun xs same => .expected closes ?_
  exact .around fun _ => by simp only [Block.plain, same]

theorem accepted_function {ps : List TypedName} {result : Option TypeExpr} {body : Block}
    (name : n.kind = .identifier) (opens : l.kind = .leftParen)
    (inner : Accepted .params a ps (r :: b)) (closes : r.kind = .rightParen)
    (returns : Accepted (.typeAfter .arrow) b result c) (does : Accepted .block c body d)
    (starts : nextKind c = .leftBrace) (innerLength : (r :: b).length ≤ a.length)
    (returnsLength : c.length ≤ b.length) :
    Accepted .function (k :: n :: l :: a) ⟨tag, n.lexeme, ps, result, body⟩ d := by
  intro depth fits
  simp only [length_cons] at fits innerLength
  refine .placed fun _ => .advanced <| .named name <| .expected opens ?_
  refine (inner r b rfl closes).bind fun xs sames => ?_
  simp only [eat_ite_bind]
  refine Accepts.bind (returns (by simp [starts])) fun type sameType => ?_
  refine (does depth (by omega)).bind fun block sameBody => .tagged fun _ => .pure ?_
  simp only [FunctionDecl.plain, sames, sameType, sameBody]

theorem accepted_noMembers : Accepted .members a ([], []) a := by
  intro closes depth fuel _ enough
  cases fuel with
  | zero => omega
  | succ fuel =>
    refine .peeked closes ?_
    exact .pure ⟨rfl, rfl⟩

theorem accepted_fieldMember {xs : List TypedName} {fs : List FunctionDecl}
    (item : Accepted .typedName a x (t :: b)) (starts : nextKind a = .identifier)
    (length : (t :: b).length + 1 ≤ a.length) (semicolon : t.kind = .semicolon)
    (more : Accepted .members b (xs, fs) c) : Accepted .members a (x :: xs, fs) c := by
  intro closes depth fuel fits enough
  simp only [length_cons] at length
  cases fuel with
  | zero => omega
  | succ fuel =>
    refine .peeked starts ?_
    refine Accepts.bind item fun y same => .expected semicolon ?_
    refine (more closes depth fuel (by omega) (by omega)).bind ?_
    rintro ⟨ys, gs⟩ ⟨fields, methods⟩
    exact .pure ⟨by simpa [same] using fields, methods⟩

theorem accepted_methodMember {f : FunctionDecl} {xs : List TypedName} {fs : List FunctionDecl}
    (item : Accepted .function a f b) (starts : nextKind a = .kwFun)
    (length : b.length + 1 ≤ a.length) (more : Accepted .members b (xs, fs) c) :
    Accepted .members a (xs, f :: fs) c := by
  intro closes depth fuel fits enough
  cases fuel with
  | zero => omega
  | succ fuel =>
    refine .peeked starts ?_
    refine (item depth (by omega)).bind fun g same => ?_
    refine (more closes depth fuel (by omega) (by omega)).bind ?_
    rintro ⟨ys, gs⟩ ⟨fields, methods⟩
    exact .pure ⟨fields, by simpa [plainMethods, same] using methods⟩

/-! ### Statements -/

/-- The statement parser goes by the kind of the first token. -/
theorem accepted_stmt {x : Stmt} (length : 0 < a.length)
    (h : (x.endsOpen = true → nextKind b ≠ .kwElse) → ∀ depth, a.length ≤ depth + 1 →
      Accepts (statementLayer (statementAt depth)) a b (·.plain = x.plain)) :
    Accepted .stmt a x b := by
  intro settled depth fits
  obtain ⟨depth, rfl⟩ : ∃ k, depth = k + 1 := ⟨depth - 1, by omega⟩
  exact h settled depth fits

theorem accepted_funDecl {f : FunctionDecl} (decl : Accepted .function a f b)
    (starts : nextKind a = .kwFun) (length : b.length + 1 ≤ a.length) :
    Accepted .stmt a (.funDecl f) b :=
  accepted_stmt (by omega) fun _ depth fits => .peeked starts <|
    (decl depth fits).map fun g same => by simp only [Stmt.plain, same]

theorem accepted_structDecl {fields : List TypedName} (keyword : k.kind = .kwStruct)
    (name : n.kind = .identifier) (opens : l.kind = .leftBrace)
    (inner : Accepted .fields a fields (r :: b)) (closes : r.kind = .rightBrace) :
    Accepted .stmt (k :: n :: l :: a) (.structDecl ⟨tag, n.lexeme, fields⟩) b := by
  refine accepted_stmt (by simp) fun _ depth fits => .peeked keyword ?_
  have decl : Accepts structDeclaration (k :: n :: l :: a) b
      (·.plain = StructDecl.plain ⟨tag, n.lexeme, fields⟩) := by
    refine .placed fun _ => .advanced <| .named name <| .expected opens ?_
    refine (Accepts.sized (inner closes _ (Nat.lt_succ_self _))).bind fun xs sames => ?_
    exact .expected closes <| .around fun _ => by simp only [StructDecl.plain, sames]
  exact decl.map fun d same => by simp only [Stmt.plain, same]

theorem accepts_inherits {superclass : Option Ident} (h : Inherits a superclass b)
    (next : nextKind b ≠ .colon) :
    Accepts (eat .colon >>= fun found => if found = true then some <$> expectName else pure none)
      a b (·.map Ident.plain = superclass.map Ident.plain) := by
  cases h with
  | nothing => exact .uneaten next (.pure rfl)
  | named colon name => exact .eaten colon <| .named name (.pure rfl)

theorem accepted_classDecl {superclass : Option Ident} {fields : List TypedName}
    {methods : List FunctionDecl} (keyword : k.kind = .kwClass) (name : n.kind = .identifier)
    (inherits : Inherits a superclass (l :: b)) (opens : l.kind = .leftBrace)
    (inner : Accepted .members b (fields, methods) (r :: c)) (closes : r.kind = .rightBrace) :
    Accepted .stmt (k :: n :: a) (.classDecl ⟨tag, n.lexeme, superclass, fields, methods⟩) c := by
  have shorter := inherits.length_le
  simp only [length_cons] at shorter
  refine accepted_stmt (by simp) fun _ depth fits => .peeked keyword ?_
  simp only [length_cons] at fits
  have decl : Accepts (classDeclaration (statementAt depth)) (k :: n :: a) c
      (·.plain = ClassDecl.plain ⟨tag, n.lexeme, superclass, fields, methods⟩) := by
    refine .placed fun _ => .advanced <| .named name ?_
    simp only [eat_ite_bind]
    refine (accepts_inherits inherits (by simp [opens])).bind fun i sameSuper => .expected opens ?_
    refine (Accepts.sized (inner closes depth _ (by omega) (Nat.lt_succ_self _))).bind ?_
    rintro ⟨xs, fs⟩ ⟨sameFields, sameMethods⟩
    refine .expected closes <| .around fun _ => ?_
    simp only [ClassDecl.plain, sameSuper, sameFields, sameMethods]
  exact decl.map fun d same => by simp only [Stmt.plain, same]

theorem accepted_varDecl {q : Token} {type : Option TypeExpr} {initializer : Expr}
    (keyword : k.kind = .kwVar) (name : n.kind = .identifier)
    (written : Accepted (.typeAfter .colon) a type (q :: b)) (sign : q.kind = .equal)
    (value : Accepted (.expr 1) b initializer (t :: c)) (semicolon : t.kind = .semicolon) :
    Accepted .stmt (k :: n :: a) (.varDecl ⟨tag, n.lexeme, type, initializer⟩) c := by
  refine accepted_stmt (by simp) fun _ depth fits => .peeked keyword ?_
  have decl : Accepts varDeclaration (k :: n :: a) c
      (·.plain = VarDecl.plain ⟨tag, n.lexeme, type, initializer⟩) := by
    refine .placed fun _ => .advanced <| .named name ?_
    simp only [eat_ite_bind]
    refine Accepts.bind (written (by simp [sign])) fun found sameType => .expected sign ?_
    refine (value.expression semicolon rfl rfl).bind fun e same => .expected semicolon ?_
    exact .around fun _ => by simp only [VarDecl.plain, sameType, same]
  exact decl.map fun d same => by simp only [Stmt.plain, same]

theorem accepted_blockStmt {body : Block} (inner : Accepted .block a body b)
    (starts : nextKind a = .leftBrace) (length : b.length + 1 ≤ a.length) :
    Accepted .stmt a (.block body) b :=
  accepted_stmt (by omega) fun _ depth fits => .peeked starts <|
    (inner depth fits).map fun x same => by simp only [Stmt.plain, same]

theorem accepts_condition (opens : l.kind = .leftParen) (inner : Accepted (.expr 1) a cond (r :: b))
    (closes : r.kind = .rightParen) : Accepts condition (l :: a) b (·.plain = cond.plain) :=
  .expected opens <| (inner.expression closes rfl rfl).bind fun _ same =>
    .expected closes (.pure same)

section Conditions

variable {first second : Stmt} (keyword : k.kind = .kwIf) (opens : l.kind = .leftParen)
  (condition : Accepted (.expr 1) a cond (r :: b)) (closes : r.kind = .rightParen)
  (length : (r :: b).length + 1 ≤ a.length)

include opens condition closes length

theorem accepted_whileLoop {body : Stmt} (keyword : k.kind = .kwWhile)
    (loop : Accepted .stmt b body c) :
    Accepted .stmt (k :: l :: a) (.whileLoop tag cond body) c := by
  refine accepted_stmt (by simp) fun settled depth fits => .peeked keyword ?_
  simp only [length_cons] at fits length
  refine .placed fun _ => .advanced <|
    (accepts_condition opens condition closes).bind fun _ sameCond => ?_
  refine (loop settled depth (by omega)).bind fun _ sameBody => ?_
  exact .around fun _ => by simp only [Stmt.plain, sameCond, sameBody]

include keyword

theorem accepted_ifThen (branch : Accepted .stmt b first c) :
    Accepted .stmt (k :: l :: a) (.ifElse tag cond first none) c := by
  refine accepted_stmt (by simp) fun settled depth fits => .peeked keyword ?_
  simp only [length_cons] at fits length
  refine .placed fun _ => .advanced <|
    (accepts_condition opens condition closes).bind fun _ sameCond => ?_
  refine (branch (fun _ => settled rfl) depth (by omega)).bind fun _ sameFirst => ?_
  have nothing : Accepts (pure none : Parse (Option Stmt)) c c (· = none) := .pure rfl
  refine .uneaten (settled rfl) <| nothing.bind ?_
  rintro _ rfl
  exact .around fun _ => by simp only [Stmt.plain, sameCond, sameFirst]

theorem accepted_ifElse {e : Token} (branch : Accepted .stmt b first (e :: c))
    (closed : first.endsOpen = false) (other : e.kind = .kwElse)
    (otherwise : Accepted .stmt c second d) (branchLength : (e :: c).length + 1 ≤ b.length) :
    Accepted .stmt (k :: l :: a) (.ifElse tag cond first (some second)) d := by
  refine accepted_stmt (by simp) fun settled depth fits => .peeked keyword ?_
  simp only [length_cons] at fits length branchLength
  refine .placed fun _ => .advanced <|
    (accepts_condition opens condition closes).bind fun _ sameCond => ?_
  refine (branch (fun isOpen => by simp [closed] at isOpen) depth (by omega)).bind
    fun _ sameFirst => .eaten other ?_
  have alternative : Accepts (some <$> statementAt depth) c d
      fun found => ∃ x : Stmt, found = some x ∧ x.plain = second.plain :=
    (otherwise settled depth (by omega)).map fun x same => ⟨x, rfl, same⟩
  refine alternative.bind ?_
  rintro _ ⟨x, rfl, sameSecond⟩
  exact .around fun _ => by simp only [Stmt.plain, sameCond, sameFirst, sameSecond]

end Conditions

theorem accepted_bareReturn (keyword : k.kind = .kwReturn) (semicolon : t.kind = .semicolon) :
    Accepted .stmt (k :: t :: a) (.returnStmt tag none) a := by
  have nothing : Accepts (pure none : Parse (Option Expr)) (t :: a) (t :: a) (· = none) := .pure rfl
  refine accepted_stmt (by simp) fun _ depth _ => .peeked keyword <| .placed fun _ => .advanced <|
    .peeked semicolon <| nothing.bind ?_
  rintro _ rfl
  exact .expected semicolon <| .around fun _ => rfl

theorem accepted_valueReturn {value : Expr} (keyword : k.kind = .kwReturn)
    (inner : Accepted (.expr 1) a value (t :: b)) (starts : startsExpr (nextKind a) = true)
    (semicolon : t.kind = .semicolon) :
    Accepted .stmt (k :: a) (.returnStmt tag (some value)) b := by
  refine accepted_stmt (by simp) fun _ depth _ => .peeked keyword <| .placed fun _ => .advanced <|
    .peeked rfl ?_
  rw [if_neg (by intro kind; simp [kind, startsExpr] at starts)]
  have read : Accepts (some <$> expression) a (t :: b) (·.map Expr.plain = some value.plain) :=
    (inner.expression semicolon rfl rfl).map fun e same => by simp [same]
  refine read.bind fun found same => .expected semicolon ?_
  exact .around fun _ => by simp only [Stmt.plain, same, Option.map_some]

theorem accepted_exprStmt {e : Expr} (inner : Accepted (.expr 1) a e (t :: b))
    (starts : startsExpr (nextKind a) = true) (length : (t :: b).length + 1 ≤ a.length)
    (semicolon : t.kind = .semicolon) : Accepted .stmt a (.exprStmt tag e) b := by
  refine accepted_stmt (by omega) fun _ depth _ => .peeked rfl ?_
  have reads : Accepts expressionStatement a b (·.plain = (Stmt.exprStmt tag e).plain) :=
    (inner.expression semicolon rfl rfl).bind fun x same => .expected semicolon <|
      .around fun _ => by simp only [Stmt.plain, same]
  split
  all_goals first | exact reads | (next kind => simp [kind, startsExpr] at starts)

theorem accepted_noStmts : Accepted .stmts a [] a := by
  intro n stmt closes fuel reach layered fits enough braces stops
  cases fuel with
  | zero => omega
  | succ fuel =>
    refine .peeked rfl ?_
    rw [if_pos stops]
    exact .pure rfl

theorem accepts_warnUnreachable {reach : Reach} {x : Stmt} :
    Accepts (warnUnreachable reach x) a a fun _ => True := by
  unfold warnUnreachable
  split
  · next returned =>
      intro s there
      refine ⟨(), _, rfl, ⟨there.rest, there.proper.last, there.proper.rest⟩, fun clean => ?_, trivial⟩
      unfold State.Clean hasErrors at clean ⊢
      rw [any_append, clean]
      rfl
  · exact .pure trivial

theorem accepted_nextStmt {x : Stmt} (item : Accepted .stmt a x b)
    (starts : endsStmts (nextKind a) = false) (length : b.length + 1 ≤ a.length)
    (more : Accepted .stmts b xs c) (next : nextKind b ≠ .kwElse ∨ b = c) :
    Accepted .stmts a (x :: xs) c := by
  intro n stmt closes fuel reach layered fits enough braces stops
  have notElse : nextKind b ≠ .kwElse := by
    rcases next with next | rfl
    · exact next
    · intro kind
      rcases stops with stops | stops
      · simp [kind] at stops
      · have := braces _ stops
        simp [kind] at this
  cases fuel with
  | zero => omega
  | succ fuel =>
    have notClosed : ¬ (nextKind a = .eof ∨ closes (nextKind a) = true) := by
      rintro (kind | closed)
      · simp [kind, endsStmts] at starts
      · simp [braces _ closed, endsStmts] at starts
    refine .peeked rfl ?_
    rw [if_neg notClosed]
    have first : Accepts stmt.attempt a b fun found =>
        ∃ y : Stmt, found = some y ∧ y.plain = x.plain := by
      intro s there
      obtain ⟨y, s', yields, there', clean, same⟩ :=
        layered a b _ (by omega) (item fun _ => notElse) s there
      exact ⟨some y, s', yields_attempt.mpr yields, there', clean, y, rfl, same⟩
    refine first.bind ?_
    rintro _ ⟨y, rfl, same⟩
    refine accepts_warnUnreachable.bind fun _ _ => ?_
    refine (more n stmt closes fuel _ layered (by omega) (by omega) braces stops).bind
      fun ys sames => .pure ?_
    simp only [plainStmts, same, sames]

/-! ### All phrases -/

/-- Behind a statement there is no `else`, unless the list of statements ends there. -/
theorem Derives.stmts_next (h : Derives .stmts a xs b) : nextKind a ≠ .kwElse ∨ a = b := by
  cases h with
  | noStmts => exact .inr rfl
  | nextStmt item _ =>
    refine .inl fun kind => ?_
    have := item.starts
    simp [Phrase.Starts, kind, endsStmts] at this

/-- What is derived is accepted. -/
theorem Derives.accepted {phrase : Phrase} {x : phrase.Tree} (h : Derives phrase a x b) :
    Accepted phrase a x b := by
  induction h with
  | named name => exact accepted_named name
  | arrayType opens _ closes inner => exact accepted_arrayType opens inner closes
  | untyped => exact accepted_untyped
  | typed marks _ written => exact accepted_typed marks written
  | typedName name colon _ written => exact accepted_typedName name colon written
  | lastName h item => exact accepted_lastName item h.length_le
  | nextName h comma _ item more => exact accepted_nextName item h.length_le comma more
  | noParams => exact accepted_noParams
  | params h items => exact accepted_params items h.starts
  | looser _ tighter => exact accepted_looser tighter
  | assign h sign h' left right => exact accepted_assign left sign right h.length_le h'.length_le
  | binary h sign h' left right =>
    exact accepted_binary left (BinaryOp.ofToken?_eq_some.mpr sign) right h.length_le h'.length_le
  | unary sign _ operand => exact accepted_unary (UnaryOp.ofToken?_eq_some.mpr sign) operand
  | select _ dot name head => exact accepted_select head dot name
  | call h opens h' closes head inner =>
    exact accepted_call head opens inner closes h.length_le h'.length_le
  | methodCall h dot name opens h' closes head inner =>
    exact accepted_methodCall head dot name opens inner closes h.length_le h'.length_le
  | index h opens h' closes head inner =>
    exact accepted_index head opens inner closes h.length_le h'.length_le
  | literal spells => exact accepted_literal spells
  | reference name => exact accepted_reference name
  | selfRef keyword => exact accepted_selfRef keyword
  | paren opens _ closes inner => exact accepted_paren opens inner closes
  | array opens _ closes inner => exact accepted_array opens inner closes
  | lastExpr h item => exact accepted_lastExpr item h.length_le
  | nextExpr h comma _ item more => exact accepted_nextExpr item h.length_le comma more
  | noArgs => exact accepted_noArgs
  | args h items => exact accepted_args items h.starts
  | noFields => exact accepted_noFields
  | lastField h item => exact accepted_lastField item h.starts
  | nextField h comma _ item more => exact accepted_nextField item h.starts h.length_le comma more
  | block opens _ closes inner => exact accepted_block opens inner closes
  | function _ name opens h closes h' body inner returns does =>
    exact accepted_function name opens inner closes returns does body.starts h.length_le
      h'.length_le
  | noMembers => exact accepted_noMembers
  | fieldMember h semicolon _ item more =>
    exact accepted_fieldMember item h.starts h.length_le semicolon more
  | methodMember h _ item more => exact accepted_methodMember item h.starts h.length_le more
  | funDecl h decl => exact accepted_funDecl decl h.starts h.length_le
  | structDecl keyword name opens _ closes inner =>
    exact accepted_structDecl keyword name opens inner closes
  | classDecl keyword name inherits opens _ closes inner =>
    exact accepted_classDecl keyword name inherits opens inner closes
  | varDecl keyword name _ sign _ semicolon written value =>
    exact accepted_varDecl keyword name written sign value semicolon
  | blockStmt h inner => exact accepted_blockStmt inner h.starts h.length_le
  | ifThen keyword opens h closes _ _ condition branch =>
    exact accepted_ifThen keyword opens condition closes h.length_le branch
  | ifElse keyword opens h closes h' closed other _ _ condition branch otherwise =>
    exact accepted_ifElse keyword opens condition closes h.length_le branch closed other otherwise
      h'.length_le
  | whileLoop keyword opens h closes _ _ condition loop =>
    exact accepted_whileLoop opens condition closes h.length_le keyword loop
  | bareReturn keyword semicolon => exact accepted_bareReturn keyword semicolon
  | valueReturn keyword h semicolon inner =>
    exact accepted_valueReturn keyword inner h.starts semicolon
  | exprStmt h semicolon inner => exact accepted_exprStmt inner h.starts h.length_le semicolon
  | noStmts => exact accepted_noStmts
  | nextStmt h h' item more =>
    exact accepted_nextStmt item h.starts h.length_le more (Derives.stmts_next h')

/-! ### Units -/

theorem accepts_unit (h : Derives .stmts a xs []) :
    Accepts unit a [] (plainStmts ·.statements = plainStmts xs) := by
  refine .placed fun _ => ?_
  have stmts := Derives.accepted h (a.length + 1) statement (fun _ => false) (a.length + 1) .no
    (layered_statement _) (Nat.le_succ _) (Nat.lt_succ_self _) (by simp) (.inl rfl)
  refine (Accepts.sized stmts).bind fun ys same => ?_
  exact .placed fun _ => .tagged fun _ => .pure same

/-- A text that derives statements is read without an error, and as these statements. -/
theorem ofTokens_accepts {tokens : List Token} (h : Derives .stmts (textOf tokens) xs []) :
    hasErrors (ofTokens tokens).diagnostics = false ∧
      plainStmts (ofTokens tokens).unit.statements = plainStmts xs := by
  obtain ⟨u, s, yields, -, clean, same⟩ :=
    accepts_unit h (State.ofTokens tokens) ⟨rfl, State.ofTokens_proper tokens⟩
  have result : unit (State.ofTokens tokens) = (some u, s) := yields
  unfold ofTokens
  simp only [result]
  exact ⟨clean (State.ofTokens_clean tokens), same⟩

/-- The parser against the grammar.  Without an error, the tokens before the end of the text, all of
them and in their order, derive the statements of the unit.  And whatever a text derives, it is read
without an error and as that, so a text has no second reading. -/
theorem ofTokens_matches_grammar (tokens : List Token) :
    (hasErrors (ofTokens tokens).diagnostics = false →
      IsUnit (textOf tokens) (State.lastToken tokens) (ofTokens tokens).unit) ∧
    ∀ xs, Derives .stmts (textOf tokens) xs [] →
      hasErrors (ofTokens tokens).diagnostics = false ∧
        plainStmts (ofTokens tokens).unit.statements = plainStmts xs :=
  ⟨ofTokens_reads, fun _ derives => ofTokens_accepts derives⟩

/-- `if (a) if (b) x = 1 + 2 * 3; else return;` -/
def nestedBranches : List Token :=
  [⟨.kwIf, "if", ⟨0, 2⟩⟩, ⟨.leftParen, "(", ⟨3, 4⟩⟩, ⟨.identifier, "a", ⟨4, 5⟩⟩,
   ⟨.rightParen, ")", ⟨5, 6⟩⟩, ⟨.kwIf, "if", ⟨7, 9⟩⟩, ⟨.leftParen, "(", ⟨10, 11⟩⟩,
   ⟨.identifier, "b", ⟨11, 12⟩⟩, ⟨.rightParen, ")", ⟨12, 13⟩⟩, ⟨.identifier, "x", ⟨14, 15⟩⟩,
   ⟨.equal, "=", ⟨16, 17⟩⟩, ⟨.intLiteral, "1", ⟨18, 19⟩⟩, ⟨.plus, "+", ⟨20, 21⟩⟩,
   ⟨.intLiteral, "2", ⟨22, 23⟩⟩, ⟨.star, "*", ⟨24, 25⟩⟩, ⟨.intLiteral, "3", ⟨26, 27⟩⟩,
   ⟨.semicolon, ";", ⟨27, 28⟩⟩, ⟨.kwElse, "else", ⟨29, 33⟩⟩, ⟨.kwReturn, "return", ⟨34, 40⟩⟩,
   ⟨.semicolon, ";", ⟨40, 41⟩⟩, ⟨.eof, "", ⟨41, 41⟩⟩]

theorem ofTokens_matches_grammar_nestedBranches :
    hasErrors (ofTokens nestedBranches).diagnostics = false ∧
      IsUnit (textOf nestedBranches) ⟨.eof, "", ⟨41, 41⟩⟩ (ofTokens nestedBranches).unit :=
  ⟨by decide +kernel, (ofTokens_matches_grammar nestedBranches).1 (by decide +kernel)⟩

end BlFront.Parser
