import BlFront.Proofs.Syntax.Reading.Stmt

/-!
# Texts that are accepted

The other direction: tokens that derive a tree are read as that tree.  A parse function accepts a
stretch of tokens if it gets through it from every state in front of it, with no new error.  The
tree it makes is the derived one up to identities and places, which are erased to compare the two.

What follows a phrase matters, since the parser takes all it can get; so each phrase is accepted in
front of tokens that cannot belong to it.
-/

namespace BlFront

variable {t : Token}

/-! ### Trees without identities and places -/

/-- The tag that all nodes of a plain tree have. -/
def Tag.blank : Tag := ⟨⟨0⟩, .dummy⟩

def TypeExpr.plain : TypeExpr → TypeExpr
  | .named _ name => .named .blank name
  | .array _ element => .array .blank element.plain

def TypedName.plain (n : TypedName) : TypedName := ⟨.blank, n.name, n.type.plain⟩

def Ident.plain (i : Ident) : Ident := ⟨i.name, .dummy⟩

mutual

/-- The expression without the identities and places of its nodes. -/
def Expr.plain : Expr → Expr
  | .literal _ value => .literal .blank value
  | .array _ elements => .array .blank (plainExprs elements)
  | .reference _ name => .reference .blank name
  | .selfRef _ => .selfRef .blank
  | .unary _ op operand => .unary .blank op operand.plain
  | .binary _ op left right => .binary .blank op left.plain right.plain
  | .assign _ target value => .assign .blank target.plain value.plain
  | .call _ callee args => .call .blank callee.plain (plainExprs args)
  | .methodCall _ receiver method args =>
    .methodCall .blank receiver.plain method (plainExprs args)
  | .select _ object field => .select .blank object.plain field
  | .index _ object position => .index .blank object.plain position.plain

def plainExprs : List Expr → List Expr
  | [] => []
  | e :: es => e.plain :: plainExprs es

end

def StructDecl.plain (d : StructDecl) : StructDecl := ⟨.blank, d.name, d.fields.map TypedName.plain⟩

def VarDecl.plain (d : VarDecl) : VarDecl :=
  ⟨.blank, d.name, d.type.map TypeExpr.plain, d.initializer.plain⟩

mutual

def FunctionDecl.plain : FunctionDecl → FunctionDecl
  | ⟨_, name, params, returnType, body⟩ =>
    ⟨.blank, name, params.map TypedName.plain, returnType.map TypeExpr.plain, body.plain⟩

def Block.plain : Block → Block
  | ⟨_, statements⟩ => ⟨.blank, plainStmts statements⟩

def ClassDecl.plain : ClassDecl → ClassDecl
  | ⟨_, name, superclass, fields, methods⟩ =>
    ⟨.blank, name, superclass.map Ident.plain, fields.map TypedName.plain, plainMethods methods⟩

/-- The statement without the identities and places of its nodes. -/
def Stmt.plain : Stmt → Stmt
  | .funDecl decl => .funDecl decl.plain
  | .structDecl decl => .structDecl decl.plain
  | .classDecl decl => .classDecl decl.plain
  | .varDecl decl => .varDecl decl.plain
  | .block block => .block block.plain
  | .ifElse _ condition thenBranch none => .ifElse .blank condition.plain thenBranch.plain none
  | .ifElse _ condition thenBranch (some elseBranch) =>
    .ifElse .blank condition.plain thenBranch.plain (some elseBranch.plain)
  | .whileLoop _ condition body => .whileLoop .blank condition.plain body.plain
  | .returnStmt _ value => .returnStmt .blank (value.map Expr.plain)
  | .exprStmt _ expr => .exprStmt .blank expr.plain

def plainStmts : List Stmt → List Stmt
  | [] => []
  | s :: ss => s.plain :: plainStmts ss

def plainMethods : List FunctionDecl → List FunctionDecl
  | [] => []
  | f :: fs => f.plain :: plainMethods fs

end

def CompilationUnit.plain (u : CompilationUnit) : CompilationUnit :=
  ⟨.blank, plainStmts u.statements⟩

@[simp] theorem Expr.plain_withSpan (e : Expr) (span : Span) : (e.withSpan span).plain = e.plain := by
  cases e <;> rfl

/-! ### Where phrases start -/

variable {a : List Token}

namespace Grammar

/-- The kind of the first token; a text that is over ends in its end. -/
def nextKind (a : List Token) : TokenKind := (a.head?.map Token.kind).getD .eof

@[simp] theorem nextKind_cons (t : Token) (a : List Token) : nextKind (t :: a) = t.kind := rfl

/-- The least number of tokens of a phrase. -/
def Phrase.least : Phrase → Nat
  | .typeAfter _ | .params | .fields | .args | .members | .stmts => 0
  | _ => 1

variable {b : List Token}

theorem Inherits.length_le {i : Option Ident} (h : Inherits a i b) :
    b.length ≤ a.length := by
  cases h with
  | nothing => exact Nat.le_refl _
  | named _ _ => simp only [List.length_cons]; omega

variable {phrase : Phrase}

/-- A phrase takes tokens from the front. -/
theorem Derives.length_le {x : phrase.Tree}
    (h : Derives phrase a x b) : b.length + phrase.least ≤ a.length := by
  induction h with
  | classDecl _ _ inherits _ _ _ _ =>
    have := inherits.length_le
    simp only [Phrase.least, List.length_cons] at *
    omega
  | _ =>
    simp only [Phrase.least, List.length_cons] at *
    omega

/-- A token with which an expression starts. -/
def startsExpr : TokenKind → Bool
  | .intLiteral | .floatLiteral | .stringLiteral | .kwTrue | .kwFalse | .kwUnit | .kwSelf
  | .identifier | .leftParen | .leftBracket | .minus | .bang => true
  | _ => false

/-- A token that is no start of a statement. -/
def endsStmts : TokenKind → Bool
  | .eof | .rightBrace | .kwElse => true
  | _ => false

/-- What a phrase starts with, if it is not empty. -/
def Phrase.Starts : Phrase → TokenKind → Prop
  | .typedName, kind | .typedNames, kind => kind = .identifier
  | .expr _, kind | .exprs, kind => startsExpr kind = true
  | .block, kind => kind = .leftBrace
  | .function, kind => kind = .kwFun
  | .stmt, kind => endsStmts kind = false
  | _, _ => True

theorem Spells.starts {v : Literal} (h : Spells t v) : startsExpr t.kind = true := by
  cases h <;> simp [startsExpr, *]

theorem startsExpr_of_unary {kind : TokenKind} {op : UnaryOp} (h : UnaryOp.ofToken? kind = some op) :
    startsExpr kind = true := by
  cases kind <;> simp_all [UnaryOp.ofToken?, startsExpr]

theorem endsStmts_of_startsExpr {kind : TokenKind} (h : startsExpr kind = true) :
    endsStmts kind = false := by
  cases kind <;> simp_all [startsExpr, endsStmts]

theorem Derives.starts {x : phrase.Tree}
    (h : Derives phrase a x b) : phrase.Starts (nextKind a) := by
  induction h with
  | literal spells => exact spells.starts
  | unary sign _ _ => exact startsExpr_of_unary (UnaryOp.ofToken?_eq_some.mpr sign)
  | exprStmt _ _ ih => exact endsStmts_of_startsExpr ih
  | _ => simp_all [Phrase.Starts, startsExpr, endsStmts]

end Grammar

namespace Parser

open Grammar

/-! ### Acceptance -/

/-- The state is in front of some tokens. -/
structure State.At (a : List Token) (s : State) : Prop where
  rest : s.rest = a
  proper : s.Proper

variable {s : State}

theorem State.At.kind (h : s.At a) : s.current.kind = nextKind a := by
  cases a with
  | nil => simp [State.current, h.rest, h.proper.last, nextKind]
  | cons t a => simp [State.current, h.rest]

theorem State.At.current (h : s.At (t :: a)) : s.current = t := by
  simp [State.current, h.rest]

/-- From every state in front of the first tokens a parse function gets to the second ones, with no
new error and with a good value. -/
def Accepts {α : Type} (p : Parse α) (a b : List Token) (Good : α → Prop) : Prop :=
  ∀ s : State, s.At a → ∃ x s', Yields p s x s' ∧ s'.At b ∧ (s.Clean → s'.Clean) ∧ Good x

section Rules

variable {α β : Type} {p : Parse α} {a b c : List Token} {Good : α → Prop} {Fine : β → Prop}

theorem Accepts.bind {f : α → Parse β} (h : Accepts p a b Good)
    (h' : ∀ x, Good x → Accepts (f x) b c Fine) : Accepts (p >>= f) a c Fine := by
  intro s there
  obtain ⟨x, s₁, first, at₁, clean₁, good⟩ := h s there
  obtain ⟨y, s₂, second, at₂, clean₂, fine⟩ := h' x good s₁ at₁
  exact ⟨y, s₂, yields_bind.mpr ⟨x, s₁, first, second⟩, at₂, fun clean => clean₂ (clean₁ clean), fine⟩

theorem Accepts.pure {x : α} (h : Good x) : Accepts (Pure.pure x) a a Good :=
  fun s there => ⟨x, s, rfl, there, id, h⟩

theorem Accepts.map {f : α → β} (h : Accepts p a b Good) (h' : ∀ x, Good x → Fine (f x)) :
    Accepts (f <$> p) a b Fine := h.bind fun x good => .pure (h' x good)

theorem Accepts.sized {p : Nat → Parse α} (h : Accepts (p (a.length + 1)) a b Good) :
    Accepts (.sized p) a b Good := by
  intro s there
  have := h s there
  rwa [← there.rest] at this

theorem Accepts.peeked {f : TokenKind → Parse β} {kind : TokenKind} (same : nextKind a = kind)
    (h : Accepts (f kind) a b Fine) : Accepts (peek >>= f) a b Fine := by
  intro s there
  have := h s there
  rwa [← same, ← there.kind] at this

theorem Accepts.looked {f : Token → Parse β} (h : Accepts (f t) (t :: a) b Fine) :
    Accepts (current >>= f) (t :: a) b Fine := by
  intro s there
  have := h s there
  rwa [← there.current] at this

theorem Accepts.placed {f : Span → Parse β} (h : ∀ span, Accepts (f span) a b Fine) :
    Accepts (currentSpan >>= f) a b Fine := fun s there => h _ s there

theorem accepts_advance : Accepts advance (t :: a) a (· = t) := by
  intro s there
  refine ⟨t, { s with rest := a, previous := t }, ?_, ⟨rfl, there.proper.last, ?_⟩, id, rfl⟩
  · unfold Yields advance
    rw [there.rest]
  · intro u mem
    exact there.proper.rest u (by rw [there.rest]; exact List.mem_cons_of_mem t mem)

theorem Accepts.advanced {f : Token → Parse β} (h : Accepts (f t) a b Fine) :
    Accepts (advance >>= f) (t :: a) b Fine := accepts_advance.bind fun _ same => same ▸ h

theorem accepts_expect {kind : TokenKind} (same : t.kind = kind) :
    Accepts (expect kind) (t :: a) a (· = t) := by
  refine .peeked same ?_
  rw [if_pos rfl]
  exact accepts_advance

theorem Accepts.expected {kind : TokenKind} {f : Token → Parse β} (same : t.kind = kind)
    (h : Accepts (f t) a b Fine) : Accepts (expect kind >>= f) (t :: a) b Fine :=
  (accepts_expect same).bind fun _ same => same ▸ h

theorem Accepts.named {f : Ident → Parse β} (name : t.kind = .identifier)
    (h : Accepts (f ⟨t.lexeme, t.span⟩) a b Fine) : Accepts (expectName >>= f) (t :: a) b Fine :=
  have read : Accepts expectName (t :: a) a (· = ⟨t.lexeme, t.span⟩) := .expected name (.pure rfl)
  read.bind fun _ same => same ▸ h

theorem Accepts.eaten {kind : TokenKind} {f : Bool → Parse β} (same : t.kind = kind)
    (h : Accepts (f true) a b Fine) : Accepts (eat kind >>= f) (t :: a) b Fine := by
  have read : Accepts (eat kind) (t :: a) a (· = true) := by
    refine .peeked same ?_
    rw [if_pos rfl]
    exact .advanced (.pure rfl)
  exact read.bind fun _ same => same ▸ h

theorem Accepts.uneaten {kind : TokenKind} {f : Bool → Parse β} (other : nextKind a ≠ kind)
    (h : Accepts (f false) a b Fine) : Accepts (eat kind >>= f) a b Fine := by
  have read : Accepts (eat kind) a a (· = false) := by
    refine .peeked rfl ?_
    rw [if_neg other]
    exact .pure rfl
  exact read.bind fun _ same => same ▸ h

theorem Accepts.tagged {span : Span} {f : Tag → Parse β} (h : ∀ tag, Accepts (f tag) a b Fine) :
    Accepts (freshTag span >>= f) a b Fine := by
  have fresh : Accepts (freshTag span) a a fun _ => True := fun _ there =>
    ⟨_, _, rfl, ⟨there.rest, there.proper.last, there.proper.rest⟩, id, trivial⟩
  exact fresh.bind fun tag _ => h tag

theorem Accepts.around {start : Span} {make : Tag → α} (h : ∀ tag, Good (make tag)) :
    Accepts (spanFrom start >>= fun span => freshTag span >>= fun tag => Pure.pure (make tag))
      a a Good :=
  fun _ there => (Accepts.tagged fun tag => .pure (h tag)) _ there

/-- Two alternatives behind a token that decides between them, with the same continuation. -/
theorem eat_ite_bind {kind : TokenKind} {q : Parse α} {k : α → Parse β} :
    (eat kind >>= fun found => if found = true then p >>= k else q >>= k) =
      (eat kind >>= fun found => if found = true then p else q) >>= k := by
  funext s
  simp only [Parse.bind_apply]
  rcases eat kind s with ⟨_ | found, s₁⟩
  · rfl
  · cases found <;> rfl

end Rules

/-! ### What acceptance says of each phrase -/

/-- A type behind a mark, or nothing. -/
def optionalType (mark : TokenKind) : Parse (Option TypeExpr) :=
  eat mark >>= fun found => if found = true then some <$> typeExpr else pure none

/-- The operators from one on, behind an operand with all its suffixes. -/
def fromOperator (expr : Nat → Parse Expr) (least fuel : Nat) (left : Expr) : Parse Expr := do
  let kind ← peek
  match bindingPower? kind with
  | none => return left
  | some (toLeft, toRight) =>
    if toLeft < least then return left
    else
      let _ ← advance
      let right ← expr toRight
      let tag ← freshTag (left.span.merge right.span)
      operators expr least fuel (combine tag kind left right)

theorem operators_eq (expr : Nat → Parse Expr) (least fuel : Nat) (head : Expr) :
    operators expr least (fuel + 1) head =
      Parse.sized (fun n => suffixes (expr 0) n head) >>= fromOperator expr least fuel := rfl

/-- An operand with suffixes is read up to its end, whatever is read from there on. -/
def Suffixed (depth : Nat) (a : List Token) (e : Expr) (b : List Token) : Prop :=
  ∃ (middle : List Token) (Head : Expr → Prop), b.length ≤ middle.length ∧
    Accepts (operand (exprAt depth)) a middle Head ∧
      ∀ head fuel c Good, Head head → middle.length < fuel →
        (∀ e' fuel', e'.plain = e.plain → b.length < fuel' →
          Accepts (suffixes (exprAt depth 0) fuel' e') b c Good) →
        Accepts (suffixes (exprAt depth 0) fuel head) middle c Good

/-- A chain of operators is read up to its end, whatever is read from there on. -/
def Chained (depth least : Nat) (a : List Token) (e : Expr) (b : List Token) : Prop :=
  ∀ c Good,
    (∀ e' fuel, e'.plain = e.plain → b.length ≤ fuel →
      Accepts (fromOperator (exprAt depth) least fuel e') b c Good) →
    Accepts (layer (exprAt depth) least) a c Good

/-- A parser of statements that does what statements with enough layers do. -/
def Layered (n : Nat) (stmt : Parse Stmt) : Prop :=
  ∀ a b Good, a.length ≤ n → (∀ depth, a.length ≤ depth → Accepts (statementAt depth) a b Good) →
    Accepts stmt a b Good

/-- The parse function of a phrase accepts it, in front of tokens that do not belong to it. -/
def Accepted : (phrase : Phrase) → List Token → phrase.Tree → List Token → Prop
  | .type, a, x, b => ∀ depth, a.length ≤ depth → Accepts (typeAt depth) a b (·.plain = x.plain)
  | .typeAfter mark, a, x, b => nextKind b ≠ mark →
      Accepts (optionalType mark) a b (·.map TypeExpr.plain = x.map TypeExpr.plain)
  | .typedName, a, x, b => Accepts typedName a b (·.plain = x.plain)
  | .typedNames, a, xs, b => ∀ fuel, a.length ≤ fuel → nextKind b ≠ .comma →
      Accepts (commaSeparated typedName fuel) a b (·.map TypedName.plain = xs.map TypedName.plain)
  | .params, a, xs, b => ∀ r c, b = r :: c → r.kind = .rightParen →
      Accepts (listUntil .rightParen typedName) a c
        (·.map TypedName.plain = xs.map TypedName.plain)
  | .fields, a, xs, b => nextKind b = .rightBrace → ∀ fuel, a.length < fuel →
      Accepts (structFields fuel) a b (·.map TypedName.plain = xs.map TypedName.plain)
  | .expr level, a, e, b =>
    (level ≤ 8 → Stops (ceiling level) (nextKind b) → ∀ depth least, a.length ≤ depth →
      least < 2 * level → Chained depth least a e b) ∧
    (9 ≤ level → (level = 9 → nextKind b ≠ .leftParen) → ∀ depth, a.length ≤ depth →
      Suffixed depth a e b)
  | .exprs, a, es, b => nextKind b = .rightParen ∨ nextKind b = .rightBracket →
      ∀ depth fuel, a.length < depth → a.length ≤ fuel →
        Accepts (commaSeparated (exprAt depth 0) fuel) a b (plainExprs · = plainExprs es)
  | .args, a, es, b => ∀ r c, b = r :: c → r.kind = .rightParen ∨ r.kind = .rightBracket →
      ∀ depth, a.length < depth →
        Accepts (listUntil r.kind (exprAt depth 0)) a c (plainExprs · = plainExprs es)
  | .block, a, x, b => ∀ depth, a.length ≤ depth + 1 →
      Accepts (block (statementAt depth)) a b (·.plain = x.plain)
  | .function, a, f, b => ∀ depth, a.length ≤ depth + 1 →
      Accepts (funDeclaration (statementAt depth)) a b (·.plain = f.plain)
  | .members, a, members, b => nextKind b = .rightBrace → ∀ depth fuel, a.length ≤ depth →
      a.length < fuel →
        Accepts (classMembers (statementAt depth) fuel) a b fun found =>
          found.1.map TypedName.plain = members.1.map TypedName.plain ∧
            plainMethods found.2 = plainMethods members.2
  | .stmt, a, x, b => (x.endsOpen = true → nextKind b ≠ .kwElse) → ∀ depth, a.length ≤ depth →
      Accepts (statementAt depth) a b (·.plain = x.plain)
  | .stmts, a, xs, b => ∀ n stmt closes fuel reach, Layered n stmt → a.length ≤ n →
      a.length < fuel → (∀ kind, closes kind = true → kind = .rightBrace) →
        nextKind b = .eof ∨ closes (nextKind b) = true →
          Accepts (statements closes stmt fuel reach) a b (plainStmts · = plainStmts xs)

end Parser

end BlFront
