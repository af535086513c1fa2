import BlFront.Number.Decimal
import BlFront.Syntax.Basic

/-!
# The grammar of the language

Which tokens make which trees, told without a parser.  A derivation goes from the tokens before
a phrase to those behind it, so that what stands between the two is the phrase.

Expressions are stratified by the list of precedences, loosest first: 1 assignment, 2 `||`,
3 `&&`, 4 equality, 5 comparison, 6 sums, 7 products, 8 unary operators, 9 suffixes.  A call
behind a field is a method call, so that what is called is a phrase of level 10, which ends in
no field.  Level 11 is what needs no operator and no suffix.

The identity of a node is free; its span is that of its tokens.  Parentheses leave no node, they
widen the span of what is inside them.
-/

namespace BlFront

/-- The level of the expressions that an operator makes. -/
def BinaryOp.level : BinaryOp → Nat
  | .or => 2
  | .and => 3
  | .eq | .ne => 4
  | .lt | .gt | .le | .ge => 5
  | .add | .sub => 6
  | .mul | .div | .mod => 7

/-- The token that an operator is written with. -/
def BinaryOp.kind : BinaryOp → TokenKind
  | .add => .plus
  | .sub => .minus
  | .mul => .star
  | .div => .slash
  | .mod => .percent
  | .eq => .equalEqual
  | .ne => .bangEqual
  | .lt => .less
  | .gt => .greater
  | .le => .lessEqual
  | .ge => .greaterEqual
  | .and => .ampAmp
  | .or => .pipePipe

def UnaryOp.kind : UnaryOp → TokenKind
  | .neg => .minus
  | .not => .bang

theorem BinaryOp.ofToken?_eq_some {kind : TokenKind} {op : BinaryOp} :
    BinaryOp.ofToken? kind = some op ↔ kind = op.kind := by
  constructor
  · intro h
    cases kind <;> cases h <;> rfl
  · rintro rfl
    cases op <;> rfl

theorem UnaryOp.ofToken?_eq_some {kind : TokenKind} {op : UnaryOp} :
    UnaryOp.ofToken? kind = some op ↔ kind = op.kind := by
  constructor
  · intro h
    cases kind <;> cases h <;> rfl
  · rintro rfl
    cases op <;> rfl

/-- Whether a statement ends, through branches and bodies, in an `if` without an `else`. -/
def Stmt.endsOpen : Stmt → Bool
  | .ifElse _ _ _ none => true
  | .ifElse _ _ _ (some elseBranch) => elseBranch.endsOpen
  | .whileLoop _ _ body => body.endsOpen
  | _ => false

namespace Grammar

inductive Phrase where
  | type
  /-- A type behind a mark, or nothing. -/
  | typeAfter (mark : TokenKind)
  | typedName
  /-- One or more names with their types, with commas between them. -/
  | typedNames
  | params
  | fields
  | expr (level : Nat)
  /-- One or more expressions, with commas between them. -/
  | exprs
  | args
  | block
  | function
  | members
  | stmt
  | stmts

/-- What a phrase makes. -/
abbrev Phrase.Tree : Phrase → Type
  | .type => TypeExpr
  | .typeAfter _ => Option TypeExpr
  | .typedName => TypedName
  | .typedNames | .params | .fields => List TypedName
  | .expr _ => Expr
  | .exprs | .args => List Expr
  | .block => Block
  | .function => FunctionDecl
  | .members => List TypedName × List FunctionDecl
  | .stmt => Stmt
  | .stmts => List Stmt

/-- The literal that a token is; underscores between digits do not count. -/
inductive Spells : Token → Literal → Prop
  | int {t : Token} {v : Int} (kind : t.kind = .intLiteral)
      (value : Decimal.int64? (t.lexeme.toList.filter (· != '_')) = some v) : Spells t (.int v)
  | float {t : Token} {v : Binary64} (kind : t.kind = .floatLiteral)
      (value : Decimal.float? (t.lexeme.toList.filter (· != '_')) = some v) : Spells t (.float v)
  | string {t : Token} (kind : t.kind = .stringLiteral) : Spells t (.string t.lexeme)
  | yes {t : Token} (kind : t.kind = .kwTrue) : Spells t (.bool true)
  | no {t : Token} (kind : t.kind = .kwFalse) : Spells t (.bool false)
  | unit {t : Token} (kind : t.kind = .kwUnit) : Spells t .unit

/-- The superclass of a class, behind a colon, or nothing. -/
inductive Inherits : List Token → Option Ident → List Token → Prop
  | nothing {a : List Token} : Inherits a none a
  | named {c n : Token} {a : List Token} (colon : c.kind = .colon) (name : n.kind = .identifier) :
      Inherits (c :: n :: a) (some ⟨n.lexeme, n.span⟩) a

/-- The tokens by which the first list is longer than the second make the tree. -/
inductive Derives : (phrase : Phrase) → List Token → phrase.Tree → List Token → Prop
  -- types and names that have one
  | named {id : NodeId} {n : Token} {a : List Token} (name : n.kind = .identifier) :
      Derives .type (n :: a) (.named ⟨id, n.span⟩ n.lexeme) a
  | arrayType {id : NodeId} {l r : Token} {a b : List Token} {element : TypeExpr}
      (opens : l.kind = .leftBracket) (inner : Derives .type a element (r :: b))
      (closes : r.kind = .rightBracket) :
      Derives .type (l :: a) (.array ⟨id, l.span.merge r.span⟩ element) b
  | untyped {mark : TokenKind} {a : List Token} : Derives (.typeAfter mark) a none a
  | typed {mark : TokenKind} {m : Token} {a b : List Token} {type : TypeExpr}
      (marks : m.kind = mark) (written : Derives .type a type b) :
      Derives (.typeAfter mark) (m :: a) (some type) b
  | typedName {id : NodeId} {n c : Token} {a b : List Token} {type : TypeExpr}
      (name : n.kind = .identifier) (colon : c.kind = .colon) (written : Derives .type a type b) :
      Derives .typedName (n :: c :: a) ⟨⟨id, n.span.merge type.span⟩, n.lexeme, type⟩ b
  | lastName {a b : List Token} {x : TypedName} (item : Derives .typedName a x b) :
      Derives .typedNames a [x] b
  | nextName {c : Token} {a b d : List Token} {x : TypedName} {xs : List TypedName}
      (item : Derives .typedName a x (c :: b)) (comma : c.kind = .comma)
      (more : Derives .typedNames b xs d) : Derives .typedNames a (x :: xs) d
  | noParams {a : List Token} : Derives .params a [] a
  | params {a b : List Token} {xs : List TypedName} (items : Derives .typedNames a xs b) :
      Derives .params a xs b
  -- expressions
  | looser {level : Nat} {a b : List Token} {e : Expr} (h : Derives (.expr (level + 1)) a e b) :
      Derives (.expr level) a e b
  | assign {id : NodeId} {t : Token} {a b c : List Token} {target value : Expr}
      (left : Derives (.expr 2) a target (t :: b)) (sign : t.kind = .equal)
      (right : Derives (.expr 1) b value c) :
      Derives (.expr 1) a (.assign ⟨id, target.span.merge value.span⟩ target value) c
  | binary {id : NodeId} {t : Token} {a b c : List Token} {op : BinaryOp} {x y : Expr}
      (left : Derives (.expr op.level) a x (t :: b)) (sign : t.kind = op.kind)
      (right : Derives (.expr (op.level + 1)) b y c) :
      Derives (.expr op.level) a (.binary ⟨id, x.span.merge y.span⟩ op x y) c
  | unary {id : NodeId} {t : Token} {a b : List Token} {op : UnaryOp} {x : Expr}
      (sign : t.kind = op.kind) (operand : Derives (.expr 8) a x b) :
      Derives (.expr 8) (t :: a) (.unary ⟨id, t.span.merge x.span⟩ op x) b
  | select {id : NodeId} {d n : Token} {a b : List Token} {object : Expr}
      (head : Derives (.expr 9) a object (d :: n :: b)) (dot : d.kind = .dot)
      (name : n.kind = .identifier) :
      Derives (.expr 9) a (.select ⟨id, object.span.merge n.span⟩ object n.lexeme) b
  | call {id : NodeId} {l r : Token} {a b c : List Token} {callee : Expr} {args : List Expr}
      (head : Derives (.expr 10) a callee (l :: b)) (opens : l.kind = .leftParen)
      (inner : Derives .args b args (r :: c)) (closes : r.kind = .rightParen) :
      Derives (.expr 10) a (.call ⟨id, callee.span.merge r.span⟩ callee args) c
  | methodCall {id : NodeId} {d n l r : Token} {a b c : List Token} {receiver : Expr}
      {args : List Expr} (head : Derives (.expr 9) a receiver (d :: n :: l :: b))
      (dot : d.kind = .dot) (name : n.kind = .identifier) (opens : l.kind = .leftParen)
      (inner : Derives .args b args (r :: c)) (closes : r.kind = .rightParen) :
      Derives (.expr 10) a
        (.methodCall ⟨id, receiver.span.merge r.span⟩ receiver n.lexeme args) c
  | index {id : NodeId} {l r : Token} {a b c : List Token} {object position : Expr}
      (head : Derives (.expr 9) a object (l :: b)) (opens : l.kind = .leftBracket)
      (inner : Derives (.expr 1) b position (r :: c)) (closes : r.kind = .rightBracket) :
      Derives (.expr 10) a (.index ⟨id, object.span.merge r.span⟩ object position) c
  | literal {id : NodeId} {t : Token} {a : List Token} {value : Literal} (spells : Spells t value) :
      Derives (.expr 11) (t :: a) (.literal ⟨id, t.span⟩ value) a
  | reference {id : NodeId} {n : Token} {a : List Token} (name : n.kind = .identifier) :
      Derives (.expr 11) (n :: a) (.reference ⟨id, n.span⟩ n.lexeme) a
  | selfRef {id : NodeId} {t : Token} {a : List Token} (keyword : t.kind = .kwSelf) :
      Derives (.expr 11) (t :: a) (.selfRef ⟨id, t.span⟩) a
  | paren {l r : Token} {a b : List Token} {e : Expr} (opens : l.kind = .leftParen)
      (inner : Derives (.expr 1) a e (r :: b)) (closes : r.kind = .rightParen) :
      Derives (.expr 11) (l :: a) (e.withSpan (l.span.merge r.span)) b
  | array {id : NodeId} {l r : Token} {a b : List Token} {elements : List Expr}
      (opens : l.kind = .leftBracket) (inner : Derives .args a elements (r :: b))
      (closes : r.kind = .rightBracket) :
      Derives (.expr 11) (l :: a) (.array ⟨id, l.span.merge r.span⟩ elements) b
  | lastExpr {a b : List Token} {e : Expr} (item : Derives (.expr 1) a e b) :
      Derives .exprs a [e] b
  | nextExpr {c : Token} {a b d : List Token} {e : Expr} {es : List Expr}
      (item : Derives (.expr 1) a e (c :: b)) (comma : c.kind = .comma)
      (more : Derives .exprs b es d) : Derives .exprs a (e :: es) d
  | noArgs {a : List Token} : Derives .args a [] a
  | args {a b : List Token} {es : List Expr} (items : Derives .exprs a es b) : Derives .args a es b
  -- parts of declarations
  | noFields {a : List Token} : Derives .fields a [] a
  | lastField {a b : List Token} {x : TypedName} (item : Derives .typedName a x b) :
      Derives .fields a [x] b
  | nextField {c : Token} {a b d : List Token} {x : TypedName} {xs : List TypedName}
      (item : Derives .typedName a x (c :: b)) (comma : c.kind = .comma)
      (more : Derives .fields b xs d) : Derives .fields a (x :: xs) d
  | block {id : NodeId} {l r : Token} {a b : List Token} {ss : List Stmt}
      (opens : l.kind = .leftBrace) (inner : Derives .stmts a ss (r :: b))
      (closes : r.kind = .rightBrace) :
      Derives .block (l :: a) ⟨⟨id, l.span.merge r.span⟩, ss⟩ b
  | function {id : NodeId} {k n l r : Token} {a b c d : List Token} {ps : List TypedName}
      {result : Option TypeExpr} {body : Block} (keyword : k.kind = .kwFun)
      (name : n.kind = .identifier) (opens : l.kind = .leftParen)
      (inner : Derives .params a ps (r :: b)) (closes : r.kind = .rightParen)
      (returns : Derives (.typeAfter .arrow) b result c) (does : Derives .block c body d) :
      Derives .function (k :: n :: l :: a)
        ⟨⟨id, k.span.merge body.tag.span⟩, n.lexeme, ps, result, body⟩ d
  | noMembers {a : List Token} : Derives .members a ([], []) a
  | fieldMember {t : Token} {a b c : List Token} {x : TypedName} {xs : List TypedName}
      {fs : List FunctionDecl} (item : Derives .typedName a x (t :: b))
      (semicolon : t.kind = .semicolon) (more : Derives .members b (xs, fs) c) :
      Derives .members a (x :: xs, fs) c
  | methodMember {a b c : List Token} {f : FunctionDecl} {xs : List TypedName}
      {fs : List FunctionDecl} (item : Derives .function a f b)
      (more : Derives .members b (xs, fs) c) : Derives .members a (xs, f :: fs) c
  -- statements
  | funDecl {a b : List Token} {f : FunctionDecl} (decl : Derives .function a f b) :
      Derives .stmt a (.funDecl f) b
  | structDecl {id : NodeId} {k n l r : Token} {a b : List Token} {fields : List TypedName}
      (keyword : k.kind = .kwStruct) (name : n.kind = .identifier) (opens : l.kind = .leftBrace)
      (inner : Derives .fields a fields (r :: b)) (closes : r.kind = .rightBrace) :
      Derives .stmt (k :: n :: l :: a)
        (.structDecl ⟨⟨id, k.span.merge r.span⟩, n.lexeme, fields⟩) b
  | classDecl {id : NodeId} {k n l r : Token} {a b c : List Token} {superclass : Option Ident}
      {fields : List TypedName} {methods : List FunctionDecl} (keyword : k.kind = .kwClass)
      (name : n.kind = .identifier) (inherits : Inherits a superclass (l :: b))
      (opens : l.kind = .leftBrace) (inner : Derives .members b (fields, methods) (r :: c))
      (closes : r.kind = .rightBrace) :
      Derives .stmt (k :: n :: a)
        (.classDecl ⟨⟨id, k.span.merge r.span⟩, n.lexeme, superclass, fields, methods⟩) c
  | varDecl {id : NodeId} {k n q t : Token} {a b c : List Token} {type : Option TypeExpr}
      {initializer : Expr} (keyword : k.kind = .kwVar) (name : n.kind = .identifier)
      (written : Derives (.typeAfter .colon) a type (q :: b)) (sign : q.kind = .equal)
      (value : Derives (.expr 1) b initializer (t :: c)) (semicolon : t.kind = .semicolon) :
      Derives .stmt (k :: n :: a)
        (.varDecl ⟨⟨id, k.span.merge t.span⟩, n.lexeme, type, initializer⟩) c
  | blockStmt {a b : List Token} {body : Block} (inner : Derives .block a body b) :
      Derives .stmt a (.block body) b
  | ifThen {id : NodeId} {k l r last : Token} {a b c seen : List Token} {cond : Expr}
      {first : Stmt} (keyword : k.kind = .kwIf) (opens : l.kind = .leftParen)
      (condition : Derives (.expr 1) a cond (r :: b)) (closes : r.kind = .rightParen)
      (branch : Derives .stmt b first c) (ends : b = seen ++ last :: c) :
      Derives .stmt (k :: l :: a) (.ifElse ⟨id, k.span.merge last.span⟩ cond first none) c
  /-- The `else` belongs to this `if`, since no `if` inside it is still open. -/
  | ifElse {id : NodeId} {k l r e last : Token} {a b c d seen : List Token} {cond : Expr}
      {first second : Stmt} (keyword : k.kind = .kwIf) (opens : l.kind = .leftParen)
      (condition : Derives (.expr 1) a cond (r :: b)) (closes : r.kind = .rightParen)
      (branch : Derives .stmt b first (e :: c)) (closed : first.endsOpen = false)
      (other : e.kind = .kwElse) (otherwise : Derives .stmt c second d)
      (ends : c = seen ++ last :: d) :
      Derives .stmt (k :: l :: a)
        (.ifElse ⟨id, k.span.merge last.span⟩ cond first (some second)) d
  | whileLoop {id : NodeId} {k l r last : Token} {a b c seen : List Token} {cond : Expr}
      {body : Stmt} (keyword : k.kind = .kwWhile) (opens : l.kind = .leftParen)
      (condition : Derives (.expr 1) a cond (r :: b)) (closes : r.kind = .rightParen)
      (loop : Derives .stmt b body c) (ends : b = seen ++ last :: c) :
      Derives .stmt (k :: l :: a) (.whileLoop ⟨id, k.span.merge last.span⟩ cond body) c
  | bareReturn {id : NodeId} {k t : Token} {a : List Token} (keyword : k.kind = .kwReturn)
      (semicolon : t.kind = .semicolon) :
      Derives .stmt (k :: t :: a) (.returnStmt ⟨id, k.span.merge t.span⟩ none) a
  | valueReturn {id : NodeId} {k t : Token} {a b : List Token} {value : Expr}
      (keyword : k.kind = .kwReturn) (inner : Derives (.expr 1) a value (t :: b))
      (semicolon : t.kind = .semicolon) :
      Derives .stmt (k :: a) (.returnStmt ⟨id, k.span.merge t.span⟩ (some value)) b
  | exprStmt {id : NodeId} {t : Token} {a b : List Token} {e : Expr}
      (inner : Derives (.expr 1) a e (t :: b)) (semicolon : t.kind = .semicolon) :
      Derives .stmt a (.exprStmt ⟨id, e.span.merge t.span⟩ e) b
  | noStmts {a : List Token} : Derives .stmts a [] a
  | nextStmt {a b c : List Token} {s : Stmt} {ss : List Stmt} (item : Derives .stmt a s b)
      (more : Derives .stmts b ss c) : Derives .stmts a (s :: ss) c

/-- The statements of a whole text make a unit, which reaches up to the end of the text. -/
structure IsUnit (text : List Token) (stop : Token) (u : CompilationUnit) : Prop where
  stmts : Derives .stmts text u.statements []
  span : u.tag.span = (text.head?.getD stop).span.merge stop.span

end Grammar

end BlFront
