import BlFront.Proofs.Syntax.Accepting.Basic

/-!
# Types and expressions are accepted

One lemma for each production.  A left operand hands over to the loop that looks for operators, and
a head to the loop that looks for suffixes; the loops go on with what is behind and never go back.
-/

namespace BlFront.Parser

open List

variable {x : Expr} {level : Nat} {tag : Tag} {l n r t : Token} {kind : TokenKind}

open Grammar

/-! ### Lists with commas -/

section Lists

variable {α : Type} {item : Parse α} {a b c : List Token} {Good : α → Prop} {Fine : List α → Prop}
  {fuel : Nat}

theorem accepts_commaSeparated_last (h : Accepts item a b Good) (next : nextKind b ≠ .comma)
    (fine : ∀ x, Good x → Fine [x]) : Accepts (commaSeparated item (fuel + 1)) a b Fine :=
  h.bind fun x good => .uneaten next (.pure (fine x good))

theorem accepts_commaSeparated_next {Goods : List α → Prop} (h : Accepts item a (t :: b) Good)
    (comma : t.kind = .comma) (more : Accepts (commaSeparated item fuel) b c Goods)
    (fine : ∀ x xs, Good x → Goods xs → Fine (x :: xs)) :
    Accepts (commaSeparated item (fuel + 1)) a c Fine :=
  h.bind fun x good => .eaten comma <| more.bind fun xs goods => .pure (fine x xs good goods)

theorem accepts_listUntil_none (fine : Fine []) :
    Accepts (listUntil r.kind item) (r :: c) c Fine := by
  refine .peeked rfl ?_
  rw [nextKind_cons, if_pos rfl]
  exact (Accepts.pure rfl).bind fun xs same => .expected rfl (.pure (same ▸ fine))

theorem accepts_listUntil_some (starts : nextKind a ≠ r.kind)
    (h : Accepts (commaSeparated item (a.length + 1)) a (r :: c) Fine) :
    Accepts (listUntil r.kind item) a c Fine := by
  refine .peeked rfl ?_
  rw [if_neg starts]
  exact (Accepts.sized h).bind fun xs fine => .expected rfl (.pure fine)

end Lists

/-! ### Types -/

theorem accepted_named {a : List Token} (name : n.kind = .identifier) :
    Accepted .type (n :: a) (.named tag n.lexeme) a := by
  intro depth fits
  cases depth with
  | zero => simp at fits
  | succ depth =>
    exact .placed fun _ => .peeked name <| .advanced <| .tagged fun _ => .pure rfl

theorem accepted_arrayType {a b : List Token} {element : TypeExpr} (opens : l.kind = .leftBracket)
    (inner : Accepted .type a element (r :: b)) (closes : r.kind = .rightBracket) :
    Accepted .type (l :: a) (.array tag element) b := by
  intro depth fits
  cases depth with
  | zero => simp at fits
  | succ depth =>
    refine .placed fun _ => .peeked opens <| .advanced ?_
    refine (inner depth (by simpa using fits)).bind fun x same => .expected closes ?_
    exact .around fun _ => by simp only [TypeExpr.plain, same]

theorem Accepted.typeExpr {a b : List Token} {x : TypeExpr} (h : Accepted .type a x b) :
    Accepts typeExpr a b (·.plain = x.plain) := .sized (h _ (Nat.le_succ _))

theorem accepted_untyped {mark : TokenKind} {a : List Token} :
    Accepted (.typeAfter mark) a none a := fun next => .uneaten next (.pure rfl)

theorem accepted_typed {mark : TokenKind} {m : Token} {a b : List Token} {type : TypeExpr}
    (marks : m.kind = mark) (written : Accepted .type a type b) :
    Accepted (.typeAfter mark) (m :: a) (some type) b :=
  fun _ => .eaten marks <| written.typeExpr.map fun x same => by simp [same]

theorem accepted_typedName {c : Token} {a b : List Token} {type : TypeExpr}
    (name : n.kind = .identifier) (colon : c.kind = .colon) (written : Accepted .type a type b) :
    Accepted .typedName (n :: c :: a) ⟨tag, n.lexeme, type⟩ b := by
  refine Accepts.named name <| .expected colon ?_
  exact written.typeExpr.bind fun x same => .tagged fun _ => .pure (by simp only [TypedName.plain, same])

theorem accepted_lastName {a b : List Token} {x : TypedName} (item : Accepted .typedName a x b)
    (length : b.length + 1 ≤ a.length) : Accepted .typedNames a [x] b := by
  intro fuel enough next
  obtain ⟨fuel, rfl⟩ : ∃ k, fuel = k + 1 := ⟨fuel - 1, by omega⟩
  exact accepts_commaSeparated_last item next fun y same => by simp [same]

theorem accepted_nextName {c : Token} {a b d : List Token} {x : TypedName} {xs : List TypedName}
    (item : Accepted .typedName a x (c :: b)) (length : (c :: b).length + 1 ≤ a.length)
    (comma : c.kind = .comma) (more : Accepted .typedNames b xs d) :
    Accepted .typedNames a (x :: xs) d := by
  intro fuel enough next
  simp only [length_cons] at length
  obtain ⟨fuel, rfl⟩ : ∃ k, fuel = k + 1 := ⟨fuel - 1, by omega⟩
  exact accepts_commaSeparated_next item comma (more fuel (by omega) next) fun y ys same sames => by
    simp [same, sames]

theorem accepted_noParams {a : List Token} : Accepted .params a [] a := by
  rintro r c rfl closes
  rw [← closes]
  exact accepts_listUntil_none rfl

theorem accepted_params {a b : List Token} {xs : List TypedName}
    (items : Accepted .typedNames a xs b) (starts : nextKind a = .identifier) :
    Accepted .params a xs b := by
  rintro r c rfl closes
  rw [← closes]
  refine accepts_listUntil_some (by simp [starts, closes]) ?_
  exact items _ (Nat.le_succ _) (by simp [closes])

/-! ### Chains of operators -/

section Chains

variable {expr : Nat → Parse Expr} {a b c : List Token} {e : Expr} {Good : Expr → Prop}
  {depth least fuel : Nat}

/-- What follows an expression that is closed. -/
theorem Stops.of_none (suffix : startsSuffix kind = false) (power : bindingPower? kind = none) :
    Stops least kind :=
  ⟨suffix, fun l r found => by simp [power] at found⟩

theorem accepts_fromOperator_stop (stops : Stops least (nextKind b)) (good : Good e) :
    Accepts (fromOperator expr least fuel e) b b Good := by
  refine .peeked rfl ?_
  split
  · exact .pure good
  · next toLeft toRight power =>
      rw [if_pos (stops.power toLeft toRight power)]
      exact .pure good

theorem accepts_suffixes_stop (stops : startsSuffix (nextKind b) = false) (good : Good e)
    (enough : 0 < fuel) : Accepts (suffixes (expr 0) fuel e) b b Good := by
  intro s there
  obtain ⟨fuel, rfl⟩ : ∃ k, fuel = k + 1 := ⟨fuel - 1, by omega⟩
  rw [← there.kind] at stops
  exact ⟨e, s, suffixes_of_stop stops, there, id, good⟩

/-- An operand without further suffixes goes on to the operators behind it. -/
theorem accepts_operators (stops : startsSuffix (nextKind b) = false)
    (h : Accepts (fromOperator expr least fuel e) b c Good) :
    Accepts (operators expr least (fuel + 1) e) b c Good := by
  have suffixed : Accepts (.sized fun n => suffixes (expr 0) n e) b b (· = e) :=
    .sized (accepts_suffixes_stop stops rfl (Nat.succ_pos _))
  rw [operators_eq]
  refine suffixed.bind ?_
  rintro _ rfl
  exact h

/-- A phrase at its level is a whole expression, where operators that bind as tightly stop. -/
theorem Accepted.whole (h : Accepted (.expr level) a e b) (le : level ≤ 8)
    (stops : Stops (ceiling level) (nextKind b)) (fits : a.length < depth)
    (less : least < 2 * level) (least_stops : Stops least (nextKind b)) :
    Accepts (exprAt depth least) a b (·.plain = e.plain) := by
  obtain ⟨depth, rfl⟩ : ∃ k, depth = k + 1 := ⟨depth - 1, by omega⟩
  exact h.1 le stops depth least (by omega) less b _ fun _ _ same _ =>
    accepts_fromOperator_stop least_stops same

theorem Accepted.inner (h : Accepted (.expr 1) a e b) (fits : a.length < depth)
    (next : nextKind b = kind) (suffix : startsSuffix kind = false) (power : bindingPower? kind = none) :
    Accepts (exprAt depth 0) a b (·.plain = e.plain) := by
  subst next
  exact h.whole (by decide) (.of_none suffix power) fits (by decide) (.of_none suffix power)

theorem ceiling_mono : ceiling level ≤ ceiling (level + 1) := by
  unfold ceiling
  split <;> split <;> omega

theorem accepted_looser (h : Accepted (.expr (level + 1)) a e b) :
    Accepted (.expr level) a e b := by
  constructor
  · intro le stops depth least fits less
    rcases Nat.lt_or_eq_of_le le with lt | rfl
    · exact h.1 (by omega) (stops.mono ceiling_mono) depth least fits (by omega)
    · -- the suffixes are read, and then the operators are looked for
      have notParen : nextKind b ≠ .leftParen := by
        intro kind
        have := stops.suffix
        simp [kind, startsSuffix] at this
      obtain ⟨middle, Head, shorter, reads, run⟩ := h.2 (by decide) (fun _ => notParen) depth fits
      intro c Good goes
      refine reads.bind fun head good => .sized ?_
      rw [operators_eq]
      have suffixed : Accepts (.sized fun n => suffixes (exprAt depth 0) n head) middle b
          (·.plain = e.plain) :=
        .sized (run head _ b _ good (Nat.lt_succ_self _) fun e' fuel same more =>
          accepts_suffixes_stop stops.suffix same (by omega))
      exact suffixed.bind fun e' same => goes e' _ same shorter
  · intro ge next depth fits
    exact h.2 (by omega) (fun nine => by omega) depth fits

/-- An operator that binds tightly enough goes on to its right operand. -/
theorem Chained.operator {y : Expr} {toLeft toRight : Nat} (left : Chained depth least a x (t :: b))
    (power : bindingPower? t.kind = some (toLeft, toRight)) (enough : least ≤ toLeft)
    (right : Accepts (exprAt depth toRight) b c (·.plain = y.plain))
    (stops : startsSuffix (nextKind c) = false) (shorter : c.length ≤ b.length)
    (plain : ∀ tag x' y', x'.plain = x.plain → y'.plain = y.plain →
      (combine tag t.kind x' y').plain = e.plain) : Chained depth least a e c := by
  intro d Good goes
  refine left d Good fun x' fuel same more => ?_
  simp only [length_cons] at more
  obtain ⟨fuel, rfl⟩ : ∃ k, fuel = k + 1 := ⟨fuel - 1, by omega⟩
  refine .peeked rfl ?_
  rw [nextKind_cons, power]
  simp only
  rw [if_neg (by omega)]
  refine .advanced <| right.bind fun y' same' => .tagged fun tag => ?_
  exact accepts_operators stops (goes _ fuel (plain tag x' y' same same') (by omega))

theorem BinaryOp.ofToken?_power {op : BinaryOp} (h : BinaryOp.ofToken? kind = some op) :
    bindingPower? kind = some (2 * op.level - 1, 2 * op.level) ∧ startsSuffix kind = false := by
  cases kind <;> simp_all [BinaryOp.ofToken?] <;> subst h <;>
    simp [bindingPower?, startsSuffix, BinaryOp.level]

theorem accepted_binary {op : BinaryOp} {y : Expr} (left : Accepted (.expr op.level) a x (t :: b))
    (sign : BinaryOp.ofToken? t.kind = some op) (right : Accepted (.expr (op.level + 1)) b y c)
    (leftLength : (t :: b).length + 1 ≤ a.length) (rightLength : c.length + 1 ≤ b.length) :
    Accepted (.expr op.level) a (.binary tag op x y) c := by
  have bounds := op.level_bounds
  obtain ⟨power, suffix⟩ := BinaryOp.ofToken?_power sign
  simp only [length_cons] at leftLength
  have ceiling_eq : ceiling op.level = 2 * op.level := by
    unfold ceiling
    rw [if_neg (by omega)]
  refine ⟨fun le stops depth least fits less => ?_, fun ge => by omega⟩
  have operator : Stops (ceiling op.level) t.kind := by
    refine ⟨suffix, fun l r found => ?_⟩
    obtain ⟨rfl, rfl⟩ : 2 * op.level - 1 = l ∧ 2 * op.level = r := by simpa [power] using found
    omega
  have rightReads : Accepts (exprAt depth (2 * op.level)) b c (·.plain = y.plain) :=
    right.whole (by omega) (stops.mono ceiling_mono) (by omega) (by omega) (ceiling_eq ▸ stops)
  refine (left.1 le operator depth least fits less).operator power (by omega) rightReads
    stops.suffix (by omega) fun tag x' y' same same' => ?_
  simp only [combine, sign, Expr.plain, same, same']

theorem accepted_assign {target value : Expr} (left : Accepted (.expr 2) a target (t :: b))
    (sign : t.kind = .equal) (right : Accepted (.expr 1) b value c)
    (leftLength : (t :: b).length + 1 ≤ a.length) (rightLength : c.length + 1 ≤ b.length) :
    Accepted (.expr 1) a (.assign tag target value) c := by
  simp only [length_cons] at leftLength
  refine ⟨fun le stops depth least fits less => ?_, fun ge => by omega⟩
  have operator : Stops (ceiling 2) t.kind := by
    rw [sign]
    exact ⟨rfl, fun l r found => by cases found; decide⟩
  have power : bindingPower? t.kind = some (2, 1) := by rw [sign]; rfl
  have rightReads : Accepts (exprAt depth 1) b c (·.plain = value.plain) :=
    right.whole (by decide) stops (by omega) (by decide) stops
  refine (left.1 (by decide) operator depth least fits (by omega)).operator power (by omega)
    rightReads stops.suffix (by omega) fun tag x' y' same same' => ?_
  simp only [combine, sign, BinaryOp.ofToken?, Expr.plain, same, same']

theorem accepted_unary {op : UnaryOp} (sign : UnaryOp.ofToken? t.kind = some op)
    (operand : Accepted (.expr 8) a x b) :
    Accepted (.expr 8) (t :: a) (.unary tag op x) b := by
  refine ⟨fun le stops depth least fits less => ?_, fun ge => by omega⟩
  simp only [length_cons] at fits
  intro c Good goes
  have reads : Accepts (Parser.operand (exprAt depth)) (t :: a) b
      (·.plain = (Expr.unary tag op x).plain) := by
    refine .placed fun _ => .peeked rfl ?_
    rw [nextKind_cons, sign]
    refine .advanced <| (operand.whole le stops (by omega) (by decide)
      ((Stops.ofSuffix stops.suffix).mono (by decide))).bind fun x' same => ?_
    exact .tagged fun _ => .pure (by simp only [Expr.plain, same])
  exact reads.bind fun head same => .sized
    (accepts_operators stops.suffix (goes head _ same (Nat.le_refl _)))

end Chains

/-! ### Heads and their suffixes -/

section Suffixes

variable {a b c : List Token} {e : Expr}

theorem accepted_of_primary (same : t.kind = kind) (starts : UnaryOp.ofToken? kind = none)
    (h : ∀ depth, a.length < depth →
      Accepts (primary (exprAt depth 0)) (t :: a) b (·.plain = e.plain)) :
    Accepted (.expr 11) (t :: a) e b := by
  refine ⟨fun le => by omega, fun _ _ depth fits => ?_⟩
  refine ⟨b, (·.plain = e.plain), Nat.le_refl _, ?_, fun head fuel c Good good enough goes =>
    goes head fuel good enough⟩
  refine .placed fun _ => .peeked same ?_
  rw [starts]
  exact h depth fits

theorem accepted_literal {value : Literal} (spells : Spells t value) :
    Accepted (.expr 11) (t :: a) (.literal tag value) a := by
  obtain ⟨literal, found, reads, starts⟩ : ∃ literal, literalOf? t = some literal ∧
      Accepts literal a a (· = value) ∧ UnaryOp.ofToken? t.kind = none := by
    unfold literalOf?
    cases spells with
    | int kind value =>
      refine ⟨intLiteral t, by rw [kind], ?_, by rw [kind]; rfl⟩
      unfold intLiteral digitsOf
      rw [value]
      exact .pure rfl
    | float kind value =>
      refine ⟨floatLiteral t, by rw [kind], ?_, by rw [kind]; rfl⟩
      unfold floatLiteral digitsOf
      rw [value]
      exact .pure rfl
    | string kind => exact ⟨pure (.string t.lexeme), by rw [kind], .pure rfl, by rw [kind]; rfl⟩
    | yes kind => exact ⟨pure (.bool true), by rw [kind], .pure rfl, by rw [kind]; rfl⟩
    | no kind => exact ⟨pure (.bool false), by rw [kind], .pure rfl, by rw [kind]; rfl⟩
    | unit kind => exact ⟨pure .unit, by rw [kind], .pure rfl, by rw [kind]; rfl⟩
  refine accepted_of_primary rfl starts fun depth _ => .placed fun _ => .looked ?_
  rw [found]
  exact .advanced <| reads.bind fun v same => .around fun _ => by simp only [Expr.plain, same]

theorem accepted_reference (name : n.kind = .identifier) :
    Accepted (.expr 11) (n :: a) (.reference tag n.lexeme) a := by
  refine accepted_of_primary name rfl fun depth _ => .placed fun _ => .looked ?_
  rw [literalOf?, name]
  exact .advanced <| .around fun _ => rfl

theorem accepted_selfRef (keyword : t.kind = .kwSelf) :
    Accepted (.expr 11) (t :: a) (.selfRef tag) a := by
  refine accepted_of_primary keyword rfl fun depth _ => .placed fun _ => .looked ?_
  rw [literalOf?, keyword]
  exact .advanced <| .around fun _ => rfl

theorem accepted_paren {span : Span} (opens : l.kind = .leftParen)
    (inner : Accepted (.expr 1) a e (r :: b)) (closes : r.kind = .rightParen) :
    Accepted (.expr 11) (l :: a) (e.withSpan span) b := by
  refine accepted_of_primary opens rfl fun depth fits => .placed fun _ => .looked ?_
  rw [literalOf?, opens]
  refine .advanced <| (inner.inner fits closes rfl rfl).bind fun e' same => .expected closes ?_
  exact fun s there => ⟨_, s, rfl, there, id, by simp [same]⟩

theorem accepted_array {elements : List Expr} (opens : l.kind = .leftBracket)
    (inner : Accepted .args a elements (r :: b)) (closes : r.kind = .rightBracket) :
    Accepted (.expr 11) (l :: a) (.array tag elements) b := by
  refine accepted_of_primary opens rfl fun depth fits => .placed fun _ => .looked ?_
  rw [literalOf?, opens]
  have list := inner r b rfl (.inr closes) depth fits
  rw [closes] at list
  exact .advanced <| list.bind fun es same => .around fun _ => by simp only [Expr.plain, same]

/-- A suffix makes a head longer. -/
theorem Suffixed.extend {depth : Nat} (h : Suffixed depth a x b)
    (suffix : ∀ x' : Expr, x'.plain = x.plain →
      Accepts (suffix? (exprAt depth 0) x') b c fun longer =>
        ∃ e', longer = some e' ∧ e'.plain = e.plain) (shorter : c.length < b.length) :
    Suffixed depth a e c := by
  obtain ⟨middle, Head, le, reads, run⟩ := h
  refine ⟨middle, Head, by omega, reads, fun head fuel d Good good enough goes => ?_⟩
  refine run head fuel d Good good enough fun x' fuel' same more => ?_
  obtain ⟨fuel', rfl⟩ : ∃ k, fuel' = k + 1 := ⟨fuel' - 1, by omega⟩
  rw [suffixes]
  refine (suffix x' same).bind ?_
  rintro _ ⟨e', rfl, same'⟩
  exact goes e' fuel' same' (by omega)

/-- A suffix behind a token that tells which. -/
theorem accepted_suffix {inner : Nat} (head : Accepted (.expr inner) a x (t :: b)) (ge : 9 ≤ inner)
    (fit : inner = 9 → t.kind ≠ .leftParen) (outer : 9 ≤ level)
    (shorter : c.length ≤ b.length)
    (h : ∀ depth x', a.length ≤ depth → (level = 9 → nextKind c ≠ .leftParen) → x'.plain = x.plain →
      Accepts (suffix? (exprAt depth 0) x') (t :: b) c fun longer =>
        ∃ e', longer = some e' ∧ e'.plain = e.plain) : Accepted (.expr level) a e c := by
  refine ⟨fun le => by omega, fun _ next depth fits => ?_⟩
  exact (head.2 ge fit depth fits).extend (fun x' => h depth x' fits next)
    (Nat.lt_succ_of_le shorter)

theorem accepted_select {d : Token} (head : Accepted (.expr 9) a x (d :: n :: b)) (dot : d.kind = .dot)
    (name : n.kind = .identifier) : Accepted (.expr 9) a (.select tag x n.lexeme) b := by
  refine accepted_suffix head (by decide) (by simp [dot]) (by decide) (Nat.le_succ _)
    fun depth x' _ next same => .peeked dot <| .advanced ?_
  have field : Accepts (member (exprAt depth 0) x') (n :: b) b
      (·.plain = (Expr.select tag x n.lexeme).plain) :=
    .named name <| .uneaten (next rfl) <| .around fun _ => by simp only [Expr.plain, same]
  exact field.bind fun e' same' => .pure ⟨e', rfl, same'⟩

theorem accepted_call {args : List Expr} (head : Accepted (.expr 10) a x (l :: b))
    (opens : l.kind = .leftParen) (inner : Accepted .args b args (r :: c))
    (closes : r.kind = .rightParen) (headLength : (l :: b).length + 1 ≤ a.length)
    (innerLength : (r :: c).length ≤ b.length) :
    Accepted (.expr 10) a (.call tag x args) c := by
  simp only [length_cons] at headLength innerLength
  refine accepted_suffix head (by decide) (by simp) (by decide) (by omega)
    fun depth x' fits _ same => .peeked opens <| .advanced ?_
  have list := inner r c rfl (.inl closes) depth (by omega)
  rw [closes] at list
  exact list.bind fun es sames => .around fun _ => ⟨_, rfl, by simp only [Expr.plain, same, sames]⟩

theorem accepted_methodCall {d : Token} {args : List Expr}
    (head : Accepted (.expr 9) a x (d :: n :: l :: b)) (dot : d.kind = .dot)
    (name : n.kind = .identifier) (opens : l.kind = .leftParen)
    (inner : Accepted .args b args (r :: c)) (closes : r.kind = .rightParen)
    (headLength : (d :: n :: l :: b).length + 1 ≤ a.length)
    (innerLength : (r :: c).length ≤ b.length) :
    Accepted (.expr 10) a (.methodCall tag x n.lexeme args) c := by
  simp only [length_cons] at headLength innerLength
  refine accepted_suffix head (by decide) (by simp [dot]) (by decide)
    (by simp only [length_cons]; omega) fun depth x' fits _ same => .peeked dot <| .advanced ?_
  have list := inner r c rfl (.inl closes) depth (by omega)
  rw [closes] at list
  have method : Accepts (member (exprAt depth 0) x') (n :: l :: b) c
      (·.plain = (Expr.methodCall tag x n.lexeme args).plain) :=
    .named name <| .eaten opens <| list.bind fun es sames => .around fun _ => by
      simp only [Expr.plain, same, sames]
  exact method.bind fun e' same' => .pure ⟨e', rfl, same'⟩

theorem accepted_index {position : Expr} (head : Accepted (.expr 9) a x (l :: b))
    (opens : l.kind = .leftBracket) (inner : Accepted (.expr 1) b position (r :: c))
    (closes : r.kind = .rightBracket) (headLength : (l :: b).length + 1 ≤ a.length)
    (innerLength : (r :: c).length + 1 ≤ b.length) :
    Accepted (.expr 10) a (.index tag x position) c := by
  simp only [length_cons] at headLength innerLength
  refine accepted_suffix head (by decide) (by simp [opens]) (by decide) (by omega)
    fun depth x' fits _ same => .peeked opens <| .advanced ?_
  refine (inner.inner (by omega) closes rfl rfl).bind fun p' same' => .expected closes ?_
  exact .around fun _ => ⟨_, rfl, by simp only [Expr.plain, same, same']⟩

/-! ### Lists of expressions -/

theorem stops_at_close (h : kind = .rightParen ∨ kind = .rightBracket) :
    startsSuffix kind = false ∧ bindingPower? kind = none ∧ kind ≠ .comma := by
  rcases h with rfl | rfl <;> exact ⟨rfl, rfl, by decide⟩

theorem accepted_lastExpr (item : Accepted (.expr 1) a e b) (length : b.length + 1 ≤ a.length) :
    Accepted .exprs a [e] b := by
  intro closes depth fuel fits enough
  obtain ⟨suffix, power, notComma⟩ := stops_at_close closes
  obtain ⟨fuel, rfl⟩ : ∃ k, fuel = k + 1 := ⟨fuel - 1, by omega⟩
  exact accepts_commaSeparated_last (item.inner fits rfl suffix power) notComma fun x same => by
    simp [plainExprs, same]

theorem accepted_nextExpr {es : List Expr} (item : Accepted (.expr 1) a e (t :: b))
    (length : (t :: b).length + 1 ≤ a.length) (comma : t.kind = .comma)
    (more : Accepted .exprs b es c) : Accepted .exprs a (e :: es) c := by
  intro closes depth fuel fits enough
  simp only [length_cons] at length
  obtain ⟨fuel, rfl⟩ : ∃ k, fuel = k + 1 := ⟨fuel - 1, by omega⟩
  exact accepts_commaSeparated_next (item.inner fits comma rfl rfl) comma
    (more closes depth fuel (by omega) (by omega)) fun x xs same sames => by
      simp [plainExprs, same, sames]

theorem accepted_noArgs : Accepted .args a [] a := by
  rintro r c rfl closes depth fits
  exact accepts_listUntil_none rfl

theorem accepted_args {es : List Expr} (items : Accepted .exprs a es b)
    (starts : startsExpr (nextKind a) = true) : Accepted .args a es b := by
  rintro r c rfl closes depth fits
  refine accepts_listUntil_some ?_ (items closes depth _ fits (Nat.le_succ _))
  intro same
  rcases closes with kind | kind <;> simp [same, kind, startsExpr] at starts

end Suffixes

end BlFront.Parser
