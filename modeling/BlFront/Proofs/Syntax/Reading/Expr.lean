import BlFront.Proofs.Syntax.Reading.Basic

/-!
# Expressions that are read

An expression of a binding power ends where no suffix and no operator follows that would belong to it.
Parentheses leave no node, so what is inside an expression is told apart from its own node, the place of
which they may change.
-/

namespace BlFront

variable {e head : Expr} {a : List Token} {fuel fuel' least level toLeft toRight : Nat} {kind : TokenKind}

open Grammar

/-! ### The grammar's levels -/

/-- The level of the expressions that are read at a binding power. -/
def Grammar.levelOf (least : Nat) : Nat := least / 2 + 1

/-- The binding power that operators behind an expression of a level stay below. -/
def Grammar.ceiling (level : Nat) : Nat := if level = 1 then 1 else 2 * level

/-- A looser phrase may be a tighter one. -/
theorem Grammar.Derives.lower {tight : Nat} {b : List Token} (le : level ≤ tight)
    (h : Derives (.expr tight) a e b) : Derives (.expr level) a e b := by
  induction tight with
  | zero =>
    obtain rfl : level = 0 := by omega
    exact h
  | succ tight ih =>
    rcases Nat.lt_or_eq_of_le le with lt | rfl
    · exact ih (by omega) h.looser
    · exact h

/-- Operators are assignments or binary, and the powers of a binary one are told by its level. -/
theorem bindingPower?_cases (h : bindingPower? kind = some (toLeft, toRight)) :
    (kind = .equal ∧ BinaryOp.ofToken? kind = none ∧ toLeft = 2 ∧ toRight = 1) ∨
      ∃ op, BinaryOp.ofToken? kind = some op ∧ toLeft = 2 * op.level - 1 ∧ toRight = 2 * op.level := by
  cases kind <;> simp_all [bindingPower?, BinaryOp.ofToken?, BinaryOp.level]

theorem BinaryOp.level_bounds (op : BinaryOp) : 2 ≤ op.level ∧ op.level ≤ 7 := by
  cases op <;> decide

theorem UnaryOp.ofToken?_ne_eof {op : UnaryOp} (h : UnaryOp.ofToken? kind = some op) :
    kind ≠ .eof := by
  rintro rfl
  cases h

namespace Parser

/-- A token with which a call, a member or an index starts. -/
def startsSuffix : TokenKind → Bool
  | .leftParen | .dot | .leftBracket => true
  | _ => false

/-- A token that an expression at a binding power does not go on with. -/
structure Stops (least : Nat) (kind : TokenKind) : Prop where
  suffix : startsSuffix kind = false
  power : ∀ toLeft toRight, bindingPower? kind = some (toLeft, toRight) → toLeft < least

theorem Stops.mono {more : Nat} (h : Stops least kind) (le : least ≤ more) : Stops more kind :=
  ⟨h.suffix, fun l r power => Nat.lt_of_lt_of_le (h.power l r power) le⟩

/-- No operator binds as tightly as a product's right side and more. -/
theorem Stops.ofSuffix (h : startsSuffix kind = false) : Stops 14 kind := by
  refine ⟨h, fun l r power => ?_⟩
  rcases bindingPower?_cases power with ⟨-, -, rfl, -⟩ | ⟨op, -, rfl, -⟩
  · decide
  · have := op.level_bounds
    omega

/-! ### Expressions and what is inside them -/

/-- What a tour visits inside an expression. -/
def inner (e : Expr) (expected : Option Expected) : List Visit :=
  (e.operands expected).flatMap fun operand => operand.1.tour operand.2

theorem inner_withSpan (e : Expr) (span : Span) (expected : Option Expected) :
    inner (e.withSpan span) expected = inner e expected ∧ (e.withSpan span).span = span ∧
      (e.withSpan span).id = e.id := by
  cases e <;> exact ⟨rfl, rfl, rfl⟩

theorem inner_extended (tag : Tag) (head : Expr) (name : String) (args : List Expr) (position : Expr)
    (expected : Option Expected) :
    inner (.call tag head args) expected = head.tour none ++ args.flatMap (·.tour none) ∧
      inner (.methodCall tag head name args) expected =
        head.tour none ++ args.flatMap (·.tour none) ∧
      inner (.select tag head name) expected = head.tour none ∧
      inner (.index tag head position) expected = head.tour none ++ position.tour none := by
  simp [inner, Expr.operands, List.flatMap_map]

theorem inner_combine (tag : Tag) (kind : TokenKind) (left right : Expr) (expected : Option Expected) :
    inner (combine tag kind left right) expected = left.tour none ++ right.tour none ∧
      (combine tag kind left right).span = tag.span ∧ (combine tag kind left right).id = tag.id := by
  unfold combine
  split <;> exact ⟨by simp [inner, Expr.operands], rfl, rfl⟩

/-- An expression was read, and its number is greater than those inside it. -/
structure Placed (s : State) (e : Expr) (s' : State) : Prop where
  lies : ∀ expected, Lies s s' e.span (inner e expected)
  range : s.nextId ≤ e.id.index ∧ e.id.index < s'.nextId
  above : ∀ expected, ∀ n ∈ visited (inner e expected), n.index < e.id.index

theorem Placed.tour {s s' : State} (h : Placed s e s') (expected : Option Expected) :
    Lies s s' e.span (e.tour expected) := by
  have lies := h.lies expected
  rw [e.tour_eq]
  exact lies.around (.expr e expected) rfl (lies.numbered.around rfl h.range (h.above expected))

/-- An expression whose identity is given out now. -/
theorem Placed.of_fills {s₀ s : State} (h : ∀ expected, Fills s₀ s (inner e expected))
    (id : e.id = ⟨s.nextId⟩) (covers : Covers s₀ s e.span) : Placed s₀ e s.draw where
  lies expected := (h expected).draw covers
  range := id ▸ ⟨(h none).onward.nextId, Nat.lt_succ_self _⟩
  above expected n mem := id ▸ ((h expected).numbered.bounds n mem).2

/-! ### Literals -/

theorem literalOf?_ne_eof {t : Token} {literal : Parse Literal} (h : literalOf? t = some literal) :
    t.kind ≠ .eof := by
  intro kind
  simp [literalOf?, kind] at h

/-- A literal is made of the token before. -/
theorem literalOf?_runs {literal : Parse Literal} {s : State} (h : literalOf? s.previous = some literal)
    (F : State → Prop) : Runs literal s F fun v s' =>
      s.Onward s' ∧ (s'.Clean → Spells s.previous v ∧ s' = s) := by
  have here : s.previous ∈ s.tokens := List.mem_cons_self ..
  have report (message : String) (malformed : message.toList.take 7 = "invalid".toList →
        s.previous.kind = .floatLiteral ∧ Decimal.float? (digitsOf s.previous.lexeme) = none) :
      s.Onward { s with diagnostics := s.diagnostics ++ [.errorAt message s.previous.span] } := by
    refine .report (.refl s) ⟨fun lined => ?_, fun invalid => ⟨_, here, malformed invalid⟩⟩
    rw [Diagnostic.spans_errorAt, List.forall_mem_singleton]
    exact (Span.bounded_of_mem here).edged (lined.proper _ here)
  unfold literalOf? at h
  split at h <;> cases h
  · next kind =>
      unfold intLiteral
      split
      · next value => exact ⟨rfl, .refl s, fun _ => ⟨.int kind value, rfl⟩⟩
      · exact ⟨rfl, report _ (by simp), fun clean => absurd clean (State.not_clean_push rfl)⟩
  · next kind =>
      unfold floatLiteral
      split
      · next value => exact ⟨rfl, .refl s, fun _ => ⟨.float kind value, rfl⟩⟩
      · next none => exact ⟨rfl, report _ fun _ => ⟨kind, none⟩, fun clean => absurd clean (State.not_clean_push rfl)⟩
  · next kind => exact ⟨rfl, .refl s, fun _ => ⟨.string kind, rfl⟩⟩
  · next kind => exact ⟨rfl, .refl s, fun _ => ⟨.yes kind, rfl⟩⟩
  · next kind => exact ⟨rfl, .refl s, fun _ => ⟨.no kind, rfl⟩⟩
  · next kind => exact ⟨rfl, .refl s, fun _ => ⟨.unit kind, rfl⟩⟩

/-! ### Operands -/

/-- What two parsers of expressions do at each of the binding powers that operators have, where fewer
than `n` tokens are to come: both read the same expression of the level of that power, up to where
such an expression ends. -/
structure Reader (n : Nat) (expr expr' : Nat → Parse Expr) : Prop where
  runs : ∀ {least : Nat} {s : State}, least ≠ 2 → least ≤ 15 → s.Proper → s.rest.length < n →
    Both (expr least) (expr' least) s s.Fails fun e s' => Placed s e s' ∧
      (s'.Clean → Derives (.expr (levelOf least)) s.rest e s'.rest ∧ Stops least s'.current.kind)

/-- A head to which a suffix may be added; a field that is followed by a parenthesis is not one,
since the two make a method call. -/
def Extensible (a : List Token) (e : Expr) (s : State) : Prop :=
  Derives (.expr 10) a e s.rest ∨ (Derives (.expr 9) a e s.rest ∧ s.current.kind ≠ .leftParen)

theorem Extensible.derives {s : State} (h : Extensible a e s) : Derives (.expr 9) a e s.rest := by
  rcases h with h | ⟨h, -⟩
  · exact h.looser
  · exact h

theorem Extensible.callable {s : State} (h : Extensible a e s) (kind : s.current.kind = .leftParen) :
    Derives (.expr 10) a e s.rest := by
  rcases h with h | ⟨-, other⟩
  · exact h
  · exact absurd kind other

/-- A left operand: either suffixes may follow it, or neither they nor operators that bind more
tightly than its own do. -/
inductive Head (a : List Token) (e : Expr) (s : State) : Nat → Prop
  | ready (extensible : Extensible a e s) : Head a e s 8
  | done {level : Nat} (le : level ≤ 8) (derives : Derives (.expr level) a e s.rest)
      (stops : Stops (ceiling level) s.current.kind) : Head a e s level

theorem Head.extensible {s : State} (h : Head a e s level)
    (starts : startsSuffix s.current.kind = true) : Extensible a e s := by
  cases h with
  | ready extensible => exact extensible
  | done _ _ stops =>
    rw [stops.suffix] at starts
    cases starts

/-- Where no suffix starts, an operand is only followed by operators. -/
theorem Head.settled {s : State} (h : Head a e s level) (none : startsSuffix s.current.kind = false) :
    Derives (.expr level) a e s.rest ∧ Stops (ceiling level) s.current.kind := by
  cases h with
  | ready extensible => exact ⟨extensible.derives.looser, (Stops.ofSuffix none).mono (by decide)⟩
  | done _ derives stops => exact ⟨derives, stops⟩

section Layers

variable {n : Nat} {expr expr' : Nat → Parse Expr} {s₀ s : State}

theorem Reader.inner (reader : Reader n expr expr') (proper : s.Proper) (fits : s.rest.length < n) :
    Both (expr 0) (expr' 0) s s.Fails fun e s' => Placed s e s' ∧
      (s'.Clean → Derives (.expr 1) s.rest e s'.rest) := by
  refine (reader.runs (by decide) (by decide) proper fits).mono (fun _ => id) ?_
  rintro e s' ⟨placed, derives⟩
  exact ⟨placed, fun clean => (derives clean).1⟩

theorem Reader.args (reader : Reader n expr expr') {close : TokenKind} (notEnd : close ≠ .eof)
    (proper : s.Proper) (fits : s.rest.length < n) :
    Both (listUntil close (expr 0)) (listUntil close (expr' 0)) s s.Fails fun es s' =>
      (∀ expected, Makes s s' (es.flatMap (Expr.tour · expected))) ∧ Ends s s' ∧
        (s'.Clean → s'.previous.kind = close ∧ Derives .args s.rest es (s'.previous :: s'.rest)) := by
  refine listUntil_runs Expr.span (fun expected e => e.tour expected) args_listing
    (fun proper fits => (reader.inner proper fits).mono (fun _ => id) ?_) notEnd proper fits
  rintro e s' ⟨placed, derives⟩
  exact ⟨placed.tour, derives⟩

theorem primary_runs (reader : Reader n expr expr') (proper : s.Proper) (fits : s.rest.length ≤ n) :
    Both (primary (expr 0)) (primary (expr' 0)) s s.Fails fun e s' => Placed s e s' ∧
      (s'.Clean → Derives (.expr 11) s.rest e s'.rest) := by
  have start := Makes.begin proper
  rw [primary, primary, both_currentSpan, both_current]
  split
  · next literal found =>
      refine start.advance (literalOf?_ne_eof found) fun s₁ took filled => ?_
      rw [← took.previous] at found
      refine (literalOf?_runs found _).bind ?_
      rintro value s₂ ⟨onward, spells⟩
      have filled := filled.quietly onward fun clean => by rw [(spells clean).2]
      refine ⟨rfl, .of_fills (fun _ => filled) rfl filled.covers, fun clean => ?_⟩
      obtain ⟨spells, rfl⟩ := spells clean
      rw [took.previous] at spells
      rw [took.rest, took.previous, Span.merge_self]
      exact .literal spells
  · split
    · next kind =>
        refine start.advance (by simp [kind]) fun s₁ took filled => ?_
        refine ⟨rfl, .of_fills (fun _ => filled) rfl filled.covers, fun _ => ?_⟩
        rw [took.rest, took.previous, Span.merge_self]
        exact .selfRef kind
    · next kind =>
        refine start.advance (by simp [kind]) fun s₁ took filled => ?_
        refine ⟨rfl, .of_fills (fun _ => filled) rfl filled.covers, fun _ => ?_⟩
        rw [took.rest, took.previous, Span.merge_self]
        exact .reference kind
    · next kind =>
        refine start.advance (by simp [kind]) fun s₁ took opened => ?_
        have := took.length
        refine opened.read (reader.inner opened.proper (by omega)) ?_
        rintro x s₂ ⟨placed, derives⟩
        have inside expected := opened.child (placed.lies expected).toMakes (placed.lies expected).ends
        refine (inside none).expect (by decide) fun r s₃ close closes filled => ?_
        obtain ⟨_, span, id⟩ := inner_withSpan x (s.current.span.merge s₃.previous.span) none
        refine ⟨rfl, ⟨fun expected => ?_, ?_, fun expected => ?_⟩, fun clean => ?_⟩
        · rw [span, (inner_withSpan ..).1]
          exact ((inside expected).token close).lies filled.covers
        · rw [id]
          exact ⟨Nat.le_trans opened.onward.nextId placed.range.1,
            Nat.lt_of_lt_of_le placed.range.2 close.onward.nextId⟩
        · rw [id, (inner_withSpan ..).1]
          exact placed.above expected
        · have derives := derives (close.onward.clean clean)
          rw [close.rest] at derives
          rw [took.rest, close.previous]
          exact .paren kind derives closes
    · next kind =>
        refine start.advance (by simp [kind]) fun s₁ took opened => ?_
        have := took.length
        refine opened.read (reader.args (by decide) opened.proper (by omega)) ?_
        rintro elements s₂ ⟨makes, ends, derives⟩
        have filled expected := opened.child (makes expected) ends
        refine ⟨rfl, .of_fills (fun expected => ?_) rfl (filled none).covers, fun clean => ?_⟩
        · rw [inner, Expr.operands, List.flatMap_map]
          exact filled (expected.map Expected.deeper)
        · obtain ⟨closes, derives⟩ := derives clean
          rw [took.rest]
          exact .array kind derives closes
    · exact refuse_fails (.refl s) _

theorem operand_runs (reader : Reader n expr expr') (proper : s.Proper) (fits : s.rest.length ≤ n) :
    Both (operand expr) (operand expr') s s.Fails fun e s' =>
      Placed s e s' ∧ (s'.Clean → Head s.rest e s' 8) := by
  rw [operand, operand, both_currentSpan, both_peek]
  split
  · next op sign =>
      refine (Makes.begin proper).advance (UnaryOp.ofToken?_ne_eof sign) fun s₁ took word => ?_
      have := took.length
      refine word.read (reader.runs (by decide) (by decide) word.proper (by omega)) ?_
      rintro x s₂ ⟨placed, derives⟩
      have lies := placed.tour none
      have filled := word.child lies.toMakes lies.ends
      refine ⟨rfl, .of_fills (fun expected => ?_) rfl
        (filled.ends.begins.merge (lies.reaches word.onward)), fun clean => ?_⟩
      · simpa [inner, Expr.operands] using filled
      · obtain ⟨derives, stops⟩ := derives clean
        refine .done (Nat.le_refl 8) ?_ (stops.mono (by decide))
        rw [took.rest]
        exact .unary (UnaryOp.ofToken?_eq_some.mp sign) derives
  · refine (primary_runs reader proper fits).mono (fun _ => id) ?_
    rintro e s' ⟨placed, derives⟩
    exact ⟨placed, fun clean => .ready (.inl (derives clean).looser)⟩

/-! ### Suffixes -/

/-- A head was made longer by what was read behind it, and may be so again. -/
structure Extends (s₀ s : State) (e : Expr) (s' : State) : Prop where
  placed : Placed s₀ e s'
  onward : s.Onward s'
  ends : Ends s s'
  extensible : s'.Clean → Extensible s₀.rest e s'

/-- A node around a head and what was read behind it. -/
theorem Placed.extend {s₁ : State} {more : List Visit} (h : Placed s₀ head s)
    (read : Fills s s₁ more) (inside : ∀ expected, inner e expected = head.tour none ++ more)
    (id : e.id = ⟨s₁.nextId⟩) (span : e.span = head.span.merge s₁.previous.span)
    (extensible : s₁.Clean → Extensible s₀.rest e s₁.draw) : Extends s₀ s e s₁.draw := by
  have first := h.tour none
  have whole : Fills s₀ s₁ (head.tour none ++ more) := by
    refine ⟨first.child read.toMakes read.ends, ?_⟩
    have := first.onward.paid
    have := read.coin
    omega
  refine ⟨.of_fills (fun expected => (inside expected).symm ▸ whole) id ?_,
    read.onward.draw read.coin, read.ends, extensible⟩
  rw [span]
  exact (first.begins read.onward).merge whole.ends.reaches

theorem member_runs (reader : Reader n expr expr') {object : Expr} {s₁ : State} {d : Token}
    (placed : Placed s₀ object s) (took : Took s d s₁) (dot : d.kind = .dot)
    (head : s.Clean → Derives (.expr 9) s₀.rest object s.rest) (fits : s.rest.length ≤ n) :
    Both (member (expr 0) object) (member (expr' 0) object) s₁ s.Fails fun e s' => Extends s₀ s e s' := by
  have dotted := (Makes.begin (placed.lies none).proper).token took
  have := took.length
  rw [member, member]
  refine dotted.expectName fun name s₂ tookName isName named => ?_
  have := tookName.length
  have object_derives : s₂.Clean → Derives (.expr 9) s₀.rest object (d :: name :: s₂.rest) := by
    intro clean
    have derives := head (took.onward.clean (tookName.onward.clean clean))
    rwa [took.rest, tookName.rest] at derives
  refine named.eat (by decide) (fun l s₃ tookOpen opens opened => ?_) fun other => ?_
  · have := tookOpen.length
    refine opened.read (reader.args (by decide) opened.proper (by omega)) ?_
    rintro args s₄ ⟨makes, ends, derives⟩
    have filled := opened.child (makes none) ends
    refine ⟨rfl, placed.extend filled (fun expected => ?_) rfl rfl fun clean => .inl ?_⟩
    · exact (inner_extended _ object _ args object expected).2.1
    · obtain ⟨closes, derives⟩ := derives clean
      have head := object_derives (tookOpen.onward.clean ((makes none).onward.clean clean))
      rw [tookOpen.rest] at head
      exact .methodCall head dot isName opens derives closes
  · refine ⟨rfl, placed.extend named (fun expected => ?_) rfl rfl fun clean => .inr ⟨?_, other⟩⟩
    · rw [List.append_nil]
      exact (inner_extended _ object _ [] object expected).2.2.1
    · rw [tookName.previous]
      exact .select (object_derives clean) dot isName

/-- One suffix makes a head longer; without one nothing is read. -/
theorem suffix?_runs (reader : Reader n expr expr') (placed : Placed s₀ head s)
    (ext : s.Clean → startsSuffix s.current.kind = true → Extensible s₀.rest head s)
    (fits : s.rest.length ≤ n) :
    Both (suffix? (expr 0) head) (suffix? (expr' 0) head) s s.Fails fun longer s' =>
      (longer = none ∧ s' = s ∧ startsSuffix s.current.kind = false) ∨
        ∃ e, longer = some e ∧ Extends s₀ s e s' := by
  have start := Makes.begin (placed.lies none).proper
  rw [suffix?, suffix?, both_peek]
  split
  · next kind =>
      refine start.advance (by simp [kind]) fun s₁ took opened => ?_
      have := took.length
      refine opened.read (reader.args (by decide) opened.proper (by omega)) ?_
      rintro args s₂ ⟨makes, ends, derives⟩
      have filled := opened.child (makes none) ends
      refine ⟨rfl, .inr ⟨_, rfl,
        placed.extend filled (fun expected => ?_) rfl rfl fun clean => .inl ?_⟩⟩
      · exact (inner_extended _ head "" args head expected).1
      · obtain ⟨closes, derives⟩ := derives clean
        have callee := (ext (filled.onward.clean clean) (by rw [kind]; rfl)).callable kind
        rw [took.rest] at callee
        exact .call callee kind derives closes
  · next kind =>
      refine start.advance (by simp [kind]) fun s₁ took _ => ?_
      have object clean := (ext clean (by rw [kind]; rfl)).derives
      exact (member_runs reader placed took kind object fits).bind fun e s' longer =>
        ⟨rfl, .inr ⟨e, rfl, longer⟩⟩
  · next kind =>
      refine start.advance (by simp [kind]) fun s₁ took opened => ?_
      have := took.length
      refine opened.read (reader.inner opened.proper (by omega)) ?_
      rintro position s₂ ⟨inside, derives⟩
      have lies := inside.tour none
      refine (opened.child lies.toMakes lies.ends).expect (by decide) fun r s₃ close closes filled => ?_
      refine ⟨rfl, .inr ⟨_, rfl,
        placed.extend filled (fun expected => ?_) rfl rfl fun clean => .inl ?_⟩⟩
      · exact (inner_extended _ head "" [] position expected).2.2.2
      · have derives := derives (close.onward.clean clean)
        have object := (ext (filled.onward.clean clean) (by rw [kind]; rfl)).derives
        rw [close.rest] at derives
        rw [took.rest] at object
        rw [close.previous]
        exact .index object kind derives closes
  · next notParen notDot notBracket =>
      refine ⟨rfl, .inl ⟨rfl, rfl, ?_⟩⟩
      cases kind : s.current.kind <;> first | rfl | contradiction

/-- With all suffixes, an operand is only followed by operators. -/
theorem suffixes_runs (reader : Reader n expr expr') {low : Nat} (le : low ≤ 8)
    (placed : Placed s₀ head s) (ready : s.Clean → ∃ level, low ≤ level ∧ Head s₀.rest head s level)
    (fits : s.rest.length ≤ n) (enough : s.rest.length < fuel) (enough' : s.rest.length < fuel') :
    Both (suffixes (expr 0) fuel head) (suffixes (expr' 0) fuel' head) s s.Fails fun left s' =>
      Placed s₀ left s' ∧ s.Onward s' ∧
      (s'.Clean → ∃ level, low ≤ level ∧ Derives (.expr level) s₀.rest left s'.rest ∧
        Stops (ceiling level) s'.current.kind) := by
  induction fuel generalizing fuel' head s with
  | zero => omega
  | succ fuel ih =>
    obtain ⟨fuel', rfl⟩ := Nat.exists_eq_add_one_of_ne_zero (Nat.ne_zero_of_lt enough')
    rw [suffixes, suffixes]
    refine (suffix?_runs reader placed (fun clean starts => ?_) fits).bind ?_
    · obtain ⟨_, _, head⟩ := ready clean
      exact head.extensible starts
    · rintro _ s₁ (⟨rfl, rfl, none⟩ | ⟨e, rfl, longer⟩)
      · refine ⟨rfl, placed, .refl _, fun clean => ?_⟩
        obtain ⟨level, tight, head⟩ := ready clean
        exact ⟨level, tight, head.settled none⟩
      · have := longer.ends.length_lt
        refine ((ih longer.placed (fun clean => ⟨8, le, .ready (longer.extensible clean)⟩) (by omega)
          (by omega) (by omega)).since longer.onward).mono (fun _ => id) ?_
        rintro left s' ⟨placed, onward, derives⟩
        exact ⟨placed, longer.onward.trans onward, derives⟩

/-- Where no suffix starts there is none. -/
theorem suffixes_of_stop {s : State} (h : startsSuffix s.current.kind = false) :
    suffixes (expr 0) (fuel + 1) head s = (some head, s) := by
  have none : Yields (suffix? (expr 0) head) s none s := by
    rw [suffix?, yields_peek_bind]
    split
    · next kind => simp [startsSuffix, kind] at h
    · next kind => simp [startsSuffix, kind] at h
    · next kind => simp [startsSuffix, kind] at h
    · rfl
  rw [suffixes]
  exact yields_bind.mpr ⟨_, _, none, rfl⟩

/-! ### Operators -/

/-- An operator between two operands makes a left operand again, of its own level. -/
theorem Head.combine {b : List Token} {left right : Expr} {id : NodeId} {t : Token} {s : State}
    (allowed : least ≠ 2) (derives : Derives (.expr level) a left (t :: b))
    (stops : Stops (ceiling level) t.kind) (power : bindingPower? t.kind = some (toLeft, toRight))
    (enough : least ≤ toLeft) (read : Derives (.expr (levelOf toRight)) b right s.rest)
    (next : Stops toRight s.current.kind) :
    ∃ level', levelOf least ≤ level' ∧
      Head a (combine ⟨id, left.span.merge right.span⟩ t.kind left right) s level' := by
  have below := stops.power _ _ power
  unfold ceiling at below
  rcases bindingPower?_cases power with ⟨kind, other, rfl, rfl⟩ | ⟨op, sign, rfl, rfl⟩
  · refine ⟨1, ?_, .done (by decide) ?_ next⟩
    · unfold levelOf
      omega
    · have two : 2 ≤ level := by
        split at below <;> omega
      rw [Parser.combine, other]
      exact .assign (derives.lower two) kind read
  · have := op.level_bounds
    refine ⟨op.level, ?_, .done (by omega) ?_ (next.mono ?_)⟩
    · unfold levelOf
      omega
    · have tight : op.level ≤ level := by
        split at below <;> omega
      have level_eq : levelOf (2 * op.level) = op.level + 1 := by
        unfold levelOf
        omega
      rw [level_eq] at read
      rw [Parser.combine, sign]
      exact .binary (derives.lower tight) (BinaryOp.ofToken?_eq_some.mp sign) read
    · unfold ceiling
      split <;> omega

/-- The powers to the right of operators are those at which operands are read. -/
theorem bindingPower?_right (h : bindingPower? kind = some (toLeft, toRight)) :
    kind ≠ .eof ∧ toRight ≠ 2 ∧ toRight ≤ 15 := by
  refine ⟨fun kind => by simp [bindingPower?, kind] at h, ?_⟩
  rcases bindingPower?_cases h with ⟨-, -, -, rfl⟩ | ⟨op, -, -, rfl⟩
  · decide
  · have := op.level_bounds
    omega

theorem operators_runs (reader : Reader n expr expr') (allowed : least ≠ 2) (le : least ≤ 15)
    (placed : Placed s₀ head s)
    (ready : s.Clean → ∃ level, levelOf least ≤ level ∧ Head s₀.rest head s level)
    (fits : s.rest.length ≤ n) (enough : s.rest.length < fuel) (enough' : s.rest.length < fuel') :
    Both (operators expr least fuel head) (operators expr' least fuel' head) s s₀.Fails fun e s' =>
      Placed s₀ e s' ∧
      (s'.Clean → Derives (.expr (levelOf least)) s₀.rest e s'.rest ∧
        Stops least s'.current.kind) := by
  induction fuel generalizing fuel' head s with
  | zero => omega
  | succ fuel ih =>
    obtain ⟨fuel', rfl⟩ := Nat.exists_eq_add_one_of_ne_zero (Nat.ne_zero_of_lt enough')
    have low : levelOf least ≤ 8 := by
      unfold levelOf
      omega
    rw [operators, operators]
    refine (placed.lies none).read (suffixes_runs reader low placed ready fits (Nat.lt_succ_self _)
      (Nat.lt_succ_self _)) ?_
    rintro left s₁ ⟨placed, onward, derives⟩
    have := onward.length_le
    rw [both_peek]
    split
    · next none =>
        refine ⟨rfl, placed, fun clean => ?_⟩
        obtain ⟨level, tight, derives, stops⟩ := derives clean
        exact ⟨derives.lower tight, stops.suffix, fun l r power => by simp [none] at power⟩
    · next toLeft toRight power =>
        split
        · next less =>
            refine ⟨rfl, placed, fun clean => ?_⟩
            obtain ⟨level, tight, derives, stops⟩ := derives clean
            refine ⟨derives.lower tight, stops.suffix, fun l r same => ?_⟩
            obtain ⟨rfl, rfl⟩ : toLeft = l ∧ toRight = r := by simpa [power] using same
            exact less
        · next enough =>
            obtain ⟨notEnd, rightAllowed, rightLe⟩ := bindingPower?_right power
            have leftLies := placed.tour none
            refine leftLies.advance notEnd fun s₂ took behind => ?_
            have := took.length
            refine behind.read (reader.runs rightAllowed rightLe behind.proper (by omega)) ?_
            rintro right s₃ ⟨rightPlaced, rightDerives⟩
            have rightLies := rightPlaced.tour none
            have whole := behind.child rightLies.toMakes rightLies.ends
            have spans := (leftLies.begins (took.onward.trans rightLies.onward)).merge
              (rightLies.reaches behind.onward)
            have := rightLies.ends.length_lt
            obtain ⟨_, span, id⟩ := inner_combine ⟨⟨s₃.nextId⟩, left.span.merge right.span⟩
              s₁.current.kind left right none
            refine ih (s := s₃.draw) (.of_fills (fun expected => ?_) id ?_) (fun clean => ?_) ?_ ?_ ?_
            · rw [(inner_combine ..).1]
              exact whole
            · rw [span]
              exact spans
            · obtain ⟨rightDerives, next⟩ := rightDerives clean
              obtain ⟨level, tight, derives, stops⟩ :=
                derives (took.onward.clean (rightLies.onward.clean clean))
              rw [took.rest] at derives
              exact Head.combine (s := s₃.draw) allowed derives stops power (by omega) rightDerives next
            · show s₃.rest.length ≤ n
              omega
            · show s₃.rest.length < fuel
              omega
            · show s₃.rest.length < fuel'
              omega

theorem layer_reader (reader : Reader n expr expr') : Reader (n + 1) (layer expr) (layer expr') := by
  refine ⟨fun {least s} allowed le proper fits => ?_⟩
  refine (operand_runs reader proper (by omega)).bind ?_
  rintro head s₁ ⟨placed, ready⟩
  have := (placed.lies none).onward.length_le
  have tight : levelOf least ≤ 8 := by
    unfold levelOf
    omega
  exact operators_runs reader allowed le placed (fun clean => ⟨8, tight, ready clean⟩) (by omega)
    (Nat.lt_succ_self _) (Nat.lt_succ_self _)

end Layers

theorem exprAt_reader (depth depth' : Nat) :
    Reader (min depth depth') (exprAt depth) (exprAt depth') := by
  induction depth generalizing depth' with
  | zero => exact ⟨fun _ _ _ fits => by omega⟩
  | succ depth ih =>
    cases depth' with
    | zero => exact ⟨fun _ _ _ fits => by omega⟩
    | succ depth' =>
      rw [Nat.succ_min_succ]
      exact layer_reader (ih depth')

theorem expression_runs {s : State} (proper : s.Proper) : Runs expression s s.Fails fun e s' =>
    Placed s e s' ∧ (s'.Clean → Derives (.expr 1) s.rest e s'.rest) :=
  (exprAt_reader _ _).inner proper (by omega)

end Parser

end BlFront
