import BlFront.Proofs.Syntax.Accepting.Stmt

/-!
# Recovery from bad statements

Behind a statement that fails one token is skipped in any case, even one with which a statement starts
or a block ends, and then all tokens up to the next place behind a semicolon, in front of a boundary or
at the end.  A statement that lacks only its semicolon fails in front of the token behind it with a
single error; if that token is a boundary, it is therefore lost.
-/

namespace BlFront.Parser

open List Grammar

/-! ### The place where a parse goes on -/

/-- A place behind one token and in front of others where recovery stops. -/
def Resumable (behind : Token) (rest : List Token) : Prop :=
  rest = [] ∨ behind.kind = .semicolon ∨ isBoundary (nextKind rest) = true

/-- The first such place is found. -/
theorem skipToBoundary_first (behind : Token) (tokens : List Token) :
    ∃ between, tokens = between ++ (skipToBoundary behind tokens).2 ∧
      (skipToBoundary behind tokens).1 = between.getLastD behind ∧
      Resumable (skipToBoundary behind tokens).1 (skipToBoundary behind tokens).2 ∧
      ∀ before after, between = before ++ after → after ≠ [] →
        ¬ Resumable (before.getLastD behind) (after ++ (skipToBoundary behind tokens).2) := by
  induction tokens generalizing behind with
  | nil => exact ⟨[], rfl, rfl, .inl rfl, by simp⟩
  | cons t rest ih =>
    unfold skipToBoundary
    split
    · next stop => exact ⟨[], rfl, rfl, .inr stop, by simp⟩
    · next further =>
        obtain ⟨between, same, last, stops, first⟩ := ih t
        refine ⟨t :: between, by rw [cons_append, ← same], by rw [last, getLastD_cons], stops, ?_⟩
        intro before after parts more
        cases before with
        | nil =>
          obtain rfl : t :: between = after := parts
          rintro (none | stop)
          · cases none
          · exact further stop
        | cons u before =>
          rw [cons_append, cons.injEq] at parts
          obtain ⟨rfl, parts⟩ := parts
          rw [getLastD_cons]
          exact first before after parts more

/-- From the second state the parse goes on after a failure that left the first. -/
structure Resumes (s s' : State) : Prop where
  same : s' = { s with rest := s'.rest, previous := s'.previous }
  stops : Resumable s'.previous s'.rest
  /-- One token is skipped unconditionally, the others up to the first place where recovery stops. -/
  skips : s' = s ∧ s.rest = [] ∨ ∃ t between, s.rest = t :: (between ++ s'.rest) ∧
    s'.previous = between.getLastD t ∧
    ∀ before after, between = before ++ after → after ≠ [] →
      ¬ Resumable (before.getLastD t) (after ++ s'.rest)

theorem synchronize_resumes (s : State) : ∃ s', Yields synchronize s () s' ∧ Resumes s s' := by
  unfold Yields synchronize
  cases tokens : s.rest with
  | nil => exact ⟨s, rfl, rfl, .inl tokens, .inl ⟨rfl, tokens⟩⟩
  | cons t rest =>
    obtain ⟨between, same, last, stops, first⟩ := skipToBoundary_first t rest
    exact ⟨_, rfl, rfl, stops, .inr ⟨t, between, by rw [tokens, ← same], last, first⟩⟩

/-- A failed statement is left behind, and the loop goes on from where recovery stops. -/
theorem statements_resume (closes : TokenKind → Bool) (fuel : Nat) (reach : Reach) {stmt : Parse Stmt}
    {s s₁ : State} (more : s.current.kind ≠ .eof) (inside : closes s.current.kind = false)
    (failed : stmt s = (none, s₁)) : ∃ s₂, Resumes s₁ s₂ ∧
      statements closes stmt (fuel + 1) reach s = statements closes stmt fuel reach s₂ := by
  obtain ⟨s₂, skipped, resumes⟩ := synchronize_resumes s₁
  refine ⟨s₂, resumes, ?_⟩
  have goesOn : ¬ (s.current.kind = .eof ∨ closes s.current.kind = true) := by simp [more, inside]
  have skipped : synchronize s₁ = (some (), s₂) := skipped
  simp only [statements, Parse.bind_apply, peek, if_neg goesOn, Parse.attempt, failed, skipped]

/-! ### Statements without their semicolon -/

/-- The tokens are a simple statement up to a place where its semicolon is missing. -/
inductive Unended : List Token → List Token → Prop
  | declares {k n q : Token} {a b c : List Token} {type : Option TypeExpr} {value : Expr}
      (keyword : k.kind = .kwVar) (name : n.kind = .identifier)
      (written : Derives (.typeAfter .colon) a type (q :: b)) (sign : q.kind = .equal)
      (value : Derives (.expr 1) b value c) : Unended (k :: n :: a) c
  | returns {k : Token} {a : List Token} (keyword : k.kind = .kwReturn) : Unended (k :: a) a
  | gives {k : Token} {a b : List Token} {value : Expr} (keyword : k.kind = .kwReturn)
      (value : Derives (.expr 1) a value b) : Unended (k :: a) b
  | computes {a b : List Token} {e : Expr} (value : Derives (.expr 1) a e b) : Unended a b

/-- From every state in front of the first tokens a parse function fails in front of the second ones,
with one error if there was none. -/
def Breaks {α : Type} (p : Parse α) (a b : List Token) : Prop :=
  ∀ s : State, s.At a → ∃ s', p s = (none, s') ∧ s'.At b ∧
    (s.Clean → ∃ d, s'.diagnostics.filter (·.isError) = [d])

section Rules

variable {α β : Type} {p : Parse α} {f : α → Parse β} {a b c : List Token} {t : Token}
  {Good : α → Prop}

theorem Breaks.bind (h : Breaks p a b) : Breaks (p >>= f) a b := by
  intro s there
  obtain ⟨s', failed, there', one⟩ := h s there
  exact ⟨s', by rw [Parse.bind_apply, failed], there', one⟩

theorem Accepts.breaks (h : Accepts p a b Good) (h' : ∀ x, Good x → Breaks (f x) b c) :
    Breaks (p >>= f) a c := by
  intro s there
  obtain ⟨x, s₁, read, at₁, clean, good⟩ := h s there
  obtain ⟨s₂, failed, at₂, one⟩ := h' x good s₁ at₁
  refine ⟨s₂, ?_, at₂, fun before => one (clean before)⟩
  rw [Parse.bind_apply, show p s = (some x, s₁) from read]
  exact failed

theorem Breaks.peeked {f : TokenKind → Parse β} {kind : TokenKind} (same : nextKind a = kind)
    (h : Breaks (f kind) a b) : Breaks (peek >>= f) a b := by
  intro s there
  have := h s there
  rwa [← same, ← there.kind] at this

theorem Breaks.placed {f : Span → Parse β} (h : ∀ span, Breaks (f span) a b) :
    Breaks (currentSpan >>= f) a b := fun s there => h _ s there

theorem Breaks.looked {f : Token → Parse β} (h : Breaks (f t) (t :: a) b) :
    Breaks (current >>= f) (t :: a) b := by
  intro s there
  have := h s there
  rwa [← there.current] at this

theorem breaks_of_report {s s' : State} {d : Diagnostic} (there : s.At a)
    (same : s' = { s with diagnostics := s.diagnostics ++ [d] }) (error : d.isError = true) :
    s'.At a ∧ (s.Clean → ∃ d, s'.diagnostics.filter (·.isError) = [d]) := by
  subst same
  refine ⟨⟨there.rest, there.proper.last, there.proper.rest⟩, fun clean => ⟨d, ?_⟩⟩
  have none : s.diagnostics.filter (·.isError) = [] := by
    simpa [State.Clean, hasErrors] using clean
  simp [filter_append, none, error]

theorem expect_breaks {kind : TokenKind} (other : nextKind a ≠ kind) : Breaks (expect kind) a a := by
  refine .peeked rfl fun s there => ?_
  rw [if_neg other]
  refine ⟨_, rfl, breaks_of_report there rfl ?_⟩
  unfold missing
  split <;> rfl

end Rules

section Boundary

variable {a b : List Token} {t : Token} (boundary : isBoundary t.kind = true)

include boundary

theorem accepts_expression {e : Expr} (h : Derives (.expr 1) a e (t :: b)) :
    Accepts expression a (t :: b) (·.plain = e.plain) := by
  refine (Derives.accepted h).expression rfl ?_ ?_ <;>
    · generalize t.kind = kind at boundary
      cases kind <;> first | rfl | cases boundary

theorem semicolon_ne : t.kind ≠ .semicolon := by
  intro kind
  simp [kind, isBoundary] at boundary

theorem semicolon_breaks : Breaks (expect .semicolon) (t :: b) (t :: b) :=
  expect_breaks (semicolon_ne boundary)

theorem expression_breaks : Breaks expression (t :: b) (t :: b) := by
  have refused : Breaks (refuse "expression" : Parse Expr) (t :: b) (t :: b) :=
    fun s there => ⟨_, rfl, breaks_of_report there rfl rfl⟩
  have operand (n : Nat) : Breaks (operand (exprAt n)) (t :: b) (t :: b) := by
    refine .placed fun _ => .peeked rfl ?_
    obtain ⟨kind, lexeme, span⟩ := t
    cases kind
    all_goals first | exact .placed fun _ => .looked refused | cases boundary
  exact fun s there => (operand s.rest.length).bind s there

/-- A statement that lacks only its semicolon fails where that is missing. -/
theorem Unended.breaks (h : Unended a (t :: b)) (depth : Nat) :
    Breaks (statementAt (depth + 1)) a (t :: b) := by
  cases h with
  | declares keyword name written sign value =>
    refine .peeked keyword <| .bind <| .placed fun _ => accepts_advance.breaks fun _ _ => ?_
    have named {d : List Token} : Accepts expectName (_ :: d) d fun _ => True :=
      .expected name (.pure trivial)
    refine named.breaks fun _ _ => ?_
    simp only [eat_ite_bind]
    refine Accepts.breaks (Derives.accepted written (by simp [sign])) fun _ _ => ?_
    refine (accepts_expect sign).breaks fun _ _ => ?_
    exact (accepts_expression boundary value).breaks fun _ _ => (semicolon_breaks boundary).bind
  | returns keyword =>
    refine .peeked keyword <| .placed fun _ => accepts_advance.breaks fun _ _ => .peeked rfl ?_
    rw [if_neg (show nextKind (t :: b) ≠ .semicolon from semicolon_ne boundary)]
    exact .bind <| .bind (expression_breaks boundary)
  | gives keyword value =>
    refine .peeked keyword <| .placed fun _ => accepts_advance.breaks fun _ _ => .peeked rfl ?_
    have starts := value.starts
    rw [if_neg (by intro kind; simp [kind, Phrase.Starts, startsExpr] at starts)]
    have read : Accepts (some <$> expression) _ (t :: b) fun _ => True :=
      (accepts_expression boundary value).map fun _ _ => trivial
    exact read.breaks fun _ _ => (semicolon_breaks boundary).bind
  | computes value =>
    have starts := value.starts
    have breaks : Breaks expressionStatement _ (t :: b) :=
      (accepts_expression boundary value).breaks fun _ _ => (semicolon_breaks boundary).bind
    refine .peeked rfl ?_
    split
    all_goals first | exact breaks | (next kind => simp [kind, Phrase.Starts, startsExpr] at starts)

end Boundary

/-! ### What is lost -/

/-- Recovery in the loop over the statements of a unit or block.  Wherever a statement fails, the loop
goes on at the first place that is behind the token of the failure and where recovery stops.  And a
simple statement that lacks only its semicolon in front of a boundary fails there, with one error; so
the boundary itself is skipped, and what it starts or ends is not read as such. -/
theorem failure_loses_next_boundary (closes : TokenKind → Bool) (fuel : Nat) (reach : Reach)
    {stmt : Parse Stmt} {s : State} {depth : Nat} (reads : stmt s = statementAt (depth + 1) s)
    (proper : s.Proper) (more : s.current.kind ≠ .eof) (inside : closes s.current.kind = false) :
    (∀ s₁, stmt s = (none, s₁) → ∃ s₂, Resumes s₁ s₂ ∧
      statements closes stmt (fuel + 1) reach s = statements closes stmt fuel reach s₂) ∧
    ∀ t b, Unended s.rest (t :: b) → isBoundary t.kind = true → ∃ s₁ s₂, stmt s = (none, s₁) ∧
      s₁.rest = t :: b ∧ (s.Clean → ∃ d, s₁.diagnostics.filter (·.isError) = [d]) ∧ s₂.rest <:+ b ∧
      statements closes stmt (fuel + 1) reach s = statements closes stmt fuel reach s₂ := by
  have resumes (s₁ : State) (failed : stmt s = (none, s₁)) :=
    statements_resume closes fuel reach more inside failed
  refine ⟨resumes, fun t b unended boundary => ?_⟩
  obtain ⟨s₁, failed, there, one⟩ := unended.breaks boundary depth s ⟨rfl, proper⟩
  obtain ⟨s₂, skipped, goesOn⟩ := resumes s₁ (reads.trans failed)
  refine ⟨s₁, s₂, reads.trans failed, there.rest, one, ?_, goesOn⟩
  rcases skipped.skips with ⟨-, none⟩ | ⟨u, between, same, -⟩
  · simp [there.rest] at none
  · rw [there.rest, cons.injEq] at same
    exact ⟨between, same.2.symm⟩

/-- `return x return;` -/
def adjacentReturns : List Token :=
  [⟨.kwReturn, "return", ⟨0, 6⟩⟩, ⟨.identifier, "x", ⟨7, 8⟩⟩, ⟨.kwReturn, "return", ⟨9, 15⟩⟩,
   ⟨.semicolon, ";", ⟨15, 16⟩⟩]

theorem failure_loses_next_boundary_adjacentReturns :
    Unended adjacentReturns (adjacentReturns.drop 2) ∧
      ∃ s₁ s₂, statement (.ofTokens adjacentReturns) = (none, s₁) ∧
        s₁.rest = adjacentReturns.drop 2 ∧ (∃ d, s₁.diagnostics.filter (·.isError) = [d]) ∧
        s₂.rest <:+ adjacentReturns.drop 3 ∧
        statements (fun _ => false) statement 5 .no (.ofTokens adjacentReturns) =
          statements (fun _ => false) statement 4 .no s₂ := by
  have read : Derives (.expr 11) (adjacentReturns.drop 1) (.reference ⟨⟨0⟩, ⟨7, 8⟩⟩ "x") _ :=
    .reference rfl
  have unended : Unended adjacentReturns (adjacentReturns.drop 2) :=
    .gives rfl (read.lower (by decide))
  obtain ⟨s₁, s₂, failed, rest, one, lost, goesOn⟩ :=
    (@failure_loses_next_boundary (fun _ => false) 4 .no statement (.ofTokens adjacentReturns) 4 rfl
      (State.ofTokens_proper _) (by decide) rfl).2 _ _ unended rfl
  exact ⟨unended, s₁, s₂, failed, rest, one rfl, lost, goesOn⟩

/-- A declaration without its semicolon takes the one behind it along. -/
theorem declaration_lost_behind_failure :
    (ofText "var x = 1 var y = 2;".toList).unit.statements = [] ∧
      (ofText "var x = 1 var y = 2;".toList).diagnostics.length = 1 := by decide +kernel

end BlFront.Parser
