import BlFront.Proofs.Syntax.Reading.Unit

/-!
# Every parse comes to its end

The recursions and loops of the parser are given bounds.  The end of a bound is no failure but is kept
by the state for good, and none of them ever gets there: with any bounds above the number of tokens to
come they do the same and use up none.  What is read takes a token, a failed statement is left behind
by at least one, and no token is looked for behind the end of the text.
-/

namespace BlFront.Parser

open List Grammar

/-- The second state is later in a parse, and no recursion or loop has come to the end of its bound. -/
def State.InBounds (s s' : State) : Prop := s.Onward s' ∧ s'.exhausted = false

/-- Two parse functions do the same, never go back and keep to their bounds. -/
def Goes {α : Type} (p p' : Parse α) (s : State) : Prop :=
  Both p p' s s.InBounds fun _ s' => s.InBounds s'

/-- Two parse functions do the same and keep to their bounds, and where they make a value a token was
taken since a state. -/
def Takes {α : Type} (s₀ : State) (p p' : Parse α) (s : State) : Prop :=
  Both p p' s s₀.InBounds fun _ s' => s₀.InBounds s' ∧ Ends s₀ s'

section Steps

variable {α : Type} {p p' : Parse α} {s₀ s s' : State} {Q : α → State → Prop}

theorem State.Onward.inBounds (h : s.Onward s') (within : s.exhausted = false) : s.InBounds s' :=
  ⟨h, h.exhausted.trans within⟩

theorem Both.goes (h : Both p p' s s.Fails Q) (within : s.exhausted = false)
    (onward : ∀ a s', Q a s' → s.Onward s') : Goes p p' s :=
  h.mono (fun _ failed => failed.1.inBounds within) fun a s' holds => (onward a s' holds).inBounds within

theorem Both.takes (h : Both p p' s s₀.Fails Q) (within : s₀.exhausted = false)
    (takes : ∀ a s', Q a s' → s₀.Onward s' ∧ Ends s₀ s') : Takes s₀ p p' s :=
  h.mono (fun _ failed => failed.1.inBounds within)
    fun a s' holds => (takes a s' holds).imp_left (·.inBounds within)

end Steps

/-- From a state on, nothing depends on which of two bounds the recursions and loops are given, and
none of them comes to the end of its bound. -/
structure Unbounded (n m : Nat) (s : State) : Prop where
  type : Takes s (typeAt n) (typeAt m) s
  /-- At the binding powers that occur. -/
  expr : ∀ least, least ≠ 2 → least ≤ 15 → Takes s (exprAt n least) (exprAt m least) s
  /-- Behind any operand that was read up to here. -/
  behind : ∀ s₀ head least, least ≠ 2 → least ≤ 15 → Placed s₀ head s →
    (s.Clean → ∃ level, levelOf least ≤ level ∧ Head s₀.rest head s level) →
      Takes s₀ (suffixes (exprAt n 0) n head) (suffixes (exprAt m 0) m head) s ∧
        Takes s₀ (operators (exprAt n) least n head) (operators (exprAt m) least m head) s
  stmt : Takes s (statementAt n) (statementAt m) s
  names : Takes s (commaSeparated typedName n) (commaSeparated typedName m) s
  args : Takes s (commaSeparated (exprAt n 0) n) (commaSeparated (exprAt m 0) m) s
  fields : Goes (structFields n) (structFields m) s
  members : Goes (classMembers (statementAt n) n) (classMembers (statementAt m) m) s
  stmts : ∀ closes (reach : Reach), reach.Told s →
    Goes (statements closes (statementAt n) n reach) (statements closes (statementAt m) m reach) s

theorem State.Proper.unbounded {s : State} {n m : Nat} (proper : s.Proper)
    (within : s.exhausted = false) (hn : s.rest.length < n) (hm : s.rest.length < m) :
    Unbounded n m s where
  type := (typeAt_runs proper hn hm).takes within fun _ _ holds => ⟨holds.1.onward, holds.1.ends⟩
  expr least allowed le := ((exprAt_reader n m).runs allowed le proper (by omega)).takes within
    fun _ _ holds => ⟨(holds.1.lies none).onward, (holds.1.lies none).ends⟩
  behind s₀ head least allowed le placed ready := by
    have reader := exprAt_reader n m
    have low : levelOf least ≤ 8 := by
      unfold levelOf
      omega
    have since : s₀.exhausted = false := (placed.lies none).onward.exhausted.symm.trans within
    refine ⟨?_, ?_⟩
    · exact ((suffixes_runs reader low placed ready (by omega) hn hm).since
        (placed.lies none).onward).takes since
          fun _ _ holds => ⟨(holds.1.lies none).onward, (holds.1.lies none).ends⟩
    · exact (operators_runs reader allowed le placed ready (by omega) hn hm).takes since
        fun _ _ holds => ⟨(holds.1.lies none).onward, (holds.1.lies none).ends⟩
  stmt := ((statementAt_reader n m).runs proper (by omega)).takes within
    fun _ _ reads => ⟨reads.onward, reads.ends⟩
  names := by
    refine (commaSeparated_runs (fun x => x.tag.span) (fun (_ : Unit) => fieldTour) params_listing
      (fun proper _ => (field_runs proper).mono (fun _ => id) ?_) proper hn hn hm).takes within
        fun _ _ holds => ⟨(holds.1 ()).onward, holds.2.1⟩
    exact fun _ _ holds => ⟨fun _ => holds.1, fun _ => holds.2⟩
  args := by
    refine (commaSeparated_runs Expr.span (fun expected e => e.tour expected) args_listing
      (fun proper fits => ((exprAt_reader n m).inner proper fits).mono (fun _ => id) ?_) proper
        (by omega) hn hm).takes within fun _ _ holds => ⟨(holds.1 none).onward, holds.2.1⟩
    exact fun _ _ holds => ⟨holds.1.tour, holds.2⟩
  fields := (structFields_runs (.begin proper) hn hm).goes within fun _ _ holds => holds.1.onward
  members := by
    have start : Rows s s [] [] := ⟨.begin proper, .begin proper, by simp [visited]⟩
    exact (classMembers_runs (statementAt_reader n m) start (by omega) hn hm).goes within
      fun _ _ holds => holds.2.2.1
  stmts closes reach told := (statements_runs (statementAt_reader n m) (.begin proper) told (by omega)
    hn hm _).goes within fun _ _ holds => holds.1.onward

/-- The token in front of a state of the parse is the one at its place in the text, or its end. -/
theorem State.Onward.current_at {tokens : List Token} {s : State} (h : (State.ofTokens tokens).Onward s) :
    (textOf tokens ++ [State.lastToken tokens])[(textOf tokens).length - s.rest.length]? =
      some s.current := by
  obtain ⟨seen, same⟩ : s.rest <:+ textOf tokens := h.rest
  have last : s.last = State.lastToken tokens := h.last
  rw [← same, length_append, Nat.add_sub_cancel, append_assoc, getElem?_append_right (Nat.le_refl _),
    Nat.sub_self, ← last]
  unfold State.current
  cases s.rest <;> rfl

/-- A parse ends, whatever the tokens are.  In every state of it the token to be looked at is in range,
no recursion or loop comes to the end of its bound, whatever bound above the number of tokens to come it
is given, and what follows a failed statement is strictly behind its first token.  The whole parse makes
a unit, gets to the end of the text and keeps to all bounds. -/
theorem parse_ends (tokens : List Token) :
    (∀ s n m, (State.ofTokens tokens).Onward s → s.rest.length < n → s.rest.length < m →
      (textOf tokens ++ [State.lastToken tokens])[(textOf tokens).length - s.rest.length]? =
        some s.current ∧ Unbounded n m s ∧
      ∀ s₁, statementAt n s = (none, s₁) → s.rest ≠ [] → Runs synchronize s₁ (fun _ => False)
        fun _ s₂ => s₁.InBounds s₂ ∧ s₂.rest.length < s.rest.length) ∧
    ∃ u s, unit (State.ofTokens tokens) = (some u, s) ∧ s.rest = [] ∧ s.exhausted = false := by
  refine ⟨fun s n m reached hn hm => ?_, ?_⟩
  · have proper := reached.proper (State.ofTokens_proper tokens)
    have ends := proper.unbounded reached.exhausted hn hm
    refine ⟨reached.current_at, ends, fun s₁ failed more => ?_⟩
    have behind := ends.stmt.fails failed
    exact (synchronize_shortens behind.1 more _).mono (fun _ => id)
      fun _ _ resumed => resumed.imp_left (·.inBounds behind.2)
  · obtain ⟨s, made, _, completes⟩ := exists_completes tokens
    exact ⟨_, _, made, completes.ended, completes.makes.onward.exhausted⟩

/-- `fun ) struct`, with the end of the text in the middle -/
def brokenText : List Token :=
  [⟨.kwFun, "fun", ⟨0, 3⟩⟩, ⟨.rightParen, ")", ⟨4, 5⟩⟩, ⟨.eof, "", ⟨5, 5⟩⟩, ⟨.kwStruct, "struct", ⟨6, 12⟩⟩]

theorem parse_ends_brokenText : (State.ofTokens brokenText).rest.length = 2 ∧
    Unbounded 3 9 (.ofTokens brokenText) ∧
      ∃ u s, unit (State.ofTokens brokenText) = (some u, s) ∧ s.rest = [] ∧ s.exhausted = false :=
  ⟨by decide, ((parse_ends brokenText).1 _ 3 9 (.refl _) (by decide) (by decide)).2.1,
    (parse_ends brokenText).2⟩

end BlFront.Parser
