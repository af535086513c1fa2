import BlFront.Proofs.Syntax.Placing.Layout
import BlFront.Proofs.Text.Cuts
import BlFront.Syntax.Parser.Stmt

/-!
# How a parse goes on

A parse function takes tokens from the front, gives out identities and adds reports behind those that
are there.  A later state of a parse tells all three: nothing of a state goes back, every identity
that is given out is paid for by a token, and reports point at tokens.  What a function does that
takes a single token is said exactly, so that no later proof opens it.
-/

namespace BlFront.Parser

open List

/-! ### States -/

namespace State

/-- The tokens to come stand before the end of the text, which is marked as such. -/
structure Proper (s : State) : Prop where
  last : s.last.kind = .eof
  rest : ∀ t ∈ s.rest, t.kind ≠ .eof

/-- No error was reported so far. -/
def Clean (s : State) : Prop := hasErrors s.diagnostics = false

/-- The tokens that can be pointed at. -/
def tokens (s : State) : List Token := s.previous :: s.last :: s.rest

/-- The tokens to come stand in order. -/
structure Lined (s : State) : Prop where
  order : InOrder s.rest
  proper : ∀ t ∈ s.tokens, t.span.start ≤ t.span.stop

/-- The identities given out are numbered from zero on. -/
def Logged (s : State) : Prop := s.drawn.map (·.1.index) = (List.range s.nextId).reverse

section Tokens

variable {s : State}

theorem Logged.draw (h : s.Logged) : s.draw.Logged := by
  unfold Logged at h ⊢
  rw [State.draw, map_cons, h, range_succ, reverse_append]
  rfl

/-- Whether there is a token to come can be told from the kind of the current one. -/
theorem Proper.exists_cons (h : s.Proper) (more : s.current.kind ≠ .eof) :
    ∃ t rest, s.rest = t :: rest ∧ s.current = t := by
  cases tokens : s.rest with
  | nil =>
    have atEnd : s.current = s.last := by simp [current, tokens]
    rw [atEnd] at more
    exact absurd h.last more
  | cons t rest => exact ⟨t, rest, rfl, by simp [current, tokens]⟩

theorem Proper.rest_eq_nil (h : s.Proper) (stop : s.current.kind = .eof) : s.rest = [] := by
  cases tokens : s.rest with
  | nil => rfl
  | cons t rest =>
    have first : s.current = t := by simp [current, tokens]
    rw [first] at stop
    exact absurd stop (h.rest t (by simp [tokens]))

theorem current_mem (s : State) : s.current ∈ s.tokens := by
  unfold current tokens
  cases s.rest <;> simp

theorem Lined.current_le (h : s.Lined) : ∀ t ∈ s.rest, s.current.span.start ≤ t.span.start := by
  have order := h.order
  unfold current
  cases tokens : s.rest with
  | nil => simp
  | cons first rest =>
    rw [tokens] at order
    have := order.proper first (by simp)
    intro t mem
    rcases mem_cons.mp mem with rfl | mem
    · exact Nat.le_refl _
    · have : first.span.stop ≤ t.span.start := (pairwise_cons.mp order.ordered).1 t mem
      rw [List.head?_cons, Option.getD_some]
      omega

end Tokens

theorem lastToken_kind (tokens : List Token) : (lastToken tokens).kind = .eof := by
  unfold lastToken
  split
  · next t found => simpa using List.find?_some found
  · rfl

theorem ofTokens_proper (tokens : List Token) : (ofTokens tokens).Proper := by
  refine ⟨lastToken_kind tokens, fun t mem => ?_⟩
  simpa using all_eq_true.mp all_takeWhile t mem

theorem ofTokens_clean (tokens : List Token) : (ofTokens tokens).Clean := rfl

theorem not_clean_push {s : State} {d : Diagnostic} (h : d.isError = true) :
    ¬ State.Clean { s with diagnostics := s.diagnostics ++ [d] } := by
  unfold State.Clean hasErrors
  simp [h]

end State

/-- The token that was consumed last is the last one of what was read since the first state. -/
def Ends (s s' : State) : Prop := ∃ seen, s.rest = seen ++ s'.previous :: s'.rest

namespace Ends

variable {s s' s'' : State}

theorem trans (h : Ends s s') (h' : Ends s' s'') : Ends s s'' := by
  obtain ⟨seen, same⟩ := h
  obtain ⟨more, same'⟩ := h'
  exact ⟨seen ++ s'.previous :: more, by rw [same, same']; simp⟩

theorem length_lt (h : Ends s s') : s'.rest.length < s.rest.length := by
  obtain ⟨seen, same⟩ := h
  rw [same, length_append, length_cons]
  omega

theorem suffix (h : Ends s s') : s'.rest <:+ s.rest := by
  obtain ⟨seen, same⟩ := h
  exact ⟨seen ++ [s'.previous], by simp [same]⟩

theorem current_mem (h : Ends s s') : s.current ∈ s.rest := by
  obtain ⟨seen, same⟩ := h
  cases seen <;> simp [State.current, same]

theorem previous_mem (h : Ends s s') : s'.previous ∈ s.rest := by
  obtain ⟨seen, same⟩ := h
  simp [same]

/-- How the tokens that were read since a state stand to those to come. -/
theorem places (h : Ends s s') (lined : s.Lined) :
    s.current.span.start ≤ s'.previous.span.start ∧
      s'.previous.span.start < s'.previous.span.stop ∧
      s.current.span.stop ≤ s'.previous.span.stop ∧
      ∀ t ∈ s'.rest, s'.previous.span.stop ≤ t.span.start := by
  refine ⟨lined.current_le _ h.previous_mem, lined.order.proper _ h.previous_mem, ?_, ?_⟩
  · obtain ⟨seen, same⟩ := h
    obtain ⟨proper, ordered⟩ := lined.order
    rw [same] at proper ordered
    cases seen with
    | nil => simp [State.current, same]
    | cons t seen =>
      have := (pairwise_cons.mp ordered).1 s'.previous (by simp)
      have := proper s'.previous (by simp)
      simp only [State.current, same, cons_append, List.head?_cons, Option.getD_some]
      omega
  · obtain ⟨seen, same⟩ := h
    have ordered := lined.order.ordered
    rw [same] at ordered
    exact (pairwise_cons.mp (pairwise_append.mp ordered).2.1).1

end Ends

/-! ### Later states -/

/-- A report that is made from a state on: it points at tokens, and if it rejects a fraction then one
of the tokens is a malformed one. -/
structure State.Reports (s : State) (d : Diagnostic) : Prop where
  edged : s.Lined → ∀ span ∈ d.spans, span.Edged s.tokens
  malformed : d.message.toList.take 7 = "invalid".toList →
    ∃ t ∈ s.tokens, t.kind = .floatLiteral ∧ Decimal.float? (digitsOf t.lexeme) = none

/-- The second state is later in a parse than the first. -/
structure State.Onward (s s' : State) : Prop where
  last : s'.last = s.last
  consumed : (s'.rest = s.rest ∧ s'.previous = s.previous) ∨ Ends s s'
  diagnostics : ∃ more, s'.diagnostics = s.diagnostics ++ more ∧ ∀ d ∈ more, s.Reports d
  nextId : s.nextId ≤ s'.nextId
  /-- Every identity is paid for by a token. -/
  paid : s'.nextId + s'.rest.length ≤ s.nextId + s.rest.length
  drawn : ∀ d ∈ s'.drawn, d ∈ s.drawn ∨
    (d.2 <:+ s.rest ∧ d.1.index + d.2.length < s.nextId + s.rest.length)
  logged : s.Logged → s'.Logged
  /-- No recursion and no loop has come to the end of its bound since. -/
  exhausted : s'.exhausted = s.exhausted

namespace State.Onward

variable {s s' s'' : State}

theorem refl (s : State) : s.Onward s :=
  ⟨rfl, .inl ⟨rfl, rfl⟩, ⟨[], by simp⟩, Nat.le_refl _, Nat.le_refl _, fun _ mem => .inl mem, id, rfl⟩

theorem rest (h : s.Onward s') : s'.rest <:+ s.rest := by
  rcases h.consumed with ⟨same, _⟩ | ends
  · exact same ▸ suffix_refl _
  · exact ends.suffix

theorem length_le (h : s.Onward s') : s'.rest.length ≤ s.rest.length := h.rest.length_le

theorem tokens_subset (h : s.Onward s') : s'.tokens ⊆ s.tokens := by
  have previous : s'.previous ∈ s.tokens := by
    rcases h.consumed with ⟨_, same⟩ | ends
    · simp [State.tokens, same]
    · simp [State.tokens, ends.previous_mem]
  refine cons_subset.mpr ⟨previous, cons_subset.mpr ⟨by simp [State.tokens, h.last], ?_⟩⟩
  exact fun t mem => mem_cons_of_mem _ (.tail _ (h.rest.subset mem))

theorem proper (h : s.Onward s') (proper : s.Proper) : s'.Proper :=
  ⟨by rw [h.last]; exact proper.last, fun t mem => proper.rest t (h.rest.subset mem)⟩

theorem lined (h : s.Onward s') (lined : s.Lined) : s'.Lined :=
  ⟨lined.order.suffix h.rest, fun t mem => lined.proper t (h.tokens_subset mem)⟩

theorem clean (h : s.Onward s') (clean : s'.Clean) : s.Clean := by
  obtain ⟨more, same, _⟩ := h.diagnostics
  unfold Clean hasErrors at clean ⊢
  rw [same, any_append, Bool.or_eq_false_iff] at clean
  exact clean.1

theorem reports (h : s.Onward s') {d : Diagnostic} (told : s'.Reports d) : s.Reports d where
  edged lined span mem := (told.edged (h.lined lined) span mem).mono h.tokens_subset
  malformed invalid := by
    obtain ⟨t, mem, malformed⟩ := told.malformed invalid
    exact ⟨t, h.tokens_subset mem, malformed⟩

theorem trans (h : s.Onward s') (h' : s'.Onward s'') : s.Onward s'' := by
  refine ⟨h'.last.trans h.last, ?_, ?_, h.nextId.trans h'.nextId, h'.paid.trans h.paid,
    fun d mem => ?_, h'.logged ∘ h.logged, h'.exhausted.trans h.exhausted⟩
  · rcases h.consumed with ⟨rest, previous⟩ | ends
    · rw [Ends, ← rest, ← previous]
      exact h'.consumed
    · rcases h'.consumed with ⟨rest, previous⟩ | ends'
      · rw [Ends, rest, previous]
        exact .inr ends
      · exact .inr (ends.trans ends')
  · obtain ⟨more, same, reports⟩ := h.diagnostics
    obtain ⟨others, same', reports'⟩ := h'.diagnostics
    refine ⟨more ++ others, by rw [same', same, append_assoc], fun d mem => ?_⟩
    rcases mem_append.mp mem with mem | mem
    · exact reports d mem
    · exact h.reports (reports' d mem)
  · rcases h'.drawn d mem with mem | ⟨later, lt⟩
    · exact h.drawn d mem
    · exact .inr ⟨later.trans h.rest, Nat.lt_of_lt_of_le lt h.paid⟩

theorem report {d : Diagnostic} (h : s.Onward s') (told : s.Reports d) :
    s.Onward { s' with diagnostics := s'.diagnostics ++ [d] } := by
  obtain ⟨more, same, before⟩ := h.diagnostics
  refine { h with diagnostics := ⟨more ++ [d], by simp [same], fun d' mem => ?_⟩ }
  rcases mem_append.mp mem with mem | mem
  · exact before d' mem
  · rw [mem_singleton.mp mem]
    exact told

/-- An identity is given out after a token that was not used for another. -/
theorem draw (h : s.Onward s') (coin : s'.nextId + s'.rest.length < s.nextId + s.rest.length) :
    s.Onward s'.draw := by
  refine ⟨h.last, h.consumed, h.diagnostics, Nat.le_succ_of_le h.nextId, ?_, fun d mem => ?_,
    fun logged => ?_, h.exhausted⟩
  · show s'.nextId + 1 + s'.rest.length ≤ _
    omega
  · rcases mem_cons.mp mem with rfl | mem
    · exact .inr ⟨h.rest, coin⟩
    · exact h.drawn d mem
  · exact (h.logged logged).draw

end State.Onward

/-- A parse failed after a state, with an error. -/
def State.Fails (s s' : State) : Prop := s.Onward s' ∧ ¬ s'.Clean

/-- One token is taken and nothing else is done. -/
structure Took (s : State) (t : Token) (s' : State) : Prop where
  rest : s.rest = t :: s'.rest
  same : s' = { s with rest := s'.rest, previous := t }

namespace Took

variable {s s' : State} {t : Token}

theorem previous (h : Took s t s') : s'.previous = t := congrArg State.previous h.same

theorem nextId (h : Took s t s') : s'.nextId = s.nextId := (congrArg State.nextId h.same :)

theorem diagnostics (h : Took s t s') : s'.diagnostics = s.diagnostics :=
  (congrArg State.diagnostics h.same :)

theorem drawn (h : Took s t s') : s'.drawn = s.drawn := (congrArg State.drawn h.same :)

theorem current (h : Took s t s') : s.current = t := by simp [State.current, h.rest]

theorem ends (h : Took s t s') : Ends s s' := ⟨[], by rw [h.previous, h.rest]; rfl⟩

theorem length (h : Took s t s') : s'.rest.length + 1 = s.rest.length := by
  rw [h.rest, length_cons]

theorem onward (h : Took s t s') : s.Onward s' where
  last := (congrArg State.last h.same :)
  consumed := .inr h.ends
  diagnostics := ⟨[], by simp [h.diagnostics]⟩
  nextId := Nat.le_of_eq h.nextId.symm
  paid := by
    have := h.length
    rw [h.nextId]
    omega
  drawn _ mem := .inl (h.drawn ▸ mem)
  logged logged := by rwa [State.Logged, h.nextId, h.drawn]
  exhausted := (congrArg State.exhausted h.same :)

end Took

/-! ### Both results of a parse function -/

/-- A parse function succeeds with a value and leaves a state behind it. -/
def Yields {α : Type} (p : Parse α) (s : State) (a : α) (s' : State) : Prop := p s = (some a, s')

/-- Two parse functions have the same result; what holds of it, and what holds where they fail. -/
def Both {α : Type} (p p' : Parse α) (s : State) (fails : State → Prop) (gives : α → State → Prop) :
    Prop :=
  p s = p' s ∧ match p s with
    | (some a, s') => gives a s'
    | (none, s') => fails s'

/-- What holds of the result of a parse function, and what holds where it fails. -/
abbrev Runs {α : Type} (p : Parse α) (s : State) (fails : State → Prop) (gives : α → State → Prop) :
    Prop := Both p p s fails gives

section Steps

variable {α β : Type} {p p' q q' : Parse α} {f f' : α → Parse β} {s s' : State} {F : State → Prop}
  {Q : α → State → Prop} {R : β → State → Prop}

/-- A sequence succeeds through its parts. -/
theorem yields_bind {b : β} :
    Yields (p >>= f) s b s' ↔ ∃ a s₁, Yields p s a s₁ ∧ Yields (f a) s₁ b s' := by
  unfold Yields
  rw [Parse.bind_apply]
  rcases p s with ⟨_ | a, s₁⟩
  · simp
  · constructor
    · intro h
      exact ⟨a, s₁, rfl, h⟩
    · rintro ⟨a, s₁, same, h⟩
      cases same
      exact h

theorem yields_peek_bind {f : TokenKind → Parse β} {b : β} :
    Yields (peek >>= f) s b s' ↔ Yields (f s.current.kind) s b s' := Iff.rfl

theorem yields_attempt {a : Option α} : Yields p.attempt s a s' ↔ p s = (a, s') := by
  unfold Yields Parse.attempt
  rcases p s with ⟨b, s₁⟩
  simp

theorem Both.yields {a : α} (h : Both p p' s F Q) (result : Yields p s a s') : Q a s' := by
  have := h.2
  rwa [show p s = _ from result] at this

theorem Both.fails (h : Both p p' s F Q) (result : p s = (none, s')) : F s' := by
  have := h.2
  rwa [result] at this

theorem Both.mono {F' : State → Prop} {Q' : α → State → Prop} (h : Both p p' s F Q)
    (fails : ∀ s', F s' → F' s') (gives : ∀ a s', Q a s' → Q' a s') : Both p p' s F' Q' := by
  obtain ⟨same, holds⟩ := h
  refine ⟨same, ?_⟩
  generalize p s = result at holds ⊢
  rcases result with ⟨_ | a, s'⟩
  · exact fails s' holds
  · exact gives a s' holds

theorem Both.bind (h : Both p p' s F Q) (next : ∀ a s', Q a s' → Both (f a) (f' a) s' F R) :
    Both (p >>= f) (p' >>= f') s F R := by
  obtain ⟨same, holds⟩ := h
  unfold Both
  rw [Parse.bind_apply, Parse.bind_apply, ← same]
  generalize p s = result at holds ⊢
  rcases result with ⟨_ | a, s'⟩
  · exact ⟨rfl, holds⟩
  · exact next a s' holds

theorem Both.map {g : α → β} (h : Both p p' s F fun a s' => R (g a) s') :
    Both (g <$> p) (g <$> p') s F R :=
  h.bind fun _ _ holds => ⟨rfl, holds⟩

/-- A part of a sequence is told from its own start. -/
theorem Both.since {s₀ : State} (onward : s₀.Onward s) (h : Both p p' s s.Fails Q) :
    Both p p' s s₀.Fails Q :=
  h.mono (fun _ failed => ⟨onward.trans failed.1, failed.2⟩) fun _ _ holds => holds

theorem Both.attempt {Q : Option α → State → Prop}
    (h : Both p p' s (Q none) fun a s' => Q (some a) s') : Both p.attempt p'.attempt s F Q := by
  obtain ⟨same, holds⟩ := h
  unfold Both Parse.attempt
  rw [← same]
  generalize p s = result at holds ⊢
  rcases result with ⟨_ | a, s'⟩
  · exact ⟨rfl, holds⟩
  · exact ⟨rfl, holds⟩

/-- Two alternatives with the same continuation. -/
theorem both_ite_bind {c : Prop} [Decidable c] :
    Both (if c then p >>= f else q >>= f) (if c then p' >>= f' else q' >>= f') s F R ↔
      Both ((if c then p else q) >>= f) ((if c then p' else q') >>= f') s F R := by
  split <;> exact Iff.rfl

theorem both_peek {f f' : TokenKind → Parse β} :
    Both (peek >>= f) (peek >>= f') s F R ↔ Both (f s.current.kind) (f' s.current.kind) s F R :=
  Iff.rfl

theorem both_current {f f' : Token → Parse β} :
    Both (current >>= f) (current >>= f') s F R ↔ Both (f s.current) (f' s.current) s F R := Iff.rfl

theorem both_currentSpan {f f' : Span → Parse β} : Both (currentSpan >>= f) (currentSpan >>= f') s F R ↔
    Both (f s.current.span) (f' s.current.span) s F R := Iff.rfl

end Steps

/-! ### Single tokens -/

section Single

variable {α β : Type} {s₀ s : State} {kind : TokenKind} {Q : β → State → Prop}

theorem advance_runs (proper : s.Proper) (more : s.current.kind ≠ .eof) (F : State → Prop) :
    Runs advance s F fun t s' => t = s.current ∧ Took s s.current s' := by
  obtain ⟨first, rest, tokens, current⟩ := proper.exists_cons more
  unfold Runs Both advance
  rw [tokens, current]
  exact ⟨rfl, rfl, tokens, rfl⟩

theorem edged_current (lined : s.Lined) : s.current.span.Edged s.tokens :=
  (Span.bounded_of_mem s.current_mem).edged (lined.proper _ s.current_mem)

theorem reports_unexpected (s : State) (expected : String) :
    s.Reports (unexpected expected s.current) where
  edged lined span told := by
    rw [unexpected, Diagnostic.spans_errorAt, mem_singleton] at told
    rw [told]
    exact edged_current lined
  malformed invalid := by simp [unexpected, Diagnostic.errorAt] at invalid

theorem refuse_fails (onward : s₀.Onward s) (expected : String) {Q : α → State → Prop} :
    Runs (refuse expected : Parse α) s s₀.Fails Q :=
  ⟨rfl, onward.trans (.report (.refl s) (reports_unexpected s expected)), State.not_clean_push rfl⟩

theorem reports_missing (s : State) (kind : TokenKind) :
    s.Reports (missing kind s.current s.previous.span) := by
  have plain := reports_unexpected s kind.describe
  unfold missing
  split
  · refine ⟨fun lined span told => ?_, plain.malformed⟩
    rcases mem_cons.mp told with rfl | told
    · exact edged_current lined
    · rw [mem_singleton.mp told]
      exact ⟨Nat.le_refl _, ⟨s.previous, by simp [State.tokens], .inr rfl⟩, s.previous,
        by simp [State.tokens], .inr rfl⟩
  · exact plain

theorem expect_runs (proper : s.Proper) (notEnd : kind ≠ .eof) :
    Runs (expect kind) s s.Fails fun t s' => Took s t s' ∧ t.kind = kind := by
  rw [expect, Runs, both_peek]
  split
  · next found =>
      refine (advance_runs proper (by rwa [found]) _).mono (fun _ => id) ?_
      rintro t s' ⟨rfl, took⟩
      exact ⟨took, found⟩
  · refine ⟨rfl, .report (.refl s) (reports_missing s kind), State.not_clean_push ?_⟩
    unfold missing
    split <;> rfl

theorem expectName_runs (proper : s.Proper) : Runs expectName s s.Fails fun name s' =>
    ∃ t, Took s t s' ∧ t.kind = .identifier ∧ name = ⟨t.lexeme, t.span⟩ := by
  refine (expect_runs proper (by decide)).bind ?_
  rintro t s' ⟨took, isName⟩
  exact ⟨rfl, t, took, isName, rfl⟩

/-- Whether a token was eaten tells whether it was there. -/
theorem eat_runs (proper : s.Proper) (notEnd : kind ≠ .eof) (F : State → Prop) :
    Runs (eat kind) s F fun found s' => (found = true ∧ ∃ t, Took s t s' ∧ t.kind = kind) ∨
      (found = false ∧ s' = s ∧ s.current.kind ≠ kind) := by
  rw [eat, Runs, both_peek]
  split
  · next found =>
      refine (advance_runs proper (by rwa [found]) _).bind ?_
      rintro t s' ⟨-, took⟩
      exact ⟨rfl, .inl ⟨rfl, _, took, found⟩⟩
  · next other => exact ⟨rfl, .inr ⟨rfl, rfl, other⟩⟩

/-- To skip is to take token after token. -/
theorem skipToBoundary_suffix (behind : Token) (tokens : List Token) :
    (skipToBoundary behind tokens).1 :: (skipToBoundary behind tokens).2 <:+ behind :: tokens := by
  induction tokens generalizing behind with
  | nil => exact suffix_refl _
  | cons t rest ih =>
    unfold skipToBoundary
    split
    · exact suffix_refl _
    · exact (ih t).trans (suffix_cons _ _)

theorem synchronize_runs (s : State) (F : State → Prop) :
    Runs synchronize s F fun _ s' => s.Onward s' ∧ (s.rest ≠ [] → s'.rest.length < s.rest.length) := by
  unfold Runs Both synchronize
  cases tokens : s.rest with
  | nil => exact ⟨rfl, .refl s, fun more => absurd rfl more⟩
  | cons t rest =>
    obtain ⟨seen, same⟩ := skipToBoundary_suffix t rest
    have ends : Ends s { s with
        previous := (skipToBoundary t rest).1, rest := (skipToBoundary t rest).2 } :=
      ⟨seen, by rw [tokens, ← same]⟩
    have shorter := ends.length_lt
    exact ⟨rfl, ⟨rfl, .inr ends, ⟨[], by simp⟩, Nat.le_refl _, Nat.add_le_add_left (Nat.le_of_lt shorter) _,
      fun _ mem => .inl mem, id, rfl⟩, fun _ => tokens ▸ shorter⟩

end Single

end BlFront.Parser
