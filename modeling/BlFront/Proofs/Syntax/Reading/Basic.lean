import BlFront.Proofs.Syntax.Fresh
import BlFront.Proofs.Syntax.Grammar
import BlFront.Proofs.Syntax.Progress

/-!
# What a parse function reads

Each parse function is described once, for both of its results.  Where it succeeds, what it read is
told by the visits of a tour to it: they have numbers in a row, stand in order if the tokens do, and
start and end where tokens do.  If no error was reported the tokens derive the tree that it gives, and
what was reported is that statements in its blocks are unreachable.  Where it fails it has reported an
error, as long as it was given as many layers as there are tokens.
-/

namespace BlFront

open List

open Grammar

theorem Span.merge_self (a : Span) : a.merge a = a := by
  cases a
  simp [Span.merge]

namespace Parser

/-! ### What is said about blocks -/

/-- What is said about a statement behind what was read of a block. -/
def Reach.warning : Reach → Stmt → List Diagnostic
  | .notSince returned, x => [unreachable returned x]
  | _, _ => []

def Reach.warnings : Reach → List Stmt → List Diagnostic
  | _, [] => []
  | reach, x :: xs => reach.warning x ++ (reach.after x).warnings xs

theorem Reach.warnings_no (xs : List Stmt) : Reach.no.warnings xs = [] := by
  induction xs with
  | nil => rfl
  | cons x xs ih => exact ih

def warningsOf : Part → List Diagnostic
  | .block b => Reach.yes.warnings b.statements
  | _ => []

/-- What is said about the parts that a tour leaves. -/
def warned (visits : List Visit) : List Diagnostic :=
  (visits.filterMap Visit.left?).flatMap warningsOf

theorem warned_append (a b : List Visit) : warned (a ++ b) = warned a ++ warned b := by
  simp [warned]

theorem warned_around (part : Part) (inside : List Visit) :
    warned (part.around inside) = warned inside ++ warningsOf part := by
  simp [warned, left_around]

/-! ### What was read since a state -/

/-- What was read since a state, with nothing of it behind the tokens to come, and what was said that is
not about it. -/
structure Makes (s₀ s : State) (visits : List Visit) (pending : List Diagnostic := []) : Prop where
  start : s₀.Proper
  onward : s₀.Onward s
  numbered : Numbered s₀.nextId s.nextId visits
  placed : s₀.Lined → ∃ hi, Laid s₀.current.span.start hi visits ∧
    (∀ t ∈ s.rest, hi ≤ t.span.start) ∧ (Ends s₀ s → hi ≤ s.previous.span.stop)
  grounded : s₀.Lined → Grounded s₀.rest visits
  said : s.Clean → s.diagnostics.Perm (s₀.diagnostics ++ (warned visits ++ pending))

/-- What was read since a state and leaves a token for one more identity. -/
structure Fills (s₀ s : State) (visits : List Visit) (pending : List Diagnostic := []) : Prop
    extends Makes s₀ s visits pending where
  coin : s.nextId + s.rest.length < s₀.nextId + s₀.rest.length

/-- The span goes from the first token to the one that was consumed last. -/
def Covers (s₀ s : State) (span : Span) : Prop :=
  s₀.Lined → span.start = s₀.current.span.start ∧ span.stop = s.previous.span.stop

/-- What was read from one state to another and has a place of its own. -/
structure Lies (s₀ s : State) (span : Span) (visits : List Visit) (pending : List Diagnostic := []) :
    Prop extends Makes s₀ s visits pending where
  ends : Ends s₀ s
  covers : Covers s₀ s span

section Reading

variable {s₀ s s' : State} {t : Token} {span : Span} {visits inside : List Visit}
  {pending : List Diagnostic}

namespace Makes

theorem begin (proper : s.Proper) : Makes s s [] where
  start := proper
  onward := .refl s
  numbered := .nil _ _
  placed lined := ⟨_, .nil (Nat.le_refl _), lined.current_le, fun ends => absurd ends.length_lt (Nat.lt_irrefl _)⟩
  grounded _ := .nil
  said _ := .of_eq (append_nil _).symm

theorem proper (h : Makes s₀ s visits pending) : s.Proper := h.onward.proper h.start

/-- What is skipped leaves a gap, and what is said is about something else. -/
theorem later (h : Makes s₀ s visits pending) (onward : s.Onward s') {more : List Diagnostic}
    (said : s'.Clean → s'.diagnostics.Perm (s.diagnostics ++ more)) :
    Makes s₀ s' visits (pending ++ more) where
  start := h.start
  onward := h.onward.trans onward
  numbered := h.numbered.widen onward.nextId
  placed lined := by
    obtain ⟨hi, laid, next, last⟩ := h.placed lined
    refine ⟨hi, laid, fun t mem => next t (onward.rest.subset mem), fun ends => ?_⟩
    rcases onward.consumed with ⟨rest, previous⟩ | taken
    · rw [Ends, rest, previous] at ends
      rw [previous]
      exact last ends
    · have := next _ taken.previous_mem
      have := (h.onward.lined lined).order.proper _ taken.previous_mem
      omega
  grounded := h.grounded
  said clean := by
    refine (said clean).trans (((h.said (onward.clean clean)).append_right more).trans (.of_eq ?_))
    simp only [append_assoc]

/-- Nothing is said, unless it is an error. -/
theorem quietly (h : Makes s₀ s visits pending) (onward : s.Onward s')
    (quiet : s'.Clean → s'.diagnostics = s.diagnostics) : Makes s₀ s' visits pending := by
  have later : Makes s₀ s' visits (pending ++ []) :=
    h.later onward fun clean => .of_eq (by rw [quiet clean, append_nil])
  rwa [append_nil] at later

theorem token (h : Makes s₀ s visits pending) (took : Took s t s') : Fills s₀ s' visits pending where
  toMakes := h.quietly took.onward fun _ => took.diagnostics
  coin := by
    have := h.onward.paid
    have := took.length
    rw [took.nextId]
    omega

theorem child (h : Makes s₀ s visits pending) (read : Makes s s' inside) (ends : Ends s s') :
    Makes s₀ s' (visits ++ inside) pending where
  start := h.start
  onward := h.onward.trans read.onward
  numbered := h.numbered.append read.numbered h.onward.nextId read.onward.nextId
  placed lined := by
    obtain ⟨hi, laid, next, _⟩ := h.placed lined
    obtain ⟨hi', laid', next', last'⟩ := read.placed (h.onward.lined lined)
    exact ⟨hi', laid.append (laid'.widen (next _ ends.current_mem) (Nat.le_refl _)), next',
      fun _ => last' ends⟩
  grounded lined := (h.grounded lined).append
    ((read.grounded (h.onward.lined lined)).mono h.onward.rest.subset)
  said clean := by
    refine (read.said clean).trans (((h.said (read.onward.clean clean)).append_right _).trans ?_)
    rw [warned_append, append_nil, append_assoc, append_assoc, append_assoc]
    exact (perm_append_comm.append_left _).append_left _

theorem beside {other : List Visit} (h : Makes s₀ s visits (warned other)) (read : Makes s s' inside) :
    Makes s₀ s' visits (warned (other ++ inside)) := by
  rw [warned_append, ← append_nil (warned inside)]
  exact h.later read.onward read.said

end Makes

namespace Fills

theorem quietly (h : Fills s₀ s visits pending) (onward : s.Onward s')
    (quiet : s'.Clean → s'.diagnostics = s.diagnostics) : Fills s₀ s' visits pending :=
  ⟨h.toMakes.quietly onward quiet, Nat.lt_of_le_of_lt onward.paid h.coin⟩

theorem child (h : Fills s₀ s visits pending) (read : Makes s s' inside) (ends : Ends s s') :
    Fills s₀ s' (visits ++ inside) pending :=
  ⟨h.toMakes.child read ends, Nat.lt_of_le_of_lt read.onward.paid h.coin⟩

theorem ends (h : Fills s₀ s visits pending) : Ends s₀ s := by
  rcases h.onward.consumed with ⟨rest, _⟩ | ends
  · have coin := h.coin
    have := h.onward.nextId
    rw [rest] at coin
    omega
  · exact ends

theorem covers (h : Fills s₀ s visits pending) : Covers s₀ s (s₀.current.span.merge s.previous.span) := by
  intro lined
  obtain ⟨first, _, last, _⟩ := h.ends.places lined
  rw [Span.merge_start, Span.merge_stop]
  omega

theorem lies (h : Fills s₀ s visits pending) (covers : Covers s₀ s span) :
    Lies s₀ s span visits pending :=
  ⟨h.toMakes, h.ends, covers⟩

/-- An identity is given out for what was read. -/
theorem draw (h : Fills s₀ s visits pending) (covers : Covers s₀ s span) :
    Lies s₀ s.draw span visits pending where
  start := h.start
  onward := h.onward.draw h.coin
  numbered := h.numbered.widen (Nat.le_succ _)
  placed := h.placed
  grounded := h.grounded
  said := h.said
  ends := h.ends
  covers := covers

end Fills

namespace Lies

theorem bounded (h : Lies s₀ s span visits pending) (lined : s₀.Lined) : span.Bounded s₀.rest :=
  ⟨⟨_, h.ends.current_mem, (h.covers lined).1.symm⟩, _, h.ends.previous_mem, (h.covers lined).2.symm⟩

theorem proper_span (h : Lies s₀ s span visits pending) (lined : s₀.Lined) : span.start < span.stop := by
  obtain ⟨le, lt, _⟩ := h.ends.places lined
  have := h.covers lined
  omega

theorem laid (h : Lies s₀ s span visits pending) (lined : s₀.Lined) :
    Laid span.start span.stop visits := by
  obtain ⟨hi, laid, _, last⟩ := h.placed lined
  obtain ⟨start, stop⟩ := h.covers lined
  exact laid.widen (Nat.le_of_eq start) (stop ▸ last h.ends)

/-- Something around all that was read, with numbers of its own kept. -/
theorem wrap {outer : List Visit} (h : Lies s₀ s span visits pending)
    (numbered : Numbered s₀.nextId s.nextId outer)
    (laid : s₀.Lined → Laid span.start span.stop outer)
    (grounded : s₀.Lined → Grounded s₀.rest outer)
    (told : (warned visits ++ pending).Perm (warned outer)) : Lies s₀ s span outer where
  toMakes :=
    { h.toMakes with
      numbered := numbered
      placed := fun lined => by
        obtain ⟨start, stop⟩ := h.covers lined
        obtain ⟨_, _, _, next⟩ := h.ends.places lined
        refine ⟨span.stop, start ▸ laid lined, ?_, fun _ => Nat.le_of_eq stop⟩
        rw [stop]
        exact next
      grounded := grounded
      said := fun clean => by
        rw [append_nil]
        exact (h.said clean).trans (told.append_left _) }
  ends := h.ends
  covers := h.covers

/-- A part around what is inside it. -/
theorem around (part : Part) (plain : part.isClass = false)
    (h : Lies s₀ s part.span inside (warningsOf part))
    (numbered : Numbered s₀.nextId s.nextId (part.around inside)) :
    Lies s₀ s part.span (part.around inside) := by
  refine h.wrap numbered (fun lined => (h.laid lined).around plain) (fun lined => ?_)
    (.of_eq (warned_around part inside).symm)
  refine (h.grounded lined).around ?_
  rw [part.spans_of_plain plain]
  exact forall_mem_singleton.mpr (h.bounded lined)

end Lies

/-- The identity that was given out last is that of a node around what was read. -/
theorem Fills.node (part : Part) (h : Fills s₀ s visits (warningsOf part)) (plain : part.isClass = false)
    (id : part.id? = some ⟨s.nextId⟩) (covers : Covers s₀ s part.span) :
    Lies s₀ s.draw part.span (part.around visits) := by
  have drawn := h.draw covers
  exact drawn.around part plain (drawn.numbered.around id ⟨h.onward.nextId, Nat.lt_succ_self _⟩
    fun m mem => (h.numbered.bounds m mem).2)

/-! ### Where spans start and end -/

/-- The span starts with the first token and does not reach behind the one that was consumed last. -/
def Begins (s₀ s : State) (span : Span) : Prop :=
  s₀.Lined → span.start = s₀.current.span.start ∧ span.stop ≤ s.previous.span.stop

/-- The span ends with the token that was consumed last and does not start before the first. -/
def Reaches (s₀ s : State) (span : Span) : Prop :=
  s₀.Lined → s₀.current.span.start ≤ span.start ∧ span.stop = s.previous.span.stop

theorem Begins.merge {span' : Span} (h : Begins s₀ s span) (h' : Reaches s₀ s span') :
    Covers s₀ s (span.merge span') := by
  intro lined
  have := h lined
  have := h' lined
  rw [Span.merge_start, Span.merge_stop]
  omega

theorem Ends.begins (h : Ends s₀ s) : Begins s₀ s s₀.current.span :=
  fun lined => ⟨rfl, (h.places lined).2.2.1⟩

theorem Ends.reaches (h : Ends s₀ s) : Reaches s₀ s s.previous.span :=
  fun lined => ⟨(h.places lined).1, rfl⟩

theorem Lies.begins (h : Lies s₀ s span visits pending) (later : s.Onward s') : Begins s₀ s' span := by
  intro lined
  obtain ⟨start, stop⟩ := h.covers lined
  obtain ⟨_, _, _, next⟩ := h.ends.places lined
  refine ⟨start, stop ▸ ?_⟩
  rcases later.consumed with ⟨_, same⟩ | ends
  · rw [same]
  · have := next _ ends.previous_mem
    have := (h.onward.lined lined).order.proper _ ends.previous_mem
    omega

theorem Lies.reaches (h : Lies s s' span inside) (before : s₀.Onward s) : Reaches s₀ s' span := by
  intro lined
  obtain ⟨start, stop⟩ := h.covers (before.lined lined)
  exact ⟨start ▸ lined.current_le _ (before.rest.subset h.ends.current_mem), stop⟩

theorem Took.covers (took : Took s t s') : Covers s s' t.span :=
  fun _ => ⟨by rw [took.current], by rw [took.previous]⟩

/-! ### Going on by one token -/

variable {β : Type} {kind : TokenKind} {Q : β → State → Prop}

namespace Makes

theorem advance {f f' : Token → Parse β} (h : Makes s₀ s visits pending) (more : s.current.kind ≠ .eof)
    (next : ∀ s', Took s s.current s' → Fills s₀ s' visits pending →
      Both (f s.current) (f' s.current) s' s₀.Fails Q) :
    Both (Parser.advance >>= f) (Parser.advance >>= f') s s₀.Fails Q := by
  refine (advance_runs h.proper more _).bind ?_
  rintro t s' ⟨rfl, took⟩
  exact next s' took (h.token took)

theorem expect {f f' : Token → Parse β} (h : Makes s₀ s visits pending) (notEnd : kind ≠ .eof)
    (next : ∀ t s', Took s t s' → t.kind = kind → Fills s₀ s' visits pending →
      Both (f t) (f' t) s' s₀.Fails Q) :
    Both (Parser.expect kind >>= f) (Parser.expect kind >>= f') s s₀.Fails Q := by
  refine ((expect_runs h.proper notEnd).since h.onward).bind ?_
  rintro t s' ⟨took, isKind⟩
  exact next t s' took isKind (h.token took)

theorem expectName {f f' : Ident → Parse β} (h : Makes s₀ s visits pending)
    (next : ∀ t s', Took s t s' → t.kind = .identifier → Fills s₀ s' visits pending →
      Both (f ⟨t.lexeme, t.span⟩) (f' ⟨t.lexeme, t.span⟩) s' s₀.Fails Q) :
    Both (Parser.expectName >>= f) (Parser.expectName >>= f') s s₀.Fails Q := by
  refine ((expectName_runs h.proper).since h.onward).bind ?_
  rintro name s' ⟨t, took, isName, rfl⟩
  exact next t s' took isName (h.token took)

theorem eat {f f' : Bool → Parse β} (h : Makes s₀ s visits pending) (notEnd : kind ≠ .eof)
    (found : ∀ t s', Took s t s' → t.kind = kind → Fills s₀ s' visits pending →
      Both (f true) (f' true) s' s₀.Fails Q)
    (missing : s.current.kind ≠ kind → Both (f false) (f' false) s s₀.Fails Q) :
    Both (Parser.eat kind >>= f) (Parser.eat kind >>= f') s s₀.Fails Q := by
  refine (eat_runs h.proper notEnd _).bind ?_
  rintro _ s' (⟨rfl, t, took, isKind⟩ | ⟨rfl, rfl, other⟩)
  · exact found t s' took isKind (h.token took)
  · exact missing other

/-- What another parse function does comes next. -/
theorem read {α : Type} {p p' : Parse α} {f f' : α → Parse β} {R : α → State → Prop}
    (h : Makes s₀ s visits pending) (spec : Both p p' s s.Fails R)
    (next : ∀ a s', R a s' → Both (f a) (f' a) s' s₀.Fails Q) :
    Both (p >>= f) (p' >>= f') s s₀.Fails Q :=
  (spec.since h.onward).bind next

theorem readMap {α γ : Type} {p p' : Parse α} {g : α → γ} {f f' : γ → Parse β} {R : α → State → Prop}
    (h : Makes s₀ s visits pending) (spec : Both p p' s s.Fails R)
    (next : ∀ a s', R a s' → Both (f (g a)) (f' (g a)) s' s₀.Fails Q) :
    Both (g <$> p >>= f) (g <$> p' >>= f') s s₀.Fails Q := by
  refine Both.bind (Q := fun b s' => ∃ a, b = g a ∧ R a s') (.map ?_) ?_
  · exact (spec.since h.onward).mono (fun _ => id) fun a s' holds => ⟨a, rfl, holds⟩
  · rintro _ s' ⟨a, rfl, holds⟩
    exact next a s' holds

end Makes

end Reading

/-! ### Lists with commas -/

/-- Phrases for lists of items, with commas between them; an inner list may be empty. -/
structure Listing {α : Type} (Item : List Token → α → List Token → Prop)
    (Items Inner : List Token → List α → List Token → Prop) : Prop where
  last : ∀ {a b x}, Item a x b → Items a [x] b
  next : ∀ {a b d x xs} {c : Token}, Item a x (c :: b) → c.kind = .comma → Items b xs d →
    Items a (x :: xs) d
  none : ∀ {a}, Inner a [] a
  some : ∀ {a b xs}, Items a xs b → Inner a xs b

theorem params_listing : Listing (Derives .typedName) (Derives .typedNames) (Derives .params) :=
  ⟨.lastName, .nextName, .noParams, .params⟩

theorem args_listing : Listing (Derives (.expr 1)) (Derives .exprs) (Derives .args) :=
  ⟨.lastExpr, .nextExpr, .noArgs, .args⟩

variable {s : State}

section Lists

variable {α ι : Type} {item item' : Parse α} (place : α → Span) (tour : ι → α → List Visit) {n : Nat}
  {Item : List Token → α → List Token → Prop} {Items Inner : List Token → List α → List Token → Prop}
  (listing : Listing Item Items Inner)
  (items : ∀ {s : State}, s.Proper → s.rest.length < n → Both item item' s s.Fails fun x s' =>
    (∀ i, Lies s s' (place x) (tour i x)) ∧ (s'.Clean → Item s.rest x s'.rest))

include listing items

theorem commaSeparated_runs [Inhabited ι] {fuel fuel' : Nat} (proper : s.Proper)
    (fits : s.rest.length < n) (enough : s.rest.length < fuel) (enough' : s.rest.length < fuel') :
    Both (commaSeparated item fuel) (commaSeparated item' fuel') s s.Fails fun xs s' =>
      (∀ i, Makes s s' (xs.flatMap (tour i))) ∧ Ends s s' ∧ (s'.Clean → Items s.rest xs s'.rest) := by
  induction fuel generalizing fuel' s with
  | zero => omega
  | succ fuel ih =>
    obtain ⟨fuel', rfl⟩ := Nat.exists_eq_add_one_of_ne_zero (Nat.ne_zero_of_lt enough')
    rw [commaSeparated, commaSeparated]
    refine (Makes.begin proper).read (items proper fits) ?_
    rintro x s₁ ⟨lies, derives⟩
    have shorter := (lies default).ends.length_lt
    refine (lies default).eat (by decide) (fun c s₂ took comma _ => ?_) fun _ => ?_
    · have := took.length
      have behind := (lies default).token took
      refine behind.read (ih behind.proper (by omega) (by omega) (by omega)) ?_
      rintro xs s₃ ⟨makes, ends, more⟩
      refine ⟨rfl, fun i => ?_, (lies default).ends.trans (took.ends.trans ends), fun clean => ?_⟩
      · rw [flatMap_cons]
        exact ((lies i).token took).toMakes.child (makes i) ends
      · have first := derives (took.onward.clean ((makes default).onward.clean clean))
        rw [took.rest] at first
        exact listing.next first comma (more clean)
    · refine ⟨rfl, fun i => ?_, (lies default).ends, fun clean => listing.last (derives clean)⟩
      rw [flatMap_cons, flatMap_nil, append_nil]
      exact (lies i).toMakes

/-- A list up to a closing token: what stands before that token makes the list. -/
theorem listUntil_runs [Inhabited ι] {close : TokenKind} (notEnd : close ≠ .eof)
    (proper : s.Proper) (fits : s.rest.length < n) :
    Both (listUntil close item) (listUntil close item') s s.Fails fun xs s' => (∀ i, Makes s s' (xs.flatMap (tour i))) ∧
      Ends s s' ∧ (s'.Clean → s'.previous.kind = close ∧ Inner s.rest xs (s'.previous :: s'.rest)) := by
  rw [listUntil, listUntil, both_peek, both_ite_bind]
  refine Both.bind (Q := fun xs s₁ => (∀ i, Makes s s₁ (xs.flatMap (tour i))) ∧
    (s₁.Clean → Inner s.rest xs s₁.rest)) ?_ ?_
  · split
    · exact ⟨rfl, fun i => .begin proper, fun _ => listing.none⟩
    · refine Both.mono (commaSeparated_runs place tour listing items proper fits (Nat.lt_succ_self _)
        (Nat.lt_succ_self _)) (fun _ => id) ?_
      rintro xs s₁ ⟨makes, _, derives⟩
      exact ⟨makes, fun clean => listing.some (derives clean)⟩
  · rintro xs s₁ ⟨makes, derives⟩
    refine (makes default).expect notEnd fun t s₂ took isClose filled => ?_
    refine ⟨rfl, fun i => ((makes i).token took).toMakes, filled.ends, fun clean => ?_⟩
    rw [took.previous, ← took.rest]
    exact ⟨isClose, derives (took.onward.clean clean)⟩

end Lists

/-! ### Types -/

theorem typeAt_runs {depth depth' : Nat} (proper : s.Proper) (fits : s.rest.length < depth)
    (fits' : s.rest.length < depth') :
    Both (typeAt depth) (typeAt depth') s s.Fails fun type s' =>
      Lies s s' type.span type.tour ∧ Derives .type s.rest type s'.rest := by
  induction depth generalizing depth' s with
  | zero => omega
  | succ depth ih =>
    obtain ⟨depth', rfl⟩ := Nat.exists_eq_add_one_of_ne_zero (Nat.ne_zero_of_lt fits')
    rw [typeAt, typeAt, both_currentSpan, both_peek]
    split
    · next kind =>
        refine (Makes.begin proper).advance (by simp [kind]) fun s₁ took filled => ?_
        refine ⟨rfl, filled.node (.type _) rfl rfl took.covers, ?_⟩
        rw [took.rest]
        exact .named kind
    · next kind =>
        refine (Makes.begin proper).advance (by simp [kind]) fun s₁ took opened => ?_
        have := took.length
        refine opened.read (ih opened.proper (by omega) (by omega)) ?_
        rintro element s₂ ⟨lies, derives⟩
        refine (opened.child lies.toMakes lies.ends).expect (by decide) fun r s₃ close closes filled => ?_
        refine ⟨rfl, filled.node (.type _) rfl rfl filled.covers, ?_⟩
        rw [close.rest] at derives
        rw [took.rest]
        rw [close.previous]
        exact .arrayType kind derives closes
    · exact refuse_fails (.refl s) _

theorem typeExpr_runs (proper : s.Proper) : Runs typeExpr s s.Fails fun type s' =>
    Lies s s' type.span type.tour ∧ Derives .type s.rest type s'.rest :=
  typeAt_runs proper (Nat.lt_succ_self _) (Nat.lt_succ_self _)

/-- A name with a type, as a node of one kind or another. -/
theorem typedName_runs (part : TypedName → Part) (plain : ∀ x, (part x).isClass = false)
    (node : ∀ x, (part x).id? = some x.tag.id) (place : ∀ x, (part x).span = x.tag.span)
    (quiet : ∀ x, warningsOf (part x) = []) (proper : s.Proper) : Runs typedName s s.Fails fun x s' =>
      Lies s s' x.tag.span ((part x).around x.type.tour) ∧ Derives .typedName s.rest x s'.rest := by
  rw [typedName]
  refine (Makes.begin proper).expectName fun n s₁ took isName word => ?_
  refine word.expect (by decide) fun c s₂ mark colon marked => ?_
  refine marked.read (typeExpr_runs marked.proper) ?_
  rintro type s₃ ⟨lies, derives⟩
  have filled := marked.child lies.toMakes lies.ends
  have spans := ((word.lies took.covers).begins (mark.onward.trans lies.onward)).merge (lies.reaches marked.onward)
  refine ⟨rfl, ?_, ?_⟩
  · rw [← place]
    refine Fills.node (part _) ?_ (plain _) (node _) (by rw [place]; exact spans)
    rw [quiet]
    exact filled
  · rw [took.rest, mark.rest]
    exact .typedName isName colon derives

/-- A type behind a mark, which is read if the mark is there, with what a tour visits at it. -/
theorem Fills.typeAfter {β : Type} {s₀ : State} {visits : List Visit} {mark : TokenKind}
    {f f' : Option TypeExpr → Parse β} {Q : β → State → Prop} (h : Fills s₀ s visits)
    (notEnd : mark ≠ .eof)
    (next : ∀ type s', Derives (.typeAfter mark) s.rest type s'.rest → s.Onward s' →
      (∀ tour : TypeExpr → List Visit, (∀ {written s₁ s₂}, Lies s₁ s₂ written.span written.tour →
        Lies s₁ s₂ written.span (tour written)) → Fills s₀ s' (visits ++ type.toList.flatMap tour)) →
      Both (f type) (f' type) s' s₀.Fails Q) :
    Both
      (Parser.eat mark >>= fun found => if found then some <$> typeExpr >>= f else pure none >>= f)
      (Parser.eat mark >>= fun found => if found then some <$> typeExpr >>= f' else pure none >>= f')
      s s₀.Fails Q := by
  refine h.eat notEnd (fun m s₁ took isMark marked => ?_) fun _ => ?_
  · rw [if_pos rfl, if_pos rfl]
    refine marked.readMap (typeExpr_runs marked.proper) ?_
    rintro written s₂ ⟨lies, derives⟩
    refine next (some written) s₂ (took.rest ▸ .typed isMark derives)
      (took.onward.trans lies.onward) fun tour wraps => ?_
    rw [Option.toList_some, flatMap_cons, flatMap_nil, append_nil]
    exact marked.child (wraps lies).toMakes lies.ends
  · exact next none s .untyped (.refl s) fun tour _ => by simpa using h

end Parser

end BlFront
