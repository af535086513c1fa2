import BlFront.Proofs.Syntax.Nodes

/-!
# How the parts of a unit are laid out

Every part spans what is inside it, and parts that follow one another in a tour stand one behind the
other.  The fields and methods of a class may be mixed, but each keep their order.  So a tour that has
left a variable only enters parts behind it.
-/

namespace BlFront

open List

variable {inside : List Visit} {v : Visit}

/-! ### Places of visits -/

/-- Visits that leave no parameter and no variable. -/
def Still (visits : List Visit) : Prop := ∀ part, .leave part ∈ visits → part.isVariable = false

/-- Spans in two rows that stand one behind the other from one place to another.  The rows may be
mixed, but each keeps its order. -/
inductive Mingled : Nat → Nat → List Span → List Span → Prop
  | nil {lo hi : Nat} (le : lo ≤ hi) : Mingled lo hi [] []
  | first {lo hi : Nat} {span : Span} {row other : List Span} (le : lo ≤ span.start)
      (proper : span.start < span.stop) (rest : Mingled span.stop hi row other) :
      Mingled lo hi (span :: row) other
  | second {lo hi : Nat} {span : Span} {row other : List Span} (le : lo ≤ span.start)
      (proper : span.start < span.stop) (rest : Mingled span.stop hi row other) :
      Mingled lo hi row (span :: other)

theorem Mingled.widen {lo hi hi' : Nat} {row other : List Span} (h : Mingled lo hi row other)
    (up : hi ≤ hi') : Mingled lo hi' row other := by
  induction h with
  | nil le => exact .nil (Nat.le_trans le up)
  | first le proper _ ih => exact .first le proper (ih up)
  | second le proper _ ih => exact .second le proper (ih up)

/-- The members of a class stand behind the name of its superclass. -/
structure ClassDecl.Arranged (decl : ClassDecl) (place : Nat) : Prop where
  start : decl.tag.span.start ≤ place
  superclass : ∀ name ∈ decl.superclass, decl.tag.span.start ≤ name.span.start ∧
    name.span.start ≤ name.span.stop ∧ name.span.stop ≤ place
  members : Mingled place decl.tag.span.stop (decl.fields.map (·.tag.span))
    (decl.methods.map (·.tag.span))

/-- What a tour visits inside a class. -/
def ClassDecl.inner (decl : ClassDecl) : List Visit :=
  decl.fields.flatMap fieldTour ++ functionsTour decl.methods

/-- Visits to parts that stand one behind the other from one place to another, with what is inside
a part within its span.  What is inside a class are its fields and its methods. -/
inductive Laid : Nat → Nat → List Visit → Prop
  | nil {lo hi : Nat} (le : lo ≤ hi) : Laid lo hi []
  | part {lo hi : Nat} {part : Part} {inside more : List Visit} (plain : part.isClass = false)
      (le : lo ≤ part.span.start) (inner : Laid part.span.start part.span.stop inside)
      (rest : Laid part.span.stop hi more) : Laid lo hi (part.around inside ++ more)
  | members {lo hi place : Nat} {decl : ClassDecl} {more : List Visit} (le : lo ≤ decl.tag.span.start)
      (arranged : decl.Arranged place)
      (first : Laid decl.tag.span.start decl.tag.span.stop (decl.fields.flatMap fieldTour))
      (second : Laid decl.tag.span.start decl.tag.span.stop (functionsTour decl.methods))
      (rest : Laid decl.tag.span.stop hi more) :
      Laid lo hi ((Part.classDecl decl).around decl.inner ++ more)

namespace Laid

variable {lo mid hi : Nat} {visits more : List Visit}

theorem le (h : Laid lo hi visits) : lo ≤ hi := by
  induction h with
  | nil le => exact le
  | part _ le _ _ inner rest => omega
  | members le _ _ _ _ first _ rest => omega

theorem widen {lo' hi' : Nat} (h : Laid lo hi visits) (down : lo' ≤ lo) (up : hi ≤ hi') :
    Laid lo' hi' visits := by
  induction h generalizing lo' hi' with
  | nil le => exact .nil (Nat.le_trans down (Nat.le_trans le up))
  | part plain le inner _ _ rest =>
    exact .part plain (Nat.le_trans down le) inner (rest (Nat.le_refl _) up)
  | members le arranged first second _ _ _ rest =>
    exact .members (Nat.le_trans down le) arranged first second (rest (Nat.le_refl _) up)

theorem append (h : Laid lo mid visits) (h' : Laid mid hi more) : Laid lo hi (visits ++ more) := by
  induction h with
  | nil le => exact h'.widen le (Nat.le_refl _)
  | part plain le inner _ _ rest =>
    rw [append_assoc]
    exact .part plain le inner (rest h')
  | members le arranged first second _ _ _ rest =>
    rw [append_assoc]
    exact .members le arranged first second (rest h')

theorem around {part : Part} (plain : part.isClass = false)
    (h : Laid part.span.start part.span.stop visits) :
    Laid part.span.start part.span.stop (part.around visits) := by
  have single := Laid.part plain (Nat.le_refl _) h (.nil (Nat.le_refl part.span.stop))
  rwa [append_nil] at single

end Laid

/-- The part that a visit is to. -/
def Visit.part : Visit → Part
  | .enter part => part
  | .leave part => part

/-- The places that a part tells: its own, and that of the name of a superclass. -/
def Part.spans : Part → List Span
  | .classDecl decl => decl.tag.span :: decl.superclass.toList.map (·.span)
  | part => [part.span]

theorem Part.spans_of_plain {part : Part} (plain : part.isClass = false) : part.spans = [part.span] := by
  cases part with
  | classDecl decl => cases plain
  | _ => rfl

theorem Part.span_mem_spans (part : Part) : part.span ∈ part.spans := by
  cases part <;> exact mem_cons_self ..

theorem Part.mem_around {part : Part} :
    v ∈ part.around inside ↔ v = .enter part ∨ v ∈ inside ∨ v = .leave part := by
  simp [Part.around]

theorem Part.part_of_mem_around {part : Part} (mem : v ∈ part.around inside) :
    v.part = part ∨ v ∈ inside := by
  rcases Part.mem_around.mp mem with rfl | mem | rfl
  · exact .inl rfl
  · exact .inr mem
  · exact .inl rfl

/-- All parts stand between the two places, and no place that they tell ends before it starts. -/
theorem Laid.places {lo hi : Nat} {visits : List Visit} (h : Laid lo hi visits) :
    ∀ v ∈ visits, (lo ≤ v.part.span.start ∧ v.part.span.stop ≤ hi) ∧
      ∀ span ∈ v.part.spans, span.start ≤ span.stop := by
  induction h with
  | nil le => simp
  | @part lo hi part inside more plain le inner rest inner_ih rest_ih =>
    have := inner.le
    have := rest.le
    intro v mem
    rcases mem_append.mp mem with mem | mem
    · rcases Part.part_of_mem_around mem with same | mem
      · rw [same, Part.spans_of_plain plain]
        exact ⟨⟨le, rest.le⟩, forall_mem_singleton.mpr inner.le⟩
      · have := (inner_ih v mem).1
        exact ⟨by omega, (inner_ih v mem).2⟩
    · have := (rest_ih v mem).1
      exact ⟨by omega, (rest_ih v mem).2⟩
  | @members lo hi place decl more le arranged first second rest first_ih second_ih rest_ih =>
    have := first.le
    have := rest.le
    have here : ∀ span ∈ (Part.classDecl decl).spans, span.start ≤ span.stop := by
      intro span told
      rcases mem_cons.mp told with rfl | told
      · exact first.le
      · obtain ⟨name, mem, rfl⟩ := mem_map.mp told
        exact (arranged.superclass name (Option.mem_toList.mp mem)).2.1
    intro v mem
    rcases mem_append.mp mem with mem | mem
    · rcases Part.part_of_mem_around mem with same | mem
      · rw [same]
        exact ⟨⟨le, rest.le⟩, here⟩
      · have inner : ∀ {v}, v ∈ decl.inner → _ := fun mem =>
          (mem_append.mp mem).elim (first_ih _) (second_ih _)
        have := (inner mem).1
        exact ⟨by omega, (inner mem).2⟩
    · have := (rest_ih v mem).1
      exact ⟨by omega, (rest_ih v mem).2⟩

theorem Laid.within {lo hi : Nat} {visits : List Visit} (h : Laid lo hi visits) :
    ∀ v ∈ visits, lo ≤ v.part.span.start ∧ v.part.span.stop ≤ hi :=
  fun v mem => (h.places v mem).1

/-- A variable that is left before a part is entered stands before it. -/
def Follows (u v : Visit) : Prop :=
  ∀ p q, u = .leave p → p.isVariable = true → v = .enter q → p.span.stop ≤ q.span.start

theorem follows_of_le {u : Visit} {place : Nat} (before : u.part.span.stop ≤ place)
    (behind : place ≤ v.part.span.start) : Follows u v := by
  rintro p q rfl _ rfl
  exact Nat.le_trans before behind

theorem pairwise_around {part : Part} (h : inside.Pairwise Follows) :
    (part.around inside).Pairwise Follows := by
  rw [Part.around, pairwise_cons, pairwise_append]
  refine ⟨fun v _ p q same => (by cases same), h, pairwise_singleton _ _, fun u _ v last p q _ _ same => ?_⟩
  rw [mem_singleton.mp last] at same
  cases same

theorem pairwise_behind {place : Nat} {visits more : List Visit} (h : visits.Pairwise Follows)
    (h' : more.Pairwise Follows) (before : ∀ v ∈ visits, v.part.span.stop ≤ place)
    (behind : ∀ v ∈ more, place ≤ v.part.span.start) : (visits ++ more).Pairwise Follows :=
  pairwise_append.mpr ⟨h, h', fun u hu v hv => follows_of_le (before u hu) (behind v hv)⟩

theorem Still.append {a b : List Visit} (h : Still a) (h' : Still b) : Still (a ++ b) := by
  intro part mem
  rcases mem_append.mp mem with mem | mem
  · exact h part mem
  · exact h' part mem

theorem Still.around (part : Part) (plain : part.isVariable = false) (h : Still inside) :
    Still (part.around inside) := by
  intro q mem
  rcases Part.mem_around.mp mem with same | mem | same
  · cases same
  · exact h q mem
  · cases same
    exact plain

theorem still_type (t : TypeExpr) : Still t.tour := by
  induction t with
  | named tag name => exact .around _ rfl fun _ mem => by cases mem
  | array tag element ih => exact .around _ rfl ih

theorem still_fields (xs : List TypedName) : Still (xs.flatMap fieldTour) := by
  induction xs with
  | nil => exact fun _ mem => by cases mem
  | cons x xs ih =>
    rw [flatMap_cons]
    exact Still.append (.around (.field x) rfl (still_type x.type)) ih

theorem Laid.pairwise {lo hi : Nat} {visits : List Visit} (h : Laid lo hi visits) :
    visits.Pairwise Follows := by
  induction h with
  | nil le => exact .nil
  | @part lo hi part inside more plain le inner rest inner_ih rest_ih =>
    have whole := (Laid.around plain inner).within
    exact pairwise_behind (pairwise_around inner_ih) rest_ih (fun v mem => (whole v mem).2)
      fun v mem => (rest.within v mem).1
  | @members lo hi place decl more le _ first second rest first_ih second_ih rest_ih =>
    have inside : decl.inner.Pairwise Follows := by
      refine pairwise_append.mpr ⟨first_ih, second_ih, fun u hu v _ p q same isVariable _ => ?_⟩
      rw [same] at hu
      rw [still_fields decl.fields p hu] at isVariable
      cases isVariable
    have whole : ∀ v ∈ (Part.classDecl decl).around decl.inner,
        v.part.span.stop ≤ decl.tag.span.stop := by
      intro v mem
      rcases Part.part_of_mem_around mem with same | mem
      · rw [same]
        exact Nat.le_refl _
      · exact (mem_append.mp mem).elim (fun mem => (first.within v mem).2)
          fun mem => (second.within v mem).2
    exact pairwise_behind (pairwise_around inside) rest_ih whole fun v mem => (rest.within v mem).1

/-! ### Ends of tokens -/

/-- The span starts where a token starts and ends where a token ends. -/
structure Span.Bounded (tokens : List Token) (span : Span) : Prop where
  start : ∃ t ∈ tokens, t.span.start = span.start
  stop : ∃ t ∈ tokens, t.span.stop = span.stop

theorem Span.Bounded.mono {tokens more : List Token} {span : Span} (h : span.Bounded tokens)
    (sub : tokens ⊆ more) : span.Bounded more := by
  obtain ⟨⟨t, mem, start⟩, u, mem', stop⟩ := h
  exact ⟨⟨t, sub mem, start⟩, u, sub mem', stop⟩

/-- The span starts and ends where a token starts or ends. -/
structure Span.Edged (tokens : List Token) (span : Span) : Prop where
  ordered : span.start ≤ span.stop
  start : ∃ t ∈ tokens, span.start = t.span.start ∨ span.start = t.span.stop
  stop : ∃ t ∈ tokens, span.stop = t.span.start ∨ span.stop = t.span.stop

section Spans

variable {tokens more : List Token} {span : Span}

theorem Span.bounded_of_mem {t : Token} (mem : t ∈ tokens) : t.span.Bounded tokens :=
  ⟨⟨t, mem, rfl⟩, t, mem, rfl⟩

theorem Span.Bounded.edged (h : span.Bounded tokens) (ordered : span.start ≤ span.stop) :
    span.Edged tokens := by
  obtain ⟨⟨t, mem, start⟩, u, mem', stop⟩ := h
  exact ⟨ordered, ⟨t, mem, .inl start.symm⟩, u, mem', .inr stop.symm⟩

theorem Span.Edged.mono (h : span.Edged tokens) (sub : tokens ⊆ more) : span.Edged more := by
  obtain ⟨ordered, ⟨t, mem, start⟩, u, mem', stop⟩ := h
  exact ⟨ordered, ⟨t, sub mem, start⟩, u, sub mem', stop⟩

end Spans

/-- All that the visits tell about places is about the ends of tokens. -/
def Grounded (tokens : List Token) (visits : List Visit) : Prop :=
  ∀ v ∈ visits, ∀ span ∈ v.part.spans, span.Bounded tokens

namespace Grounded

variable {tokens more : List Token} {visits others : List Visit}

theorem nil : Grounded tokens [] := fun v mem => by cases mem

theorem mono (h : Grounded tokens visits) (sub : tokens ⊆ more) : Grounded more visits :=
  fun v mem span told => (h v mem span told).mono sub

theorem append (h : Grounded tokens visits) (h' : Grounded tokens others) :
    Grounded tokens (visits ++ others) := by
  intro v mem
  rcases mem_append.mp mem with mem | mem
  · exact h v mem
  · exact h' v mem

theorem around {part : Part} (h : Grounded tokens visits)
    (here : ∀ span ∈ part.spans, span.Bounded tokens) : Grounded tokens (part.around visits) := by
  intro v mem
  rcases Part.part_of_mem_around mem with same | mem
  · rw [same]
    exact here
  · exact h v mem

end Grounded

namespace Parser

/-- Tokens that stand one behind the other. -/
structure InOrder (tokens : List Token) : Prop where
  proper : ∀ t ∈ tokens, t.span.start < t.span.stop
  ordered : tokens.Pairwise fun t u => t.span.stop ≤ u.span.start

theorem InOrder.suffix {tokens rest : List Token} (h : InOrder tokens) (sub : rest <:+ tokens) :
    InOrder rest :=
  ⟨fun t mem => h.proper t (sub.subset mem), h.ordered.sublist sub.sublist⟩

end Parser

end BlFront
