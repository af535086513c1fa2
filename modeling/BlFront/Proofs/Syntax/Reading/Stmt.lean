import BlFront.Proofs.Syntax.Reading.Expr

/-!
# Statements that are read

A statement ends in a token of its own, so a list of statements has as many layers as it needs.
A statement that fails leaves an error behind and is skipped, which leaves a gap; hence none was skipped
where there is no error, and a unit is made of any tokens.
-/

namespace BlFront.Parser

open List

open Grammar

/-- A statement was read between two states, and an open `if` at its end met no `else`. -/
structure Reads (s : State) (x : Stmt) (s' : State) : Prop
    extends Lies s s' x.span x.tour where
  derives : s'.Clean → Derives .stmt s.rest x s'.rest
  settled : x.endsOpen = true → s'.current.kind ≠ .kwElse

/-- Two parsers of statements that are right, and do the same, where fewer than `n` tokens are to
come. -/
structure StmtReader (n : Nat) (stmt stmt' : Parse Stmt) : Prop where
  runs : ∀ {s : State}, s.Proper → s.rest.length < n →
    Both stmt stmt' s s.Fails fun x s' => Reads s x s'

variable {s₀ s : State} {visits : List Visit} {pending : List Diagnostic}

/-! ### Simple statements -/

/-- What is inside a variable declaration. -/
def initialized (decl : VarDecl) : List Visit :=
  match decl.type with
  | some type => (Part.typed decl type).around type.tour ++ decl.initializer.tour (some ⟨type.id, 0⟩)
  | none => decl.initializer.tour none

theorem initialized_eq (decl : VarDecl) : initialized decl =
    decl.type.toList.flatMap (fun type => (Part.typed decl type).around type.tour) ++
      decl.initializer.tour (decl.type.map fun type => ⟨type.id, 0⟩) := by
  unfold initialized
  cases decl.type <;> simp

variable {s' : State}

/-- The type of a variable is no node of its own where it is told. -/
theorem Lies.typed {written : TypeExpr} (decl : VarDecl)
    (h : Lies s s' written.span written.tour) :
    Lies s s' written.span ((Part.typed decl written).around written.tour) :=
  Lies.around (.typed decl written) rfl h (h.numbered.around_of_none rfl)

theorem varDeclaration_runs (proper : s.Proper) (kind : s.current.kind = .kwVar) :
    Runs varDeclaration s s.Fails fun d s' => Reads s (.varDecl d) s' := by
  rw [varDeclaration, Runs, both_currentSpan]
  refine (Makes.begin proper).advance (by simp [kind]) fun s₁ took word => ?_
  refine word.expectName fun n s₂ tookName isName named => ?_
  refine named.typeAfter (by decide) fun type s₃ written _ annotated => ?_
  refine (annotated TypeExpr.tour id).expect (by decide) fun q s₄ tookSign isSign signed => ?_
  refine signed.read (expression_runs signed.proper) ?_
  rintro value s₅ ⟨placed, derives⟩
  refine (signed.child (placed.tour none).toMakes (placed.tour none).ends).expect (by decide)
    fun t s₆ tookEnd isEnd closed => ?_
  have filled (decl : VarDecl) (hasType : decl.type = type) (hasValue : decl.initializer = value) :
      Fills s s₆ (initialized decl) := by
    have before := (annotated _ (Lies.typed decl)).token tookSign
    have lies := placed.tour (type.map fun type => ⟨type.id, 0⟩)
    rw [initialized_eq, hasType, hasValue]
    exact (before.child lies.toMakes lies.ends).token tookEnd
  refine ⟨rfl, (filled _ rfl rfl).node (.varDecl _) rfl rfl closed.covers, fun clean => ?_,
    by intro h; cases h⟩
  have derives := derives (tookEnd.onward.clean clean)
  rw [tookSign.rest] at written
  rw [tookEnd.rest] at derives
  rw [took.rest, tookName.rest, tookEnd.previous]
  exact .varDecl kind isName written isSign derives isEnd

theorem returnStatement_runs (proper : s.Proper) (kind : s.current.kind = .kwReturn) :
    Runs returnStatement s s.Fails fun x s' => Reads s x s' := by
  rw [returnStatement, Runs, both_currentSpan]
  refine (Makes.begin proper).advance (by simp [kind]) fun s₁ took word => ?_
  rw [both_peek]
  split
  · refine word.expect (by decide) fun t s₂ tookEnd isEnd closed => ?_
    refine ⟨rfl, closed.node (.returnStmt _ none) rfl rfl closed.covers, fun _ => ?_,
      by intro h; cases h⟩
    rw [took.rest, tookEnd.rest, tookEnd.previous]
    exact .bareReturn kind isEnd
  · refine word.readMap (expression_runs word.proper) ?_
    rintro e s₂ ⟨placed, derives⟩
    have lies := placed.tour none
    refine (word.child lies.toMakes lies.ends).expect (by decide) fun t s₃ tookEnd isEnd closed => ?_
    refine ⟨rfl, ?_, fun clean => ?_, by intro h; cases h⟩
    · have inside : (some e).toList.flatMap (Expr.tour · none) = [] ++ e.tour none := by simp
      rw [Stmt.tour, inside]
      exact closed.node (.returnStmt _ (some e)) rfl rfl closed.covers
    · have derives := derives (tookEnd.onward.clean clean)
      rw [tookEnd.rest] at derives
      rw [took.rest, tookEnd.previous]
      exact .valueReturn kind derives isEnd

theorem expressionStatement_runs (proper : s.Proper) :
    Runs expressionStatement s s.Fails fun x s' => Reads s x s' := by
  rw [expressionStatement]
  refine (expression_runs proper).bind ?_
  rintro e s₁ ⟨placed, derives⟩
  have lies := placed.tour none
  refine lies.expect (by decide) fun t s₂ tookEnd isEnd closed => ?_
  refine ⟨rfl, closed.node (.exprStmt _) rfl rfl
    ((lies.begins tookEnd.onward).merge closed.ends.reaches), fun clean => ?_, by intro h; cases h⟩
  have derives := derives (tookEnd.onward.clean clean)
  rw [tookEnd.rest] at derives
  rw [tookEnd.previous]
  exact .exprStmt derives isEnd

/-- A condition stands between parentheses. -/
theorem condition_runs (proper : s.Proper) : Runs condition s s.Fails fun e s' =>
    Makes s s' (e.tour none) ∧ Ends s s' ∧ (s'.Clean → ∃ (l r : Token) (a : List Token),
      s.rest = l :: a ∧ l.kind = .leftParen ∧ Derives (.expr 1) a e (r :: s'.rest) ∧
        r.kind = .rightParen) := by
  rw [condition]
  refine (Makes.begin proper).expect (by decide) fun l s₁ took opens opened => ?_
  refine opened.read (expression_runs opened.proper) ?_
  rintro e s₂ ⟨placed, derives⟩
  have lies := placed.tour none
  refine (opened.child lies.toMakes lies.ends).expect (by decide) fun r s₃ close closes filled => ?_
  refine ⟨rfl, filled.toMakes, filled.ends, fun clean => ⟨l, r, s₁.rest, took.rest, opens, ?_, closes⟩⟩
  rw [← close.rest]
  exact derives (close.onward.clean clean)

/-! ### Structs -/

theorem field_runs (proper : s.Proper) : Runs typedName s s.Fails fun x s' =>
    Lies s s' x.tag.span (fieldTour x) ∧ Derives .typedName s.rest x s'.rest :=
  typedName_runs .field (fun _ => rfl) (fun _ => rfl) (fun _ => rfl) (fun _ => rfl) proper

variable {fuel fuel' : Nat}

theorem structFields_runs (before : Makes s₀ s visits) (enough : s.rest.length < fuel)
    (enough' : s.rest.length < fuel') :
    Both (structFields fuel) (structFields fuel') s s₀.Fails fun xs s' =>
      Makes s₀ s' (visits ++ xs.flatMap fieldTour) ∧ Derives .fields s.rest xs s'.rest := by
  induction fuel generalizing fuel' s visits with
  | zero => omega
  | succ fuel ih =>
    obtain ⟨fuel', rfl⟩ := Nat.exists_eq_add_one_of_ne_zero (Nat.ne_zero_of_lt enough')
    rw [structFields, structFields, both_peek]
    split
    · refine ⟨rfl, ?_, .noFields⟩
      rwa [flatMap_nil, append_nil]
    · refine before.read (field_runs before.proper) ?_
      rintro x s₁ ⟨lies, derives⟩
      have := lies.ends.length_lt
      have filled := before.child lies.toMakes lies.ends
      refine filled.eat (by decide) (fun c s₂ took comma next => ?_) fun _ => ?_
      · have := took.length
        refine (ih next.toMakes (by omega) (by omega)).bind ?_
        rintro xs s₃ ⟨makes, more⟩
        rw [took.rest] at derives
        refine ⟨rfl, ?_, .nextField derives comma more⟩
        rwa [flatMap_cons, ← append_assoc]
      · refine ⟨rfl, ?_, .lastField derives⟩
        rwa [flatMap_cons, flatMap_nil, append_nil]

theorem structDeclaration_runs (proper : s.Proper) (kind : s.current.kind = .kwStruct) :
    Runs structDeclaration s s.Fails fun d s' => Reads s (.structDecl d) s' := by
  rw [structDeclaration, Runs, both_currentSpan]
  refine (Makes.begin proper).advance (by simp [kind]) fun s₁ took word => ?_
  refine word.expectName fun n s₂ tookName isName named => ?_
  refine named.expect (by decide) fun l s₃ tookOpen opens opened => ?_
  refine Both.bind (structFields_runs opened.toMakes (Nat.lt_succ_self _) (Nat.lt_succ_self _)) ?_
  rintro fields s₄ ⟨makes, derives⟩
  refine makes.expect (by decide) fun r s₅ tookEnd closes closed => ?_
  refine ⟨rfl, closed.node (.structDecl _) rfl rfl closed.covers, fun _ => ?_, by intro h; cases h⟩
  rw [tookEnd.rest] at derives
  rw [took.rest, tookName.rest, tookOpen.rest, tookEnd.previous]
  exact .structDecl kind isName opens derives closes

/-! ### Blocks -/

section Statements

variable {n : Nat} {stmt stmt' : Parse Stmt}

/-- Where a return stands that was read just now. -/
def Reach.Told (s₀ : State) (reach : Reach) : Prop :=
  ∀ returned, reach = .notSince returned → s₀.Lined → returned.Edged s₀.tokens

variable {reach : Reach}

theorem Reach.Told.after (h : reach.Told s₀) {x : Stmt}
    (told : s₀.Lined → x.span.Edged s₀.tokens) : (reach.after x).Told s₀ := by
  intro returned same
  unfold Reach.after at same
  split at same
  · cases same
    exact told
  all_goals cases same

theorem warnUnreachable_runs {x : Stmt} (before : Makes s₀ s visits pending)
    (reached : reach.Told s₀) (told : s₀.Lined → x.span.Edged s₀.tokens) (F : State → Prop) :
    Runs (warnUnreachable reach x) s F fun _ s' =>
      Makes s₀ s' visits (pending ++ reach.warning x) ∧ s'.rest = s.rest ∧ (s'.Clean → s.Clean) := by
  unfold warnUnreachable
  split
  · next returned =>
      have clean : ∀ d, State.Clean { s with diagnostics := s.diagnostics ++ [d] } → s.Clean := by
        intro d clean
        unfold State.Clean hasErrors at clean ⊢
        rw [any_append, Bool.or_eq_false_iff] at clean
        exact clean.1
      refine ⟨rfl, { before with
        onward := before.onward.report ⟨fun lined span mem => ?_, by simp [unreachable, Diagnostic.warningAt]⟩
        said := fun clear => ?_ }, rfl, clean _⟩
      · rcases mem_cons.mp mem with rfl | mem
        · exact told lined
        · rw [mem_singleton.mp mem]
          exact reached returned rfl lined
      · rw [← append_assoc, ← append_assoc, append_assoc s₀.diagnostics]
        exact (before.said (clean _ clear)).append_right _
  · next other =>
      have none : reach.warning x = [] := by
        cases reach with
        | notSince returned => exact absurd rfl (other returned)
        | _ => rfl
      rw [none, append_nil]
      exact ⟨rfl, before, rfl, id⟩

/-- After a statement that failed something is skipped. -/
theorem synchronize_shortens {s₁ : State} (onward : s.Onward s₁) (more : s.rest ≠ [])
    (F : State → Prop) :
    Runs synchronize s₁ F fun _ s₂ => s₁.Onward s₂ ∧ s₂.rest.length < s.rest.length := by
  refine (synchronize_runs s₁ F).mono (fun _ => id) ?_
  rintro _ s₂ ⟨skipped, shorter⟩
  have := onward.length_le
  by_cases none : s₁.rest = []
  · have := skipped.length_le
    have := length_pos_iff.mpr more
    simp only [none, length_nil] at *
    exact ⟨skipped, by omega⟩
  · exact ⟨skipped, Nat.lt_of_lt_of_le (shorter none) this⟩

/-- Statements are all read up to where they have to end, and without an error they are all there. -/
theorem statements_runs (reader : StmtReader n stmt stmt') {closes : TokenKind → Bool}
    (before : Makes s₀ s visits pending) (reached : reach.Told s₀) (fits : s.rest.length < n)
    (enough : s.rest.length < fuel) (enough' : s.rest.length < fuel') (F : State → Prop) :
    Both (statements closes stmt fuel reach) (statements closes stmt' fuel' reach) s F fun xs s' =>
      Makes s₀ s' (visits ++ stmtsTour xs) (pending ++ reach.warnings xs) ∧
        (s'.current.kind = .eof ∨ closes s'.current.kind = true) ∧
        (s'.Clean → s.Clean ∧ Derives .stmts s.rest xs s'.rest) := by
  induction fuel generalizing fuel' reach s visits pending with
  | zero => omega
  | succ fuel ih =>
    obtain ⟨fuel', rfl⟩ := Nat.exists_eq_add_one_of_ne_zero (Nat.ne_zero_of_lt enough')
    rw [statements, statements, both_peek]
    split
    · next stops =>
        refine ⟨rfl, ?_, stops, fun clean => ⟨clean, .noStmts⟩⟩
        rwa [stmtsTour, append_nil, Reach.warnings, append_nil]
    · next goes =>
        obtain ⟨first, more, tokens, _⟩ := before.proper.exists_cons fun stop => goes (.inl stop)
        refine Both.bind (Both.attempt (Q := fun x? s₁ =>
          (∃ x, x? = some x ∧ Reads s x s₁) ∨ (x? = none ∧ s.Fails s₁)) ?_) ?_
        · exact (reader.runs before.proper fits).mono (fun s₁ failed => .inr ⟨rfl, failed⟩)
            fun x s₁ reads => .inl ⟨x, rfl, reads⟩
        · rintro _ s₁ (⟨x, rfl, reads⟩ | ⟨rfl, onward, dirty⟩)
          · have filled := before.child reads.toMakes reads.ends
            have := reads.ends.length_lt
            have told : s₀.Lined → x.span.Edged s₀.tokens := by
              intro lined
              have lined' := before.onward.lined lined
              refine ((reads.bounded lined').mono fun t mem => ?_).edged
                (Nat.le_of_lt (reads.proper_span lined'))
              simp [State.tokens, before.onward.rest.subset mem]
            refine (warnUnreachable_runs filled reached told _).bind ?_
            rintro _ s₂ ⟨makes, rest, cleanBefore⟩
            have := congrArg List.length rest
            refine (ih makes (reached.after told) (by omega) (by omega) (by omega)).bind ?_
            rintro xs s₃ ⟨makes, stops, derives⟩
            refine ⟨rfl, ?_, stops, fun clean => ?_⟩
            · rwa [stmtsTour, ← append_assoc, Reach.warnings, ← append_assoc]
            · obtain ⟨clean₂, others⟩ := derives clean
              have clean₁ := cleanBefore clean₂
              rw [rest] at others
              exact ⟨reads.onward.clean clean₁, .nextStmt (reads.derives clean₁) others⟩
          · -- a statement that failed leaves nothing but a gap
            refine (synchronize_shortens onward (by simp [tokens]) _).bind ?_
            rintro _ s₂ ⟨skipped, less⟩
            have dirty : ¬s₂.Clean := fun clean => dirty (skipped.clean clean)
            have before := before.quietly (onward.trans skipped) fun clean => absurd clean dirty
            refine (ih before reached (by omega) (by omega) (by omega)).mono (fun _ => id) ?_
            rintro xs s₃ ⟨makes, stops, derives⟩
            exact ⟨makes, stops, fun clean => absurd (derives clean).1 dirty⟩

theorem block_runs (reader : StmtReader n stmt stmt') (proper : s.Proper) (fits : s.rest.length ≤ n) :
    Both (block stmt) (block stmt') s s.Fails fun b s' => Lies s s' b.tag.span b.tour ∧
      (s'.Clean → Derives .block s.rest b s'.rest) := by
  rw [block, block, both_currentSpan]
  refine (Makes.begin proper).expect (by decide) fun l s₁ took opens opened => ?_
  have := took.length
  refine Both.bind (statements_runs reader opened.toMakes (fun _ same => by cases same) (by omega)
    (Nat.lt_succ_self _) (Nat.lt_succ_self _) _) ?_
  rintro xs s₂ ⟨makes, _, derives⟩
  refine makes.expect (by decide) fun r s₃ tookEnd closes closed => ?_
  refine ⟨rfl, closed.node (.block _) rfl rfl closed.covers, fun clean => ?_⟩
  obtain ⟨_, derives⟩ := derives (tookEnd.onward.clean clean)
  rw [tookEnd.rest] at derives
  rw [took.rest, took.current, tookEnd.previous]
  exact .block opens derives closes

/-! ### Functions and classes -/

theorem params_runs (proper : s.Proper) :
    Runs (listUntil .rightParen typedName) s s.Fails fun xs s' => Makes s s' (xs.flatMap paramTour) ∧
      Ends s s' ∧ (s'.Clean → s'.previous.kind = .rightParen ∧
        Derives .params s.rest xs (s'.previous :: s'.rest)) := by
  refine (listUntil_runs (fun x => x.tag.span) (fun (_ : Unit) => paramTour) params_listing
    (fun proper _ => (typedName_runs .param (fun _ => rfl) (fun _ => rfl) (fun _ => rfl)
      (fun _ => rfl) proper).mono (fun _ => id) ?_) (by decide) proper (Nat.lt_succ_self _)).mono (fun _ => id) ?_
  · rintro x s' ⟨lies, derives⟩
    exact ⟨fun _ => lies, fun _ => derives⟩
  · rintro xs s' ⟨makes, ends, derives⟩
    exact ⟨makes (), ends, derives⟩

theorem funDeclaration_runs (reader : StmtReader n stmt stmt') (proper : s.Proper)
    (fits : s.rest.length ≤ n) (kind : s.current.kind = .kwFun) :
    Both (funDeclaration stmt) (funDeclaration stmt') s s.Fails fun f s' =>
      Lies s s' f.tag.span f.tour ∧ (s'.Clean → Derives .function s.rest f s'.rest) := by
  rw [funDeclaration, funDeclaration, both_currentSpan]
  refine (Makes.begin proper).advance (by simp [kind]) fun s₁ took word => ?_
  refine word.expectName fun n s₂ tookName isName named => ?_
  refine named.expect (by decide) fun l s₃ tookOpen opens opened => ?_
  refine opened.read (params_runs opened.proper) ?_
  rintro params s₄ ⟨listed, ends, inner⟩
  refine (opened.child listed ends).typeAfter (by decide) fun type s₅ written onward signed => ?_
  have signed := signed TypeExpr.tour id
  refine signed.read (block_runs reader signed.proper ?_) ?_
  · have := signed.onward.length_le
    omega
  · rintro body s₆ ⟨lies, does⟩
    have whole := signed.child lies.toMakes lies.ends
    rw [append_assoc] at whole
    refine ⟨rfl, whole.node (.function _) rfl rfl
      (whole.ends.begins.merge (lies.reaches signed.onward)), fun clean => ?_⟩
    obtain ⟨closes, inner⟩ := inner (onward.clean (lies.onward.clean clean))
    rw [took.rest, tookName.rest, tookOpen.rest]
    exact .function kind isName opens inner closes written (does clean)

/-- What was read of a class in two rows, which may be mixed. -/
structure Rows (s₀ s : State) (row other : List Visit) : Prop where
  first : Makes s₀ s row (warned other)
  second : Makes s₀ s other (warned row)
  apart : (visited row).Disjoint (visited other)

namespace Rows

variable {s' : State} {first second inside : List Visit}

theorem token {t : Token} (h : Rows s₀ s first second) (took : Took s t s') :
    Rows s₀ s' first second :=
  ⟨(h.first.token took).toMakes, (h.second.token took).toMakes, h.apart⟩

theorem addFirst (h : Rows s₀ s first second) (read : Makes s s' inside) (ends : Ends s s') :
    Rows s₀ s' (first ++ inside) second := by
  refine ⟨h.first.child read ends, h.second.beside read, ?_⟩
  rw [visited_append, disjoint_append_left]
  exact ⟨h.apart, fun n mem mem' => h.second.numbered.disjoint read.numbered mem' mem⟩

theorem addSecond (h : Rows s₀ s first second) (read : Makes s s' inside) (ends : Ends s s') :
    Rows s₀ s' first (second ++ inside) := by
  refine ⟨h.first.beside read, h.second.child read ends, ?_⟩
  rw [visited_append, disjoint_append_right]
  exact ⟨h.apart, h.first.numbered.disjoint read.numbered⟩

end Rows

/-- What was read stands behind all that is before the tokens to come. -/
theorem Lies.behind {span : Span} {lo : Nat} (h : Lies s s' span visits) (lined : s.Lined)
    (before : ∀ t ∈ s.rest, lo ≤ t.span.start) :
    lo ≤ span.start ∧ span.start < span.stop ∧ ∀ t ∈ s'.rest, span.stop ≤ t.span.start := by
  obtain ⟨start, stop⟩ := h.covers lined
  have := before _ h.ends.current_mem
  rw [stop]
  exact ⟨start ▸ this, stop ▸ h.proper_span lined, (h.ends.places lined).2.2.2⟩

/-- Fields and methods each stand in their order, and no two of them in the same place. -/
theorem classMembers_runs (reader : StmtReader n stmt stmt') {first second : List Visit}
    (before : Rows s₀ s first second) (fits : s.rest.length ≤ n) (enough : s.rest.length < fuel)
    (enough' : s.rest.length < fuel') :
    Both (classMembers stmt fuel) (classMembers stmt' fuel') s s₀.Fails fun members s' =>
      Rows s₀ s' (first ++ members.1.flatMap fieldTour) (second ++ functionsTour members.2) ∧
      (s₀.Lined → ∀ lo, (∀ t ∈ s.rest, lo ≤ t.span.start) → ∀ t ∈ s'.rest,
        Mingled lo t.span.start (members.1.map (·.tag.span)) (members.2.map (·.tag.span))) ∧
      s.Onward s' ∧ (s'.Clean → Derives .members s.rest members s'.rest) := by
  have done : Rows s₀ s (first ++ [].flatMap fieldTour) (second ++ functionsTour []) := by
    rwa [flatMap_nil, functionsTour, append_nil, append_nil]
  induction fuel generalizing fuel' s first second with
  | zero => omega
  | succ fuel ih =>
    obtain ⟨fuel', rfl⟩ := Nat.exists_eq_add_one_of_ne_zero (Nat.ne_zero_of_lt enough')
    rw [classMembers, classMembers, both_peek]
    split
    · exact ⟨rfl, done, fun _ lo le t mem => .nil (le t mem), .refl s, fun _ => .noMembers⟩
    · exact ⟨rfl, done, fun _ lo le t mem => .nil (le t mem), .refl s, fun _ => .noMembers⟩
    · next kind =>
        refine before.first.read (funDeclaration_runs reader before.first.proper fits kind) ?_
        rintro f s₁ ⟨lies, item⟩
        have := lies.ends.length_lt
        have longer := before.addSecond lies.toMakes lies.ends
        refine (ih longer (by omega) (by omega) (by omega) (by simpa [functionsTour] using longer)).bind ?_
        rintro ⟨xs, fs⟩ s₂ ⟨rows, mingled, onward, more⟩
        refine ⟨rfl, ?_, fun lined lo le t mem => ?_, lies.onward.trans onward, fun clean => ?_⟩
        · rwa [append_assoc] at rows
        · obtain ⟨le, proper, next⟩ := lies.behind (before.first.onward.lined lined) le
          exact .second le proper (mingled lined _ next t mem)
        · exact .methodMember (item (onward.clean clean)) (more clean)
    · refine before.first.read (field_runs before.first.proper) ?_
      rintro x s₁ ⟨lies, item⟩
      have := lies.ends.length_lt
      have longer := before.addFirst lies.toMakes lies.ends
      refine longer.first.expect (by decide) fun t s₂ took semicolon _ => ?_
      have := took.length
      have longer := longer.token took
      refine (ih longer (by omega) (by omega) (by omega) (by simpa [functionsTour] using longer)).bind ?_
      rintro ⟨xs, fs⟩ s₃ ⟨rows, mingled, onward, more⟩
      refine ⟨rfl, ?_, fun lined lo le t mem => ?_, lies.onward.trans (took.onward.trans onward),
        fun clean => ?_⟩
      · rwa [append_assoc] at rows
      · obtain ⟨le, proper, next⟩ := lies.behind (before.first.onward.lined lined) le
        exact .first le proper
          (mingled lined _ (fun t mem => next t (took.onward.rest.subset mem)) t mem)
      · rw [took.rest] at item
        exact .fieldMember item semicolon (more clean)

/-- What a class starts with: the name of its superclass, if it has one. -/
theorem Fills.superclass {β : Type} {f f' : Option Ident → Parse β} {Q : β → State → Prop}
    (h : Fills s₀ s [])
    (next : ∀ superclass s', Fills s₀ s' [] → Inherits s.rest superclass s'.rest →
      (s₀.Lined → ∀ name ∈ superclass, name.span.Bounded s₀.rest ∧
        s₀.current.span.start ≤ name.span.start ∧ name.span.start ≤ name.span.stop ∧
        name.span.stop ≤ s'.previous.span.stop) → Both (f superclass) (f' superclass) s' s₀.Fails Q) :
    Both
      (Parser.eat .colon >>= fun found =>
        if found then some <$> Parser.expectName >>= f else pure none >>= f)
      (Parser.eat .colon >>= fun found =>
        if found then some <$> Parser.expectName >>= f' else pure none >>= f') s s₀.Fails Q := by
  refine h.eat (by decide) (fun c s₁ took colon marked => ?_) fun _ => ?_
  · rw [if_pos rfl, if_pos rfl]
    refine marked.readMap (expectName_runs marked.proper) ?_
    rintro _ s₂ ⟨t, tookName, isName, rfl⟩
    have filled := marked.token tookName
    refine next (some ⟨t.lexeme, t.span⟩) s₂ filled ?_ fun lined name mem => ?_
    · rw [took.rest, tookName.rest]
      exact .named colon isName
    · cases mem
      have here : t ∈ s₀.rest := tookName.previous ▸ filled.ends.previous_mem
      obtain ⟨le, lt, _⟩ := filled.ends.places lined
      rw [tookName.previous] at le lt ⊢
      exact ⟨Span.bounded_of_mem here, le, Nat.le_of_lt lt, Nat.le_refl _⟩
  · exact next none s h .nothing fun _ name mem => by cases mem

/-- A class around its fields and its methods. -/
theorem Rows.node {decl : ClassDecl} (place : Nat)
    (fields : Fills s₀ s (decl.fields.flatMap fieldTour) (warned (functionsTour decl.methods)))
    (methods : Fills s₀ s (functionsTour decl.methods) (warned (decl.fields.flatMap fieldTour)))
    (apart : (visited (decl.fields.flatMap fieldTour)).Disjoint (visited (functionsTour decl.methods)))
    (id : decl.tag.id = ⟨s.nextId⟩) (covers : Covers s₀ s decl.tag.span)
    (arranged : s₀.Lined → decl.Arranged place)
    (named : s₀.Lined → ∀ name ∈ decl.superclass, name.span.Bounded s₀.rest) :
    Lies s₀ s.draw decl.tag.span ((Part.classDecl decl).around decl.inner) := by
  have first := fields.draw covers
  have second := methods.draw covers
  have both : Numbered s₀.nextId s.nextId decl.inner := fields.numbered.beside methods.numbered apart
  refine first.wrap ?_ (fun lined => ?_) (fun lined => ?_) (.of_eq ?_)
  · exact (both.widen (Nat.le_succ _)).around (congrArg some id)
      ⟨fields.onward.nextId, Nat.lt_succ_self _⟩ fun m mem => (both.bounds m mem).2
  · have single := Laid.members (Nat.le_refl _) (arranged lined) (first.laid lined) (second.laid lined)
      (.nil (Nat.le_refl _))
    rwa [append_nil] at single
  · refine ((first.grounded lined).append (second.grounded lined)).around fun span told => ?_
    rcases mem_cons.mp told with rfl | told
    · exact first.bounded lined
    · obtain ⟨name, mem, rfl⟩ := mem_map.mp told
      exact named lined name (Option.mem_toList.mp mem)
  · rw [warned_around, ClassDecl.inner, warned_append]
    exact (append_nil _).symm

theorem classDeclaration_runs (reader : StmtReader n stmt stmt') (proper : s.Proper)
    (fits : s.rest.length ≤ n) (kind : s.current.kind = .kwClass) :
    Both (classDeclaration stmt) (classDeclaration stmt') s s.Fails fun d s' => Reads s (.classDecl d) s' := by
  rw [classDeclaration, classDeclaration, both_currentSpan]
  refine (Makes.begin proper).advance (by simp [kind]) fun s₁ took word => ?_
  refine word.expectName fun n s₂ tookName isName named => ?_
  refine named.superclass fun superclass s₃ headed inherits parent => ?_
  refine headed.expect (by decide) fun l s₄ tookOpen opens opened => ?_
  have := opened.onward.length_le
  have before : Rows s s₄ [] [] := ⟨opened.toMakes, opened.toMakes, by simp [visited]⟩
  refine Both.bind (classMembers_runs reader before (by omega) (Nat.lt_succ_self _)
    (Nat.lt_succ_self _)) ?_
  rintro ⟨fields, methods⟩ s₅ ⟨rows, mingled, onward, derives⟩
  refine rows.first.expect (by decide) fun r s₆ tookEnd closes closed => ?_
  refine ⟨rfl, ?_, fun clean => ?_, by intro h; cases h⟩
  · refine Rows.node s₃.previous.span.stop closed (rows.second.token tookEnd) rows.apart rfl
      closed.covers (fun lined => ?_) fun lined name mem => (parent lined name mem).1
    obtain ⟨start, stop⟩ := closed.covers lined
    obtain ⟨le, lt, _, next⟩ := headed.ends.places lined
    have last : r ∈ s₅.rest := by simp [tookEnd.rest]
    have proper := (rows.first.onward.lined lined).order.proper r last
    refine ⟨?_, fun name mem => ?_, ?_⟩
    · rw [start]
      omega
    · obtain ⟨_, first, before⟩ := parent lined name mem
      exact ⟨start ▸ first, before⟩
    · refine (mingled lined _ (fun t mem => next t (tookOpen.onward.rest.subset mem)) r last).widen ?_
      rw [stop, tookEnd.previous]
      exact Nat.le_of_lt proper
  · have derives := derives (tookEnd.onward.clean clean)
    rw [tookEnd.rest] at derives
    rw [tookOpen.rest] at inherits
    rw [took.rest, tookName.rest, tookEnd.previous]
    exact .classDecl kind isName inherits opens derives closes

/-! ### Branches and loops -/

theorem ifStatement_runs (reader : StmtReader n stmt stmt') (proper : s.Proper) (fits : s.rest.length ≤ n)
    (kind : s.current.kind = .kwIf) :
    Both (ifStatement stmt) (ifStatement stmt') s s.Fails fun x s' => Reads s x s' := by
  rw [ifStatement, ifStatement, both_currentSpan]
  refine (Makes.begin proper).advance (by simp [kind]) fun s₁ took word => ?_
  have := took.length
  refine word.read (condition_runs word.proper) ?_
  rintro cond s₂ ⟨tested, ends, condition⟩
  have := ends.length_lt
  have before := word.child tested ends
  refine before.read (reader.runs before.proper (by omega)) ?_
  rintro first s₃ branch
  have := branch.ends.length_lt
  have filled := before.child branch.toMakes branch.ends
  refine filled.eat (by decide) (fun e s₄ tookElse isElse behind => ?_) fun noElse => ?_
  · have := tookElse.length
    rw [if_pos rfl, if_pos rfl]
    refine behind.readMap (reader.runs behind.proper (by omega)) ?_
    rintro second s₅ otherwise
    have whole := behind.child otherwise.toMakes otherwise.ends
    refine ⟨rfl, ?_, fun clean => ?_, otherwise.settled⟩
    · rw [nil_append, append_assoc] at whole
      exact whole.node (.ifElse _ cond first (some second)) rfl rfl whole.covers
    · have clean₃ := tookElse.onward.clean (otherwise.onward.clean clean)
      have closed : first.endsOpen = false := by
        cases isOpen : first.endsOpen with
        | false => rfl
        | true => exact absurd (by rw [tookElse.current, isElse]) (branch.settled isOpen)
      obtain ⟨l, r, a, rest, opens, condition, closes⟩ := condition (branch.onward.clean clean₃)
      obtain ⟨seen, ends⟩ := otherwise.ends
      have branch := branch.derives clean₃
      rw [tookElse.rest] at branch
      rw [took.rest, rest]
      exact .ifElse kind opens condition closes branch closed isElse (otherwise.derives clean) ends
  · refine ⟨rfl, filled.node (.ifElse _ cond first none) rfl rfl filled.covers, fun clean => ?_,
      fun _ => noElse⟩
    obtain ⟨l, r, a, rest, opens, condition, closes⟩ := condition (branch.onward.clean clean)
    obtain ⟨seen, ends⟩ := branch.ends
    rw [took.rest, rest]
    exact .ifThen kind opens condition closes (branch.derives clean) ends

theorem whileStatement_runs (reader : StmtReader n stmt stmt') (proper : s.Proper)
    (fits : s.rest.length ≤ n) (kind : s.current.kind = .kwWhile) :
    Both (whileStatement stmt) (whileStatement stmt') s s.Fails fun x s' => Reads s x s' := by
  rw [whileStatement, whileStatement, both_currentSpan]
  refine (Makes.begin proper).advance (by simp [kind]) fun s₁ took word => ?_
  have := took.length
  refine word.read (condition_runs word.proper) ?_
  rintro cond s₂ ⟨tested, ends, condition⟩
  have := ends.length_lt
  have before := word.child tested ends
  refine before.read (reader.runs before.proper (by omega)) ?_
  rintro body s₃ loop
  have filled := before.child loop.toMakes loop.ends
  refine ⟨rfl, filled.node (.whileLoop _ cond) rfl rfl filled.covers, fun clean => ?_, loop.settled⟩
  obtain ⟨l, r, a, rest, opens, condition, closes⟩ := condition (loop.onward.clean clean)
  obtain ⟨seen, ends⟩ := loop.ends
  rw [took.rest, rest]
  exact .whileLoop kind opens condition closes (loop.derives clean) ends

theorem statementLayer_reader (reader : StmtReader n stmt stmt') :
    StmtReader (n + 1) (statementLayer stmt) (statementLayer stmt') := by
  refine ⟨fun {s} proper fits => ?_⟩
  have fits : s.rest.length ≤ n := Nat.le_of_lt_succ fits
  rw [statementLayer, statementLayer, both_peek]
  split
  · next kind =>
      refine Both.map ((funDeclaration_runs reader proper fits kind).mono (fun _ => id) ?_)
      rintro f s' ⟨lies, derives⟩
      exact ⟨lies, fun clean => .funDecl (derives clean), by intro h; cases h⟩
  · next kind => exact Both.map (structDeclaration_runs proper kind)
  · next kind => exact Both.map (classDeclaration_runs reader proper fits kind)
  · next kind => exact Both.map (varDeclaration_runs proper kind)
  · refine Both.map ((block_runs reader proper fits).mono (fun _ => id) ?_)
    rintro b s' ⟨lies, derives⟩
    exact ⟨lies, fun clean => .blockStmt (derives clean), by intro h; cases h⟩
  · next kind => exact ifStatement_runs reader proper fits kind
  · next kind => exact whileStatement_runs reader proper fits kind
  · next kind => exact returnStatement_runs proper kind
  · exact expressionStatement_runs proper

end Statements

theorem statementAt_reader (depth depth' : Nat) :
    StmtReader (min depth depth') (statementAt depth) (statementAt depth') := by
  induction depth generalizing depth' with
  | zero => exact ⟨fun _ fits => by omega⟩
  | succ depth ih =>
    cases depth' with
    | zero => exact ⟨fun _ fits => by omega⟩
    | succ depth' =>
      rw [Nat.succ_min_succ]
      exact statementLayer_reader (ih depth')

theorem statement_reader (n : Nat) : StmtReader n statement statement :=
  ⟨fun proper _ => (statementAt_reader _ _).runs proper (by omega)⟩

/-! ### Units -/

/-- What a parse makes of all tokens: the identity of the unit is given out last. -/
structure Completes (s : State) (u : CompilationUnit) (s' : State) : Prop where
  makes : Makes s s' u.tour
  tag : u.tag = ⟨⟨s'.nextId⟩, s.current.span.merge s'.current.span⟩
  ended : s'.rest = []
  derives : s'.Clean → IsUnit s.rest s.last u

theorem unit_runs (proper : s.Proper) :
    Runs unit s (fun _ => False) fun u s' => ∃ s₁, s' = s₁.draw ∧ Completes s u s₁ := by
  rw [unit, Runs, both_currentSpan]
  refine Both.bind (statements_runs (statement_reader _) (.begin proper) (fun _ same => by cases same)
    (Nat.lt_succ_self _) (Nat.lt_succ_self _) (Nat.lt_succ_self _) _) ?_
  rintro xs s₁ ⟨makes, stops, derives⟩
  rw [Reach.warnings_no] at makes
  have rest : s₁.rest = [] := makes.proper.rest_eq_nil (by simpa using stops)
  refine ⟨rfl, s₁, rfl, makes, rfl, rest, fun clean => ?_⟩
  obtain ⟨_, derives⟩ := derives clean
  have atEnd : s₁.current = s.last := by rw [State.current, rest, ← makes.onward.last]; rfl
  rw [rest] at derives
  exact ⟨derives, by rw [atEnd]; rfl⟩

/-- Every list of tokens makes a unit. -/
theorem exists_completes (tokens : List Token) : ∃ s,
    unit (State.ofTokens tokens) = (some (ofTokens tokens).unit, s.draw) ∧
      (ofTokens tokens).diagnostics = s.diagnostics ∧
      Completes (State.ofTokens tokens) (ofTokens tokens).unit s := by
  have runs := unit_runs (State.ofTokens_proper tokens)
  rcases result : unit (State.ofTokens tokens) with ⟨_ | u, s'⟩
  · exact (runs.fails result).elim
  · obtain ⟨s, rfl, completes⟩ := runs.yields result
    have parsed : ofTokens tokens = ⟨u, s.diagnostics⟩ := by
      rw [ofTokens, result]
      rfl
    rw [parsed]
    exact ⟨s, rfl, rfl, completes⟩

/-- The tokens before the end of the text. -/
def textOf (tokens : List Token) : List Token := tokens.takeWhile (·.kind != .eof)

/-- A unit without an error is made of all the tokens of its text. -/
theorem ofTokens_reads {tokens : List Token} (h : hasErrors (ofTokens tokens).diagnostics = false) :
    IsUnit (textOf tokens) (State.lastToken tokens) (ofTokens tokens).unit := by
  obtain ⟨s, _, diagnostics, completes⟩ := exists_completes tokens
  rw [diagnostics] at h
  exact completes.derives h

end BlFront.Parser
