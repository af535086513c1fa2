import BlFront.Manifest
import BlFront.Proofs.Text.Cuts
import Mathlib

/-!
# Positions in a text

The position of an offset between characters tells how many line feeds are in front of it and how
wide the text behind the last of them is.  So positions come in the order of the offsets.  The texts
of the lines make up the whole text.  A line or a column that 32 bits cannot hold has no position.
-/

namespace BlFront

open List

/-- The columns that a text on one line takes: a tab goes on to the next multiple of the tab size. -/
def displayWidth (tabSize : Nat) (text : List Char) : Nat :=
  text.foldl (fun column c => if c = '\t' then (column / tabSize + 1) * tabSize else column + 1) 0

/-- The text behind the last line feed. -/
def lastLine (text : List Char) : List Char := text.rtakeWhile (· ≠ '\n')

open Text (byteLength byteLength_append byteLength_cons byteLength_nil)

variable {offset : Nat} {line more : List Char}

/-! ### Starts of lines -/

theorem lineStartsFrom_append (a b : List Char) : lineStartsFrom offset (a ++ b) =
    lineStartsFrom offset a ++ lineStartsFrom (offset + byteLength a) b := by
  induction a generalizing offset with
  | nil => rfl
  | cons c a ih =>
    simp only [cons_append, lineStartsFrom, ih, byteLength_cons, Nat.add_assoc]
    split <;> rfl

theorem length_lineStartsFrom (cs : List Char) : (lineStartsFrom offset cs).length = cs.count '\n' := by
  induction cs generalizing offset with
  | nil => rfl
  | cons c cs ih =>
    by_cases feed : c = '\n' <;> simp [lineStartsFrom, feed, ih]

theorem lineStartsFrom_eq_nil (free : '\n' ∉ line) : lineStartsFrom offset line = [] := by
  rw [← length_eq_zero_iff, length_lineStartsFrom, count_eq_zero_of_not_mem free]

theorem lastLine_append (free : '\n' ∉ line) (front : List Char) :
    lastLine (front ++ line) = lastLine front ++ line := by
  have stays : ∀ c ∈ line.reverse, decide (c ≠ '\n') = true := by
    intro c mem
    exact decide_eq_true fun same => free (same ▸ mem_reverse.mp mem)
  rw [lastLine, List.rtakeWhile, reverse_append, takeWhile_append_of_pos stays,
    reverse_append, reverse_reverse]
  rfl

theorem lastLine_feed (front : List Char) : lastLine (front ++ ['\n']) = [] :=
  rtakeWhile_concat_neg _ _ '\n' (by simp)

/-- The last line of a text starts behind all that is in front of it. -/
theorem getLast?_starts (before : List Char) : ∃ front, before = front ++ lastLine before ∧
    (0 :: lineStartsFrom 0 before).getLast? = some (byteLength front) := by
  induction before using List.reverseRecOn with
  | nil => exact ⟨[], rfl, rfl⟩
  | append_singleton before c ih =>
    by_cases feed : c = '\n'
    · subst feed
      refine ⟨before ++ ['\n'], by rw [lastLine_feed, append_nil], ?_⟩
      rw [lineStartsFrom_append, ← cons_append, List.getLast?_append_of_ne_nil _ (by
        simp [lineStartsFrom])]
      simp [lineStartsFrom]
    · have free : '\n' ∉ [c] := by simpa using Ne.symm feed
      obtain ⟨front, split, start⟩ := ih
      refine ⟨front, ?_, ?_⟩
      · rw [lastLine_append free, ← append_assoc, ← split]
      · rw [lineStartsFrom_append, lineStartsFrom_eq_nil free, append_nil, start]

/-- Every line behind the first starts behind a character. -/
theorem cuts_of_mem_lineStartsFrom {start : Nat} {cs : List Char}
    (mem : start ∈ lineStartsFrom offset cs) :
    ∃ n, start = offset + n ∧ 0 < n ∧ Text.Cuts cs n := by
  induction cs generalizing offset with
  | nil => cases mem
  | cons c cs ih =>
    have later : start ∈ lineStartsFrom (offset + c.utf8Size) cs →
        ∃ n, start = offset + n ∧ 0 < n ∧ Text.Cuts (c :: cs) n := by
      intro mem
      obtain ⟨n, rfl, positive, cuts⟩ := ih mem
      exact ⟨c.utf8Size + n, Nat.add_assoc .., by omega, cuts.cons c⟩
    rw [lineStartsFrom] at mem
    split at mem
    · rcases mem_cons.mp mem with rfl | mem
      · exact ⟨c.utf8Size, rfl, c.utf8Size_pos, Text.Cuts.zero.cons c⟩
      · exact later mem
    · exact later mem

namespace LineMap

variable {content before after : List Char} {tabSize : UInt32}

theorem starts_append (before after : List Char) : (ofText (before ++ after) tabSize).starts =
    0 :: lineStartsFrom 0 before ++ lineStartsFrom (byteLength before) after := by
  simp [ofText, lineStartsFrom_append]

theorem cuts_starts {start : Nat} (mem : start ∈ (ofText content tabSize).starts) :
    Text.Cuts content start := by
  rcases mem_cons.mp mem with rfl | mem
  · exact .zero
  · obtain ⟨n, rfl, _, cuts⟩ := cuts_of_mem_lineStartsFrom mem
    simpa using cuts

/-- The lines that start at or before an offset are those of the text in front of it. -/
theorem takeWhile_starts (before after : List Char) :
    (ofText (before ++ after) tabSize).starts.takeWhile (· ≤ byteLength before) =
      0 :: lineStartsFrom 0 before := by
  have early : ∀ start ∈ 0 :: lineStartsFrom 0 before, decide (start ≤ byteLength before) = true := by
    refine forall_mem_cons.mpr ⟨by simp, fun start mem => ?_⟩
    obtain ⟨n, rfl, _, cuts⟩ := cuts_of_mem_lineStartsFrom mem
    simpa using cuts.le
  rw [starts_append, takeWhile_append_of_pos early]
  cases late : lineStartsFrom (byteLength before) after with
  | nil => simp
  | cons start rest =>
    obtain ⟨n, rfl, later, _⟩ := cuts_of_mem_lineStartsFrom (late ▸ mem_cons_self ..)
    simp [Nat.pos_iff_ne_zero.mp later]

theorem lineOf_eq (before after : List Char) :
    (ofText (before ++ after) tabSize).lineOf (byteLength before) = before.count '\n' + 1 := by
  rw [lineOf, takeWhile_starts, length_cons, length_lineStartsFrom]

/-- Where the last line of the text in front starts. -/
theorem getElem?_starts (before after : List Char) (tabSize : UInt32) : ∃ front,
    before = front ++ lastLine before ∧
      (ofText (before ++ after) tabSize).starts[before.count '\n']? = some (byteLength front) := by
  obtain ⟨front, split, start⟩ := getLast?_starts before
  refine ⟨front, split, ?_⟩
  rw [starts_append, List.getElem?_append_left (by simp [length_lineStartsFrom]), ← start,
    List.getLast?_eq_getElem?, length_cons, length_lineStartsFrom, Nat.add_sub_cancel]

/-! ### Positions -/

theorem width_eq (content text : List Char) (tabSize : UInt32) :
    (ofText content tabSize).width text = displayWidth (max tabSize.toNat 1) text := by
  unfold width displayWidth
  congr 1
  funext column c
  have positive : 0 < max tabSize.toNat 1 := by omega
  have rest := Nat.mod_lt column positive
  have whole := Nat.div_add_mod' column (max tabSize.toNat 1)
  simp only [advance, ofText, Nat.succ_mul]
  split <;> omega

/-- A slice of the text is the last line in front of an offset. -/
theorem exists_slice (before after : List Char) (tabSize : UInt32) : ∃ front,
    (ofText (before ++ after) tabSize).starts[before.count '\n']? = some (byteLength front) ∧
      Text.slice? (byteLength front) (byteLength before) (before ++ after) = some (lastLine before) := by
  obtain ⟨front, split, start⟩ := getElem?_starts before after tabSize
  refine ⟨front, start, ?_⟩
  generalize lastLine before = line at split
  rw [split, append_assoc, byteLength_append]
  exact Text.slice?_append front line after

theorem position?_eq (before after : List Char) (tabSize : UInt32) :
    (ofText (before ++ after) tabSize).position? (byteLength before) =
      if before.count '\n' + 1 ≤ countLimit ∧
          displayWidth (max tabSize.toNat 1) (lastLine before) + 1 ≤ countLimit then
        some ⟨before.count '\n' + 1, displayWidth (max tabSize.toNat 1) (lastLine before) + 1⟩
      else none := by
  obtain ⟨front, start, cut⟩ := exists_slice before after tabSize
  have short : min (byteLength before) (byteLength (before ++ after)) = byteLength before := by
    rw [byteLength_append]
    omega
  have content_eq : (ofText (before ++ after) tabSize).content = before ++ after := rfl
  simp only [position?, lineOf_eq, Nat.add_sub_cancel, start, content_eq, short, cut, width_eq, bind,
    Option.bind]
  rfl

theorem lt_foldl_width {tab : Nat} (positive : 0 < tab) (column : Nat) (nonempty : line ≠ []) :
    column < line.foldl (fun column c => if c = '\t' then (column / tab + 1) * tab else column + 1)
      column := by
  induction line generalizing column with
  | nil => exact absurd rfl nonempty
  | cons c line ih =>
    have step : column < if c = '\t' then (column / tab + 1) * tab else column + 1 := by
      split
      · have := Nat.lt_div_mul_add positive (a := column)
        rw [Nat.succ_mul]
        omega
      · exact Nat.lt_succ_self _
    cases line with
    | nil => exact step
    | cons d line => exact Nat.lt_trans step (ih _ (cons_ne_nil d line))

/-- A text in front of more has the smaller position. -/
theorem position?_lt {p p' : Position} (nonempty : more ≠ [])
    (h : (ofText (before ++ (more ++ after)) tabSize).position? (byteLength before) = some p)
    (h' : (ofText (before ++ more ++ after) tabSize).position? (byteLength (before ++ more)) =
      some p') : p.line < p'.line ∨ p.line = p'.line ∧ p.column < p'.column := by
  rw [position?_eq, Option.ite_none_right_eq_some] at h h'
  cases h.2
  cases h'.2
  simp only [count_append]
  by_cases feed : '\n' ∈ more
  · have := count_pos_iff.mpr feed
    exact .inl (by omega)
  · refine .inr ⟨by rw [count_eq_zero_of_not_mem feed, Nat.add_zero], ?_⟩
    rw [lastLine_append feed, displayWidth, displayWidth, foldl_append]
    exact Nat.succ_lt_succ (lt_foldl_width (by omega) _ nonempty)

/-- Behind its end a text has no more lines. -/
theorem position?_behind (content : List Char) (tabSize : UInt32) (past : byteLength content < offset) :
    (ofText content tabSize).position? offset =
      (ofText content tabSize).position? (byteLength content) := by
  have all : ∀ limit, byteLength content ≤ limit →
      (ofText content tabSize).lineOf limit = (ofText content tabSize).lineCount := by
    intro limit le
    refine congrArg List.length (takeWhile_eq_self_iff.mpr fun start mem => ?_)
    have := (cuts_starts mem).le
    exact decide_eq_true (by omega)
  have content_eq : (ofText content tabSize).content = content := rfl
  simp only [position?, all _ (Nat.le_refl _), all _ past.le, content_eq, Nat.min_self,
    Nat.min_eq_right past.le]

/-- The position of an offset between characters is counted along a slice of its line; it is missing
only if the line or the column is too great. -/
theorem position?_of_cuts (tabSize : UInt32) (cuts : Text.Cuts content offset) :
    ∃ start before, (ofText content tabSize).starts[(ofText content tabSize).lineOf offset - 1]? =
        some start ∧
      Text.slice? start offset content = some before ∧
      (ofText content tabSize).position? offset =
        if (ofText content tabSize).lineOf offset ≤ countLimit ∧
            (ofText content tabSize).width before + 1 ≤ countLimit then
          some ⟨(ofText content tabSize).lineOf offset, (ofText content tabSize).width before + 1⟩
        else none := by
  obtain ⟨before, after, rfl, rfl⟩ := cuts
  obtain ⟨front, start, cut⟩ := exists_slice before after tabSize
  refine ⟨byteLength front, lastLine before, ?_, cut, ?_⟩
  · rw [lineOf_eq, Nat.add_sub_cancel, start]
  · rw [position?_eq, lineOf_eq, width_eq]

/-! ### Numbers of lines -/

theorem length_le_byteLength (text : List Char) : text.length ≤ byteLength text := by
  induction text with
  | nil => exact Nat.le_refl _
  | cons c text ih =>
    have := c.utf8Size_pos
    rw [byteLength_cons, length_cons]
    omega

/-- A text of fewer than `2 ^ 32` bytes has a line whose number does not fit only if it is all line
feeds, as many as it can have. -/
theorem eq_replicate_of_full (short : byteLength (before ++ after) < 2 ^ 32)
    (full : 2 ^ 32 ≤ before.count '\n' + 1) :
    before = replicate (2 ^ 32 - 1) '\n' ∧ after = [] := by
  have counted := count_le_length (a := '\n') (l := before)
  have bytes := length_le_byteLength before
  rw [byteLength_append] at short
  have feeds : ∀ c ∈ before, '\n' = c := count_eq_length.mp (by omega)
  refine ⟨eq_replicate_iff.mpr ⟨by omega, fun c mem => (feeds c mem).symm⟩, ?_⟩
  exact Text.eq_nil_of_byteLength (by omega)

theorem byteLength_feeds (n : Nat) : byteLength (replicate n '\n') = n := by
  induction n with
  | zero => rfl
  | succ n ih =>
    have one : '\n'.utf8Size = 1 := rfl
    rw [replicate_succ, byteLength_cons, ih, one, Nat.add_comm]

theorem lastLine_feeds (n : Nat) : lastLine (replicate n '\n') = [] := by
  cases n with
  | zero => rfl
  | succ n => rw [replicate_succ', lastLine_feed]

/-! ### Lines -/

theorem lineText?_eq {front rest : List Char} (behind : lastLine front = []) (free : '\n' ∉ line)
    (ends : rest = [] ∨ ∃ more, rest = '\n' :: more) (tabSize : UInt32) :
    (ofText (front ++ line ++ rest) tabSize).lineText? (front.count '\n' + 1) =
      some (line.rdropWhile (· = '\r')) := by
  obtain ⟨front', split, start⟩ := getElem?_starts front (line ++ rest) tabSize
  rw [behind, append_nil] at split
  rw [← append_assoc, ← split] at start
  have next : (ofText (front ++ line ++ rest) tabSize).starts[front.count '\n' + 1]? =
      (lineStartsFrom (byteLength (front ++ line)) rest).head? := by
    rw [starts_append, lineStartsFrom_append, lineStartsFrom_eq_nil free, append_nil,
      List.getElem?_append_right (by simp [length_lineStartsFrom]), List.head?_eq_getElem?]
    simp [length_lineStartsFrom]
  have cut : Text.slice? (byteLength front) (byteLength front + byteLength line)
      (front ++ line ++ rest) = some line := by
    rw [append_assoc]
    exact Text.slice?_append front line rest
  have content_eq : (ofText (front ++ line ++ rest) tabSize).content = front ++ line ++ rest := rfl
  rcases ends with rfl | ⟨more, rfl⟩
  · have stop : byteLength (front ++ line ++ []) = byteLength front + byteLength line := by simp
    rw [lineStartsFrom, List.head?_nil] at next
    simp only [lineText?, Nat.add_sub_cancel, start, next, content_eq, stop, cut, guard, bind,
      Option.bind, Nat.succ_pos, if_true]
    rfl
  · have stop : byteLength (front ++ line) + '\n'.utf8Size - 1 = byteLength front + byteLength line :=
      byteLength_append front line
    rw [lineStartsFrom, if_pos rfl, List.head?_cons] at next
    simp only [lineText?, Nat.add_sub_cancel, start, next, content_eq, stop, cut, guard, bind,
      Option.bind, Nat.succ_pos, if_true]
    rfl

theorem exists_lines (content : List Char) : ∃ lines : List (List Char),
    content = ['\n'].intercalate lines ∧ lines.length = content.count '\n' + 1 ∧
      ∀ line ∈ lines, '\n' ∉ line ∧ line ⊆ content := by
  induction content with
  | nil => exact ⟨[[]], rfl, rfl, by simp⟩
  | cons c content ih =>
    obtain ⟨lines, split, length, parts⟩ := ih
    cases lines with
    | nil => cases length
    | cons line lines =>
      have wider : ∀ {part}, part ⊆ content → part ⊆ c :: content := subset_cons_of_subset c
      by_cases feed : c = '\n'
      · subst feed
        refine ⟨[] :: line :: lines, by simp [split], by simp [← length], ?_⟩
        exact forall_mem_cons.mpr ⟨by simp, fun part mem => (parts part mem).imp_right wider⟩
      · obtain ⟨first, rest⟩ := forall_mem_cons.mp parts
        refine ⟨(c :: line) :: lines, by cases lines <;> simp [split], by simp [feed, ← length], ?_⟩
        refine forall_mem_cons.mpr ⟨⟨by simp [Ne.symm feed, first.1], ?_⟩,
          fun part mem => (rest part mem).imp_right wider⟩
        exact cons_subset_cons c first.2

/-- The lines of a text that stands behind some whole lines. -/
theorem lineText?_intercalate {lines : List (List Char)} (free : ∀ line ∈ lines, '\n' ∉ line)
    {front : List Char} (behind : lastLine front = []) {i : Nat} (inside : i < lines.length)
    (tabSize : UInt32) :
    (ofText (front ++ ['\n'].intercalate lines) tabSize).lineText? (front.count '\n' + i + 1) =
      some (lines[i].rdropWhile (· = '\r')) := by
  induction lines generalizing front i with
  | nil => cases inside
  | cons line lines ih =>
    obtain ⟨here, later⟩ := forall_mem_cons.mp free
    cases lines with
    | nil =>
      obtain rfl : i = 0 := by simpa using inside
      simpa using lineText?_eq behind here (.inl rfl) tabSize
    | cons next lines =>
      rw [intercalate_cons_cons]
      cases i with
      | zero =>
        simpa using lineText?_eq behind here (.inr ⟨['\n'].intercalate (next :: lines), rfl⟩) tabSize
      | succ i =>
        have shifted := ih later (lastLine_feed (front ++ line)) (Nat.lt_of_succ_lt_succ inside)
        simp only [count_append, count_eq_zero_of_not_mem here, append_assoc,
          count_singleton_self] at shifted ⊢
        rw [← Nat.add_assoc, Nat.add_right_comm _ i 1]
        exact shifted

/-- What the map of a text says about it. -/
structure Exact (content : List Char) (tabSize : UInt32) : Prop where
  /-- There is a position between any two characters, as long as its line and its column fit. -/
  position : ∀ before after, content = before ++ after → before.count '\n' + 1 < 2 ^ 32 →
    displayWidth tabSize.toNat (lastLine before) + 1 < 2 ^ 32 →
      (ofText content tabSize).position? (byteLength before) =
        some ⟨before.count '\n' + 1, displayWidth tabSize.toNat (lastLine before) + 1⟩
  /-- In a text of fewer than `2 ^ 32` bytes the line fits, but for the end of one that is all line
  feeds. -/
  lined : byteLength content < 2 ^ 32 → ∀ before after, content = before ++ after →
    before.count '\n' + 1 < 2 ^ 32 ∨ content = replicate (2 ^ 32 - 1) '\n' ∧ after = []
  increasing : ∀ offset offset' p p', Text.Cuts content offset → Text.Cuts content offset' →
    offset < offset' → (ofText content tabSize).position? offset = some p →
      (ofText content tabSize).position? offset' = some p' →
        p.line < p'.line ∨ p.line = p'.line ∧ p.column < p'.column
  behind : ∀ offset, byteLength content < offset → (ofText content tabSize).position? offset =
    (ofText content tabSize).position? (byteLength content)
  lines : ∀ i, ((ofText content tabSize).lineText? i).isSome ↔
    1 ≤ i ∧ i ≤ (ofText content tabSize).lineCount
  /-- Nothing but carriage returns at the ends of lines is lost. -/
  joined : '\r' ∉ content → ∃ texts, (List.range (ofText content tabSize).lineCount).map
    (fun i => (ofText content tabSize).lineText? (i + 1)) = texts.map some ∧
      ['\n'].intercalate texts = content

theorem positions_are_exact (content : List Char) (tabSize : UInt32) (positive : 1 ≤ tabSize) :
    Exact content tabSize := by
  have size : max tabSize.toNat 1 = tabSize.toNat := Nat.max_eq_left (UInt32.le_iff_toNat_le.mp positive)
  obtain ⟨lines, split, length, parts⟩ := exists_lines content
  have count : (ofText content tabSize).lineCount = lines.length := by
    rw [length, lineCount, ofText, length_cons, length_lineStartsFrom]
  have texts : ∀ i (inside : i < lines.length), (ofText content tabSize).lineText? (i + 1) =
      some (lines[i].rdropWhile (· = '\r')) := by
    intro i inside
    have line := lineText?_intercalate (fun part mem => (parts part mem).1) (by rfl : lastLine [] = [])
      inside tabSize
    simpa [← split] using line
  refine ⟨?_, ?_, ?_, fun _ => position?_behind content tabSize, fun i => ⟨?_, ?_⟩, fun plain => ?_⟩
  · rintro before after rfl fits fits'
    rw [position?_eq, size, if_pos]
    exact ⟨Nat.le_of_lt_succ fits, Nat.le_of_lt_succ fits'⟩
  · rintro short before after rfl
    rcases Nat.lt_or_ge (before.count '\n' + 1) (2 ^ 32) with fits | full
    · exact .inl fits
    · obtain ⟨feeds, rfl⟩ := eq_replicate_of_full short full
      exact .inr ⟨by rw [append_nil, feeds], rfl⟩
  · rintro _ _ p p' ⟨before, after, rfl, rfl⟩ ⟨before', after', same, rfl⟩ lt h h'
    rcases append_eq_append_iff.mp same with ⟨more, rfl, rfl⟩ | ⟨more, rfl, rfl⟩
    · have nonempty : more ≠ [] := by
        rintro rfl
        simp at lt
      rw [← append_assoc] at h'
      exact position?_lt nonempty h h'
    · rw [byteLength_append] at lt
      omega
  · intro known
    obtain ⟨text, found⟩ := Option.isSome_iff_exists.mp known
    simp only [lineText?, Option.bind_eq_bind, Option.bind_eq_some_iff] at found
    obtain ⟨_, positive, _, start, _⟩ := found
    have inside := (List.getElem?_eq_some_iff.mp start).choose
    rw [lineCount]
    grind [guard]
  · rintro ⟨pos, le⟩
    obtain ⟨i, rfl⟩ := Nat.exists_eq_add_of_le' pos
    rw [texts i (by omega)]
    rfl
  · refine ⟨lines, ext_getElem (by simp [count]) fun i _ inside => ?_, split.symm⟩
    have inside : i < lines.length := by simpa using inside
    have same : lines[i].rdropWhile (· = '\r') = lines[i] := by
      refine rdropWhile_eq_self_iff.mpr fun nonempty feed => plain ?_
      rw [← of_decide_eq_true feed]
      exact (parts _ (getElem_mem inside)).2 (getLast_mem nonempty)
    simp [texts i inside, same]

theorem positions_are_exact_tabbed : (1 : UInt32) ≤ 4 ∧ Exact ['é', '\t', 'x', '\n', '\t', 'y'] 4 ∧
    (ofText ['é', '\t', 'x', '\n', '\t', 'y'] 4).position? 6 = some ⟨2, 5⟩ :=
  ⟨by decide, positions_are_exact _ 4 (by decide), by decide⟩

/-- Behind as many line feeds as a text of fewer than `2 ^ 32` bytes can have there is no position,
though the column is the first. -/
theorem feeds_leave_line_limit :
    byteLength (replicate 4294967295 '\n') < 2 ^ 32 ∧
      displayWidth 4 (lastLine (replicate 4294967295 '\n')) + 1 = 1 ∧
      (ofText (replicate 4294967295 '\n') 4).position? 4294967295 = none := by
  refine ⟨by rw [byteLength_feeds]; decide, by rw [lastLine_feeds]; rfl, ?_⟩
  have full := position?_eq (replicate 4294967295 '\n') [] 4
  rw [append_nil, byteLength_feeds, count_replicate_self, if_neg (by decide)] at full
  exact full

/-! ### Columns in 32 bits -/

/-- The width of a line counted in 32 bits, with none for a count that does not fit. -/
def countWidth? (tabSize : Nat) (line : List Char) : Option Nat :=
  line.foldlM (fun column c =>
    if advance tabSize column c < 2 ^ 32 then some (advance tabSize column c) else none) 0

theorem advance_bounds {tab : Nat} (positive : 0 < tab) (column : Nat) (c : Char) :
    column < advance tab column c ∧ advance tab column c ≤ column + tab := by
  have rest := Nat.mod_lt column positive
  unfold advance
  split <;> omega

theorem foldl_advance_bounds {tab : Nat} (positive : 0 < tab) (line : List Char) (column : Nat) :
    column ≤ line.foldl (advance tab) column ∧
      line.foldl (advance tab) column ≤ column + line.length * tab := by
  induction line generalizing column with
  | nil => simp
  | cons c line ih =>
    have step := advance_bounds positive column c
    have rest := ih (advance tab column c)
    rw [foldl_cons, length_cons, Nat.succ_mul]
    omega

/-- A count that stops fitting does not fit at the end either. -/
theorem foldlM_advance_eq {tab : Nat} (positive : 0 < tab) (line : List Char) (column : Nat)
    (fits : column < 2 ^ 32) :
    line.foldlM (fun column c =>
        if advance tab column c < 2 ^ 32 then some (advance tab column c) else none) column =
      if line.foldl (advance tab) column < 2 ^ 32 then some (line.foldl (advance tab) column)
      else none := by
  induction line generalizing column with
  | nil => exact (if_pos fits).symm
  | cons c line ih =>
    rw [foldlM_cons, foldl_cons]
    by_cases next : advance tab column c < 2 ^ 32
    · rw [if_pos next]
      exact ih _ next
    · have grows := (foldl_advance_bounds positive line (advance tab column c)).1
      rw [if_neg next, if_neg (by omega)]
      rfl

theorem one_le_tabSize {content rootDir : String} {m : Manifest}
    (h : Manifest.parse content rootDir = .ok m) : 1 ≤ m.tabSize.toNat := by
  unfold Manifest.parse at h
  split at h
  · have nonzero := Manifest.tabSize_ne_zero_of_check h
    have : m.tabSize.toNat ≠ 0 := fun zero => nonzero (UInt32.toNat_inj.mp zero)
    omega
  · cases h

/-- With the tab size of any manifest there is a position exactly where its line and its column fit
32 bits, and the column is one more than the width of the line in front.  The column fits if the line
is short, and the line does in every text of fewer than `2 ^ 32` bytes but one of line feeds alone. -/
theorem columns_are_widths_below_limit {content rootDir : String} {m : Manifest}
    (h : Manifest.parse content rootDir = .ok m) (before after : List Char) :
    let width := displayWidth m.tabSize.toNat (lastLine before)
    (ofText (before ++ after) m.tabSize).position? (byteLength before) =
        (if before.count '\n' + 1 < 2 ^ 32 ∧ width + 1 < 2 ^ 32 then
          some ⟨before.count '\n' + 1, width + 1⟩ else none) ∧
      countWidth? m.tabSize.toNat (lastLine before) = (if width < 2 ^ 32 then some width else none) ∧
      ((lastLine before).length * m.tabSize.toNat + 1 < 2 ^ 32 → width + 1 < 2 ^ 32) ∧
      (byteLength (before ++ after) < 2 ^ 32 → 2 ^ 32 ≤ before.count '\n' + 1 →
        before = replicate (2 ^ 32 - 1) '\n' ∧ after = []) := by
  intro width
  have positive := one_le_tabSize h
  have size : max m.tabSize.toNat 1 = m.tabSize.toNat := Nat.max_eq_left positive
  have same : (lastLine before).foldl (advance m.tabSize.toNat) 0 = width := by
    have := width_eq before (lastLine before) m.tabSize
    rwa [size, LineMap.width, ofText, size] at this
  refine ⟨?_, ?_, ?_, eq_replicate_of_full⟩
  · have limit : ∀ n, n ≤ countLimit ↔ n < 2 ^ 32 := by
      intro n
      unfold countLimit
      omega
    rw [position?_eq, size]
    exact ite_congr (propext (and_congr (limit _) (limit _))) (fun _ => rfl) fun _ => rfl
  · rw [countWidth?, foldlM_advance_eq positive _ 0 (by decide), same]
  · have := (foldl_advance_bounds positive (lastLine before) 0).2
    omega

theorem columns_are_widths_below_limit_default :
    Manifest.parse "[project]\nname = \"a\"" "" = .ok ⟨"a", none, none, 4, "warn", ""⟩ ∧
      (ofText ['x', '\t', 'y'] 4).position? 2 = some ⟨1, 5⟩ := by
  have h : Manifest.parse "[project]\nname = \"a\"" "" = .ok ⟨"a", none, none, 4, "warn", ""⟩ := by
    cbv
  exact ⟨h, (columns_are_widths_below_limit h ['x', '\t'] ['y']).1⟩

theorem tab_leaves_column_limit :
    Manifest.parse "[project]\nname = \"a\"\n[analysis]\ntab_size = 4294967295" "" =
        .ok ⟨"a", none, none, 4294967295, "warn", ""⟩ ∧
      (ofText ['\t', 'x'] 4294967295).position? 1 = none := by
  refine ⟨?_, by decide⟩
  cbv

end LineMap

end BlFront
