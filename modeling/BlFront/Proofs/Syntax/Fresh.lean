import BlFront.Proofs.Syntax.Numbering

/-!
# Numbers in a row

A parse gives a node its number when all that is inside it has been read.  So the nodes that are read
in one stretch have numbers from one range, and a node has a greater number than the nodes inside it.
-/

namespace BlFront

open List

/-- The identities of the nodes that visits enter. -/
def visited (visits : List Visit) : List NodeId :=
  (visits.filterMap Visit.entered?).filterMap Part.id?

theorem visited_append (a b : List Visit) : visited (a ++ b) = visited a ++ visited b := by
  simp [visited, filterMap_append]

theorem visited_around (part : Part) (inside : List Visit) :
    visited (part.around inside) = part.id?.toList ++ visited inside := by
  rw [visited, entered_around]
  cases h : part.id? with
  | none => rw [filterMap_cons_none h]; rfl
  | some n => rw [filterMap_cons_some h]; rfl

/-! ### Order -/

/-- Visits that leave what they enter, where every node has a greater number than those inside it. -/
inductive Sunk : List Visit → Prop
  | nil : Sunk []
  | part {part : Part} {inside more : List Visit}
      (above : ∀ n, part.id? = some n → ∀ m ∈ visited inside, m.index < n.index)
      (inner : Sunk inside) (rest : Sunk more) : Sunk (part.around inside ++ more)

namespace Sunk

variable {visits more : List Visit}

theorem append (h : Sunk visits) (h' : Sunk more) : Sunk (visits ++ more) := by
  induction h with
  | nil => exact h'
  | part above inner _ _ ih =>
    rw [append_assoc]
    exact .part above inner ih

theorem sitesFrom_append (h : Sunk visits) (around : List Part) (more : List Visit) :
    sitesFrom around (visits ++ more) = sitesFrom around visits ++ sitesFrom around more := by
  induction h generalizing around more with
  | nil => rfl
  | part _ _ _ inner rest =>
    simp only [Part.around, cons_append, append_assoc, sitesFrom, inner, rest,
      nil_append, tail_cons]

/-- A node has a smaller number than all nodes around it. -/
theorem lt (h : Sunk visits) {around : List Part} {site : Part × List Part}
    (mem : site ∈ sitesFrom around visits) {n : NodeId} (node : site.1.id? = some n) :
    n ∈ visited visits ∧ ∃ inner, site.2 = inner ++ around ∧
      ∀ q ∈ inner, ∀ m, q.id? = some m → n.index < m.index := by
  induction h generalizing around with
  | nil => cases mem
  | @part part inside more above inner rest inner_ih rest_ih =>
    rw [visited_append, visited_around]
    rw [Part.around, cons_append, sitesFrom, append_assoc, inner.sitesFrom_append] at mem
    rcases mem_cons.mp mem with rfl | mem
    · exact ⟨by simp [node], [], rfl, fun q mem => by cases mem⟩
    rcases mem_append.mp mem with mem | mem
    · obtain ⟨here, within, same, below⟩ := inner_ih mem
      refine ⟨by simp [here], within ++ [part], by rw [same]; simp, fun q mem m numbered => ?_⟩
      rcases mem_append.mp mem with mem | mem
      · exact below q mem m numbered
      · rw [mem_singleton.mp mem] at numbered
        exact above m numbered n here
    · obtain ⟨here, within, same, below⟩ := rest_ih mem
      exact ⟨mem_append_right _ here, within, same, below⟩

end Sunk

/-! ### Ranges -/

/-- Visits to nodes with numbers from a range, no two of them the same. -/
structure Numbered (lo hi : Nat) (visits : List Visit) : Prop where
  nodup : (visited visits).Nodup
  bounds : ∀ n ∈ visited visits, lo ≤ n.index ∧ n.index < hi
  sunk : Sunk visits

namespace Numbered

variable {lo mid hi : Nat} {visits more : List Visit}

theorem nil (lo hi : Nat) : Numbered lo hi [] := ⟨nodup_nil, fun _ mem => (by cases mem), .nil⟩

theorem widen (h : Numbered lo mid visits) (le : mid ≤ hi) : Numbered lo hi visits :=
  ⟨h.nodup, fun n mem => ⟨(h.bounds n mem).1, Nat.lt_of_lt_of_le (h.bounds n mem).2 le⟩, h.sunk⟩

/-- What has no number in common stands together. -/
theorem beside (h : Numbered lo hi visits) (h' : Numbered lo hi more)
    (apart : (visited visits).Disjoint (visited more)) : Numbered lo hi (visits ++ more) := by
  refine ⟨?_, fun n mem => ?_, h.sunk.append h'.sunk⟩
  · rw [visited_append]
    exact h.nodup.append h'.nodup apart
  · rw [visited_append] at mem
    exact (mem_append.mp mem).elim (h.bounds n) (h'.bounds n)

/-- Two stretches in a row have nothing in common. -/
theorem disjoint (h : Numbered lo mid visits) (h' : Numbered mid hi more) :
    (visited visits).Disjoint (visited more) := by
  intro n mem mem'
  have := (h.bounds n mem).2
  have := (h'.bounds n mem').1
  omega

theorem append (h : Numbered lo mid visits) (h' : Numbered mid hi more) (le : lo ≤ mid)
    (le' : mid ≤ hi) : Numbered lo hi (visits ++ more) := by
  refine (h.widen le').beside ⟨h'.nodup, fun n mem => ?_, h'.sunk⟩ (h.disjoint h')
  exact ⟨Nat.le_trans le (h'.bounds n mem).1, (h'.bounds n mem).2⟩

/-- A node around what has smaller numbers. -/
theorem around {part : Part} {n : NodeId} (h : Numbered lo hi visits) (node : part.id? = some n)
    (range : lo ≤ n.index ∧ n.index < hi) (above : ∀ m ∈ visited visits, m.index < n.index) :
    Numbered lo hi (part.around visits) := by
  have ids : visited (part.around visits) = n :: visited visits := by rw [visited_around, node]; rfl
  refine ⟨?_, ?_, ?_⟩
  · rw [ids]
    exact nodup_cons.mpr ⟨fun mem => Nat.lt_irrefl _ (above n mem), h.nodup⟩
  · rw [ids]
    exact forall_mem_cons.mpr ⟨range, h.bounds⟩
  · rw [← append_nil (part.around visits)]
    refine .part (fun m same => ?_) h.sunk .nil
    cases node.symm.trans same
    exact above

/-- A part that is no node of its own. -/
theorem around_of_none {part : Part} (h : Numbered lo hi visits) (none : part.id? = none) :
    Numbered lo hi (part.around visits) := by
  have ids : visited (part.around visits) = visited visits := by rw [visited_around, none]; rfl
  refine ⟨ids ▸ h.nodup, ids ▸ h.bounds, ?_⟩
  rw [← append_nil (part.around visits)]
  refine .part (fun m same => ?_) h.sunk .nil
  cases none.symm.trans same

end Numbered

end BlFront
