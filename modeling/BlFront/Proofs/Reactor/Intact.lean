import BlFront.Proofs.Reactor.Lives

/-!
# What holds of every reactor

Whatever requests are made of a reactor and whatever its rules do, also in runs that end with a
fault and in runs inside runs, the order and the slots of stored attributes stay as they are, the
bookkeeping says of every pending rule what it waits for, and every number leads to a rule or to
an error.  So no count ever goes below zero and nothing is looked up that is not there.
-/

namespace BlFront.Reactor

variable {r : Reactor}

/-- One reactor can become another. -/
def Leads (r r' : Reactor) : Prop := ∃ past, r.Path past r'

/-- The reactor can come about. -/
def Reachable (r : Reactor) : Prop := Reactor.empty.Leads r

variable {r' : Reactor}

theorem Leads.reachable (h : r.Reachable) (leads : r.Leads r') : r'.Reachable := by
  obtain ⟨past, path⟩ := h
  obtain ⟨more, path'⟩ := leads
  exact ⟨more ++ past, path.trans path'⟩

theorem Goes.leads {author : Rule → Prop} (goes : Goes author r r') : r.Leads r' := by
  obtain ⟨past, path, _⟩ := goes
  exact ⟨past, path⟩

theorem Path.between {s : Reactor} {past : List (Reactor × Move)} {m : Move}
    (path : r.Path past r') (mem : (s, m) ∈ past) : r.Leads s := by
  induction path with
  | here => cases mem
  | step before makes ih =>
    rcases List.mem_cons.mp mem with same | mem
    · cases same
      exact ⟨_, before⟩
    · exact ih mem

theorem Makes.leads {m : Move} (makes : r.Makes m r') : r.Leads r' :=
  ⟨_, .step .here makes⟩

theorem Reachable.orderly (h : r.Reachable) : r.Orderly := by
  obtain ⟨past, path⟩ := h
  exact path.orderly .empty

theorem Reachable.distinct (h : r.Reachable) : r.store.entries.keys.Nodup := by
  obtain ⟨past, path⟩ := h
  exact (path.grows .empty).distinct List.nodup_nil

/-- The bookkeeping says what it should, and every operation finds what it relies on. -/
structure Intact (r : Reactor) : Prop where
  stored : r.store.entries.keys.Nodup
  waiting : ∀ {id p}, r.rule? id = some p → p.waiting = p.rule.deps.dedup.countP r.isOpen
  listed : ∀ {id p}, r.rule? id = some p → ∀ attr,
    (r.waitersOf attr).count id = if attr ∈ p.rule.deps ∧ r.isOpen attr then 1 else 0
  queued : ∀ {id p}, r.rule? id = some p → r.queue.count id = if p.waiting = 0 then 1 else 0
  queue_lt : ∀ id ∈ r.queue, id < r.rules.length
  waitersOf_lt : ∀ attr, ∀ id ∈ r.waitersOf attr, id < r.rules.length
  error_lt : ∀ attr e, (attr, .error e) ∈ r.store.entries → e < r.errors.length
  cause_lt : ∀ record ∈ r.errors, ∀ c, record.cause = some c → c < r.errors.length
  resolves : ∀ attr v, r.resolve? attr v = some (r.resolve attr v)
  rejects : ∀ error affected, r.reject? error affected = some (r.reject error affected)
  registers : ∀ rule, r.register? rule = some (r.register rule)

theorem Orderly.intact (h : r.Orderly) (distinct : r.store.entries.keys.Nodup) : r.Intact where
  stored := distinct
  waiting hp := by
    rw [(h.consistent.deps_nodup hp).dedup]
    exact h.consistent.waiting_eq hp
  listed {id p} hp attr := by
    have listed : id ∈ r.waitersOf attr ↔ attr ∈ p.rule.deps ∧ r.isOpen attr := by
      rw [isOpen_iff, ← h.consistent.mem_waiters hp attr]
      simp [waitersOf]
    rw [(h.consistent.waitersOf_nodup attr).count]
    simp only [listed]
  queued {id p} hp := by
    have queued : id ∈ r.queue ↔ p.waiting = 0 := by
      rw [h.consistent.mem_queue, hp]
      simp
    rw [h.consistent.queue_nodup.count]
    simp only [queued]
  queue_lt id queued := by
    obtain ⟨p, hp, _⟩ := (h.consistent.mem_queue id).mp queued
    exact rule?_lt hp
  waitersOf_lt := h.consistent.waitersOf_lt
  error_lt attr e mem := h.consistent.slot_lt ((Store.mem_entries_iff distinct).mp mem)
  cause_lt record mem c hc := by
    obtain ⟨i, hi, rfl⟩ := List.mem_iff_getElem.mp mem
    exact Nat.lt_trans (h.consistent.cause_lt (List.getElem?_eq_getElem hi) hc) hi
  resolves := h.resolve?
  rejects error affected := (h.reject error affected).1
  registers rule := (h.register rule).1

/-- Requests, runs and the steps of bodies lead from reactors that can come about to others, and
every reactor on the way can come about.  None of the moves changes a slot or the order of what is
stored, and each of the reactors is intact. -/
theorem bookkeeping_stays_intact :
    Reachable .empty ∧
      (∀ r : Reactor, r.Reachable →
        (∀ attr v r', r.seed attr v = .ok r' → r.Leads r') ∧
        (∀ error affected, r.Leads (r.reject error affected)) ∧
        (∀ rule, r.Leads (r.register rule)) ∧
        (∀ symbols, r.Leads (r.run symbols).2) ∧
        ∀ symbols rule outputs, ∀ action ∈ rule.body,
          r.Leads (perform (·.run symbols) symbols rule action ⟨r, outputs⟩).2.reactor) ∧
      (∀ (r r' : Reactor) (past : List (Reactor × Move)), r.Reachable → r.Path past r' →
        r'.Reachable ∧ (∀ s m, (s, m) ∈ past → s.Reachable) ∧
          r.store.entries <+: r'.store.entries ∧
          ∀ attr slot, r.slot? attr = some slot → r'.slot? attr = some slot) ∧
      ∀ r : Reactor, r.Reachable → r.Intact := by
  refine ⟨⟨[], .here⟩, fun r h => ⟨?_, ?_, ?_, ?_, ?_⟩, fun r r' past h path => ?_, fun r h =>
    h.orderly.intact h.distinct⟩
  · intro attr v r' seeded
    exact (Makes.seed seeded).leads
  · intro error affected
    exact (Makes.reject r error affected).leads
  · intro rule
    exact (Makes.register r rule).leads
  · intro symbols
    exact (run_goes h.orderly symbols).leads
  · intro symbols rule outputs action mem
    have step : Performs rule action.registered action.runs ⟨r, outputs⟩
        (perform (·.run symbols) symbols rule action ⟨r, outputs⟩).2 :=
      perform_performs (run_within symbols _) symbols action (fun m asks => ⟨action, mem, asks⟩)
        h.orderly (Nat.le_refl _)
    exact step.goes.leads
  · have grows := path.grows h.orderly
    exact ⟨Leads.reachable h ⟨past, path⟩, fun s m mem => (path.between mem).reachable h,
      grows.stored, fun attr slot => grows.slots⟩

def typeOfNode (n : Nat) : Attribute := ⟨.node ⟨n⟩, .type⟩

/-- A body that adds a rule which a run inside it discards, seeds what that rule would have read,
and rejects what it would have written. -/
def rerunning : Rule :=
  ⟨"rerun", [], [], [.register (.copy "copy" (typeOfNode 0) (typeOfNode 1)), .run,
    .seed (typeOfNode 0) (.type .int), .reject ⟨.dummy, "no type"⟩ [typeOfNode 1],
    .register (.copy "late" (typeOfNode 1) (typeOfNode 2))]⟩

theorem bookkeeping_stays_intact_rerunning :
    ((Reactor.empty.register rerunning).run .empty).2.Intact ∧
      ((Reactor.empty.register rerunning).run .empty).2.store.entries.keys =
        [typeOfNode 0, typeOfNode 1, typeOfNode 2] := by
  obtain ⟨start, closed, kept, intact⟩ := bookkeeping_stays_intact
  obtain ⟨_, _, registers, _⟩ := closed .empty start
  obtain ⟨first, registered⟩ := registers rerunning
  have reached := (kept _ _ first start registered).1
  obtain ⟨_, _, _, runs, _⟩ := closed _ reached
  obtain ⟨second, ran⟩ := runs .empty
  exact ⟨intact _ (kept _ _ second reached ran).1, by rfl⟩

end BlFront.Reactor
