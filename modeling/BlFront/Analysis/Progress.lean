import BlFront.Analysis
import BlFront.Log.Event

/-!
# The progress of an analysis

The events that an analysis reports: the begin and the end of every phase, and all that
happens in the reactor between them.  Watching an analysis does not change its result.
-/

namespace BlFront

namespace Occurrence

def target : String := "blc_compiler::semantic::reactor"

def event : Occurrence → Log.Event
  | .ran rule exports =>
    ⟨.trace, target, "running rule", [("rule", rule), ("exports", toString exports)]⟩
  | .poisoned rule attr =>
    ⟨.trace, target, "poisoned rule", [("rule", rule), ("attribute", toString attr)]⟩
  | .refused rule attr =>
    ⟨.trace, target, "rule registered against failed dependency",
      [("rule", rule), ("attribute", toString attr)]⟩
  | .dropped error =>
    ⟨.trace, target, "dropping error on already failed attributes",
      [("error", toString error)]⟩
  | .settled stats rootErrors =>
    ⟨.debug, target, "reactor reached fixpoint",
      [("executed", toString stats.executed), ("discarded", toString stats.discarded),
       ("root_errors", toString rootErrors)]⟩

end Occurrence

namespace Reactor

/-- What happened since an earlier state of the reactor, in order. -/
def since (r earlier : Reactor) : List Occurrence :=
  (r.history.take (r.history.length - earlier.history.length)).reverse

def lastRun (r : Reactor) : RunStats :=
  (r.history.findSome? fun
    | .settled stats _ => some stats
    | _ => none).getD ⟨0, 0⟩

end Reactor

namespace Analysis

def target : String := "blc_compiler::semantic"

def started (phase : Phase) : Log.Event := ⟨.info, target, "starting phase", [("phase", phase.name)]⟩

def finished (a : Analysis) (phase : Phase) : Log.Event :=
  let stats := a.reactor.lastRun
  ⟨.debug, target, "finished phase",
    [("phase", phase.name), ("rules", toString stats.executed),
     ("discarded", toString stats.discarded),
     ("errors", toString a.reactor.rootErrors.length)]⟩

def rejected (a : Analysis) (phase : Phase) : Log.Event :=
  ⟨.warn, target, "phase rejected the program",
    [("phase", phase.name), ("errors", toString a.reactor.rootErrors.length)]⟩

def phaseEvents (a next : Analysis) (phase : Phase) : List Log.Event :=
  started phase :: (next.reactor.since a.reactor).map (·.event) ++ [next.finished phase]

/-- Runs phases up to the first that leaves errors, with the events of each. -/
def watch (a : Analysis) : List Phase → List Log.Event × Except AnalysisError Analysis
  | [] => ([], .ok a)
  | phase :: phases => match a.advance phase with
      | .error e => ([started phase], .error (.internal e))
      | .ok next =>
        let events := a.phaseEvents next phase
        if next.reactor.rootErrors.isEmpty then
          let (more, result) := next.watch phases
          (events ++ more, result)
        else (events ++ [next.rejected phase], .error (.rejected phase next.reactor.rootErrors))

/-- Watching the phases is running them. -/
theorem watch_snd (a : Analysis) (phases : List Phase) :
    (a.watch phases).2 = phases.foldlM step a := by
  induction phases generalizing a with
  | nil => rfl
  | cons phase phases ih =>
    rw [watch, List.foldlM_cons, step]
    cases a.advance phase with
    | error e => rfl
    | ok next =>
      dsimp only
      split
      · exact ih next
      · rfl

end Analysis

def watchUntil (unit : CompilationUnit) (last : Phase) :
    List Log.Event × Except AnalysisError Analysis :=
  match Analysis.start unit with
  | .error e => ([], .error (.internal e))
  | .ok a => a.watch last.upTo

theorem watchUntil_snd (unit : CompilationUnit) (last : Phase) :
    (watchUntil unit last).2 = analyzeUntil unit last := by
  rw [watchUntil, analyzeUntil]
  cases Analysis.start unit with
  | error e => rfl
  | ok a => exact a.watch_snd last.upTo

end BlFront
