import CallMigration.Diff.Unified
import CallMigration.Rule.Recipe

/-!
# Batches

Runs a recipe over several sources. The report has one entry for each source, in order, and the sums
of the counters.

* `UnitStatus`, `UnitReport`, `BatchReport` : what is reported.
* `Batch.run` : runs a recipe, given as what it does to a source.
-/

namespace CallMigration

/-- A source under an identifier. -/
structure SourceUnit where
  id : String
  source : String
deriving DecidableEq, Repr, Inhabited

/-- What became of a source. -/
inductive UnitStatus where
  /-- The diff between the source and the result. -/
  | changed (diff : String)
  | unchanged
  | skipped (reason : SkipReason)
  | failed (message : String)
deriving DecidableEq, Repr, Inhabited

/-- The report on a source. -/
structure UnitReport where
  id : String
  status : UnitStatus
  /-- The text after the run; the source itself unless it was changed. -/
  output : String
  stats : Stats
deriving DecidableEq, Repr, Inhabited

/-- The report on several sources, in order, with the sums of the counters. -/
structure BatchReport where
  units : List UnitReport
  stats : Stats
deriving DecidableEq, Repr, Inhabited

namespace BatchReport

/-- The identifiers of the sources that were changed. -/
def changed (r : BatchReport) : List String :=
  (r.units.filter fun u => match u.status with
    | .changed _ => true
    | _ => false).map (·.id)

/-- The identifiers of the sources that were left alone. -/
def skipped (r : BatchReport) : List String :=
  (r.units.filter fun u => match u.status with
    | .skipped _ => true
    | _ => false).map (·.id)

/-- The identifiers of the sources that could not be processed. -/
def failed (r : BatchReport) : List String :=
  (r.units.filter fun u => match u.status with
    | .failed _ => true
    | _ => false).map (·.id)

end BatchReport

namespace Batch

/-- The number of lines of context in diffs, unless another one is asked for. -/
def defaultContext : Nat := 3

/-- What became of a source that was processed. -/
def statusOf (context : Nat) (u : SourceUnit) (o : Outcome) : UnitStatus :=
  match o.skipped with
  | some reason => .skipped reason
  | none =>
    if o.changed then
      .changed (Diff.unified context ("a/" ++ u.id) ("b/" ++ u.id) u.source o.unit.text)
    else .unchanged

def runUnit (process : String → Except RuleError Outcome) (context : Nat) (u : SourceUnit) :
    UnitReport :=
  match process u.source with
  | .ok o => ⟨u.id, statusOf context u o, o.unit.text, o.stats⟩
  | .error e => ⟨u.id, .failed e.message, u.source, .zero⟩

/-- The report on several sources. `process` says what a recipe makes of a source. -/
def run (process : String → Except RuleError Outcome) (context : Nat) (units : List SourceUnit) :
    BatchReport :=
  let reports := units.map (runUnit process context)
  ⟨reports, Stats.total (reports.map (·.stats))⟩

end Batch

end CallMigration
