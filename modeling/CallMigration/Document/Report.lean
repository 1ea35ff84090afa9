import CallMigration.Batch.Report
import CallMigration.Document.Decode

/-!
# Batch reports as documents

* `SourceUnit.decode?` : a source to process.
* `BatchReport.encode`, `BatchReport.decode?` : the document of a report.
-/

namespace CallMigration

open Value

def SourceUnit.decode? (v : Value) : Option SourceUnit := do
  let fields ← v.asFields? ["id", "source"]
  return ⟨← required? fields "id" asText?, ← required? fields "source" asText?⟩

namespace Stats

/-- The document of counters. -/
def encode (s : Stats) : Value :=
  .record [("calls_visited", .ofCount s.callsVisited), ("calls_rewritten", .ofCount s.callsMigrated),
    ("imports_added", .ofCount s.importsAdded)]

/-- Reads counters. -/
def decode? (v : Value) : Option Stats := do
  let fields ← v.asFields? ["calls_visited", "calls_rewritten", "imports_added"]
  let visited ← required? fields "calls_visited" asCount?
  let migrated ← required? fields "calls_rewritten" asCount?
  let imports ← required? fields "imports_added" asCount?
  return ⟨visited, migrated, imports⟩

end Stats

namespace SkipReason

def name : SkipReason → String
  | parseErrors => "parse_errors"
  | preconditionAbsent => "precondition_absent"
  | importConflict => "import_conflict"

/-- What a word stands for. -/
def ofName? (name : String) : Option SkipReason :=
  [parseErrors, preconditionAbsent, importConflict].find? fun r => r.name == name

/-- Reads a reason: its name, or a record with nothing under that name. -/
def decode? : Value → Option SkipReason
  | .record [(name, .null)] => ofName? name
  | .record [(name, .record [])] => ofName? name
  | v => v.asText?.bind ofName?

end SkipReason

namespace UnitStatus

/-- The document of a status: its name and what belongs to it. -/
def encode : UnitStatus → Value
  | changed diff => .record [("status", .string "changed"), ("diff", .string diff)]
  | unchanged => .record [("status", .string "unchanged")]
  | skipped reason => .record [("status", .string "skipped"), ("reason", .string reason.name)]
  | failed message => .record [("status", .string "failed"), ("message", .string message)]

/-- The only value of a list, or the value of a field. -/
def detail? (name : String) (rest : Value) : Option Value :=
  (rest.asFields? [name]).bind (·.lookup name)

def ofName? (name : String) (rest : Value) : Option UnitStatus :=
  match name with
  | "changed" => ((detail? "diff" rest).bind asText?).map changed
  | "unchanged" => some unchanged
  | "skipped" => ((detail? "reason" rest).bind SkipReason.decode?).map skipped
  | "failed" => ((detail? "message" rest).bind asText?).map failed
  | _ => none

/-- Reads a status: a record with its name in a field, or a list with its name in front. -/
def decode? : Value → Option UnitStatus
  | .record fields => do
    let known ← (Value.record fields).asFields? ["status"]
    ofName? (← required? known "status" asText?) (.record fields)
  | .list (.string name :: rest) => ofName? name (.list rest)
  | _ => none

end UnitStatus

namespace UnitReport

def encode (u : UnitReport) : Value :=
  .record [("id", .string u.id), ("status", u.status.encode), ("output", .string u.output),
    ("stats", u.stats.encode)]

def decode? (v : Value) : Option UnitReport := do
  let fields ← v.asFields? ["id", "status", "output", "stats"]
  let id ← required? fields "id" asText?
  let status ← required? fields "status" UnitStatus.decode?
  let output ← required? fields "output" asText?
  let stats ← required? fields "stats" Stats.decode?
  return ⟨id, status, output, stats⟩

end UnitReport

namespace BatchReport

def encode (r : BatchReport) : Value :=
  .record [("units", .list (r.units.map UnitReport.encode)), ("stats", r.stats.encode)]

def decode? (v : Value) : Option BatchReport := do
  let fields ← v.asFields? ["units", "stats"]
  let units ← required? fields "units" (asList? UnitReport.decode?)
  let stats ← required? fields "stats" Stats.decode?
  return ⟨units, stats⟩

end BatchReport

end CallMigration
