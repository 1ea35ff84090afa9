import CallMigration.Diff.Script

/-!
# Unified diffs

Prints an edit script as hunks of changed lines with some lines of context.

* `hunks` : the edits in groups, with at most the given number of kept lines around each change.
* `unified` : the diff of two texts.
-/

namespace CallMigration.Diff

/-! ## Hunks -/

/-- The first kept lines of a script without those that are far from the first change. -/
def cutFirst (context : Nat) : List Edit → List Edit
  | e :: rest =>
    if e.action = .keep then
      let extra := e.size - context
      (e.down extra).resize (e.size - extra) :: rest
    else e :: rest
  | [] => []

/-- The last kept lines of a script without those that are far from the last change. -/
def cutLast (context : Nat) (edits : List Edit) : List Edit :=
  match edits.getLast? with
  | some e =>
    if e.action = .keep then edits.dropLast ++ [e.resize (min e.size context)] else edits
  | none => []

/-- Groups edits; `group` holds the edits of the current group, the last one first. A long run of
kept lines ends a group and begins the next. -/
def groupEdits (context : Nat) (group : List Edit) : List Edit → List (List Edit)
  | [] =>
    match group with
    | [] => []
    | [e] => if e.action = .keep then [] else [[e]]
    | _ => [group.reverse]
  | e :: rest =>
    if e.action = .keep && e.size > 2 * context then
      (e.resize context :: group).reverse
        :: groupEdits context [(e.down (e.size - context)).resize context] rest
    else groupEdits context (e :: group) rest

/-- The groups of edits that are printed together. -/
def hunks (context : Nat) (edits : List Edit) : List (List Edit) :=
  groupEdits context [] (cutLast context (cutFirst context edits))

/-! ## Printing -/

/-- A range of lines: the number of its first line and its size. An empty range is said to begin at
the line before it. -/
def Range.render (r : Range) : String :=
  if r.size = 1 then toString (r.start + 1)
  else toString (if r.size = 0 then r.start else r.start + 1) ++ "," ++ toString r.size

/-- The lines of a range, each behind a mark. A line without a terminator is marked as such. -/
def renderLines (mark : String) (lines : Array String) (r : Range) : String :=
  String.join ((lines.extract r.start r.stop).toList.map fun line =>
    mark ++ line ++ (if isUnterminated line then "\n\\ No newline at end of file\n" else ""))

def renderEdit (old new : Array String) (e : Edit) : String :=
  match e.action with
  | .keep => renderLines " " old e.old
  | _ => renderLines "-" old e.old ++ renderLines "+" new e.new

def renderHunk (old new : Array String) (edits : List Edit) : String :=
  match edits.head?, edits.getLast? with
  | some first, some last =>
    let a : Range := ⟨first.oldStart, last.old.stop⟩
    let b : Range := ⟨first.newStart, last.new.stop⟩
    "@@ -" ++ a.render ++ " +" ++ b.render ++ " @@\n"
      ++ String.join (edits.map (renderEdit old new))
  | _, _ => ""

/-- The diff of two texts under the names of the old and the new one; empty if nothing changed. -/
def unified (context : Nat) (oldName newName old new : String) : String :=
  let oldLines := (splitLines old).toArray
  let newLines := (splitLines new).toArray
  match hunks context (script oldLines newLines) with
  | [] => ""
  | groups =>
    "--- " ++ oldName ++ "\n+++ " ++ newName ++ "\n"
      ++ String.join (groups.map (renderHunk oldLines newLines))

end CallMigration.Diff
