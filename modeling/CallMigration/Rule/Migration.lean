import CallMigration.Rule.Gate
import CallMigration.Rule.Imports
import CallMigration.Rule.Matcher
import CallMigration.Rule.Substitution

/-!
# Migrating a unit

A walk goes through the tree of a unit in pre-order. Every call is matched as it stands in the
source, and its parts are walked before it is replaced, so that matches in arguments and receivers
are found in the same walk. A node below which nothing is replaced stays as it is.

* `Walk` : what a walk has seen and requested so far.
* `Rule.visit` : the walk below an element.
* `Rule.run` : the outcome for a unit, which may be left alone for one of the `SkipReason`s.
-/

namespace CallMigration

/-! ## The state of a walk -/

/-- What has become of a call. -/
inductive VisitState where
  | unvisited
  | visiting
  | migrated
  | unchanged
deriving DecidableEq, Repr, Inhabited

/-- Nothing more happens to the call. -/
def VisitState.isFinal : VisitState → Bool
  | migrated | unchanged => true
  | unvisited | visiting => false

/-- Counters for a unit, or for several together. -/
structure Stats where
  callsVisited : Nat
  callsMigrated : Nat
  importsAdded : Nat
deriving DecidableEq, Repr, Inhabited

namespace Stats

/-- Nothing counted. -/
def zero : Stats := ⟨0, 0, 0⟩

/-- The sum of the counters. -/
def add (a b : Stats) : Stats :=
  ⟨a.callsVisited + b.callsVisited, a.callsMigrated + b.callsMigrated,
    a.importsAdded + b.importsAdded⟩

/-- The sum over several units. -/
def total (ss : List Stats) : Stats :=
  ss.foldl add zero

end Stats

/-- What a walk has seen and requested so far. -/
structure Walk where
  /-- The unit refers to the types of the rule. -/
  gatePresent : Bool
  imports : ImportRequests
  stats : Stats
  /-- The state of each call met so far, by its byte range. -/
  states : List ((Nat × Nat) × VisitState)
deriving DecidableEq, Repr, Inhabited

namespace Walk

def start (gatePresent : Bool) : Walk :=
  ⟨gatePresent, .empty, .zero, []⟩

def state (w : Walk) (range : Nat × Nat) : VisitState :=
  (w.states.lookup range).getD .unvisited

/-- Every call met so far has its final state. -/
def isSettled (w : Walk) : Bool :=
  w.states.all fun (_, s) => s.isFinal

def setState (range : Nat × Nat) (s : VisitState) :
    List ((Nat × Nat) × VisitState) → List ((Nat × Nat) × VisitState)
  | [] => [(range, s)]
  | (r, t) :: rest => if r = range then (range, s) :: rest else (r, t) :: setState range s rest

/-- A call gets a new state. -/
def transition (w : Walk) (range : Nat × Nat) (s : VisitState) : Walk :=
  { w with states := setState range s w.states }

/-- A call is met. -/
def enter (w : Walk) (range : Nat × Nat) : Walk :=
  let w := w.transition range .visiting
  { w with stats := { w.stats with callsVisited := w.stats.callsVisited + 1 } }

/-- A call is replaced, and its new text needs imports. -/
def replace (w : Walk) (range : Nat × Nat) (needed : List TypeName) : Walk :=
  let w := w.transition range .migrated
  { w with
    stats := { w.stats with callsMigrated := w.stats.callsMigrated + 1 }
    imports := needed.foldl ImportRequests.request w.imports }

/-- A call stays. -/
def keep (w : Walk) (range : Nat × Nat) : Walk :=
  w.transition range .unchanged

end Walk

/-! ## Rules -/

/-- What is done to a unit: which calls are meant, and what they are replaced by. -/
structure Rule where
  gate : Gate
  matcher : Matcher
  template : Template
  /-- The position of the argument for each placeholder. -/
  selected : List Nat
deriving DecidableEq, Repr

/-- Why a unit was left alone. -/
inductive SkipReason where
  | parseErrors
  | preconditionAbsent
  | importConflict
deriving DecidableEq, Repr, Inhabited

/-- What became of a unit. -/
structure Outcome where
  unit : JavaUnit
  changed : Bool
  stats : Stats
  importsAdded : List TypeName
  skipped : Option SkipReason
deriving DecidableEq, Repr, Inhabited

def Outcome.skip (u : JavaUnit) (reason : SkipReason) : Outcome :=
  ⟨u, false, .zero, [], some reason⟩

namespace Rule

section

variable {R : Type} [TypeResolver R]

mutual
/-- Walks an element at its place. Gives the new element, if anything in it was replaced. -/
def visit (rule : Rule) (r : R) (around : List Span) (start : Nat) :
    Tree → Walk → Option Tree × Walk
  | .token _ _, w => (none, w)
  | .node k cs, w =>
    let site : Site := ⟨.node k cs, start, around⟩
    let range := (start, start + Tree.byteLengthOf cs)
    let inner := ⟨k, start, start + Tree.byteLengthOf cs⟩ :: around
    if k = .methodInvocation then
      let (children, changed, w) := visitAll rule r inner start cs (w.enter range)
      let rebuilt := if changed then Tree.node k children else .node k cs
      let replacement :=
        if (rule.matcher.find? r site).isSome then
          rule.template.replacement? rebuilt rule.selected site.parentKind?
        else none
      match replacement with
      | some new => (some new, w.replace range rule.template.imports)
      | none => (if changed then some rebuilt else none, w.keep range)
    else
      let (children, changed, w) := visitAll rule r inner start cs w
      (if changed then some (.node k children) else none, w)

/-- Walks elements that follow each other. Gives them with all replacements, and whether there was
one. -/
def visitAll (rule : Rule) (r : R) (around : List Span) (start : Nat) :
    List Tree → Walk → List Tree × Bool × Walk
  | [], w => ([], false, w)
  | t :: ts, w =>
    let (new, w) := visit rule r around start t w
    let (rest, changed, w) := visitAll rule r around (start + t.byteLength) ts w
    (new.getD t :: rest, new.isSome || changed, w)
end

/-- Migrates a unit with given declarations and references, asking a resolver for its types. -/
def runWith (rule : Rule) (scope : Scope) (r : R) (u : JavaUnit) : Outcome :=
  if u.hasErrors then .skip u .parseErrors
  else if !rule.gate.isPresentIn scope r then .skip u .preconditionAbsent
  else if rule.template.imports.any (conflicts u.tree) then .skip u .importConflict
  else
    let (new, w) := rule.visit r [] 0 u.tree (.start true)
    match new with
    | some (.node k cs) =>
      let (out, added) := w.imports.flush (u.withTree (.node k cs))
      ⟨out, decide (out.tree ≠ u.tree), { w.stats with importsAdded := added.length }, added, none⟩
    | _ => ⟨u, false, w.stats, [], none⟩

end

/-- Migrates a unit over a table of types. -/
def run (rule : Rule) (table : TypeTable) (u : JavaUnit) : Outcome :=
  let r := Resolver.ofTree table u.tree
  rule.runWith r.scope r u

end Rule

end CallMigration
