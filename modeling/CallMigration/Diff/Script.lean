import CallMigration.Diff.Lines

/-!
# Edit scripts

An edit script says how the lines of one text become those of another: runs of lines that are kept,
deleted or inserted. The script is found by dividing both texts at the middle of a shortest path
through their edit graph; insertions are then moved down as far as they go.

* `middle?` : a point on a shortest path that divides it.
* `divide` : the edits of two ranges of lines.
* `settle` : the edits with insertions moved down.
* `script` : the edit script of two texts.
-/

namespace CallMigration.Diff

/-- What is done to a run of lines. -/
inductive Action where
  | keep
  | delete
  | insert
  /-- Lines are deleted and others inserted in their place. -/
  | replace
deriving DecidableEq, Repr, Inhabited

/-- A run of lines and what is done to it. -/
structure Edit where
  action : Action
  oldStart : Nat
  oldSize : Nat
  newStart : Nat
  newSize : Nat
deriving DecidableEq, Repr, Inhabited

namespace Edit

/-- Lines that are kept. -/
def keep (oldStart newStart size : Nat) : Edit := ⟨.keep, oldStart, size, newStart, size⟩

def delete (oldStart size newStart : Nat) : Edit := ⟨.delete, oldStart, size, newStart, 0⟩

def insert (oldStart newStart size : Nat) : Edit := ⟨.insert, oldStart, 0, newStart, size⟩

def old (e : Edit) : Range := ⟨e.oldStart, e.oldStart + e.oldSize⟩

def new (e : Edit) : Range := ⟨e.newStart, e.newStart + e.newSize⟩

/-- The number of lines. -/
def size (e : Edit) : Nat := max e.oldSize e.newSize

def resize (e : Edit) (size : Nat) : Edit :=
  match e.action with
  | .keep => { e with oldSize := size, newSize := size }
  | .delete => { e with oldSize := size }
  | _ => { e with newSize := size }

/-- The same edit some lines further up. -/
def up (e : Edit) (count : Nat) : Edit :=
  { e with oldStart := e.oldStart - count, newStart := e.newStart - count }

/-- The same edit some lines further down. -/
def down (e : Edit) (count : Nat) : Edit :=
  { e with oldStart := e.oldStart + count, newStart := e.newStart + count }

end Edit

/-! ## The middle of a shortest path -/

/-- How far a search has come on each diagonal. Diagonals are numbered from `-offset` on. -/
structure Reach where
  offset : Nat
  values : Array Nat

namespace Reach

/-- Nothing reached, for diagonals up to `bound` on both sides. -/
def empty (bound : Nat) : Reach := ⟨bound + 1, Array.replicate (2 * bound + 3) 0⟩

/-- How far the search has come on a diagonal. -/
def get (r : Reach) (k : Int) : Nat := (r.values[(k + r.offset).toNat]?).getD 0

/-- Notes how far the search has come on a diagonal. -/
def set (r : Reach) (k : Int) (x : Nat) : Reach :=
  { r with values := r.values.setIfInBounds (k + r.offset).toNat x }

/-- Where the path with `d` edits starts on a diagonal. -/
def next (r : Reach) (d k : Int) : Nat :=
  if k == -d || (k != d && r.get (k - 1) < r.get (k + 1)) then r.get (k + 1)
  else r.get (k - 1) + 1

end Reach

/-- The diagonals that paths with `d` edits end on, the last one first. -/
def diagonals (d : Nat) : List Int :=
  (List.range (d + 1)).map fun (i : Nat) => (d : Int) - 2 * (i : Int)

/-- One round of the search from the beginnings. Stops at a point that the search from the ends has
met. -/
def forward (old new : Array String) (a b : Range) (d : Nat) (back : Reach) :
    List Int → Reach → Reach × Option (Nat × Nat)
  | [], reach => (reach, none)
  | k :: ks, reach =>
    let x := reach.next d k
    let y : Int := x - k
    let stop :=
      if x < a.size && 0 ≤ y && y < b.size then
        x + commonStart old new ⟨a.start + x, a.stop⟩ ⟨b.start + y.toNat, b.stop⟩
      else x
    let reach := reach.set k stop
    let delta : Int := a.size - b.size
    if delta % 2 != 0 && (k - delta).natAbs + 1 ≤ d && stop + back.get (delta - k) ≥ a.size then
      (reach, some (a.start + x, b.start + y.toNat))
    else forward old new a b d back ks reach

/-- One round of the search from the ends. Stops at a point that the search from the beginnings has
met. -/
def backward (old new : Array String) (a b : Range) (d : Nat) (front : Reach) :
    List Int → Reach → Reach × Option (Nat × Nat)
  | [], reach => (reach, none)
  | k :: ks, reach =>
    let x := reach.next d k
    let y : Int := x - k
    let advance :=
      if x < a.size && 0 ≤ y && y < b.size then
        commonEnd old new ⟨a.start, a.stop - x⟩ ⟨b.start, b.stop - y.toNat⟩
      else 0
    let stop := x + advance
    let reach := reach.set k stop
    let delta : Int := a.size - b.size
    if delta % 2 == 0 && (k - delta).natAbs ≤ d && stop + front.get (delta - k) ≥ a.size then
      (reach, some (a.stop - stop, b.stop - (y.toNat + advance)))
    else backward old new a b d front ks reach

/-- Searches from both sides with `d` edits, then with more, for at most `rounds` rounds. -/
def search (old new : Array String) (a b : Range) : Nat → Nat → Reach → Reach → Option (Nat × Nat)
  | 0, _, _, _ => none
  | rounds + 1, d, front, back =>
    match forward old new a b d back (diagonals d) front with
    | (_, some point) => some point
    | (front, none) =>
      match backward old new a b d front (diagonals d) back with
      | (_, some point) => some point
      | (back, none) => search old new a b rounds (d + 1) front back

/-- A point on a shortest path between two ranges that divides it. -/
def middle? (old new : Array String) (a b : Range) : Option (Nat × Nat) :=
  let rounds := (a.size + b.size + 1) / 2 + 1
  search old new a b rounds 0 (.empty rounds) (.empty rounds)

/-! ## Dividing -/

/-- The edits of two ranges of lines, divided at most `depth` times. -/
def divide (old new : Array String) : Nat → Range → Range → List Edit
  | 0, _, _ => []
  | depth + 1, a, b =>
    let start := commonStart old new a b
    let a' : Range := ⟨a.start + start, a.stop⟩
    let b' : Range := ⟨b.start + start, b.stop⟩
    let ending := commonEnd old new a' b'
    let c : Range := ⟨a'.start, a'.stop - ending⟩
    let d : Range := ⟨b'.start, b'.stop - ending⟩
    let inner :=
      if c.size = 0 then
        if d.size = 0 then [] else [Edit.insert c.start d.start d.size]
      else if d.size = 0 then [Edit.delete c.start c.size d.start]
      else
        match middle? old new c d with
        | some (x, y) =>
          divide old new depth ⟨c.start, x⟩ ⟨d.start, y⟩
            ++ divide old new depth ⟨x, c.stop⟩ ⟨y, d.stop⟩
        | none => [Edit.delete c.start c.size d.start, Edit.insert c.start d.start d.size]
    (if start > 0 then [Edit.keep a.start b.start start] else [])
      ++ inner
      ++ (if ending > 0 then [Edit.keep c.stop d.stop ending] else [])

/-! ## Moving insertions -/

/-- An edit with the edits before it, the nearest first, and those after it. -/
structure Focus where
  before : List Edit
  this : Edit
  after : List Edit

namespace Focus

/-- Kept lines in front of `after`, joined with kept lines that are already there. -/
def keepAbove (count oldStart newStart : Nat) : List Edit → List Edit
  | e :: rest =>
    if e.action = .keep then (e.up count).resize (e.size + count) :: rest
    else Edit.keep oldStart newStart count :: e :: rest
  | [] => [Edit.keep oldStart newStart count]

/-- Kept lines behind `before`, joined with kept lines that are already there. -/
def keepBelow (count oldStart newStart : Nat) : List Edit → List Edit
  | e :: rest =>
    if e.action = .keep then e.resize (e.size + count) :: rest
    else Edit.keep oldStart newStart count :: e :: rest
  | [] => [Edit.keep oldStart newStart count]

/-- Puts an edit in front of others, unless it is empty. -/
def putNonempty (e : Edit) (es : List Edit) : List Edit :=
  if e.size = 0 then es else e :: es

/-- Moves the edit up as far as it goes: over kept lines that end like the inserted ones, over edits
of the other kind, and into edits of the same kind. -/
def moveUp (old new : Array String) : Nat → Focus → Focus
  | 0, f => f
  | steps + 1, f =>
    match f.before with
    | [] => f
    | e :: before =>
      if e.action = .keep then
        let count := commonEnd old new e.old f.this.new
        if count > 0 then
          moveUp old new steps
            ⟨putNonempty (e.resize (e.size - count)) before, f.this.up count,
              keepAbove count (e.old.stop - count) (f.this.new.stop - count) f.after⟩
        else if e.size = 0 then moveUp old new steps ⟨before, f.this, f.after⟩
        else f
      else if e.action = f.this.action then
        moveUp old new steps ⟨before, e.resize (e.size + f.this.size), f.after⟩
      else moveUp old new steps ⟨before, f.this, e :: f.after⟩

/-- Moves the edit down as far as it goes. -/
def moveDown (old new : Array String) : Nat → Focus → Focus
  | 0, f => f
  | steps + 1, f =>
    match f.after with
    | [] => f
    | e :: after =>
      if e.action = .keep then
        let count := commonStart old new e.old f.this.new
        if count > 0 then
          moveDown old new steps
            ⟨keepBelow count e.old.start f.this.new.start f.before, f.this.down count,
              putNonempty ((e.down count).resize (e.size - count)) after⟩
        else if e.size = 0 then moveDown old new steps ⟨f.before, f.this, after⟩
        else f
      else if e.action = f.this.action then
        moveDown old new steps ⟨f.before, f.this.resize (f.this.size + e.size), after⟩
      else moveDown old new steps ⟨e :: f.before, f.this, after⟩

end Focus

/-- Moves every edit of one kind up and then down. `before` has the nearest edit first. -/
def settle (old new : Array String) (action : Action) : Nat → List Edit → List Edit → List Edit
  | 0, before, after => before.reverse ++ after
  | _ + 1, before, [] => before.reverse
  | steps + 1, before, e :: after =>
    if e.action = action then
      let bound := old.size + new.size + before.length + after.length + 2
      let f := Focus.moveDown old new (2 * bound) (Focus.moveUp old new (2 * bound) ⟨before, e, after⟩)
      settle old new action steps (f.this :: f.before) f.after
    else settle old new action steps (e :: before) after

/-! ## Joining neighbours -/

/-- The edit of deleted and inserted lines that stand next to each other. -/
def joined : Option Edit → Option Edit → List Edit
  | some d, some i => [⟨.replace, d.oldStart, d.oldSize, i.newStart, i.newSize⟩]
  | some d, none => [d]
  | none, some i => [i]
  | none, none => []

def addTo (e : Edit) : Option Edit → Option Edit
  | some f => some (f.resize (f.size + e.size))
  | none => some e

/-- Joins neighbours: kept lines, and deleted and inserted lines. The first three arguments hold
what has not been given out yet. -/
def join (kept deleted inserted : Option Edit) : List Edit → List Edit
  | [] => kept.toList ++ joined deleted inserted
  | e :: rest =>
    match e.action with
    | .keep => joined deleted inserted ++ join (addTo e kept) none none rest
    | .delete => kept.toList ++ join none (addTo e deleted) inserted rest
    | _ => kept.toList ++ join none deleted (addTo e inserted) rest

def script (old new : Array String) : List Edit :=
  let edits := divide old new (old.size + new.size + 2) ⟨0, old.size⟩ ⟨0, new.size⟩
  let bound := 2 * (old.size + new.size + edits.length) + 2
  let edits := settle old new .delete bound [] edits
  let edits := settle old new .insert bound [] edits
  join none none none edits

end CallMigration.Diff
