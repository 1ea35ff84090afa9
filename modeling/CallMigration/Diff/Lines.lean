/-!
# Lines

Texts are compared line by line. A line ends with a line feed, a carriage return, or both, which
belong to it; the last line may lack them.

* `splitLines` : the lines of a text.
* `commonStart`, `commonEnd` : how far two ranges of lines agree.
-/

namespace CallMigration.Diff

/-- The lines of a text; `line` holds the characters of the current line, the last one first. -/
def splitLinesFrom (line : List Char) : List Char → List String
  | [] => if line.isEmpty then [] else [String.ofList line.reverse]
  | '\r' :: '\n' :: s => String.ofList ('\n' :: '\r' :: line).reverse :: splitLinesFrom [] s
  | c :: s =>
    if c == '\r' || c == '\n' then String.ofList (c :: line).reverse :: splitLinesFrom [] s
    else splitLinesFrom (c :: line) s

def splitLines (text : String) : List String :=
  splitLinesFrom [] text.toList

def isUnterminated (line : String) : Bool :=
  match line.toList.getLast? with
  | some c => c != '\n' && c != '\r'
  | none => true

/-- Lines `start` to `stop` of a text, the last one excluded. -/
structure Range where
  start : Nat
  stop : Nat
deriving DecidableEq, Repr, Inhabited

/-- The number of lines. -/
def Range.size (r : Range) : Nat := r.stop - r.start

/-- The number of equal lines from `i` and `j` on, at most `limit`. -/
def agreeFrom (old new : Array String) (i j : Nat) : Nat → Nat
  | 0 => 0
  | limit + 1 =>
    match old[i]?, new[j]? with
    | some a, some b => if a == b then agreeFrom old new (i + 1) (j + 1) limit + 1 else 0
    | _, _ => 0

/-- The number of lines at the beginnings of two ranges that agree. -/
def commonStart (old new : Array String) (a b : Range) : Nat :=
  agreeFrom old new a.start b.start (min a.size b.size)

/-- The number of equal lines before `i` and `j`, at most `limit`. -/
def agreeBefore (old new : Array String) (i j : Nat) : Nat → Nat
  | 0 => 0
  | limit + 1 =>
    match old[i - 1]?, new[j - 1]? with
    | some a, some b => if a == b then agreeBefore old new (i - 1) (j - 1) limit + 1 else 0
    | _, _ => 0

/-- The number of lines at the ends of two ranges that agree. -/
def commonEnd (old new : Array String) (a b : Range) : Nat :=
  agreeBefore old new a.stop b.stop (min a.size b.size)

end CallMigration.Diff
