import CallMigration.Document.Value

/-!
# Places in YAML documents

* `Cursor` : what is left of a document, and where it begins.
* `Gap` : space between two words of a text, and the text that it stands for.
-/

namespace CallMigration.Yaml

/-! ## Characters -/

def isBreak (c : Char) : Bool :=
  c == '\n' || c == '\r' || c == '\u0085' || c == '\u2028' || c == '\u2029'

/-- A space or a tab. -/
def isBlank (c : Char) : Bool := c == ' ' || c == '\t'

/-- A document may hold the character. -/
def isAllowed (c : Char) : Bool :=
  let n := c.toNat
  n == 0x09 || n == 0x0A || n == 0x0D || (0x20 ≤ n && n ≤ 0x7E) || n == 0x85
    || (0xA0 ≤ n && n ≤ 0xD7FF) || (0xE000 ≤ n && n ≤ 0xFFFD && n != 0xFEFF) || 0x10000 ≤ n

def isNameChar (c : Char) : Bool :=
  c.isAlphanum || c == '_' || c == '-'

/-! ## Cursors -/

/-- What is left of a document, and where it begins. -/
structure Cursor where
  rest : List Char
  line : Nat
  column : Nat
  /-- The number of characters in front. -/
  index : Nat
deriving Repr, Inhabited

namespace Cursor

/-- The beginning of a document. -/
def start (s : List Char) : Cursor := ⟨s, 0, 0, 0⟩

/-- The next character. -/
def head? (c : Cursor) : Option Char := c.rest.head?

/-- The next character is the given one. -/
def isAt (c : Cursor) (x : Char) : Bool := c.head? == some x

def endsWord : List Char → Bool
  | [] => true
  | x :: _ => isBlank x || isBreak x

/-- Goes over characters of a line. -/
def skip (c : Cursor) (count : Nat) : Cursor :=
  { c with rest := c.rest.drop count, column := c.column + count, index := c.index + count }

/-- Goes over characters of a line that have a property. -/
def skipWhile (c : Cursor) (p : Char → Bool) : Cursor :=
  c.skip (c.rest.takeWhile p).length

/-- Goes over a line break and gives the text it stands for. -/
def takeBreak (c : Cursor) : List Char × Cursor :=
  match c.rest with
  | '\r' :: '\n' :: s => (['\n'], ⟨s, c.line + 1, 0, c.index + 2⟩)
  | x :: s =>
    (if x == '\u2028' || x == '\u2029' then [x] else ['\n'], ⟨s, c.line + 1, 0, c.index + 1⟩)
  | [] => ([], c)

/-- A line begins with the mark that a document begins or ends. -/
def isMarker (c : Cursor) : Bool :=
  c.column == 0 && match c.rest with
    | '-' :: '-' :: '-' :: s => endsWord s
    | '.' :: '.' :: '.' :: s => endsWord s
    | _ => false

end Cursor

/-! ## Gaps -/

/-- Space between two words of a text. -/
structure Gap where
  /-- The blanks in front of the first line break. -/
  blanks : List Char
  /-- The first line break. -/
  first : List Char
  /-- The other line breaks. -/
  more : List Char
  /-- There is a line break. -/
  isBroken : Bool
deriving Repr, Inhabited

namespace Gap

def empty : Gap := ⟨[], [], [], false⟩

/-- A line break that stands for nothing. -/
def continued : Gap := ⟨[], [], [], true⟩

/-- The text that the space stands for: a single line break becomes a space, and of several the first
one is dropped. -/
def text (g : Gap) : List Char :=
  if !g.isBroken then g.blanks
  else if g.first == ['\n'] then if g.more.isEmpty then [' '] else g.more
  else g.first ++ g.more

/-- Reads space. No tab may stand behind a line break in front of column `indent`. -/
def read? (indent : Nat) : Nat → Gap → Cursor → Option (Gap × Cursor)
  | 0, _, _ => none
  | steps + 1, g, c =>
    match c.head? with
    | none => some (g, c)
    | some x =>
      if isBlank x then
        if g.isBroken && c.column < indent && x == '\t' then none
        else
          read? indent steps (if g.isBroken then g else { g with blanks := g.blanks ++ [x] })
            (c.skip 1)
      else if isBreak x then
        let (written, c) := c.takeBreak
        read? indent steps
          (if g.isBroken then { g with more := g.more ++ written }
            else { g with first := written, isBroken := true }) c
      else some (g, c)

end Gap

end CallMigration.Yaml
