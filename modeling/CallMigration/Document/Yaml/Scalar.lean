import CallMigration.Document.Decode
import CallMigration.Document.Yaml.Cursor

/-!
# Scalars of YAML documents

* `quoted?` : texts in single or double quotes.
* `plain?` : texts without quotes.
* `block?` : texts that are set off by their indentation.
-/

namespace CallMigration.Yaml

/-! ## Quotes -/

/-- The character with a code given by hexadecimal digits. -/
def codePoint? (digits : List Char) : Option Char := do
  let n ← Value.numeral? 16 digits
  if n.isValidChar then some (Char.ofNat n) else none

/-- The characters that a letter behind a backslash stands for. -/
def escapes : List (Char × Char) :=
  [('0', Char.ofNat 0), ('a', Char.ofNat 7), ('b', Char.ofNat 8), ('t', '\t'), ('\t', '\t'),
    ('n', '\n'), ('v', Char.ofNat 11), ('f', Char.ofNat 12), ('r', '\r'), ('e', Char.ofNat 27),
    (' ', ' '), ('"', '"'), ('/', '/'), ('\\', '\\'), ('N', '\u0085'), ('_', '\u00A0'),
    ('L', '\u2028'), ('P', '\u2029')]

/-- A character given by its code, with `size` digits behind a letter. -/
def coded? (size : Nat) (c : Cursor) : Option (Char × Cursor) :=
  let digits := (c.rest.drop 1).take size
  if digits.length == size then (codePoint? digits).map fun x => (x, c.skip (size + 1)) else none

/-- The character behind a backslash. -/
def escape? (c : Cursor) : Option (Char × Cursor) :=
  match c.head? with
  | none => none
  | some x =>
    if x == 'x' then coded? 2 c
    else if x == 'u' then coded? 4 c
    else if x == 'U' then coded? 8 c
    else (escapes.lookup x).map fun y => (y, c.skip 1)

/-- Reads a word of a quoted text; `acc` has the last character first. The second answer tells
whether a backslash took away the line break behind the word. -/
def quotedWord? (quote : Char) : Nat → List Char → Cursor → Option (List Char × Bool × Cursor)
  | 0, _, _ => none
  | steps + 1, acc, c =>
    if Cursor.endsWord c.rest then some (acc, false, c)
    else
      match c.rest with
      | [] => some (acc, false, c)
      | x :: s =>
        if quote == '\'' && x == '\'' && s.head? == some '\'' then
          quotedWord? quote steps ('\'' :: acc) (c.skip 2)
        else if x == quote then some (acc, false, c)
        else if x == '\\' && quote == '"' then
          if (s.head?.map isBreak).getD false then some (acc, true, (c.skip 1).takeBreak.2)
          else
            match escape? (c.skip 1) with
            | some (y, c) => quotedWord? quote steps (y :: acc) c
            | none => none
        else quotedWord? quote steps (x :: acc) (c.skip 1)

/-- Reads a quoted text behind its opening quote. -/
def quotedRest? (quote : Char) : Nat → List Char → Cursor → Option (List Char × Cursor)
  | 0, _, _ => none
  | steps + 1, acc, c =>
    if c.isMarker || c.rest.isEmpty then none
    else
      match quotedWord? quote (c.rest.length + 1) acc c with
      | none => none
      | some (acc, isContinued, c) =>
        if c.isAt quote then some (acc, c.skip 1)
        else
          match Gap.read? 0 (c.rest.length + 1) (if isContinued then .continued else .empty) c with
          | some (gap, c) => quotedRest? quote steps (gap.text.reverse ++ acc) c
          | none => none

def quoted? (quote : Char) (c : Cursor) : Option (Value × Cursor) :=
  (quotedRest? quote (c.rest.length + 1) [] (c.skip 1)).map fun (acc, c) =>
    (.string (String.ofList acc.reverse), c)

/-! ## Plain texts -/

/-- A character that stands for itself only outside of brackets. -/
def isFlowMark (c : Char) : Bool :=
  c == ',' || c == '[' || c == ']' || c == '\x7b' || c == '\x7d'

/-- A colon between brackets that can be neither part of a text nor an indicator. -/
def isStrayColon (inFlow : Bool) (s : List Char) : Bool :=
  inFlow && match s with
    | ':' :: x :: _ => isFlowMark x || x == '?'
    | _ => false

def endsPlain (inFlow : Bool) : List Char → Bool
  | ':' :: s => Cursor.endsWord s
  | x :: _ => inFlow && isFlowMark x
  | [] => true

/-- Reads a word of a plain text; `acc` has the last character first. -/
def plainWord? (inFlow : Bool) : Nat → List Char → Cursor → Option (List Char × Cursor)
  | 0, _, _ => none
  | steps + 1, acc, c =>
    if Cursor.endsWord c.rest then some (acc, c)
    else if isStrayColon inFlow c.rest then none
    else if endsPlain inFlow c.rest then some (acc, c)
    else
      match c.rest with
      | [] => some (acc, c)
      | x :: _ => plainWord? inFlow steps (x :: acc) (c.skip 1)

/-- Reads a plain text. `gap` is the space in front of the next word; it is given back if no word
follows. Outside of brackets the text ends at a line that begins in front of column `indent`. -/
def plainRest? (inFlow : Bool) (indent : Nat) : Nat → List Char → Gap → Cursor →
    Option (List Char × Gap × Cursor)
  | 0, _, _, _ => none
  | steps + 1, acc, gap, c =>
    if c.isMarker || c.isAt '#' then some (acc, gap, c)
    else
      match plainWord? inFlow (c.rest.length + 1) [] c with
      | none => none
      | some (word, c) =>
        let (acc, gap) :=
          if word.isEmpty then (acc, gap) else (word ++ gap.text.reverse ++ acc, Gap.empty)
        if !Cursor.endsWord c.rest || c.rest.isEmpty then some (acc, gap, c)
        else
          match Gap.read? indent (c.rest.length + 1) gap c with
          | none => none
          | some (gap, c) =>
            if !inFlow && c.column < indent then some (acc, gap, c)
            else plainRest? inFlow indent steps acc gap c

/-- A plain text; the second answer tells whether a line break follows it. -/
def plain? (inFlow : Bool) (indent : Nat) (c : Cursor) : Option (Value × Bool × Cursor) :=
  (plainRest? inFlow indent (c.rest.length + 1) [] .empty c).map fun (acc, gap, c) =>
    (.plain (String.ofList acc.reverse), gap.isBroken, c)

/-! ## Blocks -/

/-- What becomes of the line breaks at the end of a block. -/
inductive Chomp where
  | strip
  | clip
  | keep
deriving DecidableEq, Repr, Inhabited

/-- Reads what follows the indicator of a block: marks for its end and its indentation. -/
def blockMarks? (s : List Char) : Option (Chomp × Option Nat × Nat) :=
  let chomp? (x : Char) : Option Chomp :=
    if x == '+' then some .keep else if x == '-' then some .strip else none
  let digit? (x : Char) : Option Nat := if x.isDigit then some (x.toNat - '0'.toNat) else none
  match s with
  | [] => some (.clip, none, 0)
  | x :: t =>
    match chomp? x, digit? x with
    | some chomp, _ =>
      match t.head?.bind digit? with
      | some 0 => none
      | some n => some (chomp, some n, 2)
      | none => some (chomp, none, 1)
    | none, some 0 => none
    | none, some n =>
      match t.head?.bind chomp? with
      | some chomp => some (chomp, some n, 2)
      | none => some (.clip, some n, 1)
    | none, none => some (.clip, none, 0)

/-- Reads empty lines of a block and the indentation of the next line; also gives the greatest column
met. Before the indentation of the block is known, all spaces count. -/
def blockBreaks? (indent : Option Nat) : Nat → Nat → List Char → Cursor →
    Option (Nat × List Char × Cursor)
  | 0, _, _, _ => none
  | steps + 1, widest, breaks, c =>
    let isInside (column : Nat) : Bool := match indent with
      | some n => column < n
      | none => true
    let spaces := (c.rest.takeWhile (· == ' ')).length
    let c := c.skip (match indent with
      | some n => min spaces (n - c.column)
      | none => spaces)
    let widest := max widest c.column
    if isInside c.column && c.isAt '\t' then none
    else
      match c.head? with
      | some x =>
        if isBreak x then
          let (written, c) := c.takeBreak
          blockBreaks? indent steps widest (breaks ++ written) c
        else some (widest, breaks, c)
      | none => some (widest, breaks, c)

/-- Reads the lines of a block; `acc` has the last character first, `last` is the line break behind
the line before, and `breaks` are those of empty lines. In a folded block a line break between two
lines that do not begin with blanks becomes a space. -/
def blockLines? (isFolded : Bool) (indent : Nat) : Nat → List Char → List Char → List Char → Bool →
    Cursor → Option (List Char × List Char × List Char × Cursor)
  | 0, _, _, _, _, _ => none
  | steps + 1, acc, last, breaks, wasBlank, c =>
    if c.column != indent || c.rest.isEmpty then some (acc, last, breaks, c)
    else
      let startsBlank := (c.head?.map isBlank).getD false
      let joint :=
        if isFolded && last == ['\n'] && !wasBlank && !startsBlank then
          if breaks.isEmpty then [' '] else []
        else last
      let text := c.rest.takeWhile (!isBreak ·)
      let acc := text.reverse ++ breaks.reverse ++ joint.reverse ++ acc
      let (last, c) := (c.skip text.length).takeBreak
      match blockBreaks? (some indent) (c.rest.length + 1) 0 [] c with
      | some (_, breaks, c) => blockLines? isFolded indent steps acc last breaks startsBlank c
      | none => none

/-- A block. `outer` is the indentation of the block around it. -/
def block? (isFolded : Bool) (outer : Option Nat) (c : Cursor) : Option (Value × Cursor) := do
  let (chomp, increment, size) ← blockMarks? (c.rest.drop 1)
  let c := (c.skip (size + 1)).skipWhile isBlank
  let c := if c.isAt '#' then c.skipWhile (!isBreak ·) else c
  if !c.rest.isEmpty && !(c.head?.map isBreak).getD false then none
  else
    let c := c.takeBreak.2
    let known := increment.map fun n => outer.getD 0 + n
    let (widest, breaks, c) ← blockBreaks? known (c.rest.length + 1) 0 [] c
    let indent := known.getD (max widest (max ((outer.map (· + 1)).getD 0) 1))
    let (acc, last, breaks, c) ←
      blockLines? isFolded indent (c.rest.length + 1) [] [] breaks false c
    let ending := match chomp with
      | .strip => []
      | .clip => last
      | .keep => last ++ breaks
    return (.string (String.ofList (acc.reverse ++ ending)), c)

end CallMigration.Yaml
