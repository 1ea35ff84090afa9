import CallMigration.Document.Yaml.Scalar

/-!
# Tokens of YAML documents

Tokens say where collections begin and end, also where only the indentation does. A key without an
indicator is recognised by the colon behind it: its place is remembered, and the tokens for it are
put there when the colon is met.

* `Token` : what a document consists of.
* `Scan` : the tokens read so far, and what is remembered for those to come.
* `tokens?` : the tokens of a document.
-/

namespace CallMigration.Yaml

/-- What a document consists of. -/
inductive Token where
  | documentStart
  | documentEnd
  | directive
  | mappingStart
  | sequenceStart
  /-- The end of a mapping or a sequence that is set off by its indentation. -/
  | blockEnd
  | openBracket
  | closeBracket
  | openBrace
  | closeBrace
  /-- The dash in front of an element. -/
  | dash
  | comma
  | key
  | value
  | alias (name : String)
  | anchor (name : String)
  | tag
  | scalar (v : Value)
deriving Repr, Inhabited

/-- A place that may turn out to be a key. -/
structure KeyMark where
  /-- The number of tokens in front. -/
  position : Nat
  line : Nat
  column : Nat
  index : Nat
  /-- Nothing but a key can stand there. -/
  isRequired : Bool
deriving Repr, Inhabited

/-- The tokens read so far, and what is remembered for those to come. -/
structure Scan where
  cursor : Cursor
  tokens : List Token
  /-- The columns of the open blocks, the innermost first. -/
  indents : List Nat
  /-- The number of open brackets and braces. -/
  flow : Nat
  /-- A key may stand here. -/
  keyAllowed : Bool
  /-- What may turn out to be a key, for each open bracket or brace and for the blocks. -/
  keys : List (Option KeyMark)
deriving Inhabited

namespace Scan

/-- The beginning of a document. -/
def start (s : List Char) : Scan := ⟨.start s, [], [], 0, true, [none]⟩

def emit (s : Scan) (t : Token) : Scan := { s with tokens := s.tokens ++ [t] }

/-- Goes over characters. -/
def skip (s : Scan) (count : Nat) : Scan := { s with cursor := s.cursor.skip count }

/-- Inside of brackets or braces. -/
def inFlow (s : Scan) : Bool := s.flow != 0

/-- Adds a token behind the first `position` tokens. -/
def emitAt (s : Scan) (position : Nat) (t : Token) : Scan :=
  { s with tokens := s.tokens.take position ++ t :: s.tokens.drop position }

/-! ## Blocks -/

/-- A column lies deeper than the innermost block. -/
def isDeeper (s : Scan) (column : Nat) : Bool :=
  match s.indents with
  | [] => true
  | indent :: _ => indent < column

def openBlock (s : Scan) (column position : Nat) (t : Token) : Scan :=
  if !s.inFlow && s.isDeeper column then
    { s.emitAt position t with indents := column :: s.indents }
  else s

def closeDeeper (s : Scan) (column : Nat) : Scan :=
  if s.inFlow then s
  else
    let closed := s.indents.takeWhile fun indent => column < indent
    { s with
      indents := s.indents.drop closed.length
      tokens := s.tokens ++ closed.map fun _ => Token.blockEnd }

def closeAll (s : Scan) : Scan :=
  if s.inFlow then s
  else { s with indents := [], tokens := s.tokens ++ s.indents.map fun _ => Token.blockEnd }

/-! ## Keys -/

/-- Forgets the key that was expected. -/
def dropKey? (s : Scan) : Option Scan :=
  match s.keys with
  | some k :: rest => if k.isRequired then none else some { s with keys := none :: rest }
  | _ => some s

/-- Remembers that a key may begin here. -/
def markKey? (s : Scan) : Option Scan :=
  if s.keyAllowed then
    match s.dropKey? with
    | none => none
    | some s =>
      let isRequired := !s.inFlow && s.indents.head? == some s.cursor.column
      let mark : KeyMark :=
        ⟨s.tokens.length, s.cursor.line, s.cursor.column, s.cursor.index, isRequired⟩
      some { s with keys := some mark :: s.keys.drop 1 }
  else some s

/-- A key has to end on its line, within 1024 characters. -/
def isStale (c : Cursor) (k : KeyMark) : Bool :=
  k.line < c.line || k.index + 1024 < c.index

/-- Forgets what can no longer turn out to be a key. -/
def dropStale? (s : Scan) : Option Scan :=
  let isBad (k : Option KeyMark) : Bool :=
    (k.map fun k => k.isRequired && isStale s.cursor k).getD false
  if s.keys.any isBad then none
  else some { s with keys := s.keys.map fun k => k.filter fun k => !isStale s.cursor k }

/-! ## Between tokens -/

/-- Goes to the next token. Tabs may stand only where no key can. -/
def skipSpace : Nat → Scan → Scan
  | 0, s => s
  | steps + 1, s =>
    let c := s.cursor
    let c := if c.index == 0 && c.isAt '\uFEFF' then c.skip 1 else c
    let c := c.skipWhile fun x => x == ' ' || (x == '\t' && (s.inFlow || !s.keyAllowed))
    let c := if c.isAt '#' then c.skipWhile (!isBreak ·) else c
    if (c.head?.map isBreak).getD false then
      skipSpace steps
        { s with cursor := c.takeBreak.2, keyAllowed := s.keyAllowed || !s.inFlow }
    else { s with cursor := c }

/-! ## Tokens -/

/-- The mark that a document begins or ends. -/
def marker? (s : Scan) (t : Token) : Option Scan := do
  let s ← s.closeAll.dropKey?
  return { (s.emit t).skip 3 with keyAllowed := false }

def directive? (s : Scan) : Option Scan := do
  let s ← s.closeAll.dropKey?
  return { s.emit .directive with cursor := s.cursor.skipWhile (!isBreak ·), keyAllowed := false }

def openFlow? (s : Scan) (t : Token) : Option Scan := do
  let s ← s.markKey?
  return { (s.emit t).skip 1 with flow := s.flow + 1, keyAllowed := true, keys := none :: s.keys }

def closeFlow? (s : Scan) (t : Token) : Option Scan := do
  let s ← s.dropKey?
  return { (s.emit t).skip 1 with
    flow := s.flow - 1
    keyAllowed := false
    keys := if s.inFlow then s.keys.drop 1 else s.keys }

def comma? (s : Scan) : Option Scan := do
  let s ← s.dropKey?
  return { (s.emit .comma).skip 1 with keyAllowed := true }

def dash? (s : Scan) : Option Scan := do
  if !s.inFlow && !s.keyAllowed then none
  else
    let s ← (s.openBlock s.cursor.column s.tokens.length .sequenceStart).dropKey?
    return { (s.emit .dash).skip 1 with keyAllowed := true }

def keyMark? (s : Scan) : Option Scan := do
  if !s.inFlow && !s.keyAllowed then none
  else
    let s ← (s.openBlock s.cursor.column s.tokens.length .mappingStart).dropKey?
    return { (s.emit .key).skip 1 with keyAllowed := !s.inFlow }

def colon? (s : Scan) : Option Scan :=
  match s.keys with
  | some k :: rest =>
    let s := { s with keys := none :: rest }
    let s := (s.emitAt k.position .key).openBlock k.column k.position .mappingStart
    some { (s.emit .value).skip 1 with keyAllowed := false }
  | _ =>
    if !s.inFlow && !s.keyAllowed then none
    else
      let s := s.openBlock s.cursor.column s.tokens.length .mappingStart
      some { (s.emit .value).skip 1 with keyAllowed := !s.inFlow }

/-- An anchor or an alias. -/
def name? (s : Scan) (make : String → Token) : Option Scan := do
  let s ← s.markKey?
  let name := (s.cursor.rest.drop 1).takeWhile isNameChar
  let c := s.cursor.skip (name.length + 1)
  let isEnd := Cursor.endsWord c.rest || (c.head?.map "?:,]\x7d%@`".toList.contains).getD false
  if name.isEmpty || !isEnd then none
  else return { s.emit (make (String.ofList name)) with cursor := c, keyAllowed := false }

def tag? (s : Scan) : Option Scan := do
  let s ← s.markKey?
  let c := s.cursor.skipWhile fun x => !isBlank x && !isBreak x && !(s.inFlow && isFlowMark x)
  return { s.emit .tag with cursor := c, keyAllowed := false }

def quoted? (s : Scan) (quote : Char) : Option Scan := do
  let s ← s.markKey?
  let (v, c) ← Yaml.quoted? quote s.cursor
  return { s.emit (.scalar v) with cursor := c, keyAllowed := false }

/-- A text without quotes. -/
def plain? (s : Scan) : Option Scan := do
  let s ← s.markKey?
  let indent := (s.indents.head?.map (· + 1)).getD 0
  let (v, isBroken, c) ← Yaml.plain? s.inFlow indent s.cursor
  return { s.emit (.scalar v) with cursor := c, keyAllowed := isBroken }

/-- A text that is set off by its indentation. -/
def block? (s : Scan) (isFolded : Bool) : Option Scan := do
  let s ← s.dropKey?
  let (v, c) ← Yaml.block? isFolded s.indents.head? s.cursor
  return { s.emit (.scalar v) with cursor := c, keyAllowed := true }

/-- The characters that no plain text begins with. -/
def indicators : List Char := "-?:,[]\x7b\x7d#&*!|>'\"%@`".toList

/-- A plain text may begin here. -/
def startsPlain (s : Scan) : Bool :=
  match s.cursor.rest with
  | [] => false
  | x :: rest =>
    let isBlankNext := (rest.head?.map isBlank).getD false
    (!indicators.contains x && !isBlank x && !isBreak x) || (x == '-' && !isBlankNext)
      || (!s.inFlow && (x == '?' || x == ':') && !Cursor.endsWord rest)

/-- Reads the token at the cursor. -/
def next? (s : Scan) : Option Scan :=
  match s.cursor.rest with
  | [] => none
  | x :: rest =>
    if s.cursor.column == 0 && x == '%' then s.directive?
    else if s.cursor.isMarker then s.marker? (if x == '-' then .documentStart else .documentEnd)
    else if x == '[' then s.openFlow? .openBracket
    else if x == '\x7b' then s.openFlow? .openBrace
    else if x == ']' then s.closeFlow? .closeBracket
    else if x == '\x7d' then s.closeFlow? .closeBrace
    else if x == ',' then s.comma?
    else if x == '-' && Cursor.endsWord rest then s.dash?
    else if x == '?' && (s.inFlow || Cursor.endsWord rest) then s.keyMark?
    else if x == ':' && (s.inFlow || Cursor.endsWord rest) then s.colon?
    else if x == '*' then s.name? .alias
    else if x == '&' then s.name? .anchor
    else if x == '!' then s.tag?
    else if x == '|' && !s.inFlow then s.block? false
    else if x == '>' && !s.inFlow then s.block? true
    else if x == '\'' || x == '"' then s.quoted? x
    else if s.startsPlain then s.plain?
    else none

def run? : Nat → Scan → Option (List Token)
  | 0, _ => none
  | steps + 1, s =>
    match (skipSpace (s.cursor.rest.length + 1) s).dropStale? with
    | none => none
    | some s =>
      if s.cursor.rest.isEmpty then s.closeAll.dropKey?.map (·.tokens)
      else
        match (s.closeDeeper s.cursor.column).next? with
        | some s => run? steps s
        | none => none

end Scan

def tokens? (content : String) : Option (List Token) :=
  let s := content.toList
  if (s.dropWhile (· == '\uFEFF')).all isAllowed then (Scan.start s).run? (s.length + 2) else none

end CallMigration.Yaml
