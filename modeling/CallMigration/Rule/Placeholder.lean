import CallMigration.Types.Name

/-!
# Placeholders

A placeholder marks a slot of a template, for an argument of the call that the template is applied
to. It is written between a number sign with an opening brace and a closing brace: nothing, a name,
a type as in `any(long)`, or both with a colon in between.

* `Placeholder.parse?`, `Placeholder.render` : the notation.
* `pieces` : the placeholders of a text and the characters between them.
* `slotName`, `slotIndex?` : the identifiers that stand for slots in a compiled template.
-/

namespace CallMigration

open Text

/-- A slot of a template. -/
structure Placeholder where
  name : Option String
  /-- The type that the argument has to have. -/
  type : Option TypeName
deriving DecidableEq, Repr, Inhabited

namespace Placeholder

/-- A slot for any argument. -/
def any : Placeholder := ⟨none, none⟩

def named (name : String) : Placeholder := ⟨some name, none⟩

def typed (type : String) : Placeholder := ⟨none, some (TypeName.ofWritten type)⟩

/-- Reads the type of a slot, written as `any(type)`. -/
def parseType? (s : List Char) : Option TypeName := do
  let rest ← "any(".toList.isPrefixOf? s
  let inner ← [')'].isSuffixOf? rest
  TypeName.parse? (String.ofList (trim inner))

/-- Reads what stands between the braces. -/
def parse? (content : List Char) : Option Placeholder :=
  let trimmed := trim content
  if trimmed.isEmpty then some any
  else
    match splitFirst (· == ':') trimmed with
    | some (name, type) =>
      if isIdentifier (trim name) then
        (parseType? (trim type)).map fun t => ⟨some (String.ofList (trim name)), some t⟩
      else none
    | none =>
      if "any(".toList.isPrefixOf trimmed then (parseType? trimmed).map fun t => ⟨none, some t⟩
      else if isIdentifier trimmed then some (named (String.ofList trimmed))
      else none

/-- What stands between the braces. -/
def content (p : Placeholder) : String :=
  match p.name, p.type with
  | none, none => ""
  | some name, none => name
  | none, some type => "any(" ++ type.text ++ ")"
  | some name, some type => name ++ ":any(" ++ type.text ++ ")"

def render (p : Placeholder) : String :=
  "#\x7b" ++ p.content ++ "\x7d"

instance : ToString Placeholder := ⟨render⟩

end Placeholder

/-! ## Placeholders in a text -/

/-- A part of a text with placeholders. -/
inductive Piece where
  /-- A character outside of placeholders. -/
  | char (c : Char)
  /-- What stands between the braces of a placeholder. -/
  | slot (content : List Char)
deriving DecidableEq, Repr

/-- What stands between the braces of the placeholder at the beginning of a text, and what follows
it. No brace may stand between the braces. -/
def slotAt? : List Char → Option (List Char × List Char)
  | '#' :: '\x7b' :: s =>
    let content := s.takeWhile fun c => c != '\x7b' && c != '\x7d'
    match s.drop content.length with
    | '\x7d' :: rest => some (content, rest)
    | _ => none
  | _ => none

/-- The parts of a text of at most `size` characters. -/
def piecesWithin : Nat → List Char → List Piece
  | 0, _ => []
  | _ + 1, [] => []
  | size + 1, c :: s =>
    match slotAt? (c :: s) with
    | some (content, rest) => .slot content :: piecesWithin size rest
    | none => .char c :: piecesWithin size s

/-- The parts of a text, from left to right. -/
def pieces (s : List Char) : List Piece :=
  piecesWithin s.length s

namespace Placeholder

/-- Reads placeholders, or gives the first content that is none. -/
def parseAll : List Piece → Except (List Char) (List Placeholder)
  | [] => .ok []
  | .char _ :: ps => parseAll ps
  | .slot content :: ps =>
    match parse? content with
    | some p => (parseAll ps).map (p :: ·)
    | none => .error content

/-- The placeholders of a text in order, or the first content that is no placeholder. -/
def scan (fragment : String) : Except (List Char) (List Placeholder) :=
  parseAll (pieces fragment.toList)

end Placeholder

/-! ## Slots -/

def slotHead : String := "__hcrewrite_slot"

def slotTail : String := "__"

def slotName (index : Nat) : String :=
  slotHead ++ toString index ++ slotTail

/-- Reads a number of at most 64 bits; a plus sign may stand in front. -/
def readIndex? (s : List Char) : Option Nat :=
  let digits := match s with
    | '+' :: rest => rest
    | _ => s
  if digits.isEmpty || !digits.all Char.isDigit then none
  else
    let n := digits.foldl (fun n c => n * 10 + (c.toNat - '0'.toNat)) 0
    if n < UInt64.size then some n else none

def slotIndex? (text : String) : Option Nat := do
  let rest ← slotHead.toList.isPrefixOf? text.toList
  let digits ← slotTail.toList.isSuffixOf? rest
  readIndex? digits

/-- Replaces the placeholders by the identifiers of the slots from `index` on. -/
def fillSlots : Nat → List Piece → List Char
  | _, [] => []
  | index, .char c :: ps => c :: fillSlots index ps
  | index, .slot _ :: ps => (slotName index).toList ++ fillSlots (index + 1) ps

end CallMigration
