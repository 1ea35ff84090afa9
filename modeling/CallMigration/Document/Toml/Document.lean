import CallMigration.Document.Toml.Scalar
import CallMigration.Document.Toml.Table

/-!
# TOML documents

* `value?` : a value of any kind.
* `parse?` : a whole document.
-/

namespace CallMigration.Toml

/-! ## Keys -/

def isKeyChar (c : Char) : Bool :=
  c.isAlphanum || c == '_' || c == '-'

def simpleKey? : List Char → Option (String × List Char)
  | '"' :: s => lineString? '"' (s.length + 1) [] s
  | '\'' :: s => lineString? '\'' (s.length + 1) [] s
  | s =>
    let word := s.takeWhile isKeyChar
    if word.isEmpty then none else some (String.ofList word, s.drop word.length)

/-- The parts of a key, with dots between them and blanks around the dots. -/
def key? : Nat → List Char → Option (List String × List Char)
  | 0, _ => none
  | steps + 1, s =>
    match simpleKey? s with
    | none => none
    | some (part, s) =>
      match skipBlanks s with
      | '.' :: t => (key? steps (skipBlanks t)).map fun (parts, t) => (part :: parts, t)
      | t => some ([part], t)

/-! ## Values -/

mutual
def value? : Nat → List Char → Option (Value × List Char)
  | 0, _ => none
  | steps + 1, s =>
    match s with
    | '[' :: s => (elements? steps [] s).map fun (vs, s) => (.list vs, s)
    | '\x7b' :: s =>
      match skipBlanks s with
      | '\x7d' :: s => some (.record [], s)
      | s => (pairs? steps [] s).map fun (entries, s) => (.record (fieldValues entries), s)
    | '"' :: _ => (string? s).map fun (t, s) => (.string t, s)
    | '\'' :: _ => (string? s).map fun (t, s) => (.string t, s)
    | s => bare? s

/-- The rest of a list; `acc` has the last element first. Line breaks and comments may stand between
the elements, and a comma behind the last one. -/
def elements? : Nat → List Value → List Char → Option (List Value × List Char)
  | 0, _, _ => none
  | steps + 1, acc, s =>
    match skipLines s.length s with
    | ']' :: s => some (acc.reverse, s)
    | s =>
      match value? steps s with
      | none => none
      | some (v, s) =>
        match skipLines s.length s with
        | ',' :: s => elements? steps (v :: acc) s
        | ']' :: s => some ((v :: acc).reverse, s)
        | _ => none

/-- A key, an equals sign and a value, with blanks around each. -/
def pair? : Nat → List Char → Option (List String × Value × List Char)
  | 0, _ => none
  | steps + 1, s =>
    match key? (s.length + 1) (skipBlanks s) with
    | some (path, '=' :: s) =>
      (value? steps (skipBlanks s)).map fun (v, s) => (path, v, skipBlanks s)
    | _ => none

/-- The rest of a table between braces. -/
def pairs? : Nat → Entries → List Char → Option (Entries × List Char)
  | 0, _, _ => none
  | steps + 1, entries, s =>
    match pair? steps s with
    | none => none
    | some (path, v, s) =>
      match put? v path entries with
      | none => none
      | some entries =>
        match s with
        | ',' :: s => pairs? steps entries s
        | '\x7d' :: s => some (entries, s)
        | _ => none
end

/-! ## Documents -/

/-- The path between the brackets of a header, and what follows the brackets. -/
def header? (close : List Char) (s : List Char) : Option (List String × List Char) :=
  match key? (s.length + 1) (skipBlanks s) with
  | none => none
  | some (path, s) => (close.isPrefixOf? s).map fun s => (path, s)

/-- Reads lines; `path` leads to the table that pairs belong to. -/
def lines? : Nat → List String → Entries → List Char → Option Entries
  | 0, _, _, _ => none
  | steps + 1, path, root, s =>
    match skipBlanks s with
    | [] => some root
    | '[' :: '[' :: s =>
      match header? [']', ']'] s with
      | none => none
      | some (path, s) =>
        match openItem? path root, skipLine? s with
        | some root, some s => lines? steps path root s
        | _, _ => none
    | '[' :: s =>
      match header? [']'] s with
      | none => none
      | some (path, s) =>
        match open? path root, skipLine? s with
        | some root, some s => lines? steps path root s
        | _, _ => none
    | s =>
      match skipLine? s with
      | some s => lines? steps path root s
      | none =>
        match pair? (2 * s.length + 2) s with
        | none => none
        | some (key, v, s) =>
          match reach? (put? v key) path root, skipLine? s with
          | some root, some s => lines? steps path root s
          | _, _ => none

/-- Reads a document. A byte order mark may stand in front of it. -/
def parse? (content : String) : Option Value :=
  let s := content.toList
  let s := if s.head? == some '\uFEFF' then s.drop 1 else s
  (lines? (s.length + 1) [] [] s).map fun root => .record (fieldValues root)

end CallMigration.Toml
