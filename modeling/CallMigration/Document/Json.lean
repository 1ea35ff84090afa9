import CallMigration.Document.Value

/-!
# JSON documents

* `Json.parse?` : reads a document.
* `Json.render` : writes one on a single line.
-/

namespace CallMigration.Json

/-! ## Reading -/

/-- Goes over spaces, tabs and line breaks. -/
def skipSpace (s : List Char) : List Char :=
  s.dropWhile fun c => c == ' ' || c == '\t' || c == '\n' || c == '\r'

def hexValue? (c : Char) : Option Nat :=
  if c.isDigit then some (c.toNat - '0'.toNat)
  else if 'a' ≤ c ∧ c ≤ 'f' then some (c.toNat - 'a'.toNat + 10)
  else if 'A' ≤ c ∧ c ≤ 'F' then some (c.toNat - 'A'.toNat + 10)
  else none

/-- Four hexadecimal digits. -/
def hex4? : List Char → Option (Nat × List Char)
  | a :: b :: c :: d :: s => do
    let n := (((← hexValue? a) * 16 + (← hexValue? b)) * 16 + (← hexValue? c)) * 16
    return (n + (← hexValue? d), s)
  | _ => none

/-- The character of a code unit escape; two escapes make one character where the first is a high
surrogate. -/
def unicodeEscape? (s : List Char) : Option (Char × List Char) := do
  let (n, s) ← hex4? s
  if 0xD800 ≤ n ∧ n < 0xDC00 then
    match s with
    | '\\' :: 'u' :: s =>
      let (m, s) ← hex4? s
      if 0xDC00 ≤ m ∧ m < 0xE000 then
        return (Char.ofNat (0x10000 + (n - 0xD800) * 0x400 + (m - 0xDC00)), s)
      else none
    | _ => none
  else if 0xDC00 ≤ n ∧ n < 0xE000 then none
  else return (Char.ofNat n, s)

/-- The character behind a backslash. -/
def escape? : List Char → Option (Char × List Char)
  | '"' :: s => some ('"', s)
  | '\\' :: s => some ('\\', s)
  | '/' :: s => some ('/', s)
  | 'b' :: s => some (Char.ofNat 8, s)
  | 'f' :: s => some (Char.ofNat 12, s)
  | 'n' :: s => some ('\n', s)
  | 'r' :: s => some ('\r', s)
  | 't' :: s => some ('\t', s)
  | 'u' :: s => unicodeEscape? s
  | _ => none

/-- The rest of a string behind its opening quote; `acc` has the last character first. -/
def stringBody? : Nat → List Char → List Char → Option (String × List Char)
  | 0, _, _ => none
  | steps + 1, acc, s =>
    match s with
    | [] => none
    | '"' :: s => some (String.ofList acc.reverse, s)
    | '\\' :: s =>
      match escape? s with
      | some (c, s) => stringBody? steps (c :: acc) s
      | none => none
    | c :: s => if c.toNat < 32 then none else stringBody? steps (c :: acc) s

def digits (s : List Char) : List Char × List Char :=
  (s.takeWhile Char.isDigit, s.dropWhile Char.isDigit)

def natOfDigits (ds : List Char) : Nat :=
  ds.foldl (fun n c => n * 10 + (c.toNat - '0'.toNat)) 0

/-- The whole numbers that are not taken for inexact ones. -/
def isExact (n : Int) : Bool :=
  -0x8000000000000000 ≤ n && n < UInt64.size

/-- A number. A negative zero is no whole number. -/
def number? (s : List Char) : Option (Value × List Char) :=
  let (negative, body) :=
    match s with
    | '-' :: r => (true, r)
    | _ => (false, s)
  let (whole, afterWhole) := digits body
  if whole.isEmpty || (whole.length > 1 && whole.head? == some '0') then none
  else
    let fraction : Option (Bool × List Char) :=
      match afterWhole with
      | '.' :: r => let (ds, r) := digits r; if ds.isEmpty then none else some (true, r)
      | r => some (false, r)
    match fraction with
    | none => none
    | some (hasFraction, afterFraction) =>
      let power : Option (Bool × List Char) :=
        match afterFraction with
        | c :: r =>
          if c == 'e' || c == 'E' then
            let r := match r with
              | '+' :: r => r
              | '-' :: r => r
              | r => r
            let (ds, r) := digits r
            if ds.isEmpty then none else some (true, r)
          else some (false, c :: r)
        | [] => some (false, [])
      match power with
      | none => none
      | some (hasPower, rest) =>
        let n : Int := natOfDigits whole
        let n := if negative then -n else n
        if hasFraction || hasPower || (negative && n == 0) || !isExact n then
          some (.other (String.ofList (s.take (s.length - rest.length))), rest)
        else some (.int n, rest)

mutual
/-- A value; `steps` bounds the number of parts. -/
def value? : Nat → List Char → Option (Value × List Char)
  | 0, _ => none
  | steps + 1, s =>
    match skipSpace s with
    | '"' :: s => (stringBody? (s.length + 1) [] s).map fun (t, s) => (.string t, s)
    | '[' :: s =>
      match skipSpace s with
      | ']' :: s => some (.list [], s)
      | s => (elements? steps [] s).map fun (vs, s) => (.list vs, s)
    | '\x7b' :: s =>
      match skipSpace s with
      | '\x7d' :: s => some (.record [], s)
      | s => (fields? steps [] s).map fun (fs, s) => (.record fs, s)
    | 't' :: 'r' :: 'u' :: 'e' :: s => some (.bool true, s)
    | 'f' :: 'a' :: 'l' :: 's' :: 'e' :: s => some (.bool false, s)
    | 'n' :: 'u' :: 'l' :: 'l' :: s => some (.null, s)
    | s => number? s

def elements? : Nat → List Value → List Char → Option (List Value × List Char)
  | 0, _, _ => none
  | steps + 1, acc, s =>
    match value? steps s with
    | none => none
    | some (v, s) =>
      match skipSpace s with
      | ',' :: s => elements? steps (v :: acc) s
      | ']' :: s => some ((v :: acc).reverse, s)
      | _ => none

/-- The fields of a record behind its opening brace. -/
def fields? : Nat → List (String × Value) → List Char → Option (List (String × Value) × List Char)
  | 0, _, _ => none
  | steps + 1, acc, s =>
    match skipSpace s with
    | '"' :: s =>
      match stringBody? (s.length + 1) [] s with
      | none => none
      | some (name, s) =>
        match skipSpace s with
        | ':' :: s =>
          match value? steps s with
          | none => none
          | some (v, s) =>
            match skipSpace s with
            | ',' :: s => fields? steps ((name, v) :: acc) s
            | '\x7d' :: s => some (((name, v) :: acc).reverse, s)
            | _ => none
        | _ => none
    | _ => none
end

/-- Reads a document; nothing but space may follow the value. -/
def parse? (content : String) : Option Value :=
  let s := content.toList
  match value? (2 * s.length + 2) s with
  | some (v, rest) => if (skipSpace rest).isEmpty then some v else none
  | none => none

/-! ## Writing -/

def hexDigit (n : Nat) : Char :=
  Char.ofNat (if n < 10 then '0'.toNat + n else 'a'.toNat + (n - 10))

/-- A character of a string: quotes, backslashes and control characters are escaped. -/
def escapeChar (c : Char) : List Char :=
  if c == '"' then ['\\', '"']
  else if c == '\\' then ['\\', '\\']
  else if c == '\n' then ['\\', 'n']
  else if c == '\r' then ['\\', 'r']
  else if c == '\t' then ['\\', 't']
  else if c.toNat < 32 then
    ['\\', 'u', '0', '0', hexDigit (c.toNat / 16), hexDigit (c.toNat % 16)]
  else [c]

def quote (s : String) : String :=
  "\"" ++ String.ofList (s.toList.flatMap escapeChar) ++ "\""

mutual
def render : Value → String
  | .null => "null"
  | .bool b => if b then "true" else "false"
  | .int n => toString n
  | .other text => text
  | .string s => quote s
  | .plain s => quote s
  | .list vs | .sequence vs => "[" ++ ",".intercalate (renderAll vs) ++ "]"
  | .record fs => "\x7b" ++ ",".intercalate (renderFields fs) ++ "\x7d"
def renderAll : List Value → List String
  | [] => []
  | v :: vs => render v :: renderAll vs
def renderFields : List (String × Value) → List String
  | [] => []
  | (name, v) :: fs => (quote name ++ ":" ++ render v) :: renderFields fs
end

end CallMigration.Json
