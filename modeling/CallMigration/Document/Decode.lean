import CallMigration.Document.Value

/-!
# Reading values

What a value means depends on what is asked for. Each function here answers one such question and
fails if the value is nothing of the kind; a scalar without quotes may be an answer to several.

* `asText?`, `asBool?`, `asCount?`, `asOptional?`, `asList?` : scalars, absent values and lists.
* `asFields?` : the fields of a record, of which no known one may be repeated.
* `required?`, `withDefault?` : single fields.
-/

namespace CallMigration.Value

/-! ## Scalars -/

/-- A text. A scalar without quotes is taken as written. -/
def asText? : Value → Option String
  | string s => some s
  | plain s => some s
  | _ => none

def asBool? : Value → Option Bool
  | bool b => some b
  | plain s =>
    if ["true", "True", "TRUE"].contains s then some true
    else if ["false", "False", "FALSE"].contains s then some false
    else none
  | _ => none

def digit? (base : Nat) (c : Char) : Option Nat :=
  let value :=
    if '0' ≤ c ∧ c ≤ '9' then c.toNat - '0'.toNat
    else if 'a' ≤ c ∧ c ≤ 'f' then c.toNat - 'a'.toNat + 10
    else if 'A' ≤ c ∧ c ≤ 'F' then c.toNat - 'A'.toNat + 10
    else 16
  if value < base then some value else none

/-- The number that digits stand for; there has to be one, and it has to fit into 64 bits. -/
def numeral? (base : Nat) (s : List Char) : Option Nat :=
  if s.isEmpty then none
  else
    match s.mapM (digit? base) with
    | some ds =>
      let n := ds.foldl (fun n d => n * base + d) 0
      if n < UInt64.size then some n else none
    | none => none

/-- A count without quotes: decimal without leading zeros, or with a mark for another base. -/
def plainCount? (s : List Char) : Option Nat :=
  let s := match s with
    | '+' :: s => s
    | s => s
  match s with
  | ['0'] => some 0
  | '0' :: 'x' :: s => numeral? 16 s
  | '0' :: 'o' :: s => numeral? 8 s
  | '0' :: 'b' :: s => numeral? 2 s
  | '0' :: _ => none
  | s => numeral? 10 s

def asCount? : Value → Option Nat
  | int n => if 0 ≤ n ∧ n < UInt64.size then some n.toNat else none
  | plain s => plainCount? s.toList
  | _ => none

/-! ## Absent values and lists -/

def isAbsent : Value → Bool
  | null => true
  | plain s => ["", "~", "null", "Null", "NULL"].contains s
  | _ => false

def asOptional? (decode : Value → Option α) (v : Value) : Option (Option α) :=
  if v.isAbsent then some none else (decode v).map some

/-- The elements of a list. Nothing at all is an empty list. -/
def elements? : Value → Option (List Value)
  | list vs => some vs
  | sequence vs => some vs
  | plain s => if s.isEmpty then some [] else none
  | _ => none

def asList? (decode : Value → Option α) (v : Value) : Option (List α) :=
  v.elements?.bind (·.mapM decode)

/-! ## Records -/

def areDistinct : List String → Bool
  | [] => true
  | name :: names => !names.contains name && areDistinct names

/-- The fields of a record with known names; others are ignored. No known name may be repeated.
Where lists may stand for records, they give the first values in order. Nothing at all is an empty
record. -/
def asFields? (names : List String) : Value → Option (List (String × Value))
  | record fields =>
    let known := fields.filter fun (name, _) => names.contains name
    if areDistinct (known.map (·.1)) then some known else none
  | list vs => if vs.length ≤ names.length then some (names.zip vs) else none
  | plain s => if s.isEmpty then some [] else none
  | _ => none

def required? (fields : List (String × Value)) (name : String) (decode : Value → Option α) :
    Option α :=
  (fields.lookup name).bind decode

def withDefault? (fields : List (String × Value)) (name : String) (decode : Value → Option α)
    (default : α) : Option α :=
  match fields.lookup name with
  | some v => decode v
  | none => some default

/-! ## Writing -/

def ofTexts (ss : List String) : Value :=
  list (ss.map string)

def ofCount (n : Nat) : Value :=
  int n

end CallMigration.Value
