import CallMigration.Document.Value

/-!
# Tables of TOML documents

Tables grow while a document is read: by keys with dots, by headers, and by headers of lists. What
was written in one way must not be continued in another.

* `Entry` : a value, a table or a list of tables.
* `put?` : a table with one more value under a path.
* `open?`, `openItem?` : a table after the header of a table or of an item.
-/

namespace CallMigration.Toml

/-- How a table came about. -/
inductive Origin where
  /-- A longer path goes through it. -/
  | passed
  /-- Keys with dots go through it. -/
  | dotted
  /-- It has a header of its own. -/
  | headed
deriving DecidableEq, Repr, Inhabited

/-- What stands under a key. -/
inductive Entry where
  | value (v : Value)
  | table (origin : Origin) (entries : List (String × Entry))
  /-- A list of tables, the last one first. -/
  | items (tables : List (List (String × Entry)))
deriving Inhabited

abbrev Entries := List (String × Entry)

/-- The entries with another one under a key, at the same place if the key is there. -/
def assign (key : String) (e : Entry) : Entries → Entries
  | [] => [(key, e)]
  | (k, old) :: rest => if k == key then (key, e) :: rest else (k, old) :: assign key e rest

/-- Changes the table at the end of a path that headers go through. Tables on the way are made where
there are none; a list of tables is entered at its last one. -/
def reach? (change : Entries → Option Entries) : List String → Entries → Option Entries
  | [], entries => change entries
  | key :: path, entries =>
    match entries.lookup key with
    | none => (reach? change path []).map fun inner => assign key (.table .passed inner) entries
    | some (.table origin inner) =>
      (reach? change path inner).map fun inner => assign key (.table origin inner) entries
    | some (.items (last :: before)) =>
      (reach? change path last).map fun last => assign key (.items (last :: before)) entries
    | some _ => none

/-- A table with one more value under a key, which must be new. Keys with dots make tables, and a
value is added by a key with dots only to such a table. -/
def put? (v : Value) : List String → Entries → Option Entries
  | [], _ => none
  | [key], entries =>
    match entries.lookup key with
    | none => some (assign key (.value v) entries)
    | some _ => none
  | key :: next :: path, entries =>
    match entries.lookup key with
    | none => (put? v (next :: path) []).map fun inner => assign key (.table .dotted inner) entries
    | some (.table .dotted inner) =>
      (put? v (next :: path) inner).map fun inner => assign key (.table .dotted inner) entries
    | some (.table .passed inner) =>
      if path.isEmpty then none
      else (put? v (next :: path) inner).map fun inner => assign key (.table .passed inner) entries
    | some (.items (last :: before)) =>
      if path.isEmpty then none
      else (put? v (next :: path) last).map fun last => assign key (.items (last :: before)) entries
    | some _ => none

/-- A table after the header of a table, which must not have been defined. -/
def open? (path : List String) (entries : Entries) : Option Entries :=
  match path.getLast? with
  | none => none
  | some key =>
    reach? (fun parent =>
      match parent.lookup key with
      | none => some (assign key (.table .headed []) parent)
      | some (.table .passed inner) => some (assign key (.table .headed inner) parent)
      | some _ => none) path.dropLast entries

def openItem? (path : List String) (entries : Entries) : Option Entries :=
  match path.getLast? with
  | none => none
  | some key =>
    reach? (fun parent =>
      match parent.lookup key with
      | none => some (assign key (.items [[]]) parent)
      | some (.items tables) => some (assign key (.items ([] :: tables)) parent)
      | some _ => none) path.dropLast entries

mutual
def Entry.toValue : Entry → Value
  | .value v => v
  | .table _ entries => .record (fieldValues entries)
  | .items tables => .list (itemValues tables).reverse
def fieldValues : List (String × Entry) → List (String × Value)
  | [] => []
  | (key, e) :: rest => (key, e.toValue) :: fieldValues rest
def itemValues : List (List (String × Entry)) → List Value
  | [] => []
  | t :: ts => .record (fieldValues t) :: itemValues ts
end

end CallMigration.Toml
