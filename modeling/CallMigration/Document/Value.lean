/-!
# Documents

A `Value` is what a configuration document says, whatever format it was written in. Formats that
do not mark texts leave a scalar `plain`, and what it means depends on what is asked for.
-/

namespace CallMigration

/-- A value of a document. -/
inductive Value where
  | null
  | bool (b : Bool)
  /-- A whole number. -/
  | int (n : Int)
  /-- Any other number or a date, as it was written. -/
  | other (text : String)
  | string (s : String)
  /-- A scalar without quotes, in a format where it may be a text or something else. -/
  | plain (text : String)
  /-- A list. It may also stand for a record whose values it gives in order. -/
  | list (vs : List Value)
  /-- A list in a format where lists never stand for records. -/
  | sequence (vs : List Value)
  /-- Named values in the order in which they were written. -/
  | record (fields : List (String × Value))
deriving Repr, Inhabited

namespace Value

/-- The value of the first field with a name; none if the value is no record. -/
def field? (name : String) : Value → Option Value
  | record fields => fields.lookup name
  | _ => none

def string? : Value → Option String
  | string s => some s
  | _ => none

def ofText? : Option String → Value
  | some s => string s
  | none => null

end Value

end CallMigration
