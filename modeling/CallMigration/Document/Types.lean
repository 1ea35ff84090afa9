import CallMigration.Document.Decode
import CallMigration.Types.Table

/-!
# Tables of types as documents

A table is written as a list of its types, in increasing order of their names. It is read by
inserting types in the order in which they are written, so that a type may be declared in parts.

* `TypeTable.encode`, `TypeTable.decode?` : the document of a table.
-/

namespace CallMigration

open Value

def TypeName.encode (t : TypeName) : Value := .string t.text

/-- Reads a type name; it may be written with type arguments and blanks. -/
def TypeName.decode? (v : Value) : Option TypeName :=
  v.asText?.map TypeName.ofWritten

namespace MethodInfo

def fieldNames : List String := ["name", "params", "returns", "static"]

def encode (m : MethodInfo) : Value :=
  .record [("name", .string m.name), ("params", .list (m.params.map TypeName.encode)),
    ("returns", m.returns.encode), ("static", .bool m.isStatic)]

def decode? (v : Value) : Option MethodInfo := do
  let fields ← v.asFields? fieldNames
  let name ← required? fields "name" asText?
  let params ← withDefault? fields "params" (asList? TypeName.decode?) []
  let returns ← required? fields "returns" TypeName.decode?
  let isStatic ← withDefault? fields "static" asBool? false
  return ⟨name, params, returns, isStatic⟩

end MethodInfo

namespace TypeInfo

def fieldNames : List String := ["name", "supertypes", "methods"]

def encode (t : TypeInfo) : Value :=
  .record [("name", t.name.encode), ("supertypes", .list (t.supertypes.map TypeName.encode)),
    ("methods", .list (t.methods.map MethodInfo.encode))]

def decode? (v : Value) : Option TypeInfo := do
  let fields ← v.asFields? fieldNames
  let name ← required? fields "name" TypeName.decode?
  let supertypes ← withDefault? fields "supertypes" (asList? TypeName.decode?) []
  let methods ← withDefault? fields "methods" (asList? MethodInfo.decode?) []
  return ⟨name, supertypes, methods⟩

end TypeInfo

namespace TypeTable

def encode (table : TypeTable) : Value :=
  .record [("types", .list (table.types.map TypeInfo.encode))]

def decode? (v : Value) : Option TypeTable := do
  let fields ← v.asFields? ["types"]
  return empty.insertAll (← withDefault? fields "types" (asList? TypeInfo.decode?) [])

end TypeTable

end CallMigration
