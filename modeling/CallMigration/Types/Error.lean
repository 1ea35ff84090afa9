/-!
# Malformed types

What can be wrong with the text of a type or of a type pattern, and how it is reported.
-/

namespace CallMigration

/-- What is wrong with a type pattern. -/
inductive PatternFault where
  /-- A pattern without a wildcard is no type name. -/
  | typeName
  /-- The package in front of a wildcard is not a dotted list of identifiers. -/
  | package
deriving DecidableEq, Repr

def PatternFault.message : PatternFault → String
  | typeName => "not a fully-qualified type name"
  | package => "package prefix must be dot-separated identifiers"

/-- A text that is no type name or no type pattern. -/
inductive TypeError where
  /-- A segment of the name is no identifier. -/
  | name (written : String)
  /-- The pattern has the given fault. -/
  | pattern (written : String) (fault : PatternFault)
deriving DecidableEq, Repr

def TypeError.message : TypeError → String
  | name written => s!"Invalid type name `{written}`"
  | pattern written fault => s!"Invalid type pattern `{written}`: {fault.message}"

end CallMigration
