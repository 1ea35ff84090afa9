import CallMigration.Document.Types
import CallMigration.Rule.Recipe

/-!
# Recipes as documents

* `Placeholder.encode`, `Placeholder.decode?` : the document of a placeholder.
* `RecipeSpec.encode`, `RecipeSpec.decode?` : the document of a recipe.
-/

namespace CallMigration

open Value

namespace Placeholder

/-- The document of a placeholder; what it lacks is left out. -/
def encode (p : Placeholder) : Value :=
  .record ((p.name.map fun name => ("name", .string name)).toList
    ++ (p.type.map fun type => ("type", type.encode)).toList)

def decode? (v : Value) : Option Placeholder := do
  let fields ← v.asFields? ["name", "type"]
  let name ← withDefault? fields "name" (asOptional? asText?) none
  let type ← withDefault? fields "type" (asOptional? TypeName.decode?) none
  return ⟨name, type⟩

end Placeholder

namespace Target

def name : Target → String
  | arguments => "arguments"
  | invocation => "invocation"

/-- What a word stands for. -/
def ofName? (name : String) : Option Target :=
  if name == "arguments" then some arguments
  else if name == "invocation" then some invocation
  else none

def encode (t : Target) : Value := .string t.name

/-- Reads a target: its name, or a record with nothing under that name. -/
def decode? : Value → Option Target
  | .record [(name, .null)] => ofName? name
  | v => v.asText?.bind ofName?

end Target

def encodeOptional (encode : α → Value) : Option α → Value
  | some a => encode a
  | none => .null

namespace RecipeSpec

def fieldNames : List String :=
  ["name", "display_name", "description", "precondition", "include_implicit", "signatures",
    "subtype_matching", "template", "placeholders", "imports", "target", "selected_args", "types"]

def encode (s : RecipeSpec) : Value :=
  .record [("name", .string s.name),
    ("display_name", .ofText? s.displayName),
    ("description", .ofText? s.description),
    ("precondition", .string s.precondition),
    ("include_implicit", .bool s.includeImplicit),
    ("signatures", .ofTexts s.signatures),
    ("subtype_matching", .bool s.subtypeMatching),
    ("template", .string s.template),
    ("placeholders", encodeOptional (fun ps => .list (ps.map Placeholder.encode)) s.placeholders),
    ("imports", .ofTexts s.imports),
    ("target", s.target.encode),
    ("selected_args", encodeOptional (fun ns => .list (ns.map .ofCount)) s.selected),
    ("types", .list (s.types.map TypeInfo.encode))]

def decode? (v : Value) : Option RecipeSpec := do
  let fields ← v.asFields? fieldNames
  let name ← required? fields "name" asText?
  let displayName ← withDefault? fields "display_name" (asOptional? asText?) none
  let description ← withDefault? fields "description" (asOptional? asText?) none
  let precondition ← required? fields "precondition" asText?
  let includeImplicit ← withDefault? fields "include_implicit" asBool? true
  let signatures ← required? fields "signatures" (asList? asText?)
  let subtypeMatching ← withDefault? fields "subtype_matching" asBool? false
  let template ← required? fields "template" asText?
  let placeholders ←
    withDefault? fields "placeholders" (asOptional? (asList? Placeholder.decode?)) none
  let imports ← withDefault? fields "imports" (asList? asText?) []
  let target ← withDefault? fields "target" Target.decode? .arguments
  let selected ← withDefault? fields "selected_args" (asOptional? (asList? asCount?)) none
  let types ← withDefault? fields "types" (asList? TypeInfo.decode?) []
  return { name, displayName, description, precondition, includeImplicit, signatures
           subtypeMatching, template, placeholders, imports, target, selected, types }

end RecipeSpec

end CallMigration
