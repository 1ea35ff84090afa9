import CallMigration.Document.Json
import CallMigration.Document.Recipe
import CallMigration.Document.Toml.Document
import CallMigration.Document.Yaml.Document
import CallMigration.Text.Uppercase

/-!
# Formats of documents

The format of a document follows from the extension of its file, in the same way for every kind of
document.

* `Format.ofPath` : the format of a file.
* `Format.parse?` : reads a document.
* `Format.table`, `Format.recipe` : read tables and recipes.
-/

namespace CallMigration

/-- How a document is written. -/
inductive Format where
  | toml
  | json
  | yaml
deriving DecidableEq, Repr, Inhabited

/-- What can be wrong with a document. -/
inductive DocumentError where
  /-- No format goes with the extension. -/
  | unsupported (extension : String)
  /-- The text is no document of the format, or not of the expected kind. -/
  | malformed (format : Format)
  /-- The file cannot be read. -/
  | unreadable
deriving DecidableEq, Repr

/-! ## Paths -/

/-- The components of a path, without empty ones and those that mean the directory itself. -/
def pathComponents (path : List Char) : List (List Char) :=
  (path.splitOn '/').filter fun c => !c.isEmpty && c != ['.']

/-- What follows the last dot of the last component of a path. A dot in front of the whole component
does not count. -/
def extension? (path : List Char) : Option (List Char) :=
  match (pathComponents path).getLast? with
  | none => none
  | some name =>
    if name == ['.', '.'] then none
    else
      match Text.splitLast (· == '.') name with
      | some (stem, ending) => if stem.isEmpty then none else some ending
      | none => none

/-! ## Formats -/

namespace Format

def name : Format → String
  | toml => "TOML"
  | json => "JSON"
  | yaml => "YAML"

/-- The format that goes with an extension in lower case. -/
def ofExtension? (extension : String) : Option Format :=
  if extension == "toml" then some toml
  else if extension == "json" then some json
  else if extension == "yml" || extension == "yaml" then some yaml
  else none

/-- The format of a file; the case of its extension does not matter. -/
def ofPath (path : String) : Except DocumentError Format :=
  let ending := String.ofList (Text.lowercase ((extension? path.toList).getD []))
  match ofExtension? ending with
  | some f => .ok f
  | none => .error (.unsupported ending)

def parse? : Format → String → Option Value
  | toml => Toml.parse?
  | json => Json.parse?
  | yaml => Yaml.parse?

def read (f : Format) (decode : Value → Option α) (content : String) : Except DocumentError α :=
  match (f.parse? content).bind decode with
  | some a => .ok a
  | none => .error (.malformed f)

def table (f : Format) (content : String) : Except DocumentError TypeTable :=
  f.read TypeTable.decode? content

def recipe (f : Format) (content : String) : Except DocumentError RecipeSpec :=
  f.read RecipeSpec.decode? content

end Format

/-! ## Reports -/

def DocumentError.message : DocumentError → String
  | unsupported extension => "Configuration error: Unsupported config format: " ++ extension
  | malformed format => "Configuration error: " ++ format.name ++ " parse error"
  | unreadable => "I/O error"

/-- The report of what is wrong with a document from which a recipe was to be loaded. -/
def DocumentError.loadMessage (e : DocumentError) : String :=
  "Utility error: " ++ e.message

/-- Loads a recipe from a file; there is no content if the file cannot be read. -/
def loadRecipe (path : String) (content : Option String) : Except DocumentError RecipeSpec := do
  let format ← Format.ofPath path
  match content with
  | some content => format.recipe content
  | none => .error .unreadable

/-- Loads a table from a file; there is no content if the file cannot be read. -/
def loadTable (path : String) (content : Option String) : Except DocumentError TypeTable := do
  let format ← Format.ofPath path
  match content with
  | some content => format.table content
  | none => .error .unreadable

end CallMigration
