import CallMigration.Rule.Migration
import CallMigration.Types.HttpClient5

/-!
# Recipes

A `Recipe` is a rule that has been checked in all its parts, with the table of types it works over.
Everything that can be wrong with a recipe is found by `RecipeParts.build`; a recipe that was built
works on any unit.

* `RecipeParts` : the written parts of a recipe, some of which may be missing.
* `RecipeSpec` : a recipe as a document gives it.
* `Recipe.run` : migrates a unit.
* `useTimeout` : wraps bare milliseconds of HttpClient 5 timeouts.
-/

namespace CallMigration

/-- A checked rule with its name and its table of types. -/
structure Recipe where
  name : String
  displayName : String
  description : String
  rule : Rule
  table : TypeTable
deriving DecidableEq, Repr

namespace Recipe

def run (recipe : Recipe) (u : JavaUnit) : Outcome :=
  recipe.rule.run recipe.table u

def runSource (recipe : Recipe) (source : String) : Except RuleError Outcome :=
  match JavaUnit.parse source with
  | .ok u => .ok (recipe.run u)
  | .error e => .error (.span e)

end Recipe

/-! ## Building a recipe -/

/-- The written parts of a recipe. -/
structure RecipeParts where
  name : String
  displayName : Option String
  description : Option String
  /-- The pattern of the types that a unit has to refer to, and whether declarations count. -/
  precondition : Option (String × Bool)
  signatures : List String
  subtypeMatching : Bool
  template : Option String
  /-- The declared placeholders; those of the template if there are none. -/
  placeholders : Option (List Placeholder)
  imports : List String
  target : Target
  /-- The position of the argument for each placeholder; in order if there are none. -/
  selected : Option (List Nat)
  table : TypeTable
deriving DecidableEq, Repr

namespace RecipeParts

/-- A recipe with nothing but a name, over the built-in table. -/
def ofName (name : String) : RecipeParts :=
  { name, displayName := none, description := none, precondition := none, signatures := []
    subtypeMatching := false, template := none, placeholders := none, imports := []
    target := .arguments, selected := none, table := .httpClient5 }

def parseSignatures (written : List String) : Except RuleError (List Signature) :=
  written.mapM fun s =>
    match Signature.parse s with
    | .ok signature => .ok signature
    | .error fault => .error (.signature s fault)

/-- The arguments selected for the placeholders have to exist in a signature, with the types that
the placeholders ask for. -/
def checkSignature (s : Signature) : List (Placeholder × Nat) → Except RuleError Unit
  | [] => .ok ()
  | (p, index) :: rest =>
    match s.params[index]? with
    | none => .error (.placeholder (.missingArgument index s))
    | some param =>
      if p.type.isSome && p.type != some param then
        .error (.placeholder (.wrongArgument p index s param))
      else checkSignature s rest

/-- The selected arguments have to fit the placeholders and every signature. -/
def checkSelection (t : Template) (signatures : List Signature) (selected : List Nat) :
    Except RuleError Unit :=
  if selected.length ≠ t.placeholders.length then
    .error (.placeholder (.selection selected.length t.placeholders.length t.fragment))
  else signatures.forM fun s => checkSignature s (t.placeholders.zip selected)

/-- Checks all parts and puts them together. -/
def build (parts : RecipeParts) : Except RuleError Recipe := do
  let some (pattern, includeImplicit) := parts.precondition
    | .error (.missing parts.name .precondition)
  let gate ← match Gate.parse pattern includeImplicit with
    | .ok gate => pure gate
    | .error e => .error (.type e)
  if parts.signatures.isEmpty then .error (.missing parts.name .signatures)
  let signatures ← parseSignatures parts.signatures
  let matcher ← Matcher.build signatures parts.subtypeMatching parts.table
  let some fragment := parts.template | .error (.missing parts.name .template)
  let template ← match parts.placeholders with
    | some placeholders => Template.compile fragment placeholders parts.imports parts.target
    | none => Template.ofFragment fragment parts.imports parts.target
  let selected := parts.selected.getD (List.range template.placeholders.length)
  checkSelection template signatures selected
  return ⟨parts.name, parts.displayName.getD parts.name, parts.description.getD "",
    ⟨gate, matcher, template, selected⟩, parts.table⟩

end RecipeParts

/-! ## Recipes as documents -/

/-- A recipe as a document gives it. -/
structure RecipeSpec where
  name : String
  displayName : Option String
  description : Option String
  precondition : String
  includeImplicit : Bool
  signatures : List String
  subtypeMatching : Bool
  template : String
  placeholders : Option (List Placeholder)
  imports : List String
  target : Target
  selected : Option (List Nat)
  /-- Types to add to the built-in table. -/
  types : List TypeInfo
deriving DecidableEq, Repr

namespace RecipeSpec

def parts (s : RecipeSpec) : RecipeParts :=
  { name := s.name, displayName := s.displayName, description := s.description
    precondition := some (s.precondition, s.includeImplicit), signatures := s.signatures
    subtypeMatching := s.subtypeMatching, template := some s.template
    placeholders := s.placeholders, imports := s.imports, target := s.target
    selected := s.selected, table := TypeTable.httpClient5.insertAll s.types }

def build (s : RecipeSpec) : Except RuleError Recipe :=
  s.parts.build

end RecipeSpec

/-! ## The stock recipe -/

namespace UseTimeout

/-- The methods that take a bare number of milliseconds. -/
def signatures : List String :=
  ["org.apache.hc.client5.http.config.RequestConfig$Builder setConnectionRequestTimeout(int)",
    "org.apache.hc.client5.http.config.RequestConfig$Builder setConnectTimeout(int)",
    "org.apache.hc.client5.http.config.RequestConfig$Builder setResponseTimeout(int)",
    "org.apache.hc.core5.http.io.SocketConfig$Builder setSoTimeout(int)"]

def parts (table : TypeTable) : RecipeParts :=
  { RecipeParts.ofName "hcrewrite.httpclient5.UseTimeout" with
    displayName := some "Use `Timeout` class to define timeouts"
    description := some "Use Timeout class to define timeouts."
    precondition := some ("org.apache.hc..*", true)
    signatures
    template := some "Timeout.ofMilliseconds(#\x7b\x7d)"
    imports := ["org.apache.hc.core5.util.Timeout"]
    table }

end UseTimeout

/-- Wraps the bare milliseconds of HttpClient 5 timeouts in `Timeout`, over a given table. -/
def useTimeoutOver (table : TypeTable) : Except RuleError Recipe :=
  (UseTimeout.parts table).build

/-- Wraps the bare milliseconds of HttpClient 5 timeouts in `Timeout`. -/
def useTimeout : Except RuleError Recipe :=
  useTimeoutOver .httpClient5

end CallMigration
