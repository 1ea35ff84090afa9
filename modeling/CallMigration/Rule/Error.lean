import CallMigration.Tree.Spans
import CallMigration.Rule.Placeholder
import CallMigration.Rule.Signature
import CallMigration.Types.Error

/-!
# Faulty rules

Everything that can be wrong with a rule, found when it is built. `RuleError.message` is the report.
-/

namespace CallMigration

/-- What is wrong with the fragment of a template. -/
inductive TemplateFault where
  | emptyFragment
  | unqualifiedImport (name : String)
  | unreadable
  | severalExpressions
  | severalLists
  | unknownName (name : String)
deriving DecidableEq, Repr

def TemplateFault.message : TemplateFault → String
  | emptyFragment => "fragment is empty"
  | unqualifiedImport name => s!"`{name}` is not a fully-qualified type"
  | unreadable => "fragment does not parse"
  | severalExpressions => "fragment must be exactly one expression"
  | severalLists => "fragment must be exactly one argument list"
  | unknownName name => s!"`{name}` is neither a placeholder nor an imported type"

/-- What is wrong with placeholders. -/
inductive PlaceholderFault where
  | malformed (content : String)
  | count (fragment : String) (found declared : Nat)
  | slot (index : Nat) (fragment : String) (written declared : Placeholder)
  | selection (selected placeholders : Nat) (fragment : String)
  | missingArgument (index : Nat) (signature : Signature)
  | wrongArgument (placeholder : Placeholder) (index : Nat) (signature : Signature)
      (param : TypeName)
deriving DecidableEq, Repr

def PlaceholderFault.message : PlaceholderFault → String
  | malformed content => "malformed placeholder `#\x7b" ++ content ++ "\x7d`"
  | count fragment found declared =>
    s!"`{fragment}` has {found} placeholder(s) but {declared} were declared"
  | slot index fragment written declared =>
    s!"slot {index} of `{fragment}` is {written} but {declared} was declared"
  | selection selected placeholders fragment =>
    s!"{selected} argument(s) selected for {placeholders} placeholder(s) in `{fragment}`"
  | missingArgument index signature =>
    s!"argument {index} selected but `{signature}` takes {signature.arity}"
  | wrongArgument placeholder index signature param =>
    s!"{placeholder} cannot take argument {index} of `{signature}`, which is {param}"

/-- A part that a recipe cannot do without. -/
inductive RecipePart where
  | precondition
  | signatures
  | template
deriving DecidableEq, Repr

def RecipePart.name : RecipePart → String
  | precondition => "precondition"
  | signatures => "signatures"
  | template => "template"

/-- What is wrong with a rule. -/
inductive RuleError where
  | template (fragment : String) (fault : TemplateFault)
  | placeholder (fault : PlaceholderFault)
  | signature (written : String) (fault : SignatureFault)
  | overlap (first second : Signature)
  | missing (recipe : String) (part : RecipePart)
  /-- The rule refuses to work, for a reason of its own. -/
  | refused (reason : String)
  | type (error : TypeError)
  | span (error : SpanError)
deriving DecidableEq, Repr

def RuleError.message : RuleError → String
  | template fragment fault => s!"Template error in `{fragment}`: {fault.message}"
  | placeholder fault => s!"Placeholder error: {fault.message}"
  | signature written fault => s!"Invalid method signature `{written}`: {fault.message}"
  | overlap first second => s!"Overlapping signatures: `{first}` and `{second}`"
  | missing recipe part => s!"Configuration error: recipe `{recipe}` has no {part.name}"
  | refused reason => s!"Configuration error: {reason}"
  | type error => s!"Core error: {error.message}"
  | span error => s!"Core error: {error.message}"

end CallMigration
