import CallMigration.Types.Name

/-!
# Method signatures

A `Signature` names a method by its owner, its name and the types of its parameters. It is written
`owner name(param, ...)`.

* `Signature.parse` : reads the notation.
* `Signature.render` : writes it.
-/

namespace CallMigration

open Text

/-- A method: its owner, its name and the types of its parameters. -/
structure Signature where
  owner : TypeName
  name : String
  params : List TypeName
deriving DecidableEq, Repr, Inhabited

/-- What is wrong with a written signature. -/
inductive SignatureFault where
  | missingParameters
  | openParameters
  | missingName
  | malformedOwner
  | unqualifiedOwner
  | malformedName
  | malformedParameter
deriving DecidableEq, Repr

def SignatureFault.message : SignatureFault → String
  | missingParameters => "missing parameter list"
  | openParameters => "parameter list must end with `)`"
  | missingName => "expected `owner name(params)`"
  | malformedOwner => "malformed owner type"
  | unqualifiedOwner => "owner type must be fully qualified"
  | malformedName => "malformed method name"
  | malformedParameter => "malformed parameter type"

namespace Signature

def ofWritten (owner name : String) (params : List String) : Signature :=
  ⟨TypeName.ofWritten owner, name, params.map TypeName.ofWritten⟩

/-- The number of parameters. -/
def arity (s : Signature) : Nat :=
  s.params.length

/-- Splits at the commas outside of angle brackets, of which `depth` are open at the beginning. -/
def splitParams : Nat → List Char → List (List Char)
  | _, [] => [[]]
  | depth, c :: s =>
    if c = ',' ∧ depth = 0 then [] :: splitParams 0 s
    else
      let depth := if c = '<' then depth + 1 else if c = '>' then depth - 1 else depth
      match splitParams depth s with
      | [] => [[c]]
      | part :: parts => (c :: part) :: parts

/-- Reads a list of parameter types. -/
def parseParams (s : List Char) : Except SignatureFault (List TypeName) :=
  if (trim s).isEmpty then .ok []
  else
    match (splitParams 0 s).mapM fun part => TypeName.parse? (String.ofList (trim part)) with
    | some params => .ok params
    | none => .error .malformedParameter

/-- Reads what stands before the parameters: the owner and the name, with blanks in between. -/
def parseHead (s : List Char) : Except SignatureFault (TypeName × String) :=
  match splitLast isBlank (trim s) with
  | none => .error .missingName
  | some (owner, name) =>
    match TypeName.parse? (String.ofList (trim owner)) with
    | none => .error .malformedOwner
    | some owner =>
      if !owner.isQualified then .error .unqualifiedOwner
      else if !isIdentifier name then .error .malformedName
      else .ok (owner, String.ofList name)

/-- Reads a signature; blanks around it are ignored. -/
def parse (written : String) : Except SignatureFault Signature :=
  match splitFirst (· == '(') (trim written.toList) with
  | none => .error .missingParameters
  | some (head, rest) =>
    match [')'].isSuffixOf? rest with
    | none => .error .openParameters
    | some params => do
      let (owner, name) ← parseHead head
      return ⟨owner, name, ← parseParams params⟩

def render (s : Signature) : String :=
  s.owner.text ++ " " ++ s.name ++ "(" ++ ", ".intercalate (s.params.map (·.text)) ++ ")"

instance : ToString Signature := ⟨render⟩

/-- The same name and parameters, whatever the owner. -/
def sameShape (a b : Signature) : Bool :=
  a.name == b.name && a.params == b.params

end Signature

end CallMigration
