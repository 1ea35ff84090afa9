import CallMigration.Resolve.Resolver
import CallMigration.Rule.Error

/-!
# Matching calls

A `Matcher` holds signatures of which no two can match the same call. A call matches a signature if
its owner, its name and the types of its arguments are those of the signature; with subtype matching
the owner may also be a subtype. A call whose owner or arguments have no known type matches nothing.

* `Matcher.build` : rejects signatures that overlap.
* `Matcher.find?` : the signature that a call matches.
-/

namespace CallMigration

/-- Signatures that no call matches twice. -/
structure Matcher where
  signatures : List Signature
  /-- Calls on subtypes of an owner match, too. -/
  subtypeMatching : Bool
deriving DecidableEq, Repr, Inhabited

namespace Matcher

/-- Some call could match both signatures. -/
def overlaps (table : TypeTable) (subtypeMatching : Bool) (a b : Signature) : Bool :=
  a == b || (subtypeMatching && a.sameShape b &&
    (table.isSubtype a.owner b.owner || table.isSubtype b.owner a.owner))

def firstOverlap? (table : TypeTable) (subtypeMatching : Bool) :
    List Signature → Option (Signature × Signature)
  | [] => none
  | a :: rest =>
    match rest.find? (overlaps table subtypeMatching a) with
    | some b => some (a, b)
    | none => firstOverlap? table subtypeMatching rest

def build (signatures : List Signature) (subtypeMatching : Bool) (table : TypeTable) :
    Except RuleError Matcher :=
  match firstOverlap? table subtypeMatching signatures with
  | some (a, b) => .error (.overlap a b)
  | none => .ok ⟨signatures, subtypeMatching⟩

section

variable {R : Type} [TypeResolver R]

/-- A call on `owner` with arguments of the given types matches the signature, if the name does. -/
def accepts (m : Matcher) (r : R) (owner : TypeName) (types : List TypeName) (s : Signature) : Bool :=
  (owner == s.owner || (m.subtypeMatching && TypeResolver.isSubtype r owner s.owner)) &&
    s.params == types

/-- The signatures with the name and the number of arguments of a call. -/
def candidates (m : Matcher) (name : String) (arity : Nat) : List Signature :=
  m.signatures.filter fun s => s.name == name && s.arity == arity

def find? (m : Matcher) (r : R) (call : Site) : Option Signature :=
  match Call.name? call with
  | none => none
  | some name =>
    let arguments := Call.arguments call
    match m.candidates name arguments.length with
    | [] => none
    | found =>
      match TypeResolver.ownerOf? r call, arguments.mapM (TypeResolver.typeOf? r) with
      | some owner, some types => found.find? (m.accepts r owner types)
      | _, _ => none

end

end Matcher

end CallMigration
