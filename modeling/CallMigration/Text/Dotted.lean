import CallMigration.Text.Numeric
import CallMigration.Text.Uppercase

/-!
# Dotted names

A qualified name is a text whose segments are separated by dots.

* `segments`, `joinDots` : from a text to its segments and back.
* `splitFirst`, `splitLast` : the two sides of the first or last occurrence of a character.
* `isIdentifier`, `startsUppercase` : the tests a segment of a name is put to.
-/

namespace CallMigration.Text

/-- The segments of a dotted text; the empty text has one empty segment. -/
def segments (s : List Char) : List (List Char) :=
  s.splitOn '.'

def joinDots (ss : List (List Char)) : List Char :=
  ['.'].intercalate ss

def splitFirst (p : Char → Bool) : List Char → Option (List Char × List Char)
  | [] => none
  | c :: s =>
    if p c then some ([], s) else (splitFirst p s).map fun (before, after) => (c :: before, after)

/-- What stands before and after the last character that satisfies `p`. -/
def splitLast (p : Char → Bool) (s : List Char) : Option (List Char × List Char) :=
  (splitFirst p s.reverse).map fun (after, before) => (before.reverse, after.reverse)

/-- May begin an identifier of a name: alphabetic, an underscore or a dollar sign. -/
def isIdentifierStart (c : Char) : Bool :=
  isAlphabetic c || c == '_' || c == '$'

/-- May continue an identifier of a name: alphabetic, numeric, an underscore or a dollar sign. -/
def isIdentifierPart (c : Char) : Bool :=
  isAlphanumeric c || c == '_' || c == '$'

/-- An identifier: one starting character, then continuing ones. -/
def isIdentifier : List Char → Bool
  | [] => false
  | c :: s => isIdentifierStart c && s.all isIdentifierPart

def startsUppercase : List Char → Bool
  | [] => false
  | c :: _ => isUppercase c

end CallMigration.Text
