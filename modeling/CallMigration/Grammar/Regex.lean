/-!
# Regular expressions

The tokens of source text are described by regular expressions and read by longest match.

* `Regex.deriv` : the expression for what may follow a character.
* `Regex.longest?` : the length of the longest beginning of a text that matches.
-/

namespace CallMigration.Grammar

/-- A regular expression over characters. -/
inductive Regex where
  /-- Matches nothing. -/
  | never
  /-- Matches the empty text. -/
  | empty
  /-- Matches one character of a class. -/
  | one (accepts : Char → Bool)
  /-- Matches one text after the other. -/
  | cat (r s : Regex)
  /-- Matches either. -/
  | or (r s : Regex)
  /-- Matches any number of texts one after the other. -/
  | star (r : Regex)

namespace Regex

def nullable : Regex → Bool
  | never => false
  | empty => true
  | one _ => false
  | cat r s => r.nullable && s.nullable
  | or r s => r.nullable || s.nullable
  | star _ => true

/-- Concatenation, without the parts that say nothing. -/
def append : Regex → Regex → Regex
  | never, _ => never
  | _, never => never
  | empty, s => s
  | r, empty => r
  | r, s => cat r s

/-- Choice, without the parts that say nothing. -/
def union : Regex → Regex → Regex
  | never, s => s
  | r, never => r
  | r, s => or r s

def deriv (c : Char) : Regex → Regex
  | never => never
  | empty => never
  | one p => if p c then empty else never
  | cat r s => if r.nullable then union (append (r.deriv c) s) (s.deriv c) else append (r.deriv c) s
  | or r s => union (r.deriv c) (s.deriv c)
  | star r => append (r.deriv c) (star r)

/-- The number of characters of the longest beginning of the text that matches. -/
def longest? : Regex → List Char → Option Nat
  | never, _ => none
  | r, [] => if r.nullable then some 0 else none
  | r, c :: s =>
    match longest? (r.deriv c) s with
    | some n => some (n + 1)
    | none => if r.nullable then some 0 else none
termination_by structural _ s => s

/-! ## Building blocks -/

/-- One given character. -/
def char (c : Char) : Regex := one (· == c)

/-- One of the characters of a text. -/
def oneOf (s : String) : Regex := one fun c => s.toList.contains c

def text (s : String) : Regex := s.toList.foldr (fun c r => append (char c) r) empty

def seq (rs : List Regex) : Regex := rs.foldr append empty

def choice (rs : List Regex) : Regex := rs.foldr union never

def opt (r : Regex) : Regex := union r empty

/-- At least once. -/
def plus (r : Regex) : Regex := append r (star r)

def sepBy (r separator : Regex) : Regex := append r (star (append separator r))

end Regex

end CallMigration.Grammar
