import CallMigration.Grammar.Regex
import CallMigration.Text.Letter

/-!
# Tokens of Java source

A `Lexeme` describes one class of tokens, and `Lexeme.scan` splits such a token off a text. A symbol
is only found where no longer symbol stands, and a word only where the identifier ends with it.

* `Lexeme.scan` : the token at the beginning of a text.
* `skipTrivia` : the whitespace and comments at the beginning of a text.
-/

namespace CallMigration.Grammar

open Text Regex

/-! ## Literals -/

def digit : Regex := one Char.isDigit

def hexDigit : Regex :=
  one fun c => c.isDigit || ('a' ≤ c && c ≤ 'f') || ('A' ≤ c && c ≤ 'F')

/-- The digits of a decimal number that has no leading zero. -/
def integerDigits : Regex :=
  choice [char '0',
    append (one fun c => '1' ≤ c && c ≤ '9')
      (opt (append (opt (char '_')) (sepBy (plus digit) (plus (char '_')))))]

def decimalDigits : Regex := sepBy (plus digit) (char '_')

def hexDigits : Regex := sepBy (plus hexDigit) (char '_')

def longMark : Regex := opt (oneOf "lL")

def floatMark : Regex := oneOf "fFdD"

def sign : Regex := opt (oneOf "-+")

def exponent : Regex := seq [oneOf "eE", sign, decimalDigits]

/-- The classes of numbers in order of preference among matches of equal length, each with the rule
it belongs to. -/
def numbers : List (String × Regex) :=
  [("decimal_integer_literal", append integerDigits longMark),
    ("hex_integer_literal", seq [char '0', oneOf "xX", hexDigits, longMark]),
    ("octal_integer_literal",
      seq [char '0', opt (oneOf "oO"), sepBy (plus (one fun c => '0' ≤ c && c ≤ '7')) (char '_'),
        longMark]),
    ("binary_integer_literal",
      seq [char '0', oneOf "bB", sepBy (plus (oneOf "01")) (char '_'), longMark]),
    ("decimal_floating_point_literal",
      choice [
        seq [decimalDigits, char '.', opt decimalDigits, opt exponent, opt floatMark],
        seq [char '.', decimalDigits, opt exponent, opt floatMark],
        seq [integerDigits, oneOf "eEpP", sign, decimalDigits, opt floatMark],
        seq [integerDigits, opt exponent, floatMark]]),
    ("hex_floating_point_literal",
      seq [char '0', oneOf "xX",
        choice [append hexDigits (opt (char '.')), seq [opt hexDigits, char '.', hexDigits]],
        opt (seq [oneOf "eEpP", sign, integerDigits, opt floatMark])])]

/-- No token holds the null character. -/
def isPresent (c : Char) : Bool := c.toNat != 0

/-- A character literal; several characters are allowed. -/
def characterLiteral : Regex :=
  seq [char '\'',
    plus (choice [one fun c => isPresent c && c != '\\' && c != '\'' && c != '\n',
      append (char '\\') (one isPresent)]),
    char '\'']

def escapeSequence : Regex :=
  append (char '\\') (choice [
    one fun c => isPresent c && c != 'x' && c != 'u' && !('0' ≤ c && c ≤ '7'),
    let octal := one fun c => '0' ≤ c && c ≤ '7'
    seq [octal, opt octal, opt octal],
    seq [char 'x', hexDigit, hexDigit],
    seq [char 'u', hexDigit, hexDigit, hexDigit, hexDigit],
    seq [char 'u', char '\x7b', plus hexDigit, char '\x7d']])

def blockEscape : Regex :=
  append (char '\\') (one fun c => isPresent c && !("abfnrtvxu'\"\\?".toList.contains c))

/-- A run of characters of a string without quotes and backslashes. -/
def plainRun : Regex :=
  plus (one fun c => isPresent c && c != '"' && c != '\\')

/-- A run of characters of a text block that begins with a quote. -/
def quotedRun : Regex :=
  append (char '"') (star (choice [one fun c => isPresent c && c != '"' && c != '\\',
    text "\\\""]))

/-! ## Lexemes -/

def longerSymbols : List (String × List String) :=
  [("=", ["=="]), ("+", ["++", "+="]), ("-", ["--", "-=", "->"]), ("*", ["*="]), ("/", ["/="]),
    ("&", ["&&", "&="]), ("|", ["||", "|="]), ("^", ["^="]), ("%", ["%="]), ("!", ["!="]),
    ("<", ["<=", "<<"]), ("<<", ["<<="]), (">", [">=", ">>"]), (">>", [">>=", ">>>"]),
    (">>>", [">>>="]), (":", ["::"]), (".", ["..."]), ("@", ["@interface"]), ("\"", ["\"\"\""])]

/-- A class of tokens. -/
inductive Lexeme where
  /-- A symbol, where no longer symbol stands. -/
  | symbol (s : String)
  /-- A text, whatever follows. -/
  | text (s : String)
  /-- A word, where the identifier ends with it. -/
  | word (s : String)
  /-- An identifier other than the given words. -/
  | name (except : List String)
  /-- The longest match of a regular expression. -/
  | regex (r : Regex)

def after? (s : String) (input : List Char) : Option (List Char) :=
  s.toList.isPrefixOf? input

/-- The identifier at the beginning of a text, which may be empty. -/
def identifierRun : List Char → List Char
  | c :: s => if beginsIdentifier c then c :: s.takeWhile continuesIdentifier else []
  | [] => []

namespace Lexeme

/-- The token at the beginning of a text and the text behind it. -/
def scan (input : List Char) : Lexeme → Option (List Char × List Char)
  | symbol s =>
    match after? s input with
    | some rest =>
      if ((longerSymbols.lookup s).getD []).any fun l => (after? l input).isSome then none
      else some (s.toList, rest)
    | none => none
  | text s => (after? s input).map fun rest => (s.toList, rest)
  | word s =>
    match after? s input with
    | some rest =>
      if (rest.head?.map continuesIdentifier).getD false then none else some (s.toList, rest)
    | none => none
  | name except =>
    let run := identifierRun input
    if run.isEmpty || except.contains (String.ofList run) then none
    else some (run, input.drop run.length)
  | regex r =>
    match r.longest? input with
    | some (n + 1) => some (input.take (n + 1), input.drop (n + 1))
    | _ => none

end Lexeme

/-- The rule of the number at the beginning of a text and the number's length: the longest match,
and the first class among equals. -/
def numberAt? (input : List Char) : Option (String × Nat) :=
  numbers.foldl (fun best (rule, r) =>
    match r.longest? input, best with
    | some n, some (_, m) => if n > m then some (rule, n) else best
    | some n, none => some (rule, n)
    | none, _ => best) none

/-! ## Whitespace and comments -/

/-- The characters that separate tokens. -/
def isSpace (c : Char) : Bool :=
  c == ' ' || (9 ≤ c.toNat && c.toNat ≤ 13)

/-- The rest of a block comment behind its opening: what stands before the end, and what behind. -/
def blockCommentEnd : List Char → Option (List Char × List Char)
  | [] => none
  | '*' :: '/' :: s => some (['*', '/'], s)
  | c :: s =>
    if isPresent c then (blockCommentEnd s).map fun (before, after) => (c :: before, after)
    else none

/-- The comment at the beginning of a text: its rule, its text, and what follows. -/
def comment? : List Char → Option (String × List Char × List Char)
  | '/' :: '/' :: s =>
    let body := s.takeWhile fun c => isPresent c && c != '\n'
    some ("line_comment", '/' :: '/' :: body, s.drop body.length)
  | '/' :: '*' :: s =>
    (blockCommentEnd s).map fun (body, rest) => ("block_comment", '/' :: '*' :: body, rest)
  | _ => none

def byteCount (s : List Char) : Nat :=
  s.foldl (fun n c => n + c.utf8Size) 0

end CallMigration.Grammar
