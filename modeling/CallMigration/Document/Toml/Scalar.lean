import CallMigration.Document.Decode

/-!
# Scalars of TOML documents

Each reader takes the scalar at the beginning of a text and gives it with what follows.

* `skipBlanks`, `skipBreak?`, `skipLine?` : what stands between things.
* `string?` : the four kinds of strings.
* `bare?` : truth values, numbers and dates.
-/

namespace CallMigration.Toml

/-! ## Blanks, line breaks and comments -/

/-- A space or a tab. -/
def isBlank (c : Char) : Bool := c == ' ' || c == '\t'

def skipBlanks (s : List Char) : List Char := s.dropWhile isBlank

/-- Goes over a line break. -/
def skipBreak? : List Char → Option (List Char)
  | '\n' :: s => some s
  | '\r' :: '\n' :: s => some s
  | _ => none

/-- A character that may stand in texts and comments as it is. -/
def isPrintable (c : Char) : Bool :=
  c == '\t' || (0x20 ≤ c.toNat && c.toNat != 0x7F)

def skipComment : List Char → List Char
  | '#' :: s => s.dropWhile isPrintable
  | s => s

/-- Goes to the end of a line on which nothing but a comment may follow, and over the line break. -/
def skipLine? (s : List Char) : Option (List Char) :=
  match skipComment (skipBlanks s) with
  | [] => some []
  | s => skipBreak? s

/-- Goes over blanks, line breaks and comments. -/
def skipLines : Nat → List Char → List Char
  | 0, s => s
  | steps + 1, s =>
    let t := skipComment (skipBlanks s)
    match skipBreak? t with
    | some t => skipLines steps t
    | none => t

/-! ## Strings -/

/-- The character with a code given by hexadecimal digits. -/
def codePoint? (digits : List Char) : Option Char := do
  let n ← Value.numeral? 16 digits
  if n.isValidChar then some (Char.ofNat n) else none

/-- The character behind a backslash. -/
def escape? : List Char → Option (Char × List Char)
  | 'b' :: s => some (Char.ofNat 8, s)
  | 't' :: s => some ('\t', s)
  | 'n' :: s => some ('\n', s)
  | 'f' :: s => some (Char.ofNat 12, s)
  | 'r' :: s => some ('\r', s)
  | '"' :: s => some ('"', s)
  | '\\' :: s => some ('\\', s)
  | 'u' :: s =>
    if s.length < 4 then none else (codePoint? (s.take 4)).map fun c => (c, s.drop 4)
  | 'U' :: s =>
    if s.length < 8 then none else (codePoint? (s.take 8)).map fun c => (c, s.drop 8)
  | _ => none

/-- The rest of a string on one line; `acc` has the last character first. Backslashes mean something
only in strings with double quotes. -/
def lineString? (quote : Char) : Nat → List Char → List Char → Option (String × List Char)
  | 0, _, _ => none
  | _ + 1, _, [] => none
  | steps + 1, acc, c :: s =>
    if c == quote then some (String.ofList acc.reverse, s)
    else if c == '\\' && quote == '"' then
      match escape? s with
      | some (e, s) => lineString? quote steps (e :: acc) s
      | none => none
    else if isPrintable c then lineString? quote steps (c :: acc) s
    else none

/-- Goes over blanks and line breaks. -/
def skipSpace : Nat → List Char → List Char
  | 0, s => s
  | steps + 1, s =>
    let t := skipBlanks s
    match skipBreak? t with
    | some t => skipSpace steps t
    | none => t

/-- The rest of a string on several lines. Up to two quotes may stand in it, also in front of the
three that close it. A backslash at the end of a line takes away the space up to the next text. -/
def blockString? (quote : Char) : Nat → List Char → List Char → Option (String × List Char)
  | 0, _, _ => none
  | _ + 1, _, [] => none
  | steps + 1, acc, c :: s =>
    if c == quote then
      let count := (c :: s).takeWhile (· == quote) |>.length
      let taken := min count 5
      if taken < 3 then blockString? quote steps (c :: acc) s
      else
        some (String.ofList (List.replicate (taken - 3) quote ++ acc).reverse, (c :: s).drop taken)
    else if c == '\\' && quote == '"' then
      match skipBreak? (skipBlanks s) with
      | some t => blockString? quote steps acc (skipSpace t.length t)
      | none =>
        match escape? s with
        | some (e, s) => blockString? quote steps (e :: acc) s
        | none => none
    else
      match skipBreak? (c :: s) with
      | some t => blockString? quote steps ('\n' :: acc) t
      | none => if isPrintable c then blockString? quote steps (c :: acc) s else none

/-- A string of any kind. A line break right behind three quotes does not count. -/
def string? : List Char → Option (String × List Char)
  | '"' :: '"' :: '"' :: s => blockString? '"' (s.length + 1) [] ((skipBreak? s).getD s)
  | '\'' :: '\'' :: '\'' :: s => blockString? '\'' (s.length + 1) [] ((skipBreak? s).getD s)
  | '"' :: s => lineString? '"' (s.length + 1) [] s
  | '\'' :: s => lineString? '\'' (s.length + 1) [] s
  | _ => none

/-! ## Numbers -/

def groupedDigits? (base : Nat) (s : List Char) : Option (List Char) :=
  let isDigit (c : Char) : Bool := (Value.digit? base c).isSome
  let groups := s.splitOn '_'
  if groups.all fun g => !g.isEmpty && g.all isDigit then some (s.filter (· != '_')) else none

/-- A whole number of at most 64 bits with a sign. -/
def signed? (negative : Bool) (n : Nat) : Option Value :=
  if negative then if n ≤ 0x8000000000000000 then some (.int (-n)) else none
  else if n < 0x8000000000000000 then some (.int n) else none

def takeSign : List Char → Bool × List Char
  | '-' :: s => (true, s)
  | '+' :: s => (false, s)
  | s => (false, s)

/-- Decimal digits without a leading zero. -/
def wholeDigits? (s : List Char) : Option (List Char) :=
  match groupedDigits? 10 s with
  | some ('0' :: _ :: _) => none
  | digits => digits

/-- A whole number. -/
def integer? (token : List Char) : Option Value :=
  match token with
  | '0' :: 'x' :: s => ((groupedDigits? 16 s).bind (Value.numeral? 16)).bind (signed? false)
  | '0' :: 'o' :: s => ((groupedDigits? 8 s).bind (Value.numeral? 8)).bind (signed? false)
  | '0' :: 'b' :: s => ((groupedDigits? 2 s).bind (Value.numeral? 2)).bind (signed? false)
  | _ =>
    let (negative, s) := takeSign token
    ((wholeDigits? s).bind (Value.numeral? 10)).bind (signed? negative)

def isExponent (s : List Char) : Bool :=
  (groupedDigits? 10 (takeSign s).2).isSome

/-- A number with a fraction or an exponent, or one that is no number of digits. -/
def isFloat (token : List Char) : Bool :=
  let s := (takeSign token).2
  let isE (c : Char) : Bool := c == 'e' || c == 'E'
  let mantissa := s.takeWhile (!isE ·)
  let power := s.dropWhile (!isE ·)
  let whole := mantissa.takeWhile (· != '.')
  let fraction := mantissa.dropWhile (· != '.')
  s == "inf".toList || s == "nan".toList
    || ((!power.isEmpty || !fraction.isEmpty) && (wholeDigits? whole).isSome
      && (fraction.isEmpty || (groupedDigits? 10 (fraction.drop 1)).isSome)
      && (power.isEmpty || isExponent (power.drop 1)))

/-! ## Dates -/

/-- A number of exactly `size` digits within bounds, and what follows it. -/
def fixedDigits? (size low high : Nat) (s : List Char) : Option (List Char) :=
  let digits := s.take size
  if digits.length == size && digits.all Char.isDigit then
    match Value.numeral? 10 digits with
    | some n => if low ≤ n ∧ n ≤ high then some (s.drop size) else none
    | none => none
  else none

def take? (c : Char) : List Char → Option (List Char)
  | d :: s => if c == d then some s else none
  | [] => none

def skipDate? (s : List Char) : Option (List Char) := do
  let s ← take? '-' (← fixedDigits? 4 0 9999 s)
  let s ← take? '-' (← fixedDigits? 2 1 12 s)
  fixedDigits? 2 1 31 s

/-- Goes over a time of day. -/
def skipTime? (s : List Char) : Option (List Char) := do
  let s ← take? ':' (← fixedDigits? 2 0 23 s)
  let s ← take? ':' (← fixedDigits? 2 0 59 s)
  let s ← fixedDigits? 2 0 60 s
  match s with
  | '.' :: s => if (s.head?.map Char.isDigit).getD false then some (s.dropWhile Char.isDigit) else none
  | s => some s

/-- The offset of a time zone, or nothing. -/
def isOffset : List Char → Bool
  | [] => true
  | ['Z'] => true
  | ['z'] => true
  | c :: s =>
    (c == '+' || c == '-')
      && ((fixedDigits? 2 0 23 s).bind fun s => (take? ':' s).bind (fixedDigits? 2 0 59)) == some []

/-- A date, a time of day or both, the latter perhaps with a time zone. -/
def isDate (token : List Char) : Bool :=
  match skipDate? token with
  | some [] => true
  | some (c :: s) =>
    (c == 'T' || c == 't' || c == ' ') && ((skipTime? s).map isOffset).getD false
  | none => skipTime? token == some []

/-! ## Scalars without quotes -/

/-- A character of truth values, numbers and dates. -/
def isBareChar (c : Char) : Bool :=
  c.isAlphanum || c == '_' || c == '+' || c == '-' || c == '.' || c == ':'

/-- The characters of a scalar without quotes. A date and a time may have a space between them. -/
def bareToken (s : List Char) : List Char :=
  let token := s.takeWhile isBareChar
  match s.drop token.length with
  | ' ' :: c :: rest =>
    if skipDate? token == some [] && c.isDigit then
      token ++ ' ' :: (c :: rest).takeWhile isBareChar
    else token
  | _ => token

/-- A truth value, a number or a date. -/
def bare? (s : List Char) : Option (Value × List Char) :=
  let token := bareToken s
  let rest := s.drop token.length
  if token == "true".toList then some (.bool true, rest)
  else if token == "false".toList then some (.bool false, rest)
  else
    match integer? token with
    | some v => some (v, rest)
    | none =>
      if isFloat token || isDate token then some (.other (String.ofList token), rest) else none

end CallMigration.Toml
