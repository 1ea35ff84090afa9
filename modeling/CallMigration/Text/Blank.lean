import CallMigration.Text.Ranges

/-!
# Blanks

* `isBlank` : the Unicode property White_Space.
* `trim` : a text without the blanks at its two ends.
-/

namespace CallMigration.Text

/-- The code points with the property White_Space, as increasing ranges. -/
def blankRanges : List (Nat × Nat) := [
  (9, 13), (32, 32), (133, 133), (160, 160), (5760, 5760), (8192, 8202), (8232, 8233),
  (8239, 8239), (8287, 8287), (12288, 12288)]

/-- Has the property White_Space. -/
def isBlank (c : Char) : Bool :=
  inRanges c.toNat blankRanges

/-- Drops the blanks at the beginning. -/
def trimStart (s : List Char) : List Char :=
  s.dropWhile isBlank

def trimEnd (s : List Char) : List Char :=
  (s.reverse.dropWhile isBlank).reverse

/-- Drops the blanks at both ends. -/
def trim (s : List Char) : List Char :=
  trimEnd (trimStart s)

end CallMigration.Text
