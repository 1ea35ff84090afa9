import CallMigration.Grammar.Java

/-!
# Compilation units

A `JavaUnit` is the tree of a source file and whether the source has syntax errors. Any `Parser` can
tell which parts of a source are what; the one that is used is that of the grammar, which keeps a source
that it does not cover as a whole in a single token.

* `Parser` : finds spans over a source.
* `JavaUnit.parseWith`, `JavaUnit.parse` : read a source with a parser.
-/

namespace CallMigration

/-- What a parser finds in a source: spans over it, and whether it has syntax errors. -/
structure Parsed where
  root : SpanTree
  hasErrors : Bool
deriving Repr, Inhabited

abbrev Parser := String → Parsed

/-- A compilation unit. -/
structure JavaUnit where
  tree : Tree
  /-- The source has syntax errors. -/
  hasErrors : Bool
deriving DecidableEq, Repr, Inhabited

namespace JavaUnit

def parseWith (parser : Parser) (source : String) : Except SpanError JavaUnit := do
  let found := parser source
  return ⟨← Tree.ofSpans source found.root, found.hasErrors⟩

/-- The whole source as one token, which stands for a source with syntax errors. -/
def unread (source : String) : SpanTree :=
  let size := source.utf8ByteSize
  .mk "program" 0 size [.mk "ERROR" 0 size []]

end JavaUnit

def Grammar.parser : Parser := fun source =>
  match parse? source with
  | some root => ⟨root, false⟩
  | none => ⟨JavaUnit.unread source, true⟩

namespace JavaUnit

def parse (source : String) : Except SpanError JavaUnit :=
  parseWith Grammar.parser source

def text (u : JavaUnit) : String :=
  u.tree.text

def withTree (u : JavaUnit) (tree : Tree) : JavaUnit :=
  { u with tree }

end JavaUnit

end CallMigration
