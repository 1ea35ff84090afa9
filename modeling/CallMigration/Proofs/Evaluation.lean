import CallMigration.Proofs.Lookahead
import CallMigration.Proofs.Lossless
import CallMigration.Rule.Template

/-!
# Evaluating the reader

What is said of one source is checked by evaluation. The functions here give the same answers with less
work: the characters of a source are read from its bytes in one go, a rule is read by looking ahead, and
what has been read is cut along its spans as a list of characters.

* `Evaluated.parse`, `JavaUnit.parse_eq` : a unit is read from the characters of its source.
-/

namespace CallMigration

namespace Evaluated

open Grammar Text

/-- The rules that cover a source and the bytes they cover, if the grammar covers all of it. -/
def rules? (source : List Char) : Option SpanTree :=
  match Rule.program.read Rule.form Rule.start? (nesting * (source.length + 2)) (Input.ofSource source) []
    with
  | some (i, out) =>
    if i.rest.isEmpty then
      some (.mk "program" 0 (byteCount source) (i.comments ++ out).reverse)
    else none
  | none => none

def parser (source : List Char) : Parsed :=
  match rules? source with
  | some root => ⟨root, false⟩
  | none =>
    let size := byteCount source
    ⟨.mk "program" 0 size [.mk "ERROR" 0 size []], true⟩

def ofSpans (source : List Char) (root : SpanTree) : Except SpanError Tree := do
  let (inner, c) ← Tree.ofSpanList ⟨0, source⟩ root.children
  let (gap, _) ← c.gap (byteCount source)
  return .node (Kind.ofRule root.rule false) (inner ++ gap)

def parse (source : List Char) : Except SpanError JavaUnit := do
  let found := parser source
  return ⟨← ofSpans source found.root, found.hasErrors⟩

theorem rules?_eq (source : String) : rules? source.toList = Grammar.parse? source := by
  unfold rules? Grammar.parse?
  rewrite [Form.read_eq Rule.startsOf_form, byteCount_toList]
  rfl

theorem parser_eq (source : String) : parser source.toList = Grammar.parser source := by
  unfold parser Grammar.parser
  rewrite [rules?_eq, byteCount_toList]
  rfl

theorem ofSpans_eq (source : String) : ofSpans source.toList = Tree.ofSpans source := by
  funext root
  rw [ofSpans, Tree.ofSpans, byteCount_toList]

end Evaluated

theorem JavaUnit.parse_eq (source : String) :
    parse source = Evaluated.withChars source Evaluated.parse := by
  rw [Evaluated.withChars_eq]
  unfold parse parseWith Evaluated.parse
  rewrite [Evaluated.parser_eq, Evaluated.ofSpans_eq]
  rfl

theorem Template.compile_eq (fragment : String) (placeholders : List Placeholder)
    (imports : List String) (target : Target) :
    compile fragment placeholders imports target =
      compileBy (Evaluated.withChars · Evaluated.parse) fragment placeholders imports target := by
  have hread : JavaUnit.parse = (Evaluated.withChars · Evaluated.parse) := funext JavaUnit.parse_eq
  rw [← hread]
  rfl

theorem Template.ofFragment_eq (fragment : String) (imports : List String) (target : Target) :
    ofFragment fragment imports target = (scan fragment).bind fun placeholders =>
      compileBy (Evaluated.withChars · Evaluated.parse) fragment placeholders imports target := by
  simp only [← compile_eq]
  rfl

end CallMigration
