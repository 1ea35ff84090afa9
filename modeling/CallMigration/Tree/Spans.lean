import CallMigration.Tree.Basic

/-!
# From spans to trees

A parser says which rule covers which bytes of the source, as a `SpanTree`. `Tree.ofSpans` cuts the
source along the spans: every leaf becomes a token, and the text between two leaves becomes a token
of whitespace. Spans that overlap or run backwards are moved forward, so that no part of the source
is used twice or left out.

* `Cursor.upTo` : cuts off the source up to a byte offset.
* `Tree.ofSpans` : the tree of a source and its spans.
-/

namespace CallMigration

/-- A rule of the grammar and the bytes it covers. A leaf has no children. -/
inductive SpanTree where
  | mk (rule : String) (start stop : Nat) (children : List SpanTree)
deriving Repr, Inhabited

namespace SpanTree

def rule : SpanTree → String
  | mk r _ _ _ => r

def start : SpanTree → Nat
  | mk _ s _ _ => s

/-- The byte after the last one. -/
def stop : SpanTree → Nat
  | mk _ _ e _ => e

def children : SpanTree → List SpanTree
  | mk _ _ _ cs => cs

end SpanTree

/-- A span that is no part of the source: it ends inside a character or behind the end. -/
structure SpanError where
  start : Nat
  stop : Nat
deriving DecidableEq, Repr

/-- The report of a span that is no part of the source. -/
def SpanError.message (e : SpanError) : String :=
  s!"Parse error: invalid byte range {e.start}..{e.stop}"

/-- A place in the source: its byte offset and the text from there on. -/
structure Cursor where
  offset : Nat
  rest : List Char
deriving Repr

namespace Cursor

/-- Splits off the first `bytes` bytes of a text, unless that would cut a character. -/
def splitBytes : Nat → List Char → Option (List Char × List Char)
  | 0, s => some ([], s)
  | _ + 1, [] => none
  | bytes + 1, c :: s =>
    if c.utf8Size ≤ bytes + 1 then
      (splitBytes (bytes + 1 - c.utf8Size) s).map fun (before, after) => (c :: before, after)
    else none
termination_by structural _ s => s

/-- Splits off the source up to the byte offset `stop`, which is not before the cursor. -/
def upTo (c : Cursor) (stop : Nat) : Except SpanError (String × Cursor) :=
  match splitBytes (stop - c.offset) c.rest with
  | some (before, after) => .ok (String.ofList before, ⟨stop, after⟩)
  | none => .error ⟨c.offset, stop⟩

/-- The whitespace token up to the byte offset `stop`; none if the cursor is already there. -/
def gap (c : Cursor) (stop : Nat) : Except SpanError (List Tree × Cursor) :=
  if stop > c.offset then do
    let (text, c') ← c.upTo stop
    return ([.token .whitespace text], c')
  else return ([], c)

end Cursor

namespace Tree

mutual
def ofSpan (c : Cursor) : SpanTree → Except SpanError (List Tree × Cursor)
  | .mk rule start stop [] => do
    let (gap, c) ← c.gap start
    let (text, c) ← c.upTo (max stop c.offset)
    return (gap ++ [.token (Kind.ofRule rule true) text], c)
  | .mk rule start _ (child :: children) => do
    let (gap, c) ← c.gap start
    let (inner, c) ← ofSpanList c (child :: children)
    return (gap ++ [.node (Kind.ofRule rule false) inner], c)
def ofSpanList (c : Cursor) : List SpanTree → Except SpanError (List Tree × Cursor)
  | [] => return ([], c)
  | s :: ss => do
    let (here, c) ← ofSpan c s
    let (there, c) ← ofSpanList c ss
    return (here ++ there, c)
end

/-- The tree of a source. The root also holds what stands before its first and after its last
leaf. -/
def ofSpans (source : String) (root : SpanTree) : Except SpanError Tree := do
  let (inner, c) ← ofSpanList ⟨0, source.toList⟩ root.children
  let (gap, _) ← c.gap source.utf8ByteSize
  return .node (Kind.ofRule root.rule false) (inner ++ gap)

end Tree

end CallMigration
