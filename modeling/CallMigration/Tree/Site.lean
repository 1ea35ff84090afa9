import CallMigration.Tree.Basic

/-!
# Elements at their place

A `Site` is an element of a unit together with the byte offset at which it starts and the nodes
around it, innermost first.

* `Span` : the kind and the byte range of a node.
* `Site.children` : the children at their places.
* `Site.nodes` : the nodes in pre-order at their places.
-/

namespace CallMigration

/-- The kind and the byte range of a node. -/
structure Span where
  kind : Kind
  start : Nat
  stop : Nat
deriving DecidableEq, Repr, Inhabited

/-- An element at its place in a unit. -/
structure Site where
  element : Tree
  /-- The byte offset at which the element starts. -/
  start : Nat
  /-- The nodes around the element, innermost first. -/
  around : List Span
deriving DecidableEq, Repr, Inhabited

namespace Site

def root (t : Tree) : Site :=
  ⟨t, 0, []⟩

/-- The kind and the byte range of the element. -/
def span (s : Site) : Span :=
  ⟨s.element.kind, s.start, s.start + s.element.byteLength⟩

/-- The kind of the node directly around the element. -/
def parentKind? (s : Site) : Option Kind :=
  s.around.head?.map (·.kind)

/-- Elements that follow each other from the offset `start`. -/
def place (around : List Span) : Nat → List Tree → List Site
  | _, [] => []
  | start, t :: ts => ⟨t, start, around⟩ :: place around (start + t.byteLength) ts

def children (s : Site) : List Site :=
  place (s.span :: s.around) s.start s.element.children

instance : Element Site := ⟨element, children⟩

mutual
def nodesAt (around : List Span) (start : Nat) : Tree → List Site
  | .token _ _ => []
  | .node k cs =>
    ⟨.node k cs, start, around⟩
      :: nodesAtAll (⟨k, start, start + Tree.byteLengthOf cs⟩ :: around) start cs
/-- The nodes of elements that follow each other, in pre-order at their places. -/
def nodesAtAll (around : List Span) (start : Nat) : List Tree → List Site
  | [] => []
  | t :: ts => nodesAt around start t ++ nodesAtAll around (start + t.byteLength) ts
end

/-- The nodes in pre-order, the element itself included. -/
def nodes (s : Site) : List Site :=
  nodesAt s.around s.start s.element

end Site

end CallMigration
