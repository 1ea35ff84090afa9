import CallMigration.Tree.Kind

/-!
# Lossless Java trees

A `Tree` is a token with its text or a node with its children. Whitespace and comments are tokens
like any other, so the text of a unit is the concatenation of the texts of its tokens.

* `Tree.tokens` : the tokens in document order.
* `Tree.text`, `Tree.significantText` : the text, with and without whitespace and comments.
* `Tree.nodes` : the nodes in pre-order.
* `Element` : what trees have in common with trees at a known place.
-/

namespace CallMigration

/-- An element of a Java tree. -/
inductive Tree where
  | token (kind : Kind) (text : String)
  | node (kind : Kind) (children : List Tree)
deriving Repr, Inhabited

namespace Tree

def kind : Tree → Kind
  | token k _ => k
  | node k _ => k

/-- The children of a node; a token has none. -/
def children : Tree → List Tree
  | token _ _ => []
  | node _ cs => cs

def isNode : Tree → Bool
  | token _ _ => false
  | node _ _ => true

def tokenText? : Tree → Option String
  | token _ s => some s
  | node _ _ => none

/-! ## Tokens -/

mutual
def tokens : Tree → List (Kind × String)
  | token k s => [(k, s)]
  | node _ cs => tokensOf cs
def tokensOf : List Tree → List (Kind × String)
  | [] => []
  | t :: ts => t.tokens ++ tokensOf ts
end

def joinTokens (ts : List (Kind × String)) : String :=
  String.join (ts.map (·.2))

def text (t : Tree) : String :=
  joinTokens t.tokens

/-- The tokens of an element that are neither whitespace nor comments. -/
def significantTokens (t : Tree) : List (Kind × String) :=
  t.tokens.filter fun (k, _) => !k.isTrivia

/-- The text of an element without whitespace and comments. A token keeps its text. -/
def significantText : Tree → String
  | token _ s => s
  | t => joinTokens t.significantTokens

mutual
def byteLength : Tree → Nat
  | token _ s => s.utf8ByteSize
  | node _ cs => byteLengthOf cs
/-- The number of bytes of the texts of a list of elements. -/
def byteLengthOf : List Tree → Nat
  | [] => 0
  | t :: ts => t.byteLength + byteLengthOf ts
end

/-! ## Nodes -/

mutual
/-- The nodes in pre-order, the element itself included. -/
def nodes : Tree → List Tree
  | token _ _ => []
  | node k cs => node k cs :: nodesOf cs
/-- The nodes of a list of elements in pre-order. -/
def nodesOf : List Tree → List Tree
  | [] => []
  | t :: ts => t.nodes ++ nodesOf ts
end

/-! ## Equality -/

mutual
/-- Structural equality. -/
def decEq : (a b : Tree) → Decidable (a = b)
  | token k s, token l t =>
    if h : k = l ∧ s = t then isTrue (by rw [h.1, h.2])
    else isFalse (by intro e; cases e; exact h ⟨rfl, rfl⟩)
  | token _ _, node _ _ => isFalse (by intro e; cases e)
  | node _ _, token _ _ => isFalse (by intro e; cases e)
  | node k as, node l bs =>
    if hk : k = l then
      match decEqAll as bs with
      | isTrue h => isTrue (by rw [hk, h])
      | isFalse h => isFalse (by intro e; cases e; exact h rfl)
    else isFalse (by intro e; cases e; exact hk rfl)
/-- Structural equality of lists of elements. -/
def decEqAll : (as bs : List Tree) → Decidable (as = bs)
  | [], [] => isTrue rfl
  | [], _ :: _ => isFalse (by intro e; cases e)
  | _ :: _, [] => isFalse (by intro e; cases e)
  | a :: as, b :: bs =>
    match decEq a b with
    | isTrue h =>
      match decEqAll as bs with
      | isTrue hs => isTrue (by rw [h, hs])
      | isFalse hs => isFalse (by intro e; cases e; exact hs rfl)
    | isFalse h => isFalse (by intro e; cases e; exact h rfl)
end

instance : DecidableEq Tree := decEq

end Tree

/-! ## Elements -/

/-- Anything that stands for an element of a tree and knows its children in the same way. -/
class Element (α : Type) where
  /-- The tree that stands there. -/
  tree : α → Tree
  /-- The children, in order. -/
  children : α → List α

instance : Element Tree := ⟨id, Tree.children⟩

namespace Element

variable {α : Type} [Element α]

def kind (x : α) : Kind :=
  (tree x).kind

/-- Neither whitespace nor a comment. -/
def isSignificant (x : α) : Bool :=
  !(kind x).isTrivia

/-- The children that are neither whitespace nor comments. -/
def significantChildren (x : α) : List α :=
  (children x).filter isSignificant

def significantText (x : α) : String :=
  (tree x).significantText

def isTokenText (s : String) (x : α) : Bool :=
  (tree x).tokenText? == some s

end Element

end CallMigration
