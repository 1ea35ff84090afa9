import CallMigration.Grammar.Lexeme
import CallMigration.Tree.Spans

/-!
# Grammars with ordered choice

A grammar gives each rule a `Form`. A form is read from left to right; of several alternatives the
first one that fits is taken. Rules that begin with themselves are written as a `chain`: a first
part, and tails that wrap everything read so far in a node.

Comments are leaves. A node never begins with a comment: those in front of its first token go to the
node around it.

* `Form` : what a rule looks like.
* `Input` : a place in the source, with the comments since the last token.
* `Form.run` : reads a form.
-/

namespace CallMigration.Grammar

/-- What a rule of the grammar looks like. The rules are of type `ρ`. -/
inductive Form (ρ : Type) where
  /-- A token; `leaf` is the rule it is recorded under, if at all. After a token that is `glued` to
  what follows, whitespace and comments are not skipped. -/
  | token (leaf : Option String) (lexeme : Lexeme) (glued : Bool)
  /-- A number, recorded under the rule of its class. -/
  | number
  /-- Another rule. -/
  | rule (r : ρ)
  /-- One after the other. -/
  | seq (fs : List (Form ρ))
  /-- The first that fits. -/
  | alt (fs : List (Form ρ))
  /-- Once or not at all. -/
  | opt (f : Form ρ)
  /-- As often as it fits. -/
  | many (f : Form ρ)
  /-- A node of the tree. -/
  | node (name : String) (f : Form ρ)
  /-- A first part, then tails as often as one fits. A tail has the rule of the node it makes, the
  rules of the elements it may follow (any, if there are none), and its form. -/
  | chain (first : Form ρ) (tails : List (String × List String × Form ρ))
  /-- The form, if the element it ends with is of one of the given rules. -/
  | only (rules : List String) (f : Form ρ)
  /-- Nothing, if none of the given tokens stands here. -/
  | absent (lexemes : List Lexeme)
  /-- Nothing, if one of the given tokens stands here. -/
  | present (lexemes : List Lexeme)

/-- A place in the source. -/
structure Input where
  /-- The text from here on. -/
  rest : List Char
  /-- The byte offset. -/
  offset : Nat
  /-- The comments since the last token, the last one first. -/
  comments : List SpanTree

namespace Input

/-- Goes over whitespace and comments; `steps` bounds the number of characters. -/
def skip : Nat → Input → Input
  | 0, i => i
  | steps + 1, i =>
    match i.rest with
    | [] => i
    | c :: s =>
      if isSpace c then skip steps { i with rest := s, offset := i.offset + c.utf8Size }
      else
        match comment? (c :: s) with
        | some (rule, text, rest) =>
          let stop := i.offset + byteCount text
          skip steps ⟨rest, stop, .mk rule i.offset stop [] :: i.comments⟩
        | none => i

/-- Goes over whitespace and comments. -/
def skipTrivia (i : Input) : Input :=
  i.skip (i.rest.length + 1)

/-- The beginning of a source; a byte order mark is passed over. -/
def ofSource (source : List Char) : Input :=
  match source with
  | c :: s =>
    if c.toNat = 0xFEFF then skipTrivia ⟨s, c.utf8Size, []⟩ else skipTrivia ⟨c :: s, 0, []⟩
  | [] => ⟨[], 0, []⟩

/-- Goes over a token and records it behind the comments in front of it. The output has the last
element first. -/
def take (i : Input) (leaf : Option String) (glued : Bool) (text rest : List Char)
    (out : List SpanTree) : Input × List SpanTree :=
  let stop := i.offset + byteCount text
  let next : Input := ⟨rest, stop, []⟩
  let out := i.comments ++ out
  (if glued then next else next.skipTrivia,
    match leaf with
    | some rule => .mk rule i.offset stop [] :: out
    | none => out)

/-- One of the tokens stands here. -/
def startsWith (i : Input) (lexemes : List Lexeme) : Bool :=
  lexemes.any fun l => (l.scan i.rest).isSome

end Input

def isComment (t : SpanTree) : Bool :=
  t.rule == "line_comment" || t.rule == "block_comment"

/-- Wraps elements in a node, leaving the comments in front of them outside. Input and output have
the last element first. -/
def wrap (rule : String) (inner out : List SpanTree) : List SpanTree :=
  let ordered := inner.reverse
  let comments := ordered.takeWhile isComment
  let parts := ordered.dropWhile isComment
  match parts, inner with
  | first :: _, last :: _ => .mk rule first.start last.stop parts :: (comments.reverse ++ out)
  | _, _ => comments.reverse ++ out

/-- The tail may follow an element of the given rule. -/
def fits (rules : List String) : List SpanTree → Bool
  | last :: _ => rules.isEmpty || rules.contains last.rule
  | [] => rules.isEmpty

namespace Form

variable {ρ : Type} (grammar : ρ → Form ρ)

mutual
/-- Reads a form, at most `depth` forms inside each other. The output has the last element
first. -/
def run : Nat → Form ρ → Input → List SpanTree → Option (Input × List SpanTree)
  | 0, _, _, _ => none
  | depth + 1, f, i, out =>
    match f with
    | token leaf lexeme glued =>
      (lexeme.scan i.rest).map fun (text, rest) => i.take leaf glued text rest out
    | number =>
      (numberAt? i.rest).map fun (name, length) =>
        i.take (some name) false (i.rest.take length) (i.rest.drop length) out
    | rule r => run depth (grammar r) i out
    | seq [] => some (i, out)
    | seq (f :: fs) =>
      match run depth f i out with
      | some (i, out) => run depth (seq fs) i out
      | none => none
    | alt [] => none
    | alt (f :: fs) =>
      match run depth f i out with
      | some r => some r
      | none => run depth (alt fs) i out
    | opt f =>
      match run depth f i out with
      | some r => some r
      | none => some (i, out)
    | many f =>
      match run depth f i out with
      | some (i', out') => run depth (many f) i' out'
      | none => some (i, out)
    | node name f =>
      match run depth f i [] with
      | some (i, inner) => some (i, wrap name inner out)
      | none => none
    | chain first tails =>
      match run depth first i [] with
      | some (i, left) =>
        match runTails depth tails tails i left with
        | some (i, left) => some (i, left ++ out)
        | none => none
      | none => none
    | only rules f =>
      match run depth f i out with
      | some (i, out) => if fits rules out then some (i, out) else none
      | none => none
    | absent lexemes => if i.startsWith lexemes then none else some (i, out)
    | present lexemes => if i.startsWith lexemes then some (i, out) else none

/-- Reads tails behind what has been read, the first of `tails` that fits, then again from `all`. -/
def runTails : Nat → List (String × List String × Form ρ) → List (String × List String × Form ρ) →
    Input → List SpanTree → Option (Input × List SpanTree)
  | 0, _, _, _, _ => none
  | _ + 1, _, [], i, left => some (i, left)
  | depth + 1, all, (name, rules, f) :: tails, i, left =>
    match left with
    | [] => some (i, left)
    | last :: before =>
      if fits rules left then
        match run depth f i [last] with
        | some (i', inner) => runTails depth all all i' (wrap name inner before)
        | none => runTails depth all tails i left
      else runTails depth all tails i left
end

end Form

end CallMigration.Grammar
