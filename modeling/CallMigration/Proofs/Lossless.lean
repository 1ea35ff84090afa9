import CallMigration.Proofs.Basic
import CallMigration.Tree.Unit

/-!
# No part of a source is lost

A source is cut along spans from left to right, and nothing is assumed of the spans. What has been cut
off so far and what is left are always the source together, because a cut never goes back: it is made
at the furthest offset that any span has named up to there.

* `Cursor.Stands` : the part of the source in front of a cursor.
* `SpanTree.marks`, `furthest` : the offsets that spans name, and where the source is cut for them.
* `Cuts` : the elements for some spans spell what was cut off, or one of the cuts splits a character.
* `JavaUnit.parse_cases` : what the tree of a unit is cut along.
* `JavaUnit.text_parse` : a tree spells its source, and when there is a tree.
-/

namespace CallMigration

/-- The offset lies between two characters of the source, or at one of its ends. -/
def IsBoundary (source : String) (offset : Nat) : Prop :=
  ∃ before after : String, source = before ++ after ∧ before.utf8ByteSize = offset

/-! ## Cutting off bytes -/

theorem utf8ByteSize_ofList_cons (c : Char) (s : List Char) :
    (String.ofList (c :: s)).utf8ByteSize = c.utf8Size + (String.ofList s).utf8ByteSize := by
  have hsplit : String.ofList (c :: s) = String.singleton c ++ String.ofList s := by
    rw [String.singleton_eq_ofList, ← String.ofList_append]
    rfl
  rw [hsplit, String.utf8ByteSize_append, String.utf8ByteSize_singleton]

namespace Grammar

theorem byteCount_eq_utf8ByteSize (s : List Char) :
    byteCount s = (String.ofList s).utf8ByteSize := by
  have hfold (n : Nat) : s.foldl (fun n c => n + c.utf8Size) n = n + (String.ofList s).utf8ByteSize := by
    induction s generalizing n with
    | nil => rfl
    | cons c s ih => rw [List.foldl_cons, ih, utf8ByteSize_ofList_cons, Nat.add_assoc]
  rw [byteCount, hfold, Nat.zero_add]

theorem byteCount_cons (c : Char) (s : List Char) :
    byteCount (c :: s) = c.utf8Size + byteCount s := by
  rw [byteCount_eq_utf8ByteSize, byteCount_eq_utf8ByteSize, utf8ByteSize_ofList_cons]

theorem byteCount_append (s t : List Char) : byteCount (s ++ t) = byteCount s + byteCount t := by
  simp only [byteCount_eq_utf8ByteSize, String.ofList_append, String.utf8ByteSize_append]

theorem eq_nil_of_byteCount {s : List Char} (h : byteCount s = 0) : s = [] := by
  cases s with
  | nil => rfl
  | cons c s =>
    have hpos := c.utf8Size_pos
    rw [byteCount_cons] at h
    omega

theorem byteCount_toList (source : String) : byteCount source.toList = source.utf8ByteSize := by
  rw [byteCount_eq_utf8ByteSize, String.ofList_toList]

end Grammar

namespace Cursor

/-- What is cut off has the bytes that were asked for. -/
theorem of_splitBytes {bytes : Nat} {s before after : List Char}
    (h : splitBytes bytes s = some (before, after)) :
    s = before ++ after ∧ (String.ofList before).utf8ByteSize = bytes := by
  induction s generalizing bytes before with
  | nil =>
    cases bytes with
    | zero =>
      cases h
      exact ⟨rfl, rfl⟩
    | succ bytes => cases h
  | cons c s ih =>
    cases bytes with
    | zero =>
      cases h
      exact ⟨rfl, rfl⟩
    | succ bytes =>
      rw [splitBytes, Option.ite_none_right_eq_some] at h
      obtain ⟨hsize, h⟩ := h
      obtain ⟨⟨rest, rest'⟩, hrest, hpair⟩ := Option.map_eq_some_iff.mp h
      cases hpair
      obtain ⟨rfl, hbytes⟩ := ih hrest
      refine ⟨rfl, ?_⟩
      rw [utf8ByteSize_ofList_cons, hbytes]
      omega

theorem splitBytes_append (before after : List Char) :
    splitBytes (String.ofList before).utf8ByteSize (before ++ after) = some (before, after) := by
  induction before with
  | nil =>
    have hzero : (String.ofList []).utf8ByteSize = 0 := rfl
    rw [hzero, splitBytes]
    rfl
  | cons c before ih =>
    have hpos := c.utf8Size_pos
    rw [utf8ByteSize_ofList_cons, List.cons_append]
    obtain ⟨bytes, hbytes⟩ :
        ∃ bytes, c.utf8Size + (String.ofList before).utf8ByteSize = bytes + 1 :=
      ⟨c.utf8Size + (String.ofList before).utf8ByteSize - 1, by omega⟩
    have hrest : bytes + 1 - c.utf8Size = (String.ofList before).utf8ByteSize := by omega
    rw [hbytes, splitBytes, if_pos (by omega), hrest, ih]
    rfl

/-- The cursor stands behind the part `read` of the source. -/
structure Stands (source read : String) (c : Cursor) : Prop where
  split : source = read ++ String.ofList c.rest
  offset : c.offset = read.utf8ByteSize

theorem Stands.isBoundary {source read : String} {c : Cursor} (h : c.Stands source read) :
    IsBoundary source c.offset :=
  ⟨read, _, h.split, h.offset.symm⟩

theorem stands_start (source : String) : (⟨0, source.toList⟩ : Cursor).Stands source "" := by
  constructor
  · rw [String.ofList_toList, String.empty_append]
  · rfl

/-- From a cursor on, the source can be cut exactly at its boundaries. -/
theorem Stands.upTo {source read : String} {c : Cursor} (h : c.Stands source read) {stop : Nat}
    (hle : c.offset ≤ stop) :
    (∃ text c', c.upTo stop = .ok (text, c') ∧ c'.offset = stop ∧ c'.Stands source (read ++ text) ∧
      IsBoundary source stop) ∨
    (∃ e, c.upTo stop = .error e) ∧ ¬ IsBoundary source stop := by
  unfold Cursor.upTo
  have hoffset := h.offset
  cases hcut : splitBytes (stop - c.offset) c.rest with
  | some pair =>
    obtain ⟨before, after⟩ := pair
    obtain ⟨hrest, hbytes⟩ := of_splitBytes hcut
    have hstands : (⟨stop, after⟩ : Cursor).Stands source (read ++ String.ofList before) := by
      constructor
      · rw [h.split, hrest, String.ofList_append, String.append_assoc]
      · rw [String.utf8ByteSize_append, hbytes, ← hoffset]
        exact (Nat.add_sub_of_le hle).symm
    exact .inl ⟨_, _, rfl, rfl, hstands, hstands.isBoundary⟩
  | none =>
    refine .inr ⟨⟨_, rfl⟩, ?_⟩
    rintro ⟨before, after, hsource, hbytes⟩
    -- The boundary is not in front of the cursor, so the rest of the source could be cut there.
    have hsame : read.toList ++ c.rest = before.toList ++ after.toList := by
      rw [← String.toList_append, ← hsource, h.split, String.toList_append, String.toList_ofList]
    have hmiddle : ∃ middle, before.toList = read.toList ++ middle ∧
        c.rest = middle ++ after.toList := by
      rcases List.append_eq_append_iff.mp hsame with ⟨middle, hbefore, hrest⟩ | ⟨extra, hread, hafter⟩
      · exact ⟨middle, hbefore, hrest⟩
      · have hsizes : read = before ++ String.ofList extra := by
          rw [← String.toList_inj, hread, String.toList_append, String.toList_ofList]
        rw [hsizes, String.utf8ByteSize_append] at hoffset
        have hempty : String.ofList extra = "" :=
          String.utf8ByteSize_eq_zero_iff.mp (by omega)
        have hnil : extra = [] := by
          rw [← String.toList_ofList (l := extra), hempty]
          rfl
        subst hnil
        exact ⟨[], by rw [hread, List.append_nil, List.append_nil], by rw [hafter]; rfl⟩
    obtain ⟨middle, hbefore, hrest⟩ := hmiddle
    have hsize : stop - c.offset = (String.ofList middle).utf8ByteSize := by
      have hbefore' : before = read ++ String.ofList middle := by
        rw [← String.toList_inj, hbefore, String.toList_append, String.toList_ofList]
      rw [← hbytes, hbefore', String.utf8ByteSize_append, hoffset]
      omega
    rw [hsize, hrest, splitBytes_append] at hcut
    cases hcut

/-- A token up to an offset, or an empty one if the cursor is already behind it. -/
def token (c : Cursor) (k : Kind) (stop : Nat) : Except SpanError (List Tree × Cursor) := do
  let (text, c) ← c.upTo (max stop c.offset)
  return ([.token k text], c)

end Cursor

/-! ## Where a source is cut -/

namespace SpanTree

mutual
/-- The offsets that a span and its parts name, from left to right: where each of them starts, and
where the leaves end. -/
def marks : SpanTree → List Nat
  | mk _ start stop [] => [start, stop]
  | mk _ start _ (child :: children) => start :: marksOf (child :: children)
/-- The offsets that spans which follow each other name. -/
def marksOf : List SpanTree → List Nat
  | [] => []
  | s :: ss => s.marks ++ marksOf ss
end

end SpanTree

def furthest : Nat → List Nat → List Nat
  | _, [] => []
  | offset, mark :: marks => max offset mark :: furthest (max offset mark) marks

theorem furthest_append (offset : Nat) (as bs : List Nat) :
    furthest offset (as ++ bs) = furthest offset as ++ furthest (as.foldl max offset) bs := by
  induction as generalizing offset with
  | nil => rfl
  | cons a as ih => rw [List.cons_append, furthest, furthest, ih, List.cons_append, List.foldl_cons]

namespace Tree

theorem joinTokens_append (as bs : List (Kind × String)) :
    joinTokens (as ++ bs) = joinTokens as ++ joinTokens bs := by
  rw [← String.toList_inj, String.toList_append, joinTokens_toList, joinTokens_toList,
    joinTokens_toList, List.flatMap_append]

def textOf (ts : List Tree) : String :=
  joinTokens (tokensOf ts)

@[simp]
theorem textOf_nil : textOf [] = "" := rfl

@[simp]
theorem textOf_append (as bs : List Tree) : textOf (as ++ bs) = textOf as ++ textOf bs := by
  rw [textOf, tokensOf_append, joinTokens_append]
  rfl

theorem textOf_token (k : Kind) (text : String) : textOf [.token k text] = text := by
  rw [textOf, tokensOf_singleton, tokens, ← String.toList_inj, joinTokens_toList]
  simp

theorem textOf_node (k : Kind) (ts : List Tree) : textOf [.node k ts] = textOf ts := by
  rw [textOf, tokensOf_singleton, tokens]
  rfl

end Tree

/-- From a cursor behind `read`, the source is cut for the marks. Either the elements spell what has been
cut off and every cut is a boundary, or one of the cuts is none. -/
def Cuts (source read : String) (c : Cursor) (marks : List Nat) :
    Except SpanError (List Tree × Cursor) → Prop
  | .ok (ts, c') => c'.Stands source (read ++ Tree.textOf ts) ∧ c'.offset = marks.foldl max c.offset ∧
      ∀ offset ∈ furthest c.offset marks, IsBoundary source offset
  | .error _ => ∃ offset ∈ furthest c.offset marks, ¬ IsBoundary source offset

namespace Cuts

variable {source read : String} {c : Cursor} {marks marks' : List Nat}

/-- Elements and then further ones, from where the first ones end. -/
theorem bind {x : Except SpanError (List Tree × Cursor)}
    {y : Cursor → Except SpanError (List Tree × Cursor)} {join : List Tree → List Tree → List Tree}
    (hx : Cuts source read c marks x)
    (hy : ∀ ts c', c'.Stands source (read ++ Tree.textOf ts) →
      Cuts source (read ++ Tree.textOf ts) c' marks' (y c'))
    (hjoin : ∀ as bs, Tree.textOf (join as bs) = Tree.textOf as ++ Tree.textOf bs) :
    Cuts source read c (marks ++ marks') (do
      let (as, c) ← x
      let (bs, c) ← y c
      return (join as bs, c)) := by
  cases x with
  | error e =>
    obtain ⟨offset, hoffset, hbad⟩ := hx
    exact ⟨offset, by rw [furthest_append]; exact List.mem_append_left _ hoffset, hbad⟩
  | ok pair =>
    obtain ⟨as, c'⟩ := pair
    obtain ⟨hstands, hoffset, hgood⟩ := hx
    have hrest := hy as c' hstands
    change Cuts source read c (marks ++ marks') (y c' >>= fun p => pure (join as p.1, p.2))
    cases hcut : y c' with
    | error e =>
      rw [hcut] at hrest
      obtain ⟨offset, hmem, hbad⟩ := hrest
      refine ⟨offset, ?_, hbad⟩
      rw [furthest_append, ← hoffset]
      exact List.mem_append_right _ hmem
    | ok pair =>
      obtain ⟨bs, c''⟩ := pair
      rw [hcut] at hrest
      obtain ⟨hstands', hoffset', hgood'⟩ := hrest
      refine ⟨?_, ?_, ?_⟩
      · rw [hjoin, ← String.append_assoc]
        exact hstands'
      · rw [hoffset', hoffset, List.foldl_append]
      · intro offset hmem
        rw [furthest_append, ← hoffset] at hmem
        rcases List.mem_append.mp hmem with hmem | hmem
        · exact hgood offset hmem
        · exact hgood' offset hmem

theorem token (h : c.Stands source read) (k : Kind) (stop : Nat) :
    Cuts source read c [stop] (c.token k stop) := by
  unfold Cursor.token
  have hmax : max c.offset stop = max stop c.offset := Nat.max_comm _ _
  rcases h.upTo (Nat.le_max_right stop c.offset) with
    ⟨text, c', hcut, hoffset, hstands, hgood⟩ | ⟨⟨e, hcut⟩, hbad⟩
  · rw [hcut]
    refine ⟨?_, ?_, ?_⟩
    · rw [Tree.textOf_token]
      exact hstands
    · rw [List.foldl_cons, List.foldl_nil, hmax]
      exact hoffset
    · intro offset hmem
      rw [furthest, furthest, List.mem_singleton] at hmem
      rw [hmem, hmax]
      exact hgood
  · rw [hcut]
    exact ⟨_, List.mem_singleton_self _, by rw [hmax]; exact hbad⟩

theorem gap (h : c.Stands source read) (stop : Nat) : Cuts source read c [stop] (c.gap stop) := by
  unfold Cursor.gap
  split
  next hlt =>
    have htoken := token h .whitespace stop
    rwa [Cursor.token, Nat.max_eq_left (by omega)] at htoken
  next hle =>
    have hmax : max c.offset stop = c.offset := by omega
    refine ⟨?_, ?_, ?_⟩
    · rw [Tree.textOf_nil, String.append_empty]
      exact h
    · rw [List.foldl_cons, List.foldl_nil, hmax]
    · intro offset hmem
      rw [furthest, furthest, List.mem_singleton, hmax] at hmem
      rw [hmem]
      exact h.isBoundary

end Cuts

/-! ## Trees of spans -/

namespace Tree

theorem ofSpan_leaf (c : Cursor) (rule : String) (start stop : Nat) :
    ofSpan c (.mk rule start stop []) = (do
      let (gap, c) ← c.gap start
      let (leaf, c) ← c.token (Kind.ofRule rule true) stop
      return (gap ++ leaf, c)) := by
  rw [ofSpan]
  cases c.gap start with
  | error e => rfl
  | ok pair =>
    obtain ⟨gap, c⟩ := pair
    change c.upTo (max stop c.offset) >>= _ = c.token (Kind.ofRule rule true) stop >>= _
    unfold Cursor.token
    cases c.upTo (max stop c.offset) <;> rfl

mutual
theorem cuts_ofSpan {source : String} : ∀ (s : SpanTree) {read : String} {c : Cursor},
    c.Stands source read → Cuts source read c s.marks (ofSpan c s)
  | .mk rule start stop [], read, c, h => by
    rw [ofSpan_leaf, SpanTree.marks]
    exact (Cuts.gap h start).bind (fun ts c' hstands => .token hstands _ stop) textOf_append
  | .mk rule start stop (child :: children), read, c, h => by
    rw [ofSpan, SpanTree.marks]
    have hjoin (gap inner : List Tree) :
        Tree.textOf (gap ++ [.node (Kind.ofRule rule false) inner]) =
          Tree.textOf gap ++ Tree.textOf inner := by
      rw [textOf_append, textOf_node]
    exact (Cuts.gap h start).bind
      (fun ts c' hstands => cuts_ofSpanList (child :: children) hstands) hjoin
theorem cuts_ofSpanList {source : String} : ∀ (ss : List SpanTree) {read : String} {c : Cursor},
    c.Stands source read → Cuts source read c (SpanTree.marksOf ss) (ofSpanList c ss)
  | [], read, c, h => by
    rw [ofSpanList, SpanTree.marksOf]
    refine ⟨?_, rfl, by simp [furthest]⟩
    rw [textOf_nil, String.append_empty]
    exact h
  | s :: ss, read, c, h => by
    rw [ofSpanList, SpanTree.marksOf]
    exact (cuts_ofSpan s h).bind (fun ts c' hstands => cuts_ofSpanList ss hstands) textOf_append
end

end Tree

namespace Cursor.Stands

variable {source read : String} {c : Cursor} (h : c.Stands source read)

include h

theorem offset_le : c.offset ≤ source.utf8ByteSize := by
  rw [h.split, String.utf8ByteSize_append, h.offset]
  exact Nat.le_add_right _ _

/-- At the end of the source, all of it has been read. -/
theorem read_eq (hend : c.offset = source.utf8ByteSize) : read = source := by
  have hsize := congrArg String.utf8ByteSize h.split
  rw [String.utf8ByteSize_append, ← hend, h.offset] at hsize
  have hempty : String.ofList c.rest = "" := String.utf8ByteSize_eq_zero_iff.mp (by omega)
  rw [h.split, hempty, String.append_empty]

end Cursor.Stands

/-- A tree holds the elements for its spans and the gap behind the last one. -/
theorem Tree.exists_of_ofSpans {source : String} {root : SpanTree} {t : Tree}
    (h : Tree.ofSpans source root = .ok t) :
    ∃ inner c gap c', ofSpanList ⟨0, source.toList⟩ root.children = .ok (inner, c) ∧
      c.gap source.utf8ByteSize = .ok (gap, c') ∧
      t = .node (Kind.ofRule root.rule false) (inner ++ gap) := by
  unfold Tree.ofSpans at h
  obtain ⟨⟨inner, c⟩, hinner, h⟩ := exists_of_bind_eq_ok h
  obtain ⟨⟨gap, c'⟩, hgap, h⟩ := exists_of_bind_eq_ok h
  cases h
  exact ⟨inner, c, gap, c', hinner, hgap, rfl⟩

/-- A tree spells its source, and there is one exactly if the source is cut at boundaries. -/
theorem Tree.ofSpans_cases (source : String) (root : SpanTree) :
    (∃ t, Tree.ofSpans source root = .ok t ∧ t.text = source ∧
      ∀ offset ∈ furthest 0 (SpanTree.marksOf root.children), IsBoundary source offset) ∨
    (∃ e, Tree.ofSpans source root = .error e) ∧
      ∃ offset ∈ furthest 0 (SpanTree.marksOf root.children), ¬ IsBoundary source offset := by
  have hcuts := cuts_ofSpanList root.children (Cursor.stands_start source)
  unfold Tree.ofSpans
  cases hinner : ofSpanList ⟨0, source.toList⟩ root.children with
  | error e =>
    rw [hinner] at hcuts
    exact .inr ⟨⟨e, rfl⟩, hcuts⟩
  | ok pair =>
    obtain ⟨inner, c⟩ := pair
    rw [hinner] at hcuts
    obtain ⟨hstands, -, hgood⟩ := hcuts
    have hmax : max c.offset source.utf8ByteSize = source.utf8ByteSize :=
      Nat.max_eq_right hstands.offset_le
    have hrest := Cuts.gap hstands source.utf8ByteSize
    change (∃ t, (c.gap source.utf8ByteSize >>= _) = .ok t ∧ _) ∨
      (∃ e, (c.gap source.utf8ByteSize >>= _) = .error e) ∧ _
    cases hgap : c.gap source.utf8ByteSize with
    | error e =>
      rw [hgap] at hrest
      obtain ⟨offset, hmem, hbad⟩ := hrest
      rw [furthest, furthest, List.mem_singleton, hmax] at hmem
      refine absurd ⟨source, "", ?_, hmem.symm⟩ hbad
      rw [String.append_empty]
    | ok pair =>
      obtain ⟨gap, c'⟩ := pair
      rw [hgap] at hrest
      obtain ⟨hstands', hoffset, -⟩ := hrest
      rw [List.foldl_cons, List.foldl_nil, hmax] at hoffset
      refine .inl ⟨_, rfl, ?_, hgood⟩
      rw [← hstands'.read_eq hoffset, String.empty_append, ← textOf_append]
      rfl

theorem Tree.text_of_ofSpans {source : String} {root : SpanTree} {t : Tree}
    (h : Tree.ofSpans source root = .ok t) : t.text = source := by
  rcases Tree.ofSpans_cases source root with ⟨t', ht', htext, -⟩ | ⟨⟨e, he⟩, -⟩
  · rw [h] at ht'
    cases ht'
    exact htext
  · rw [h] at he
    cases he

/-- The trees of all sources in which the parser finds no syntax errors are such. -/
def Parser.Ensures (parser : Parser) (p : Tree → Prop) : Prop :=
  ∀ source u, JavaUnit.parseWith parser source = .ok u → u.hasErrors = false → p u.tree

namespace JavaUnit

/-- The unit of a source that the grammar does not cover: all of it is one token. -/
def whole (source : String) : JavaUnit :=
  ⟨.node .program [.token (Kind.ofRule "ERROR" true) source], true⟩

theorem ofSpans_unread (source : String) :
    Tree.ofSpans source (unread source) = .ok (whole source).tree := by
  have hcut : Cursor.splitBytes source.utf8ByteSize source.toList = some (source.toList, []) := by
    have hsplit := Cursor.splitBytes_append source.toList []
    rwa [String.ofList_toList, List.append_nil] at hsplit
  have hup : (⟨0, source.toList⟩ : Cursor).upTo source.utf8ByteSize =
      .ok (source, ⟨source.utf8ByteSize, []⟩) := by
    rw [Cursor.upTo, Nat.sub_zero, hcut]
    simp only [String.ofList_toList]
  have hnone (c : Cursor) : c.gap c.offset = .ok ([], c) := if_neg (Nat.lt_irrefl _)
  have hfront := hnone ⟨0, source.toList⟩
  have hback := hnone ⟨source.utf8ByteSize, []⟩
  unfold Tree.ofSpans unread
  simp only [SpanTree.children, Tree.ofSpanList, Tree.ofSpan, bind, Except.bind, pure, Except.pure,
    hfront, Nat.max_zero, hup, hback]
  rfl

theorem parser_of_covered {source : String} {root : SpanTree} (h : Grammar.parse? source = some root) :
    Grammar.parser source = ⟨root, false⟩ := by
  unfold Grammar.parser
  rw [h]

theorem parse_of_uncovered {source : String} (h : Grammar.parse? source = none) :
    parse source = .ok (whole source) := by
  unfold parse parseWith Grammar.parser
  rw [h]
  simp only [ofSpans_unread]
  rfl

theorem ofSpans_of_parseWith {parser : Parser} {source : String} {u : JavaUnit}
    (h : parseWith parser source = .ok u) :
    Tree.ofSpans source (parser source).root = .ok u.tree ∧
      u.hasErrors = (parser source).hasErrors := by
  obtain ⟨t, ht, h⟩ := exists_of_bind_eq_ok h
  cases h
  exact ⟨ht, rfl⟩

/-- A source is cut along the rules that cover it. If none do, it is kept as a whole. -/
theorem parse_cases {source : String} {u : JavaUnit} (h : parse source = .ok u) :
    (u.hasErrors = false ∧
      ∃ root, Grammar.parse? source = some root ∧ Tree.ofSpans source root = .ok u.tree) ∨
    u = whole source := by
  cases hroot : Grammar.parse? source with
  | none => exact .inr (Except.ok.inj (h.symm.trans (parse_of_uncovered hroot)))
  | some root =>
    obtain ⟨ht, herrors⟩ := ofSpans_of_parseWith h
    rw [parser_of_covered hroot] at ht herrors
    exact .inl ⟨herrors, root, rfl, ht⟩

theorem exists_rules_of_parse {source : String} {u : JavaUnit} (h : parse source = .ok u)
    (hread : u.hasErrors = false) :
    ∃ root, Grammar.parse? source = some root ∧ Tree.ofSpans source root = .ok u.tree := by
  obtain ⟨-, hrules⟩ | rfl := parse_cases h
  · exact hrules
  · cases hread

/-- **No part of a source is lost.** Whatever spans a source is cut along, the tree spells the source;
and there is a tree exactly if the source is cut at boundaries, each cut being at the furthest offset
that the spans have named up to there. So a unit spells the source that it was read from, whatever the
parser has found in it, with syntax errors or without; and the grammar reads a source that it does not
cover, too. -/
theorem text_parse (parser : Parser) (source : String) :
    (∀ root t, Tree.ofSpans source root = .ok t → t.text = source) ∧
    (∀ root, (∃ t, Tree.ofSpans source root = .ok t) ↔
      ∀ offset ∈ furthest 0 (SpanTree.marksOf root.children), IsBoundary source offset) ∧
    (∀ u, parseWith parser source = .ok u →
      u.text = source ∧ u.hasErrors = (parser source).hasErrors) ∧
    (∀ u, parse source = .ok u → u.text = source) ∧
    (Grammar.parse? source = none → ∃ u, parse source = .ok u ∧ u.hasErrors = true) := by
  have hiff : ∀ root, (∃ t, Tree.ofSpans source root = .ok t) ↔
      ∀ offset ∈ furthest 0 (SpanTree.marksOf root.children), IsBoundary source offset := by
    intro root
    rcases Tree.ofSpans_cases source root with ⟨t, ht, -, hgood⟩ | ⟨⟨e, he⟩, offset, hmem, hbad⟩
    · exact iff_of_true ⟨t, ht⟩ hgood
    · refine iff_of_false ?_ fun hgood => hbad (hgood offset hmem)
      rintro ⟨t, ht⟩
      rw [ht] at he
      cases he
  have hparse (p : Parser) : ∀ u, parseWith p source = .ok u →
      u.text = source ∧ u.hasErrors = (p source).hasErrors := by
    intro u hu
    obtain ⟨ht, herrors⟩ := ofSpans_of_parseWith hu
    exact ⟨Tree.text_of_ofSpans ht, herrors⟩
  refine ⟨fun _ _ => Tree.text_of_ofSpans, hiff, hparse parser, fun u hu => (hparse Grammar.parser u hu).1, ?_⟩
  · intro hnone
    exact ⟨whole source, parse_of_uncovered hnone, rfl⟩

/-- Spans over `é+1 ;` that overlap, run backwards and leave gaps, the last one at the end. -/
def disorderly : SpanTree :=
  .mk "program" 3 5
    [.mk "binary_expression" 0 4
      [.mk "identifier" 0 2 [], .mk "+" 1 3 [], .mk "decimal_integer_literal" 0 2 []],
      .mk "." 5 4 []]

/-- The tree of these spans has empty tokens and a gap inside, and spells the source. -/
theorem text_parse_disorderly :
    ∃ t, Tree.ofSpans "é+1 ;" disorderly = .ok t ∧ t.text = "é+1 ;" ∧
      t.tokens = [(.identifier, "é"), (.token, "+"), (.integerLiteral, ""), (.whitespace, "1 "),
        (.dot, ""), (.whitespace, ";")] := by
  have hread : Tree.ofSpans "é+1 ;" disorderly = .ok (.node .program
      [.node .binaryExpression
        [.token .identifier "é", .token .token "+", .token .integerLiteral ""],
        .token .whitespace "1 ", .token .dot "", .token .whitespace ";"]) :=
    eq_ok_of_toOption (by decide +kernel)
  exact ⟨_, hread, (text_parse Grammar.parser "é+1 ;").1 _ _ hread, rfl⟩

end JavaUnit

end CallMigration
