import CallMigration.Proofs.Forms

/-!
# The tokens of a unit

The tree of a unit is cut from its source along the spans of its nodes. A trimmed node starts at its
first leaf, so only the leaves decide where the source is cut, and what stands between two leaves
becomes one token of whitespace in front of the second. Such a token ends a line comment exactly if one
of the stretches it is made of does.

* `Cut` : cutting a source along leaves.
* `AllBounded` : every node begins and ends with a token that is neither whitespace nor a comment.
* `Lined`, `Grammar.ensures_lined` : no token of a unit stands in the line of a line comment, and its
  nodes are bounded.
-/

namespace CallMigration

open Grammar
open SpanTree (leavesOf)
open Grammar.Stretch (textOf leavesFrom)

/-! ## Cutting along leaves -/

namespace Cursor

theorem gap_of_le {c : Cursor} {stop : Nat} (h : stop ≤ c.offset) : c.gap stop = .ok ([], c) :=
  if_neg (Nat.not_lt.mpr h)

theorem offset_of_upTo {c c' : Cursor} {stop : Nat} {text : String}
    (h : c.upTo stop = .ok (text, c')) : c'.offset = stop := by
  unfold upTo at h
  split at h
  next =>
    cases h
    rfl
  next => cases h

/-- A gap is whitespace, and reaches at least to where it should. -/
theorem of_gap {c c' : Cursor} {stop : Nat} {gap : List Tree} (h : c.gap stop = .ok (gap, c')) :
    stop ≤ c'.offset ∧ (gap = [] ∨ ∃ text, gap = [.token .whitespace text]) := by
  unfold Cursor.gap at h
  split at h
  next =>
    obtain ⟨⟨text, c''⟩, hcut, heq⟩ := exists_of_bind_eq_ok h
    cases heq
    exact ⟨(offset_of_upTo hcut).ge, .inr ⟨text, rfl⟩⟩
  next hle =>
    cases h
    exact ⟨Nat.not_lt.mp hle, .inl rfl⟩

end Cursor

/-- The tokens that are cut off along leaves, from one cursor to another. -/
inductive Cut : Cursor → List SpanTree → List (Kind × String) → Cursor → Prop
  | nil {c : Cursor} : Cut c [] [] c
  | cons {c c₁ c₂ c' : Cursor} {leaf : SpanTree} {leaves : List SpanTree} {gap : List Tree}
    {text : String} {tokens : List (Kind × String)} :
    c.gap leaf.start = .ok (gap, c₁) → c₁.upTo (max leaf.stop c₁.offset) = .ok (text, c₂) →
      Cut c₂ leaves tokens c' →
      Cut c (leaf :: leaves) (Tree.tokensOf gap ++ (Kind.ofRule leaf.rule true, text) :: tokens) c'

namespace Cut

variable {c c' c'' : Cursor} {as bs : List SpanTree} {tokens tokens' : List (Kind × String)}

theorem append (ha : Cut c as tokens c') (hb : Cut c' bs tokens' c'') :
    Cut c (as ++ bs) (tokens ++ tokens') c'' := by
  induction ha with
  | nil => exact hb
  | cons hgap htext _ ih =>
    rw [List.append_assoc, List.cons_append]
    exact .cons hgap htext (ih hb)

/-- A gap in front of a leaf may also be cut off beforehand. -/
theorem after_gap {leaf : SpanTree} {gap : List Tree} (hgap : c.gap leaf.start = .ok (gap, c'))
    (h : Cut c' (leaf :: as) tokens c'') :
    Cut c (leaf :: as) (Tree.tokensOf gap ++ tokens) c'' := by
  cases h with
  | cons hgap' htext hrest =>
    rw [Cursor.gap_of_le (Cursor.of_gap hgap).1] at hgap'
    cases hgap'
    exact .cons hgap htext hrest

end Cut

theorem leaves_start {t : SpanTree} (h : Trimmed t) :
    ∃ leaf leaves, t.leaves = leaf :: leaves ∧ leaf.start = t.start := by
  induction h with
  | leaf => exact ⟨_, [], by rw [SpanTree.leaves], rfl⟩
  | @node rule stop first last others _ _ _ _ _ ih =>
    obtain ⟨leaf, leaves, hleaves, hstart⟩ := ih first List.mem_cons_self
    refine ⟨leaf, leaves ++ leavesOf others, ?_, hstart⟩
    rw [SpanTree.leaves, leavesOf, hleaves, List.cons_append]

theorem Grammar.Trimmed.children {rule : String} {start stop : Nat} {children : List SpanTree}
    (h : Trimmed (.mk rule start stop children)) : ∀ t ∈ children, Trimmed t := by
  cases h with
  | leaf => exact nofun
  | node _ _ _ _ h => exact h

namespace Tree

theorem ofSpan_node {c c' : Cursor} {rule : String} {start stop : Nat} {child : SpanTree}
    {children : List SpanTree} {ts : List Tree}
    (h : ofSpan c (.mk rule start stop (child :: children)) = .ok (ts, c')) :
    ∃ gap c₁ inner, c.gap start = .ok (gap, c₁) ∧
      ofSpanList c₁ (child :: children) = .ok (inner, c') ∧
      ts = gap ++ [.node (Kind.ofRule rule false) inner] := by
  rw [ofSpan] at h
  obtain ⟨⟨gap, c₁⟩, hgap, h⟩ := exists_of_bind_eq_ok h
  obtain ⟨⟨inner, c₂⟩, hinner, h⟩ := exists_of_bind_eq_ok h
  cases h
  exact ⟨gap, c₁, inner, hgap, hinner, rfl⟩

theorem ofSpan_leaf_eq_ok {c c' : Cursor} {rule : String} {start stop : Nat} {ts : List Tree}
    (h : ofSpan c (.mk rule start stop []) = .ok (ts, c')) :
    ∃ gap c₁ text, c.gap start = .ok (gap, c₁) ∧ c₁.upTo (max stop c₁.offset) = .ok (text, c') ∧
      ts = gap ++ [.token (Kind.ofRule rule true) text] := by
  rw [ofSpan] at h
  obtain ⟨⟨gap, c₁⟩, hgap, h⟩ := exists_of_bind_eq_ok h
  obtain ⟨⟨text, c₂⟩, htext, h⟩ := exists_of_bind_eq_ok h
  cases h
  exact ⟨gap, c₁, text, hgap, htext, rfl⟩

theorem ofSpanList_cons {c c' : Cursor} {s : SpanTree} {ss : List SpanTree} {ts : List Tree}
    (h : ofSpanList c (s :: ss) = .ok (ts, c')) :
    ∃ here c₁ there, ofSpan c s = .ok (here, c₁) ∧ ofSpanList c₁ ss = .ok (there, c') ∧
      ts = here ++ there := by
  rw [ofSpanList] at h
  obtain ⟨⟨here, c₁⟩, hhere, h⟩ := exists_of_bind_eq_ok h
  obtain ⟨⟨there, c₂⟩, hthere, h⟩ := exists_of_bind_eq_ok h
  cases h
  exact ⟨here, c₁, there, hhere, hthere, rfl⟩

mutual
theorem cut_ofSpan : ∀ {t : SpanTree} {c c' : Cursor} {ts : List Tree}, Trimmed t →
    ofSpan c t = .ok (ts, c') → Cut c t.leaves (tokensOf ts) c'
  | .mk rule start stop [], c, c', ts, _, h => by
    obtain ⟨gap, c₁, text, hgap, htext, rfl⟩ := ofSpan_leaf_eq_ok h
    rw [tokensOf_append, SpanTree.leaves]
    exact .cons hgap htext .nil
  | .mk rule start stop (child :: children), c, c', ts, ht, h => by
    obtain ⟨gap, c₁, inner, hgap, hinner, rfl⟩ := ofSpan_node h
    obtain ⟨leaf, leaves, hleaves, hstart⟩ := leaves_start ht
    have hcut := cut_ofSpanList ht.children hinner
    rw [SpanTree.leaves] at hleaves ⊢
    rw [hleaves] at hcut ⊢
    rw [tokensOf_append, tokensOf_singleton, tokens]
    exact hcut.after_gap (hstart ▸ hgap)
theorem cut_ofSpanList : ∀ {ss : List SpanTree} {c c' : Cursor} {ts : List Tree},
    (∀ t ∈ ss, Trimmed t) → ofSpanList c ss = .ok (ts, c') → Cut c (leavesOf ss) (tokensOf ts) c'
  | [], c, c', ts, _, h => by
    rw [ofSpanList] at h
    cases h
    exact .nil
  | s :: ss, c, c', ts, hss, h => by
    obtain ⟨here, c₁, there, hhere, hthere, rfl⟩ := ofSpanList_cons h
    obtain ⟨hs, hss⟩ := List.forall_mem_cons.mp hss
    rw [leavesOf, tokensOf_append]
    exact (cut_ofSpan hs hhere).append (cut_ofSpanList hss hthere)
end

end Tree

/-! ## Nodes that are bounded -/

/-- Neither whitespace nor a comment, with tokens that begin and end with ones that are neither. -/
structure IsBounded (t : Tree) : Prop where
  kind : t.kind.isTrivia = false
  tokens : Bounded t.tokens

instance (t : Tree) : Decidable (IsBounded t) :=
  decidable_of_iff (t.kind.isTrivia = false ∧ Bounded t.tokens)
    ⟨fun h => ⟨h.1, h.2⟩, fun h => ⟨h.kind, h.tokens⟩⟩

def AllBounded (ts : List Tree) : Prop :=
  ∀ x ∈ Tree.nodesOf ts, IsBounded x

instance (ts : List Tree) : Decidable (AllBounded ts) :=
  inferInstanceAs (Decidable (∀ x ∈ Tree.nodesOf ts, IsBounded x))

theorem allBounded_append {as bs : List Tree} :
    AllBounded (as ++ bs) ↔ AllBounded as ∧ AllBounded bs := by
  rw [AllBounded, Tree.nodesOf_append, List.forall_mem_append]
  rfl

theorem any_head?_append {α : Type} {p : α → Bool} {as bs : List α} (h : as.head?.any p = true) :
    (as ++ bs).head?.any p = true := by
  cases as with
  | nil => cases h
  | cons a as => exact h

theorem any_getLast?_append {α : Type} {p : α → Bool} (as : List α) {bs : List α}
    (h : bs.getLast?.any p = true) : (as ++ bs).getLast?.any p = true := by
  cases bs with
  | nil => cases h
  | cons b bs =>
    rw [List.getLast?_append_of_ne_nil _ (List.cons_ne_nil b bs)]
    exact h

theorem allBounded_gap {c c' : Cursor} {stop : Nat} {gap : List Tree}
    (h : c.gap stop = .ok (gap, c')) : AllBounded gap := by
  rcases (Cursor.of_gap h).2 with rfl | ⟨text, rfl⟩ <;> exact nofun

namespace Tree

mutual
/-- The element for a trimmed node is bounded, unless it is a comment. -/
theorem bounded_ofSpan : ∀ {t : SpanTree} {c c' : Cursor} {ts : List Tree}, Trimmed t →
    ofSpan c t = .ok (ts, c') → ∃ gap c₁ x, c.gap t.start = .ok (gap, c₁) ∧ ts = gap ++ [x] ∧
      AllBounded ts ∧ (isComment t = false → IsBounded x)
  | .mk rule start stop [], c, c', ts, ht, h => by
    obtain ⟨gap, c₁, text, hgap, -, rfl⟩ := ofSpan_leaf_eq_ok h
    refine ⟨gap, c₁, _, hgap, rfl, allBounded_append.mpr ⟨allBounded_gap hgap, nofun⟩, ?_⟩
    intro hcomment
    cases ht with
    | leaf hrule =>
      have hplain : isPlain rule = true := hrule.resolve_left (by simp [hcomment])
      have htrivia := isTrivia_ofRule hplain true
      exact ⟨htrivia, bounded_significant htrivia⟩
  | .mk rule start stop (child :: children), c, c', ts, ht, h => by
    obtain ⟨gap, c₁, inner, hgap, hinner, rfl⟩ := ofSpan_node h
    obtain ⟨hall, hhead, hlast⟩ := bounded_ofSpanList ht.children hinner
    have hnode : IsBounded (.node (Kind.ofRule rule false) inner) := by
      cases ht with
      | node hplain hfirst hend hcomment _ =>
        refine ⟨isTrivia_ofRule hplain false, ?_, ?_⟩
        · exact hhead child rfl hfirst (Cursor.of_gap hgap).1
        · exact hlast _ hend hcomment
    refine ⟨gap, c₁, _, hgap, rfl, allBounded_append.mpr ⟨allBounded_gap hgap, ?_⟩, fun _ => hnode⟩
    intro x hx
    rw [nodesOf, nodesOf, List.append_nil, nodes] at hx
    rcases List.mem_cons.mp hx with rfl | hx
    · exact hnode
    · exact hall x hx
/-- The elements for trimmed nodes begin and end with what is bounded, unless it is a comment; a gap in
front of the first one may have been cut off already. -/
theorem bounded_ofSpanList : ∀ {ss : List SpanTree} {c c' : Cursor} {ts : List Tree},
    (∀ t ∈ ss, Trimmed t) → ofSpanList c ss = .ok (ts, c') → AllBounded ts ∧
      (∀ first ∈ ss.head?, isComment first = false → first.start ≤ c.offset →
        (tokensOf ts).head?.any (fun token => !token.1.isTrivia) = true) ∧
      (∀ last ∈ ss.getLast?, isComment last = false →
        (tokensOf ts).getLast?.any (fun token => !token.1.isTrivia) = true)
  | [], c, c', ts, _, h => by
    rw [ofSpanList] at h
    cases h
    exact ⟨nofun, nofun, nofun⟩
  | s :: ss, c, c', ts, hss, h => by
    obtain ⟨here, c₁, there, hhere, hthere, rfl⟩ := ofSpanList_cons h
    obtain ⟨hs, hss⟩ := List.forall_mem_cons.mp hss
    obtain ⟨gap, c₂, x, hgap, rfl, hall, hx⟩ := bounded_ofSpan hs hhere
    obtain ⟨hallThere, -, hlast⟩ := bounded_ofSpanList hss hthere
    refine ⟨allBounded_append.mpr ⟨hall, hallThere⟩, ?_, ?_⟩
    · rintro first hfirst hcomment hle
      cases hfirst
      rw [Cursor.gap_of_le hle] at hgap
      cases hgap
      rw [List.nil_append, tokensOf_append, tokensOf_singleton]
      exact any_head?_append (hx hcomment).tokens.1
    · intro last hend hcomment
      rw [tokensOf_append]
      cases ss with
      | nil =>
        rw [ofSpanList] at hthere
        cases hthere
        cases hend
        rw [tokensOf_append, tokensOf_singleton, tokensOf, List.append_nil]
        exact any_getLast?_append _ (hx hcomment).tokens.2
      | cons other ss =>
        rw [List.getLast?_cons_cons] at hend
        exact any_getLast?_append _ (hlast last hend hcomment)
end

end Tree

/-! ## Whitespace between leaves -/

/-- A text in front of a place is cut off up to it. -/
theorem Cursor.upTo_append (offset : Nat) (text rest : List Char) :
    (⟨offset, text ++ rest⟩ : Cursor).upTo (offset + byteCount text) =
      .ok (String.ofList text, ⟨offset + byteCount text, rest⟩) := by
  have hbytes : offset + byteCount text - offset = (String.ofList text).utf8ByteSize := by
    rw [byteCount_eq_utf8ByteSize]
    omega
  rw [Cursor.upTo, hbytes, splitBytes_append]

/-- The gap up to a place is the text in front of it. An empty gap is none, and would not end a line
comment either. -/
theorem Cursor.gap_append (offset : Nat) (text rest : List Char) :
    ∃ gap, (⟨offset, text ++ rest⟩ : Cursor).gap (offset + byteCount text) =
        .ok (gap, ⟨offset + byteCount text, rest⟩) ∧
      ∀ isOpen, lineAfter isOpen (Tree.tokensOf gap) =
        lineAfter isOpen [(.whitespace, String.ofList text)] := by
  unfold Cursor.gap
  split
  next hlt =>
    refine ⟨[.token .whitespace (String.ofList text)], ?_, fun _ => rfl⟩
    rw [Cursor.upTo_append]
    rfl
  next hle =>
    have hempty : text = [] := eq_nil_of_byteCount (Nat.eq_zero_of_not_pos fun hpos =>
      hle (Nat.lt_add_of_pos_right hpos))
    subst hempty
    refine ⟨[], rfl, fun isOpen => ?_⟩
    rw [lineAfter_cons, lineStep_blank]
    cases isOpen <;> rfl

/-- Two blank texts end a line comment like the whole of them. -/
theorem lineAfter_blank_append (isOpen : Bool) (as bs : List Char)
    (tokens : List (Kind × String)) :
    lineAfter isOpen ((.whitespace, String.ofList as) :: (.whitespace, String.ofList bs) :: tokens) =
      lineAfter isOpen ((.whitespace, String.ofList (as ++ bs)) :: tokens) := by
  rw [lineAfter_cons, lineStep_blank, Option.bind_some, lineAfter_cons, lineStep_blank,
    Option.bind_some, lineAfter_cons, lineStep_blank, Option.bind_some]
  congr 1
  simp [Bool.and_assoc]

/-- The tokens that are cut off along recorded stretches are read like the stretches. What has not been
cut off yet in front of them and behind the last leaf counts as whitespace. -/
theorem cut_leavesFrom {ss : List Stretch} {offset : Nat} {pending rest : List Char} {c' : Cursor}
    {tokens : List (Kind × String)}
    (h : Cut ⟨offset, pending ++ (textOf ss ++ rest)⟩
      (leavesFrom (offset + byteCount pending) ss) tokens c') :
    ∃ pending', c'.rest = pending' ++ rest ∧
      c'.offset + byteCount pending' = offset + byteCount pending + byteCount (textOf ss) ∧
      ∀ isOpen, lineAfter isOpen ((.whitespace, String.ofList pending) :: ss.map Stretch.token) =
        lineAfter isOpen (tokens ++ [(.whitespace, String.ofList pending')]) := by
  induction ss generalizing offset pending tokens with
  | nil =>
    cases h
    exact ⟨pending, rfl, rfl, fun _ => rfl⟩
  | cons s ss ih =>
    obtain ⟨rule, text⟩ := s
    rw [textOf_cons, List.append_assoc] at h
    rw [textOf_cons, byteCount_append]
    cases rule with
    | none =>
      have hcut : Cut ⟨offset, (pending ++ text) ++ (textOf ss ++ rest)⟩
          (leavesFrom (offset + byteCount (pending ++ text)) ss) tokens c' := by
        rw [byteCount_append, ← Nat.add_assoc, List.append_assoc]
        exact h
      obtain ⟨pending', hrest, hoffset, hlines⟩ := ih hcut
      refine ⟨pending', hrest, ?_, ?_⟩
      · rw [hoffset, byteCount_append, ← Nat.add_assoc, ← Nat.add_assoc]
      · intro isOpen
        rw [← hlines isOpen, ← lineAfter_blank_append]
        rfl
    | some rule =>
      cases h with
      | @cons _ c₁ c₂ _ leaf _ gap string tokens hgap htext hcut =>
        obtain ⟨gap', hgap', hblank⟩ :=
          Cursor.gap_append offset pending (text ++ (textOf ss ++ rest))
        cases hgap'.symm.trans hgap
        have hmax : max (offset + byteCount pending + byteCount text) (offset + byteCount pending) =
            offset + byteCount pending + byteCount text := Nat.max_eq_left (Nat.le_add_right _ _)
        change Cursor.upTo _ (max (offset + byteCount pending + byteCount text)
          (offset + byteCount pending)) = _ at htext
        rw [hmax, Cursor.upTo_append] at htext
        cases htext
        obtain ⟨pending', hrest, hoffset, hlines⟩ := @ih _ [] _ hcut
        refine ⟨pending', hrest, ?_, ?_⟩
        · rw [hoffset]
          exact Nat.add_assoc (offset + byteCount pending) (byteCount text) _
        · intro isOpen
          have hnext (middle : Bool) : lineAfter middle (ss.map Stretch.token) =
              lineAfter middle (tokens ++ [(.whitespace, String.ofList pending')]) := by
            rw [← hlines middle, lineAfter_cons, lineStep_blank, Option.bind_some]
            cases middle <;> rfl
          rw [List.map_cons, ← List.singleton_append, lineAfter_append, ← hblank, List.append_assoc,
            lineAfter_append, List.cons_append]
          congr 1
          funext middle
          rw [lineAfter_cons, lineAfter_cons]
          congr 1
          funext middle
          exact hnext middle

/-- The tree of a unit in which no token stands in the line of a line comment, and each node, other than
the unit itself, begins and ends with a token that is neither whitespace nor a comment. -/
structure Lined (root : Tree) : Prop where
  isUnit : root = .node .program root.children
  bounded : AllBounded root.children
  lines : ∃ last, lineAfter false root.tokens = some last

/-- **No token of a unit stands in the line of a line comment.** -/
theorem Grammar.ensures_lined : Grammar.parser.Ensures Lined := by
  intro source u h hread
  obtain ⟨root, hroot, htree⟩ := JavaUnit.exists_rules_of_parse h hread
  obtain ⟨inner, c, gap, c', hinner, hgap, htree⟩ := Tree.exists_of_ofSpans htree
  obtain ⟨hrule, ss, hsource, hleaves, htrimmed, last, hlast⟩ := parse?_reads hroot
  have hcut := Tree.cut_ofSpanList htrimmed hinner
  rw [hleaves, hsource, ← List.append_nil (textOf ss)] at hcut
  obtain ⟨pending, hrest, hoffset, hlines⟩ := @cut_leavesFrom ss 0 [] [] c _ hcut
  obtain ⟨gap', hgap', hblank⟩ := Cursor.gap_append c.offset pending []
  have hend : c.offset + byteCount pending = source.utf8ByteSize := by
    rw [hoffset, ← hsource, byteCount_toList]
    exact Nat.zero_add _
  rw [hend, ← hrest] at hgap'
  cases hgap'.symm.trans hgap
  rw [htree, hrule]
  refine ⟨rfl, allBounded_append.mpr
    ⟨(Tree.bounded_ofSpanList htrimmed hinner).1, allBounded_gap hgap⟩, last, ?_⟩
  change lineAfter false (Tree.tokensOf (inner ++ gap)) = some last
  have hlines := hlines false
  rw [lineAfter_cons, lineStep_blank, Option.bind_some, Bool.false_and, hlast,
    lineAfter_append] at hlines
  rw [Tree.tokensOf_append, lineAfter_append, hlines]
  congr 1
  funext middle
  exact hblank middle

end CallMigration
