import CallMigration.Proofs.Leaves
import CallMigration.Proofs.Tidiness

/-!
# Parentheses and spaces of a unit

A parenthesis in a tree is spelled as one, and whitespace in it separates tokens. That is not so inside
of text blocks: the tree has whitespace in the place of an escape sequence that only text blocks have.
So what is said here of the children of a node is not said of strings.

* `Spaced`, `AllSpaced` : parentheses and whitespace among the children of nodes.
* `Tree.spaced_ofSpan` : cutting along spans that are laid out.
* `JavaUnit.spaced_parse` : the children of the nodes of a unit.
* `PlainLists` : the same for the argument lists of a unit, which is all that templates ask for.
-/

namespace CallMigration

open Grammar

/-! ## The children of a node -/

/-- Parentheses among some elements are spelled like that, and whitespace is made of the characters that
count as `space`, unless the elements are `loose`. -/
structure Spaced (space : Char → Bool) (loose : Bool) (ts : List Tree) : Prop where
  opening : ∀ t ∈ ts, t.kind = .leftParen → t = .token .leftParen "("
  closing : ∀ t ∈ ts, t.kind = .rightParen → t = .token .rightParen ")"
  blank : loose = false → ∀ t ∈ ts, t.kind = .whitespace → ∀ c ∈ t.text.toList, space c = true

/-- The children of all nodes in the elements are spaced, those of strings apart. -/
def AllSpaced (ts : List Tree) : Prop :=
  ∀ x ∈ Tree.nodesOf ts, Spaced isSpace (x.kind == .stringLiteral) x.children

variable {space : Char → Bool} {loose loose' : Bool}

theorem spaced_append {as bs : List Tree} (ha : Spaced space loose as)
    (hb : Spaced space loose bs) : Spaced space loose (as ++ bs) where
  opening := List.forall_mem_append.mpr ⟨ha.opening, hb.opening⟩
  closing := List.forall_mem_append.mpr ⟨ha.closing, hb.closing⟩
  blank := fun h => List.forall_mem_append.mpr ⟨ha.blank h, hb.blank h⟩

theorem spaced_nil (space : Char → Bool) (loose : Bool) : Spaced space loose [] := ⟨nofun, nofun, fun _ => nofun⟩

theorem allSpaced_append {as bs : List Tree} :
    AllSpaced (as ++ bs) ↔ AllSpaced as ∧ AllSpaced bs := by
  rw [AllSpaced, Tree.nodesOf_append, List.forall_mem_append]
  rfl

theorem Spaced.mono {ts : List Tree} (h : Spaced space loose ts)
    (hle : loose' = false → loose = false) : Spaced space loose' ts :=
  ⟨h.opening, h.closing, fun hloose => h.blank (hle hloose)⟩

theorem ofRule_cases (rule : String) (leaf : Bool) :
    (Kind.ofRule rule leaf = .leftParen → rule = "(") ∧
      (Kind.ofRule rule leaf = .rightParen → rule = ")") ∧
      Kind.ofRule rule leaf ≠ .whitespace := by
  have hrules : ∀ pair ∈ Kind.ruleKinds ++ Kind.leafKinds, (pair.2 = .leftParen → pair.1 = "(") ∧
      (pair.2 = .rightParen → pair.1 = ")") ∧ pair.2 ≠ .whitespace := by decide +kernel
  unfold Kind.ofRule
  split
  next k hlookup => exact hrules (rule, k) (List.mem_append_left _ (mem_of_lookup hlookup))
  next =>
    cases leaf with
    | false => exact ⟨nofun, nofun, nofun⟩
    | true =>
      rw [if_pos rfl]
      cases hlookup : Kind.leafKinds.lookup rule with
      | none => exact ⟨nofun, nofun, nofun⟩
      | some k => exact hrules (rule, k) (List.mem_append_right _ (mem_of_lookup hlookup))

theorem spaced_singleton {loose : Bool} {t : Tree}
    (hopening : t.kind = .leftParen → t = .token .leftParen "(")
    (hclosing : t.kind = .rightParen → t = .token .rightParen ")") (hblank : t.kind ≠ .whitespace) :
    Spaced isSpace loose [t] := by
  refine ⟨fun u hu => ?_, fun u hu => ?_, fun _ u hu hkind => ?_⟩ <;>
    cases List.mem_singleton.mp hu
  · exact hopening
  · exact hclosing
  · exact absurd hkind hblank

theorem spaced_leaf (loose : Bool) {rule : String} {text : List Char}
    (h : rule ∈ parenRules → text = rule.toList) :
    Spaced isSpace loose [.token (Kind.ofRule rule true) (String.ofList text)] := by
  obtain ⟨hopening, hclosing, hblank⟩ := ofRule_cases rule true
  refine spaced_singleton (fun hkind => ?_) (fun hkind => ?_) hblank
  · cases hopening hkind
    rw [h (by decide)]
    rfl
  · cases hclosing hkind
    rw [h (by decide)]
    rfl

theorem spaced_node (loose : Bool) {rule : String} (children : List Tree) (h : rule ∉ parenRules) :
    Spaced isSpace loose [.node (Kind.ofRule rule false) children] := by
  obtain ⟨hopening, hclosing, hblank⟩ := ofRule_cases rule false
  refine spaced_singleton (fun hkind => ?_) (fun hkind => ?_) hblank
  · cases hopening hkind
    exact absurd (by decide) h
  · cases hclosing hkind
    exact absurd (by decide) h

/-! ## Cutting along spans -/

def Cursor.IsAt (source : List Char) (c : Cursor) : Prop :=
  At source c.offset c.rest

section Cutting

variable {source : List Char} {c c' : Cursor} {loose : Bool}

theorem Cursor.IsAt.upTo (h : c.IsAt source) {text : List Char} {stop : Nat}
    (hbetween : Between source c.offset text stop) :
    ∃ c', c.upTo stop = .ok (String.ofList text, c') ∧ c'.IsAt source ∧ c'.offset = stop := by
  obtain ⟨offset, rest⟩ := c
  obtain ⟨after, hat, rfl⟩ := hbetween
  cases At.unique h hat
  exact ⟨_, Cursor.upTo_append offset text after, hat.behind, rfl⟩

theorem Cursor.IsAt.gap (h : c.IsAt source) {stop : Nat} (hgap : Gap source loose c.offset stop) :
    ∃ gap c', c.gap stop = .ok (gap, c') ∧ c'.IsAt source ∧ c'.offset = stop ∧ Spaced isSpace loose gap ∧
      Tree.nodesOf gap = [] := by
  obtain ⟨text, hbetween, hspace⟩ := hgap
  obtain ⟨c', hupTo, hat, hoffset⟩ := h.upTo hbetween
  unfold Cursor.gap
  split
  next =>
    refine ⟨[.token .whitespace (String.ofList text)], c', by rw [hupTo]; rfl, hat, hoffset, ?_, rfl⟩
    refine ⟨?_, ?_, fun hloose => ?_⟩
    · rintro t ht hkind
      cases List.mem_singleton.mp ht
      cases hkind
    · rintro t ht hkind
      cases List.mem_singleton.mp ht
      cases hkind
    · rintro t ht -
      cases List.mem_singleton.mp ht
      rw [Tree.text, Tree.tokens, Tree.joinTokens_toList]
      simpa using hspace hloose
  next hle =>
    obtain ⟨after, -, hstop⟩ := hbetween
    have hsame : stop = c.offset := by omega
    exact ⟨[], c, rfl, h, hsame.symm, spaced_nil _ loose, rfl⟩

namespace Tree

mutual
/-- A span that is laid out is cut off up to where it stops. -/
theorem spaced_ofSpan : ∀ {t : SpanTree} {c c' : Cursor} {loose : Bool} {ts : List Tree},
    Spells source t → c.IsAt source → Gap source loose c.offset t.start →
    ofSpan c t = .ok (ts, c') →
      c'.IsAt source ∧ c'.offset = t.stop ∧ Spaced isSpace loose ts ∧ AllSpaced ts
  | .mk rule start stop [], c, c', loose, ts, ht, hat, hgap, h => by
    obtain ⟨gap, c₁, text, hcut, htext, rfl⟩ := ofSpan_leaf_eq_ok h
    obtain ⟨gap', c₂, hcut', hat₁, hoffset, hspaced, hnodes⟩ := hat.gap hgap
    cases hcut'.symm.trans hcut
    rw [Spells] at ht
    obtain ⟨spelled, hbetween, hparen⟩ := ht
    change c₁.offset = start at hoffset
    have hmax : max stop c₁.offset = stop := by
      obtain ⟨after, -, hstop⟩ := hbetween
      omega
    rw [← hoffset] at hbetween
    obtain ⟨c₃, hupTo, hat', hstop⟩ := hat₁.upTo hbetween
    rw [hmax] at htext
    cases hupTo.symm.trans htext
    refine ⟨hat', hstop, spaced_append hspaced (spaced_leaf loose hparen), ?_⟩
    refine allSpaced_append.mpr ⟨?_, nofun⟩
    rw [AllSpaced, hnodes]
    exact nofun
  | .mk rule start stop (child :: children), c, c', loose, ts, ht, hat, hgap, h => by
    obtain ⟨gap, c₁, inner, hcut, hinner, rfl⟩ := ofSpan_node h
    obtain ⟨gap', c₂, hcut', hat₁, hoffset, hspaced, hnodes⟩ := hat.gap hgap
    cases hcut'.symm.trans hcut
    rw [Spells] at ht
    obtain ⟨hrule, hlaid⟩ := ht
    change c₁.offset = start at hoffset
    rw [← hoffset] at hlaid
    obtain ⟨hat', hstop, hparts, hall⟩ := spaced_ofSpanList hlaid hat₁ hinner
    refine ⟨hat', hstop, spaced_append hspaced (spaced_node loose inner hrule), ?_⟩
    refine allSpaced_append.mpr ⟨?_, fun x hx => ?_⟩
    · rw [AllSpaced, hnodes]
      exact nofun
    · rw [nodesOf, nodesOf, List.append_nil, nodes] at hx
      rcases List.mem_cons.mp hx with rfl | hx
      · refine hparts.mono fun hplain => ?_
        rw [beq_eq_false_iff_ne] at hplain ⊢
        rintro rfl
        exact hplain rfl
      · exact hall x hx
theorem spaced_ofSpanList : ∀ {ss : List SpanTree} {c c' : Cursor} {loose : Bool} {q : Nat}
    {ts : List Tree}, Laid source loose c.offset ss q → c.IsAt source →
    ofSpanList c ss = .ok (ts, c') →
      c'.IsAt source ∧ c'.offset = q ∧ Spaced isSpace loose ts ∧ AllSpaced ts
  | [], c, c', loose, q, ts, hlaid, hat, h => by
    rw [ofSpanList] at h
    rw [Laid] at hlaid
    cases h
    exact ⟨hat, hlaid, spaced_nil _ loose, nofun⟩
  | s :: ss, c, c', loose, q, ts, hlaid, hat, h => by
    obtain ⟨here, c₁, there, hhere, hthere, rfl⟩ := ofSpanList_cons h
    rw [Laid] at hlaid
    obtain ⟨hgap, hs, hlaid⟩ := hlaid
    obtain ⟨hat₁, hoffset, hspaced, hall⟩ := spaced_ofSpan hs hat hgap hhere
    rw [← hoffset] at hlaid
    obtain ⟨hat', hq, hspaced', hall'⟩ := spaced_ofSpanList hlaid hat₁ hthere
    exact ⟨hat', hq, spaced_append hspaced hspaced', allSpaced_append.mpr ⟨hall, hall'⟩⟩
end

end Tree

end Cutting

/-- **Parentheses and spaces of a unit.** Among the children of a node, a parenthesis is a token that
is spelled like that; and whitespace is nothing but spaces, if the node is no string. Nothing is said
of the unit itself, whose source may begin with a byte order mark. -/
theorem JavaUnit.spaced_parse {source : String} {u : JavaUnit} (h : JavaUnit.parse source = .ok u)
    (hread : u.hasErrors = false) :
    ∃ children, u.tree = .node .program children ∧ AllSpaced children := by
  obtain ⟨root, hroot, htree⟩ := JavaUnit.exists_rules_of_parse h hread
  obtain ⟨inner, c, gap, c', hinner, hgap, htree⟩ := Tree.exists_of_ofSpans htree
  obtain ⟨hrule, q, hlaid⟩ := parse?_laid hroot
  have hstart : (⟨0, source.toList⟩ : Cursor).IsAt source.toList := ⟨[], rfl, rfl⟩
  obtain ⟨-, -, -, hall⟩ := Tree.spaced_ofSpanList hlaid hstart hinner
  refine ⟨inner ++ gap, by rw [htree, hrule]; rfl, allSpaced_append.mpr ⟨hall, ?_⟩⟩
  rcases (Cursor.of_gap hgap).2 with rfl | ⟨text, rfl⟩ <;> exact nofun

/-- What stands between arguments is what it looks like. -/
def PlainLists (space : Char → Bool) (root : Tree) : Prop :=
  ∀ list ∈ root.nodes, list.kind = .argumentList → Spaced space false list.children

theorem Grammar.ensures_plainLists : Grammar.parser.Ensures (PlainLists isSpace) := by
  intro source u h hread list hlist hkind
  obtain ⟨children, htree, hall⟩ := JavaUnit.spaced_parse h hread
  rw [htree] at hlist
  rcases List.mem_cons.mp hlist with rfl | hlist
  · cases hkind
  · exact (hall list hlist).mono fun _ => by rw [hkind]; rfl

end CallMigration
