import CallMigration.Proofs.Leaves
import CallMigration.Proofs.Slots
import CallMigration.Proofs.Stock

/-!
# Line comments in replaced calls

A fragment may have line comments, and so may the call it is applied to. The fragment is cut out of
a unit, in which no token is lost in a line comment, and an argument that takes the place of a slot
is read like the slot. So the replaced call can lose tokens at one place only: where the whitespace
behind the last comment of the fragment has been dropped, and the call has no line break of its own
in front of the parenthesis that follows.

* `Readable` : tokens among which none is lost.
* `Template.Filled.lines` : a slot is read like the argument that takes its place.
* `Template.lines_readBody` : what is read of a fragment begins on a closed line.
* `Template.breaksBeforeParen` : the line break that can save the parenthesis.
* `Template.endsLines_replacement?_iff` : when a replaced call ends its line comments.
-/

namespace CallMigration

open CallMigration.Tree

namespace Tree

mutual
/-- What a node holds is part of what is around it. -/
theorem infix_of_mem_nodes {x : Tree} : ∀ {t : Tree}, x ∈ t.nodes →
    x.nodes <:+: t.nodes ∧ x.tokens <:+: t.tokens
  | .token k s, h => by cases h
  | .node k cs, h => by
    rw [nodes] at h
    rcases List.mem_cons.mp h with rfl | h
    · exact ⟨List.infix_rfl, List.infix_rfl⟩
    · obtain ⟨hnodes, htokens⟩ := infix_of_mem_nodesOf h
      rw [nodes, tokens]
      exact ⟨hnodes.trans (List.suffix_cons _ _).isInfix, htokens⟩
theorem infix_of_mem_nodesOf {x : Tree} : ∀ {ts : List Tree}, x ∈ nodesOf ts →
    x.nodes <:+: nodesOf ts ∧ x.tokens <:+: tokensOf ts
  | [], h => by cases h
  | t :: ts, h => by
    rw [nodesOf, List.mem_append] at h
    rw [nodesOf, tokensOf]
    rcases h with h | h
    · obtain ⟨hnodes, htokens⟩ := infix_of_mem_nodes h
      exact ⟨hnodes.trans (List.prefix_append _ _).isInfix,
        htokens.trans (List.prefix_append _ _).isInfix⟩
    · obtain ⟨hnodes, htokens⟩ := infix_of_mem_nodesOf h
      exact ⟨hnodes.trans (List.suffix_append _ _).isInfix,
        htokens.trans (List.suffix_append _ _).isInfix⟩
end

theorem children_infix_of_mem_nodesOf {x : Tree} {ts : List Tree} (h : x ∈ nodesOf ts) :
    tokensOf x.children <:+: tokensOf ts := by
  cases x with
  | token k s => exact List.nil_infix
  | node k cs => exact (infix_of_mem_nodesOf h).2

theorem tokens_infix_of_mem {x : Tree} {ts : List Tree} (h : x ∈ ts) : x.tokens <:+: tokensOf ts := by
  obtain ⟨before, after, rfl⟩ := List.append_of_mem h
  rw [tokensOf_append, tokensOf]
  exact ⟨_, _, List.append_assoc _ _ _⟩

end Tree

/-! ## Elements that are read -/

def Readable (tokens : List (Kind × String)) : Prop :=
  ∃ isOpen last, lineAfter isOpen tokens = some last

theorem Readable.part {as bs : List (Kind × String)} (h : Readable bs) (hpart : as <:+: bs) :
    Readable as := by
  obtain ⟨before, after, rfl⟩ := hpart
  obtain ⟨isOpen, last, h⟩ := h
  obtain ⟨middle, h, -⟩ := exists_lineAfter_of_append h
  obtain ⟨first, -, h⟩ := exists_lineAfter_of_append h
  exact ⟨first, middle, h⟩

theorem Bounded.solid_of_readable {tokens : List (Kind × String)} (hbounded : Bounded tokens)
    (h : Readable tokens) : Solid tokens := by
  obtain ⟨isOpen, last, h⟩ := h
  exact hbounded.solid h

namespace AllBounded

variable {ts as bs : List Tree} {x : Tree}

/-- An element that is neither whitespace nor a comment is bounded. -/
theorem isBounded (h : AllBounded ts) (hx : x ∈ ts) (hkind : x.kind.isTrivia = false) :
    IsBounded x := by
  cases x with
  | token k s => exact ⟨hkind, bounded_significant hkind⟩
  | node k cs => exact h _ (mem_nodesOf_of_mem hx List.mem_cons_self)

theorem tokens_of_trivia (h : AllBounded ts) (hx : x ∈ ts) (hkind : x.kind.isTrivia = true) :
    ∃ text, x.tokens = [(x.kind, text)] := by
  cases x with
  | token k s => exact ⟨s, rfl⟩
  | node k cs =>
    have hnode := (h _ (mem_nodesOf_of_mem hx List.mem_cons_self)).kind
    rw [hkind] at hnode
    cases hnode

theorem of_node {k : Kind} {cs : List Tree} (h : AllBounded [.node k cs]) : AllBounded cs := by
  intro y hy
  exact h y (mem_nodesOf_of_mem List.mem_cons_self (List.mem_cons_of_mem _ hy))

theorem of_sublist (h : AllBounded bs) (hsub : as.Sublist bs) : AllBounded as :=
  fun x hx => h x ((nodesOf_sublist hsub).subset hx)

theorem children (h : AllBounded ts) (hx : x ∈ nodesOf ts) : AllBounded x.children := by
  intro y hy
  apply h y
  apply (infix_of_mem_nodesOf hx).1.subset
  cases x with
  | token k s => cases hy
  | node k cs => exact List.mem_cons_of_mem _ hy

end AllBounded

theorem allBounded_cons {t : Tree} {ts : List Tree} :
    AllBounded (t :: ts) ↔ AllBounded [t] ∧ AllBounded ts := by
  rw [← List.singleton_append, allBounded_append]

theorem allBounded_node {k : Kind} {cs : List Tree} (hnode : IsBounded (.node k cs))
    (hcs : AllBounded cs) : AllBounded [.node k cs] := by
  intro x hx
  rw [nodesOf, nodesOf, List.append_nil, nodes] at hx
  rcases List.mem_cons.mp hx with rfl | hx
  · exact hnode
  · exact hcs x hx

theorem isTrivia_of_mem_tokensOf {ts : List Tree} (hall : AllBounded ts)
    (htrivia : ∀ x ∈ ts, x.kind.isTrivia = true) : ∀ token ∈ tokensOf ts, token.1.isTrivia = true := by
  induction ts with
  | nil => exact nofun
  | cons x ts ih =>
    obtain ⟨hx, hts⟩ := List.forall_mem_cons.mp htrivia
    obtain ⟨text, htext⟩ := hall.tokens_of_trivia List.mem_cons_self hx
    have hrest := ih (hall.of_sublist (List.sublist_cons_self _ _)) hts
    rw [tokensOf, htext]
    exact List.forall_mem_cons.mpr ⟨hx, hrest⟩

theorem lineAfter_whitespace {ts : List Tree} (hall : AllBounded ts)
    (hspace : ∀ x ∈ ts, x.kind = .whitespace) : lineAfter false (tokensOf ts) = some false := by
  induction ts with
  | nil => rfl
  | cons x ts ih =>
    obtain ⟨hx, hts⟩ := List.forall_mem_cons.mp hspace
    obtain ⟨text, htext⟩ := hall.tokens_of_trivia List.mem_cons_self (by rw [hx]; rfl)
    have hstep : lineStep false (.whitespace, text) = some false := rfl
    rw [tokensOf, htext, hx, List.singleton_append, lineAfter_cons, hstep]
    exact ih (hall.of_sublist (List.sublist_cons_self _ _)) hts

/-- Elements are trivia throughout, or go on behind the trivia with one that is none. -/
theorem leadingTrivia_cases (ts : List Tree) :
    leadingTrivia ts = ts ∨
      ∃ x rest, ts = leadingTrivia ts ++ x :: rest ∧ x.kind.isTrivia = false := by
  have hsplit : leadingTrivia ts ++ ts.dropWhile (fun t => t.kind.isTrivia) = ts :=
    List.takeWhile_append_dropWhile
  have hkind := List.head?_dropWhile_not (fun t : Tree => t.kind.isTrivia) ts
  cases hparts : ts.dropWhile (fun t => t.kind.isTrivia) with
  | nil =>
    rw [hparts, List.append_nil] at hsplit
    exact .inl hsplit
  | cons x rest =>
    rw [hparts] at hsplit hkind
    exact .inr ⟨x, rest, hsplit.symm, hkind⟩

theorem trailingTrivia_cases (ts : List Tree) :
    trailingTrivia ts = ts ∨
      ∃ rest x, ts = rest ++ x :: trailingTrivia ts ∧ x.kind.isTrivia = false := by
  have hreverse : trailingTrivia ts = (leadingTrivia ts.reverse).reverse := rfl
  rw [hreverse]
  rcases leadingTrivia_cases ts.reverse with hall | ⟨x, rest, hsplit, hkind⟩
  · rw [hall]
    exact .inl ts.reverse_reverse
  · refine .inr ⟨rest.reverse, x, ?_, hkind⟩
    have hts := congrArg List.reverse hsplit
    rwa [List.reverse_reverse, List.reverse_append, List.reverse_cons, List.append_assoc,
      List.singleton_append] at hts

/-- Where the line is closed behind some elements, it is closed behind the trivia they begin with. -/
theorem lineAfter_leadingTrivia {ts : List Tree} {isOpen : Bool} (hall : AllBounded ts)
    (h : lineAfter isOpen (tokensOf ts) = some false) :
    lineAfter isOpen (tokensOf (leadingTrivia ts)) = some false := by
  rcases leadingTrivia_cases ts with htrivia | ⟨x, rest, hsplit, hkind⟩
  · rwa [htrivia]
  · have hx : x ∈ ts := hsplit ▸ List.mem_append_right _ List.mem_cons_self
    rw [hsplit, tokensOf_append, tokensOf] at h
    obtain ⟨middle, hleading, hrest⟩ := exists_lineAfter_of_append h
    obtain ⟨next, hnext, -⟩ := exists_lineAfter_of_append hrest
    rw [hleading, ((hall.isBounded hx hkind).tokens.lines hnext).1]

/-- Behind the last element that is neither whitespace nor a comment, the line is closed. -/
theorem lineAfter_trailingTrivia {ts : List Tree} {last : Bool} (hall : AllBounded ts)
    (h : lineAfter false (tokensOf ts) = some last) :
    lineAfter false (tokensOf (trailingTrivia ts)) = some last := by
  rcases trailingTrivia_cases ts with htrivia | ⟨rest, x, hsplit, hkind⟩
  · rwa [htrivia]
  · have hx : x ∈ ts := hsplit ▸ List.mem_append_right _ List.mem_cons_self
    rw [hsplit, tokensOf_append, tokensOf] at h
    obtain ⟨middle, -, htrailing⟩ := exists_lineAfter_of_append h
    obtain ⟨next, hnext, htrailing⟩ := exists_lineAfter_of_append htrailing
    rwa [((hall.isBounded hx hkind).tokens.lines hnext).2] at htrailing

namespace Template

/-! ## Substitution -/

theorem solid_of_grouped {argument : Tree} {tokens : List (Kind × String)}
    (h : Grouped argument tokens) (hsolid : Solid argument.tokens) : Solid tokens := by
  rcases h with rfl | rfl
  · exact hsolid
  · exact (solid_significant rfl).append (hsolid.append (solid_significant rfl))

/-- A slot is read like the argument that takes its place. -/
theorem Filled.lines {captured : List Tree} {tokens out : List (Kind × String)}
    (hcaptured : ∀ argument ∈ captured, Solid argument.tokens) (h : Filled captured tokens out)
    (isOpen : Bool) : lineAfter isOpen out = lineAfter isOpen tokens := by
  induction h generalizing isOpen with
  | nil => rfl
  | keep _ _ ih =>
    rw [lineAfter_cons, lineAfter_cons]
    congr 1
    funext middle
    exact ih middle
  | slot hsome hgroup _ ih =>
    obtain ⟨hkind, index, -, hargument⟩ := capturedAt?_eq_some_iff.mp hsome
    have hfill := solid_of_grouped hgroup (hcaptured _ (List.mem_of_getElem? hargument))
    rw [lineAfter_append, hfill, lineAfter_cons, lineStep_significant (by rw [hkind]; rfl)]
    congr 1
    funext middle
    exact ih middle

theorem bounded_of_grouped {argument : Tree} {tokens : List (Kind × String)}
    (h : Grouped argument tokens) (hbounded : Bounded argument.tokens) : Bounded tokens := by
  rcases h with rfl | rfl
  · exact hbounded
  · exact ⟨rfl, by rw [← List.cons_append]; exact any_getLast?_append _ rfl⟩

/-- The body begins and ends with what it began and ended with, or with arguments in their place. -/
theorem Filled.bounded {captured : List Tree} {tokens out : List (Kind × String)}
    (hcaptured : ∀ argument ∈ captured, Bounded argument.tokens) (h : Filled captured tokens out)
    (hbounded : Bounded tokens) : Bounded out := by
  have hfill {token : Kind × String} {argument : Tree} {fill : List (Kind × String)}
      (hsome : capturedAt? captured token.1 token.2 = some argument)
      (hgroup : Grouped argument fill) : Bounded fill := by
    obtain ⟨-, index, -, hargument⟩ := capturedAt?_eq_some_iff.mp hsome
    exact bounded_of_grouped hgroup (hcaptured _ (List.mem_of_getElem? hargument))
  constructor
  · cases h with
    | nil => exact hbounded.1
    | keep _ _ => exact hbounded.1
    | slot hsome hgroup _ => exact any_head?_append (hfill hsome hgroup).1
  · have hlast := hbounded.2
    clear hbounded
    induction h with
    | nil => exact hlast
    | @keep token tokens out _ hrest ih =>
      cases hrest with
      | nil => exact hlast
      | _ =>
        rw [List.getLast?_cons_cons] at hlast
        exact any_getLast?_append [token] (ih hlast)
    | slot hsome hgroup hrest ih =>
      cases hrest with
      | nil =>
        rw [List.append_nil]
        exact (hfill hsome hgroup).2
      | _ =>
        rw [List.getLast?_cons_cons] at hlast
        exact any_getLast?_append _ (ih hlast)

theorem isBounded_parenthesize {t : Tree} (h : IsBounded t) : IsBounded (parenthesize t) := by
  refine ⟨rfl, bounded_of_grouped (.inr ?_) h.tokens⟩
  simp [parenthesize, tokens, tokensOf]

/-- An element is bounded in parentheses if it is without them. -/
theorem bounded_group {t : Tree} (h : IsBounded t) (hall : AllBounded [t]) (parent : Option Kind) :
    IsBounded (group parent t) ∧ AllBounded [group parent t] := by
  unfold group
  split
  next => exact ⟨h, hall⟩
  next =>
    refine ⟨isBounded_parenthesize h, allBounded_node (isBounded_parenthesize h) ?_⟩
    exact allBounded_cons.mpr ⟨nofun, allBounded_cons.mpr ⟨hall, nofun⟩⟩

mutual
theorem allBounded_substitute {captured : List Tree}
    (hcaptured : ∀ argument ∈ captured, IsBounded argument ∧ AllBounded [argument])
    (parent : Option Kind) :
    ∀ t : Tree, AllBounded [t] → AllBounded [substitute captured parent t]
  | .token k s, _ => by
    rw [substitute]
    split
    next argument hsome =>
      obtain ⟨-, index, -, hargument⟩ := capturedAt?_eq_some_iff.mp hsome
      obtain ⟨hbounded, hall⟩ := hcaptured _ (List.mem_of_getElem? hargument)
      exact (bounded_group hbounded hall parent).2
    next => exact nofun
  | .node k cs, h => by
    have hnode := h _ (mem_nodesOf_of_mem List.mem_cons_self List.mem_cons_self)
    have hparts := allBounded_substituteAll hcaptured (some k) cs h.of_node
    have hfilled := filled_substituteAll captured (some k) cs
    rw [substitute]
    exact allBounded_node ⟨hnode.kind,
      hfilled.bounded (fun a ha => (hcaptured a ha).1.tokens) hnode.tokens⟩ hparts
theorem allBounded_substituteAll {captured : List Tree}
    (hcaptured : ∀ argument ∈ captured, IsBounded argument ∧ AllBounded [argument])
    (parent : Option Kind) :
    ∀ ts : List Tree, AllBounded ts → AllBounded (substituteAll captured parent ts)
  | [], _ => nofun
  | t :: ts, h => by
    obtain ⟨ht, hts⟩ := allBounded_append.mp (show AllBounded ([t] ++ ts) from h)
    exact allBounded_append.mpr ⟨allBounded_substitute hcaptured parent t ht,
      allBounded_substituteAll hcaptured parent ts hts⟩
end

theorem isBounded_substitute {captured : List Tree}
    (hcaptured : ∀ argument ∈ captured, IsBounded argument ∧ AllBounded [argument])
    (parent : Option Kind) {t : Tree} (h : IsBounded t) :
    IsBounded (substitute captured parent t) := by
  refine ⟨?_, (filled_substitute captured parent t).bounded
    (fun argument hargument => (hcaptured argument hargument).1.tokens) h.tokens⟩
  cases t with
  | token k s =>
    rw [substitute]
    split
    next argument hsome =>
      obtain ⟨-, index, -, hargument⟩ := capturedAt?_eq_some_iff.mp hsome
      obtain ⟨hbounded, hall⟩ := hcaptured _ (List.mem_of_getElem? hargument)
      exact (bounded_group hbounded hall parent).1.kind
    next => exact h.kind
  | node k cs => exact h.kind

/-! ## The body of a template -/

theorem insideParens?_eq_some_iff {list inner : List Tree} :
    insideParens? list = some inner ↔ ∃ first last, list = first :: (inner ++ [last]) ∧
      first.kind = .leftParen ∧ last.kind = .rightParen := by
  constructor
  · intro h
    unfold insideParens? at h
    split at h
    next first rest =>
      split at h
      next last hlast =>
        rw [Option.ite_none_right_eq_some, Bool.and_eq_true, beq_iff_eq, beq_iff_eq] at h
        refine ⟨first, last, ?_, h.1⟩
        rw [← Option.some.inj h.2, List.dropLast_append_getLast? last hlast]
      next => cases h
    next => cases h
  · rintro ⟨first, last, rfl, hfirst, hlast⟩
    simp [insideParens?, hfirst, hlast]

theorem lineAfter_between {a f i l z : List (Kind × String)} (hf : Bounded f) (hl : Bounded l)
    {isOpen last : Bool} (h : lineAfter isOpen (a ++ (f ++ (i ++ (l ++ z)))) = some last) :
    lineAfter isOpen a = some false ∧ lineAfter false i = some false ∧
      lineAfter false z = some last ∧ Solid f ∧ Solid l := by
  obtain ⟨m₁, ha, h⟩ := exists_lineAfter_of_append h
  obtain ⟨m₂, hf', h⟩ := exists_lineAfter_of_append h
  obtain ⟨m₃, hi, h⟩ := exists_lineAfter_of_append h
  obtain ⟨m₄, hl', hz⟩ := exists_lineAfter_of_append h
  obtain ⟨rfl, rfl⟩ := hf.lines hf'
  obtain ⟨rfl, rfl⟩ := hl.lines hl'
  exact ⟨ha, hi, hz, hf.solid hf', hl.solid hl'⟩

/-- What is put between them is read there like on a line of its own. -/
theorem lineAfter_between_iff {a f i l z : List (Kind × String)} {isOpen : Bool} (hf : Solid f)
    (hl : Solid l) (ha : lineAfter isOpen a = some false) (hz : lineAfter false z = some false) :
    lineAfter isOpen (a ++ (f ++ (i ++ (l ++ z)))) = some false ↔ lineAfter false i = some false := by
  rw [lineAfter_append, ha, Option.bind_some, lineAfter_append, hf, cond_false, Option.bind_some,
    lineAfter_append]
  cases lineAfter false i with
  | none => simp
  | some last =>
    rw [Option.bind_some, lineAfter_append, hl]
    cases last <;> simp [hz]

theorem exists_dropWhile_both {α : Type} (p : α → Bool) (l : List α) :
    ∃ before after, l = before ++ (((l.dropWhile p).reverse.dropWhile p).reverse ++ after) ∧
      (∀ x ∈ before, p x = true) ∧ ∀ x ∈ after, p x = true := by
  refine ⟨l.takeWhile p, ((l.dropWhile p).reverse.takeWhile p).reverse, ?_,
    fun x hx => List.mem_takeWhile_imp hx,
    fun x hx => List.mem_takeWhile_imp (List.mem_reverse.mp hx)⟩
  rw [← List.reverse_append, List.takeWhile_append_dropWhile, List.reverse_reverse,
    List.takeWhile_append_dropWhile]

theorem mem_nodesOf_of_kind {x : Tree} {children : List Tree}
    (h : x ∈ (Tree.node .program children).nodes) (hkind : x.kind ≠ .program) :
    x ∈ nodesOf children := by
  rw [nodes] at h
  rcases List.mem_cons.mp h with rfl | h
  · exact absurd rfl hkind
  · exact h

/-- An expression is bounded, so it is read like a single token. -/
theorem solid_expressionOf? {children body : List Tree} {fragment : String}
    (h : expressionOf? (.node .program children) fragment = some body) (hall : AllBounded children)
    (hread : Readable (tokensOf children)) :
    ∃ x, body = [x] ∧ IsBounded x ∧ AllBounded [x] ∧ Solid x.tokens := by
  unfold expressionOf? at h
  split at h
  next => cases h
  next statement hfound =>
    have hkind : statement.kind = .returnStatement := by simpa using List.find?_some hfound
    have hstatement : statement ∈ nodesOf children :=
      mem_nodesOf_of_kind (List.mem_of_find?_eq_some hfound) (by rw [hkind]; decide)
    split at h
    next expression semicolon hparts =>
      rw [Option.ite_none_right_eq_some] at h
      obtain ⟨-, h⟩ := h
      cases h
      have hmem : expression ∈ Element.significantChildren statement := by
        rw [hparts]
        simp
      obtain ⟨hchild, hsignificant⟩ := List.mem_filter.mp hmem
      have hparts := hall.children hstatement
      have hbounded := hparts.isBounded hchild (Bool.not_eq_true' _ ▸ hsignificant)
      have htokens : expression.tokens <:+: tokensOf statement.children := tokens_infix_of_mem hchild
      have hpart := children_infix_of_mem_nodesOf hstatement
      exact ⟨expression, rfl, hbounded, hparts.of_sublist (List.singleton_sublist.mpr hchild),
        hbounded.tokens.solid_of_readable ((hread.part hpart).part htokens)⟩
    next => cases h

/-- What stands between parentheses begins and ends on a closed line. -/
theorem lineAfter_inside {first last : Tree} {inside : List Tree} (hfirst : first.kind = .leftParen)
    (hlast : last.kind = .rightParen) (hall : AllBounded (first :: (inside ++ [last])))
    (hread : Readable (tokensOf (first :: (inside ++ [last])))) :
    lineAfter false (tokensOf inside) = some false := by
  have hopening := hall.isBounded List.mem_cons_self (by rw [hfirst]; rfl)
  have hclosing := hall.isBounded (x := last) (by simp) (by rw [hlast]; rfl)
  obtain ⟨isOpen, next, hlines⟩ := hread
  rw [tokensOf, tokensOf_append, tokensOf_singleton, ← List.append_nil last.tokens] at hlines
  have hbetween := lineAfter_between (a := []) hopening.tokens hclosing.tokens hlines
  exact hbetween.2.1

/-- Without the whitespace at the ends, it is read from a closed line on as well. -/
theorem exists_lineAfter_dropOuterSpace {inside : List Tree} (hall : AllBounded inside)
    (h : lineAfter false (tokensOf inside) = some false) :
    AllBounded (dropOuterSpace inside) ∧
      ∃ last, lineAfter false (tokensOf (dropOuterSpace inside)) = some last := by
  obtain ⟨before, after, hsplit, hbefore, -⟩ := exists_dropWhile_both (·.kind == .whitespace) inside
  change inside = before ++ (dropOuterSpace inside ++ after) at hsplit
  rw [hsplit, tokensOf_append, tokensOf_append] at h
  obtain ⟨middle, hspace, h⟩ := exists_lineAfter_of_append h
  obtain ⟨next, hbody, -⟩ := exists_lineAfter_of_append h
  have hparts : AllBounded before ∧ AllBounded (dropOuterSpace inside ++ after) := by
    rw [← allBounded_append, ← hsplit]
    exact hall
  rw [lineAfter_whitespace hparts.1 fun x hx => by simpa using hbefore x hx] at hspace
  cases hspace
  exact ⟨(allBounded_append.mp hparts.2).1, next, hbody⟩

/-- The arguments of a fragment are read from a closed line on. -/
theorem lines_argumentsOf? {children body : List Tree} {fragment : String}
    (h : argumentsOf? (.node .program children) fragment = some body) (hall : AllBounded children)
    (hread : Readable (tokensOf children)) :
    AllBounded body ∧ ∃ last, lineAfter false (tokensOf body) = some last := by
  obtain ⟨call, contents, inside, hcall, hkind, hchild, -, hinside, rfl⟩ := argumentsOf?_cases h
  have hmem : call ∈ nodesOf children := mem_nodesOf_of_kind hcall (by rw [hkind]; decide)
  have hnode : Tree.node .argumentList contents ∈ nodesOf call.children :=
    mem_nodesOf_of_mem hchild List.mem_cons_self
  have hcontents : AllBounded contents := (hall.children hmem).children hnode
  have hpart : Readable (tokensOf contents) :=
    (hread.part (children_infix_of_mem_nodesOf hmem)).part
      (children_infix_of_mem_nodesOf hnode)
  obtain ⟨first, last, rfl, hfirst, hlast⟩ := insideParens?_eq_some_iff.mp hinside
  have hinner : AllBounded inside := by
    apply hcontents.of_sublist
    exact (List.sublist_append_left inside [last]).trans (List.sublist_cons_self first _)
  exact exists_lineAfter_dropOuterSpace hinner (lineAfter_inside hfirst hlast hcontents hpart)

variable {parser : Parser}

/-- What is read of a fragment can be read from a closed line on, and a single expression is read like a
single token. -/
theorem lines_readBody (hparser : parser.Ensures Lined) {fragment : String} {target : Target}
    {body : List Tree} (h : readBody (JavaUnit.parseWith parser) fragment target = .ok body) :
    AllBounded body ∧ (∃ last, lineAfter false (tokensOf body) = some last) ∧
      (target = .invocation → ∃ x, body = [x] ∧ IsBounded x ∧ Solid x.tokens) := by
  obtain ⟨u, hu, hsound, hfound⟩ := readBody_eq_ok_iff.mp h
  obtain ⟨htree, hall, last, hlast⟩ := hparser _ u hu hsound
  rw [htree] at hfound hlast
  have hread : Readable (tokensOf u.tree.children) := ⟨false, last, hlast⟩
  cases target with
  | invocation =>
    obtain ⟨x, rfl, hbounded, hbody, hsolid⟩ := solid_expressionOf? hfound hall hread
    refine ⟨hbody, ⟨false, ?_⟩, fun _ => ⟨x, rfl, hbounded, hsolid⟩⟩
    rw [tokensOf_singleton]
    exact hsolid false
  | arguments =>
    obtain ⟨hbody, hlines⟩ := lines_argumentsOf? hfound hall hread
    exact ⟨hbody, hlines, nofun⟩

/-! ## Replaced calls -/

/-- A line break stands between the last argument of a call and the parenthesis behind it. -/
def breaksBeforeParen (call : Tree) : Bool :=
  ((Call.argumentList? call).bind fun list => insideParens? list.children).any fun inner =>
    (tokensOf (trailingTrivia inner)).any isBreak

theorem breaksBeforeParen_eq {k : Kind} {before after inner : List Tree} {first last : Tree}
    (hafter : ∀ x ∈ after, isArgumentList x = false) (hfirst : first.kind = .leftParen)
    (hlast : last.kind = .rightParen) :
    breaksBeforeParen
        (.node k (before ++ .node .argumentList (first :: (inner ++ [last])) :: after)) =
      (tokensOf (trailingTrivia inner)).any isBreak := by
  have hinside : insideParens? (first :: (inner ++ [last])) = some inner :=
    insideParens?_eq_some_iff.mpr ⟨first, last, rfl, hfirst, hlast⟩
  rw [breaksBeforeParen, Call.argumentList?_append hafter, Option.bind_some, Tree.children, hinside,
    Option.any_some]

/-- The arguments of a call are bounded and read like single tokens. -/
theorem solid_of_mem_arguments {call argument : Tree} (hall : AllBounded [call])
    (hread : Readable call.tokens) (h : argument ∈ Call.arguments call) :
    IsBounded argument ∧ AllBounded [argument] ∧ Solid argument.tokens := by
  unfold Call.arguments at h
  split at h
  next list hlist =>
    obtain ⟨hchild, hisList⟩ := List.mem_filter.mp (List.mem_of_getLast? hlist)
    obtain ⟨contents, rfl⟩ := isArgumentList_iff.mp hisList
    obtain ⟨hmem, hargument⟩ := List.mem_filter.mp h
    cases call with
    | token k s => cases hchild
    | node k cs =>
      have hcontents : AllBounded contents :=
        hall.of_node.children (mem_nodesOf_of_mem hchild List.mem_cons_self)
      simp only [Call.isArgument, Bool.and_eq_true] at hargument
      have hbounded := hcontents.isBounded hmem (Bool.not_eq_true' _ ▸ hargument.1.1.1)
      have hlist : tokensOf contents <:+: tokensOf cs := tokens_infix_of_mem hchild
      have hpart : argument.tokens <:+: tokensOf cs := (tokens_infix_of_mem hmem).trans hlist
      exact ⟨hbounded, hcontents.of_sublist (List.singleton_sublist.mpr hmem),
        hbounded.tokens.solid_of_readable (hread.part hpart)⟩
  next => cases h

/-- A body that is read to a closed line keeps the line closed; one that is not needs a line break
behind it. -/
theorem lineAfter_body_append {body trailing : List (Kind × String)} {last : Bool}
    (hbody : lineAfter false body = some last)
    (htrivia : ∀ token ∈ trailing, token.1.isTrivia = true)
    (htrailing : lineAfter false trailing = some false) :
    lineAfter false (body ++ trailing) = some false ↔
      (last = true → trailing.any isBreak = true) := by
  rw [lineAfter_append, hbody, Option.bind_some]
  cases last with
  | false => simp [htrailing]
  | true => simp [lineAfter_true_of_trivia htrivia htrailing]

/-- The tokens of a call, with its parentheses and what is between them. -/
theorem tokens_call (k : Kind) (before ts after : List Tree) (opening closing : Tree) :
    (Tree.node k (before ++ .node .argumentList (opening :: (ts ++ [closing])) :: after)).tokens =
      tokensOf before ++ (opening.tokens ++ (tokensOf ts ++ (closing.tokens ++ tokensOf after))) := by
  simp [tokens, tokensOf]

/-- The parentheses and what is around them are read as before, so only what stands behind the new
contents matters. -/
theorem endsLines_contents_iff {k : Kind} {before after inner contents : List Tree}
    {opening closing : Tree} {last : Bool} (hopening : opening.kind = .leftParen)
    (hclosing : closing.kind = .rightParen)
    (hall : AllBounded
      [.node k (before ++ .node .argumentList (opening :: (inner ++ [closing])) :: after)])
    (hcall : EndsLines (Tree.node k
      (before ++ .node .argumentList (opening :: (inner ++ [closing])) :: after)).tokens)
    (hcontents : lineAfter false (tokensOf contents) = some last) :
    EndsLines (Tree.node k (before ++ .node .argumentList (opening ::
        (leadingTrivia inner ++ contents ++ trailingTrivia inner ++ [closing])) :: after)).tokens ↔
      (last = true → (tokensOf (trailingTrivia inner)).any isBreak = true) := by
  have hlist : AllBounded (opening :: (inner ++ [closing])) := by
    have hmem : Tree.node .argumentList (opening :: (inner ++ [closing])) ∈
        before ++ .node .argumentList (opening :: (inner ++ [closing])) :: after :=
      List.mem_append_right _ List.mem_cons_self
    exact hall.of_node.children (mem_nodesOf_of_mem hmem List.mem_cons_self)
  have hinner : AllBounded inner := by
    apply hlist.of_sublist
    exact (List.sublist_append_left inner [closing]).trans (List.sublist_cons_self opening _)
  have hleft := (hlist.isBounded List.mem_cons_self (by rw [hopening]; rfl)).tokens
  have hright := (hlist.isBounded (x := closing) (by simp) (by rw [hclosing]; rfl)).tokens
  rw [endsLines_iff, tokens_call] at hcall
  obtain ⟨hbefore, hclosed, hafter, hleft, hright⟩ := lineAfter_between hleft hright hcall
  have hleading := lineAfter_leadingTrivia hinner hclosed
  have htrailing := lineAfter_trailingTrivia hinner hclosed
  have htrivia : ∀ token ∈ tokensOf (trailingTrivia inner), token.1.isTrivia = true :=
    isTrivia_of_mem_tokensOf (hinner.of_sublist (trailingTrivia_sublist inner))
      fun _ => isTrivia_of_mem_trailingTrivia
  rw [endsLines_iff, tokens_call, lineAfter_between_iff hleft hright hbefore hafter, tokensOf_append,
    tokensOf_append, List.append_assoc, lineAfter_append, hleading, Option.bind_some,
    lineAfter_body_append hcontents htrivia htrailing]

theorem bounded_between {a f i i' l z : List (Kind × String)} (hf : Bounded f) (hl : Bounded l)
    (h : Bounded (a ++ (f ++ (i ++ (l ++ z))))) : Bounded (a ++ (f ++ (i' ++ (l ++ z)))) := by
  constructor
  · cases a with
    | nil =>
      rw [List.nil_append]
      exact any_head?_append hf.1
    | cons token a => exact h.1
  · have hne : l ++ z ≠ [] := by
      cases l with
      | nil => cases hl.1
      | cons token l => exact List.cons_ne_nil _ _
    have hlast : (l ++ z).getLast?.any (fun token => !token.1.isTrivia) = true := by
      have hlast := h.2
      rw [← List.append_assoc, ← List.append_assoc, List.getLast?_append_of_ne_nil _ hne] at hlast
      exact hlast
    rw [← List.append_assoc, ← List.append_assoc]
    exact any_getLast?_append _ hlast

/-- The kept trivia and the new contents of an argument list are bounded, so the call is. -/
theorem allBounded_contents {k : Kind} {before after inner contents : List Tree}
    {opening closing : Tree} (hopening : opening.kind = .leftParen)
    (hclosing : closing.kind = .rightParen)
    (hall : AllBounded
      [.node k (before ++ .node .argumentList (opening :: (inner ++ [closing])) :: after)])
    (hcontents : AllBounded contents) :
    AllBounded [.node k (before ++ .node .argumentList (opening ::
      (leadingTrivia inner ++ contents ++ trailingTrivia inner ++ [closing])) :: after)] := by
  have hcall := hall _ (mem_nodesOf_of_mem List.mem_cons_self List.mem_cons_self)
  obtain ⟨hbefore, hrest⟩ := allBounded_append.mp hall.of_node
  obtain ⟨hlist, hafter⟩ := allBounded_cons.mp hrest
  obtain ⟨hleft, hright⟩ := allBounded_cons.mp hlist.of_node
  obtain ⟨hinner, hclose⟩ := allBounded_append.mp hright
  have hopen := (hleft.isBounded List.mem_cons_self (by rw [hopening]; rfl)).tokens
  have hshut := (hclose.isBounded List.mem_cons_self (by rw [hclosing]; rfl)).tokens
  have hparts : AllBounded (opening ::
      (leadingTrivia inner ++ contents ++ trailingTrivia inner ++ [closing])) := by
    refine allBounded_cons.mpr ⟨hleft, allBounded_append.mpr ⟨allBounded_append.mpr
      ⟨allBounded_append.mpr ⟨?_, hcontents⟩, ?_⟩, hclose⟩⟩
    · exact hinner.of_sublist (leadingTrivia_sublist inner)
    · exact hinner.of_sublist (trailingTrivia_sublist inner)
  have htokens (ts : List Tree) : (Tree.node .argumentList (opening :: (ts ++ [closing]))).tokens =
      opening.tokens ++ (tokensOf ts ++ closing.tokens) := by
    simp [tokens, tokensOf]
  have hargumentList : AllBounded [.node .argumentList (opening ::
      (leadingTrivia inner ++ contents ++ trailingTrivia inner ++ [closing]))] := by
    refine allBounded_node ⟨rfl, ?_⟩ hparts
    rw [htokens]
    exact ⟨any_head?_append hopen.1, any_getLast?_append _ (any_getLast?_append _ hshut.2)⟩
  refine allBounded_node ⟨hcall.kind, ?_⟩
    (allBounded_append.mpr ⟨hbefore, allBounded_cons.mpr ⟨hargumentList, hafter⟩⟩)
  have hbounded := hcall.tokens
  rw [tokens_call] at hbounded ⊢
  exact bounded_between hopen hshut hbounded

/-- A call that is replaced by a template whose body is read to a line that is closed or open. -/
theorem lines_replacement? {t : Template} {last : Bool} (hbody : AllBounded t.body)
    (hlast : lineAfter false (tokensOf t.body) = some last)
    (hsingle : t.target = .invocation → ∃ x, t.body = [x] ∧ IsBounded x ∧ Solid x.tokens)
    {call new : Tree}
    {selected : List Nat} {parent : Option Kind} (hcall : EndsLines call.tokens)
    (hall : AllBounded [call]) (h : t.replacement? call selected parent = some new) :
    (EndsLines new.tokens ↔ (last = true → breaksBeforeParen call = true)) ∧ AllBounded [new] := by
  have hread : Readable call.tokens := ⟨false, false, endsLines_iff.mp hcall⟩
  obtain ⟨captured, hcaptured, -, hnew⟩ := replacement?_cases h
  have harguments : ∀ argument ∈ captured,
      IsBounded argument ∧ AllBounded [argument] ∧ Solid argument.tokens :=
    fun argument hargument =>
      solid_of_mem_arguments hall hread (mem_of_mapM_getElem? hcaptured hargument)
  have hbounded : ∀ argument ∈ captured, IsBounded argument ∧ AllBounded [argument] :=
    fun argument hargument =>
      ⟨(harguments argument hargument).1, (harguments argument hargument).2.1⟩
  have hsolid : ∀ argument ∈ captured, Solid argument.tokens :=
    fun argument hargument => (harguments argument hargument).2.2
  rcases hnew with ⟨htarget, body, heq, rfl⟩ |
    ⟨-, before, opening, inner, closing, after, rfl, hafter, hopening, hclosing, rfl⟩
  · obtain ⟨x, hx, hwhole, hbodySolid⟩ := hsingle htarget
    cases heq.symm.trans hx
    have hnew : Solid (substitute captured none body).tokens := fun isOpen =>
      ((filled_substitute captured none body).lines hsolid isOpen).trans (hbodySolid isOpen)
    have hgroup := solid_of_grouped (grouped_group parent _) hnew
    have hclosed : last = false := by
      rw [heq, tokensOf_singleton, hbodySolid] at hlast
      exact (Option.some.inj hlast).symm
    subst hclosed
    refine ⟨iff_of_true (endsLines_iff.mpr (hgroup false)) nofun, ?_⟩
    exact (bounded_group (isBounded_substitute hbounded none hwhole)
      (allBounded_substitute hbounded none body (heq ▸ hbody)) parent).2
  · have hlines := (filled_substituteAll captured (some .argumentList) t.body).lines hsolid false
    rw [breaksBeforeParen_eq hafter hopening hclosing]
    exact ⟨endsLines_contents_iff hopening hclosing hall hcall (hlines.trans hlast),
      allBounded_contents hopening hclosing hall (allBounded_substituteAll hbounded _ _ hbody)⟩

/-- **Where a replaced call can lose tokens in a line comment.** Applied to a call that ends its line
comments, a compiled template gives an element that ends its own, unless the last line comment of the
body is not ended in the body and the call has no line break in front of the closing parenthesis. The
body of a template that replaces whole calls always ends its comments. The calls of a unit without
syntax errors end theirs, and their nodes are bounded; those of the replaced call are, too. All this is
so with any parser that loses no token in a line comment. -/
theorem endsLines_replacement?_iff (hparser : parser.Ensures Lined) {fragment : String}
    {placeholders : List Placeholder} {imports : List String} {target : Target} {t : Template}
    (h : compileWith parser fragment placeholders imports target = .ok t) :
    (∀ (call new : Tree) (selected : List Nat) (parent : Option Kind), EndsLines call.tokens →
      AllBounded [call] → t.replacement? call selected parent = some new →
      (EndsLines new.tokens ↔ (OpenEnded (tokensOf t.body) → breaksBeforeParen call = true)) ∧
        AllBounded [new]) ∧
    (target = .invocation → ¬ OpenEnded (tokensOf t.body)) ∧
    (∀ (source : String) (u : JavaUnit), JavaUnit.parseWith parser source = .ok u →
      u.hasErrors = false → ∀ call ∈ u.tree.nodes, Call.isCall call = true →
        EndsLines call.tokens ∧ AllBounded [call]) := by
  have hcompiled := compileWith_eq_ok_iff.mp h
  obtain ⟨hallBody, ⟨last, hlast⟩, hsingle⟩ := lines_readBody hparser hcompiled.read
  refine ⟨?_, ?_, ?_⟩
  · intro call new selected parent hcall hall hnew
    rw [← openEnded_iff hlast]
    exact lines_replacement? hallBody hlast (fun hinvocation => hsingle (hcompiled.target_eq ▸ hinvocation))
      hcall hall hnew
  · intro hinvocation hopen
    obtain ⟨x, hx, -, hsolid⟩ := hsingle hinvocation
    rw [hx, tokensOf_singleton] at hopen
    have hclosed := (openEnded_iff (hsolid false)).mpr hopen
    cases hclosed
  · intro source u hu hread call hmem hisCall
    obtain ⟨htree, hall, last, hlast⟩ := hparser source u hu hread
    rw [htree] at hmem hlast
    rw [Call.isCall, Bool.and_eq_true, beq_iff_eq] at hisCall
    have hkind : call.kind = .methodInvocation := hisCall.2
    have hnode := mem_nodesOf_of_kind hmem (by rw [hkind]; decide)
    obtain ⟨hnodes, htokens⟩ := infix_of_mem_nodesOf hnode
    have hread : Readable (tokensOf u.tree.children) := ⟨false, last, hlast⟩
    refine ⟨endsLines_iff.mpr ((hall call hnode).tokens.solid_of_readable
      (hread.part htokens) false), ?_⟩
    intro x hx
    rw [nodesOf, nodesOf, List.append_nil] at hx
    exact hall x (hnodes.subset hx)

/-- The template of the stock recipe with a line comment and a line break at the end of its fragment.
The line break is no part of the body. -/
def waiting : Template :=
  { UseTimeout.template with
    fragment := "Timeout.ofMilliseconds(#\x7b\x7d) // wait\n"
    body := UseTimeout.template.body ++ [.token .whitespace " ", .token .lineComment "// wait"] }

theorem compile_waiting :
    compile "Timeout.ofMilliseconds(#\x7b\x7d) // wait\n" [.any] ["org.apache.hc.core5.util.Timeout"]
      .arguments = .ok waiting :=
  eq_ok_of_toOption (by
    rw [compile_eq]
    decide +kernel)

/-- A fragment that ends with a line comment and the line break behind it can be applied to a call that
has a line break of its own: the comment of the body ends there. -/
theorem endsLines_replacement?_iff_break :
    ∃ t new, compile "Timeout.ofMilliseconds(#\x7b\x7d) // wait\n" [.any]
        ["org.apache.hc.core5.util.Timeout"] .arguments = .ok t ∧
      OpenEnded (tokensOf t.body) ∧
      t.replacement? (callOf [.token .integerLiteral "5", .token .whitespace "\n"]) [0] none =
        some new ∧ EndsLines new.tokens := by
  let call := callOf [.token .integerLiteral "5", .token .whitespace "\n"]
  have hopen : lineAfter false (tokensOf waiting.body) = some true := by decide +kernel
  have hanswer : (waiting.replacement? call [0] none).isSome = true := by decide +kernel
  obtain ⟨new, hnew⟩ := Option.isSome_iff_exists.mp hanswer
  have hends := ((endsLines_replacement?_iff Grammar.ensures_lined compile_waiting).1 call new [0] none (by decide)
    (by decide) hnew).1
  exact ⟨waiting, new, compile_waiting, (openEnded_iff hopen).mp rfl, hnew,
    hends.mpr fun _ => by decide⟩

/-- Applied to a call without one, the same fragment takes the closing parenthesis into its comment. -/
theorem replacement?_loses_parenthesis :
    ∃ t new, compile "Timeout.ofMilliseconds(#\x7b\x7d) // wait\n" [.any]
        ["org.apache.hc.core5.util.Timeout"] .arguments = .ok t ∧
      EndsLines (callOf [.token .integerLiteral "5"]).tokens ∧
      t.replacement? (callOf [.token .integerLiteral "5"]) [0] none = some new ∧
      ¬ EndsLines new.tokens ∧ new.text = "f(Timeout.ofMilliseconds(5) // wait)" := by
  have hcheck : (waiting.replacement? (callOf [.token .integerLiteral "5"]) [0] none).any (fun new =>
      !decide (EndsLines new.tokens) && new.text == "f(Timeout.ofMilliseconds(5) // wait)") =
        true := by
    decide +kernel
  obtain ⟨new, hnew, hparts⟩ := (Option.any_eq_true _ _).mp hcheck
  rw [Bool.and_eq_true, beq_iff_eq, Bool.not_eq_true', decide_eq_false_iff_not] at hparts
  exact ⟨waiting, new, compile_waiting, by decide, hnew, hparts⟩

end Template

end CallMigration
