import CallMigration.Proofs.Arrangement
import CallMigration.Proofs.Evaluation
import CallMigration.Proofs.LineEnds
import Mathlib.Data.List.Chain

/-!
# Added imports and line comments

Where every line comment is the last token or stands directly in front of a line break, an import can be
added anywhere but behind a comment that is the last token. Every place is a different one: an import
that is added below another one or below the package begins with a line break of its own, and one that
is added above something stands where something stood already. Only a unit without any declaration gets
its import at the end, and there the comment can be the last token.

* `BreaksComments` : line comments directly in front of line breaks.
* `ClosedEnd` : what keeps the end of a unit out of a line comment.
* `closedEnd_insertImport` : one more import in such a unit.
* `Swallows` : an import directly behind a line comment, which nothing can take out of it again.
* `ImportRequests.flush_breaksComments_iff` : when the added imports stand outside of line comments.
-/

namespace CallMigration

open CallMigration.Tree

/-! ## Line comments in front of line breaks -/

/-- Every line comment is the last token or stands directly in front of a line break. -/
def BreaksComments (tokens : List (Kind × String)) : Prop :=
  tokens.IsChain fun a b => a.1 = .lineComment → isBreak b = true

instance (tokens : List (Kind × String)) : Decidable (BreaksComments tokens) :=
  inferInstanceAs (Decidable (tokens.IsChain fun a b => a.1 = .lineComment → isBreak b = true))

theorem breaksComments_append {as bs : List (Kind × String)} :
    BreaksComments (as ++ bs) ↔ BreaksComments as ∧ BreaksComments bs ∧
      ∀ a ∈ as.getLast?, ∀ b ∈ bs.head?, a.1 = .lineComment → isBreak b = true :=
  List.isChain_append

theorem breaksComments_of_ne {tokens : List (Kind × String)}
    (h : ∀ token ∈ tokens, token.1 ≠ .lineComment) : BreaksComments tokens := by
  refine List.Pairwise.isChain (List.pairwise_of_forall_mem_list fun a ha b _ hcomment => ?_)
  exact absurd hcomment (h a ha)

/-- Such tokens can be read, none of them is lost in a line comment. -/
theorem exists_lineAfter_of_breaksComments {isOpen : Bool} {tokens : List (Kind × String)}
    (h : BreaksComments tokens)
    (hopen : isOpen = true → ∀ token ∈ tokens.head?, isBreak token = true) :
    ∃ last, lineAfter isOpen tokens = some last := by
  induction tokens generalizing isOpen with
  | nil => exact ⟨isOpen, rfl⟩
  | cons token tokens ih =>
    obtain ⟨hfirst, hrest⟩ := List.isChain_cons.mp h
    have hnext {isOpen : Bool} (hstep : isOpen = true → token.1 = .lineComment) :
        ∃ last, lineAfter isOpen tokens = some last :=
      ih hrest fun heq next hnext => hfirst next hnext (hstep heq)
    rw [lineAfter_cons]
    by_cases hcomment : token.1 = .lineComment
    · rw [show token = (.lineComment, token.2) by rw [← hcomment], lineStep_comment]
      exact hnext fun _ => hcomment
    · cases htrivia : token.1.isTrivia with
      | true =>
        rw [lineStep_trivia hcomment htrivia]
        refine hnext fun heq => ?_
        rw [Bool.and_eq_true, Bool.not_eq_true'] at heq
        rw [hopen heq.1 token rfl] at heq
        cases heq.2
      | false =>
        cases isOpen with
        | true =>
          have hbreak := hopen rfl token rfl
          rw [isBreak_of_significant htrivia] at hbreak
          cases hbreak
        | false =>
          rw [lineStep_significant htrivia]
          exact hnext nofun

/-! ## Added tokens -/

/-- A blank that is added beside an import ends the line of a comment in front of it. -/
theorem isBreak_space {blank : String} (h : blank ∈ ["\n", "\n\n"]) :
    isBreak (.whitespace, blank) = true := by
  rcases List.mem_pair.mp h with rfl | rfl <;> decide

theorem allBounded_token (k : Kind) (text : String) : AllBounded [.token k text] :=
  fun _ hx => absurd hx List.not_mem_nil

theorem bounded_scopedIdentifier (segments : List (List Char)) :
    Bounded (scopedIdentifier segments).tokens ∧ AllBounded [scopedIdentifier segments] := by
  fun_induction scopedIdentifier segments with
  | case1 => exact ⟨by decide, allBounded_token _ _⟩
  | case2 last => exact ⟨bounded_significant rfl, allBounded_token _ _⟩
  | case3 last rest _ ih =>
    have hbounded : Bounded ((scopedIdentifier rest).tokens ++
        [(.dot, "."), (.identifier, String.ofList last)]) :=
      ⟨any_head?_append ih.1.1, any_getLast?_append _ rfl⟩
    have hnode : Bounded (Tree.node .scopedIdentifier
        [scopedIdentifier rest, .token .dot ".", .token .identifier (String.ofList last)]).tokens := by
      simpa [Tree.tokens, tokensOf] using hbounded
    refine ⟨hnode, allBounded_node ⟨rfl, hnode⟩ (allBounded_cons.mpr ⟨ih.2, ?_⟩)⟩
    exact allBounded_cons.mpr ⟨allBounded_token _ _, allBounded_token _ _⟩

theorem tokens_importDeclaration (symbol : TypeName) :
    (importDeclaration symbol).tokens = [(.importKeyword, "import"), (.whitespace, " ")] ++
      ((scopedIdentifier (Text.segments symbol.chars).reverse).tokens ++ [(.semicolon, ";")]) := rfl

theorem allBounded_importDeclaration (symbol : TypeName) :
    AllBounded [importDeclaration symbol] := by
  have hbounded : Bounded (importDeclaration symbol).tokens := by
    rw [tokens_importDeclaration]
    exact ⟨rfl, any_getLast?_append _ (any_getLast?_append _ rfl)⟩
  have hpath := (bounded_scopedIdentifier (Text.segments symbol.chars).reverse).2
  refine allBounded_node ⟨rfl, hbounded⟩ (allBounded_cons.mpr ⟨allBounded_token _ _, ?_⟩)
  exact allBounded_cons.mpr
    ⟨allBounded_token _ _, allBounded_cons.mpr ⟨hpath, allBounded_token _ _⟩⟩

theorem breaksComments_importDeclaration (symbol : TypeName) :
    BreaksComments (importDeclaration symbol).tokens := by
  refine breaksComments_of_ne ?_
  have hpath := filter_scopedIdentifier (Text.segments symbol.chars).reverse
    (p := fun token => token.1 != .lineComment) (fun _ => rfl) fun _ => rfl
  rw [List.filter_eq_self] at hpath
  rw [tokens_importDeclaration, List.forall_mem_append, List.forall_mem_append]
  exact ⟨by decide, fun token htoken => by simpa using hpath token htoken, by decide⟩

theorem getLast?_importDeclaration (symbol : TypeName) :
    (importDeclaration symbol).tokens.getLast? = some (.semicolon, ";") := by
  rw [tokens_importDeclaration, ← List.append_assoc, List.getLast?_concat]

theorem allBounded_insertImport {t : Tree} (h : AllBounded t.children) (symbol : TypeName) :
    AllBounded (insertImport t symbol).children := by
  obtain ⟨pre, new, post, hchildren, hinsert, hplaced⟩ := insertImport_placed t symbol
  have hdeclaration := allBounded_importDeclaration symbol
  have hnew : AllBounded new := by
    obtain ⟨blank, -, rfl | rfl⟩ := hplaced.new_eq
    · exact allBounded_cons.mpr ⟨hdeclaration, allBounded_token _ _⟩
    · exact allBounded_cons.mpr ⟨allBounded_token _ _, hdeclaration⟩
  rw [hchildren, allBounded_append] at h
  rw [hinsert, Tree.children, allBounded_append, allBounded_append]
  exact ⟨⟨h.1, hnew⟩, h.2⟩

section Between

variable {symbol : TypeName} {blank : String} {before after : List (Kind × String)}
  (hblank : blank ∈ ["\n", "\n\n"]) (h : BreaksComments (before ++ after))

include hblank h

/-- A declaration behind tokens that do not end with a line comment, with its blank behind it. -/
theorem breaksComments_above (hend : ∀ token ∈ before.getLast?, token.1 ≠ .lineComment) :
    BreaksComments (before ++ (tokensOf [importDeclaration symbol, space blank] ++ after)) := by
  obtain ⟨hbefore, hafter, -⟩ := breaksComments_append.mp h
  have htokens : tokensOf [importDeclaration symbol, space blank] =
      (importDeclaration symbol).tokens ++ [(.whitespace, blank)] := rfl
  rw [htokens, breaksComments_append, breaksComments_append, breaksComments_append]
  refine ⟨hbefore, ⟨⟨breaksComments_importDeclaration symbol, List.isChain_singleton _, ?_⟩, hafter,
    ?_⟩, fun a ha b _ hcomment => absurd hcomment (hend a ha)⟩
  · rintro a - b hb -
    cases hb
    exact isBreak_space hblank
  · intro a ha b _ hcomment
    rw [List.getLast?_concat] at ha
    cases ha
    cases hcomment

theorem breaksComments_below :
    BreaksComments (before ++ (tokensOf [space blank, importDeclaration symbol] ++ after)) := by
  obtain ⟨hbefore, hafter, -⟩ := breaksComments_append.mp h
  have htokens : tokensOf [space blank, importDeclaration symbol] =
      (.whitespace, blank) :: (importDeclaration symbol).tokens := by
    simp [space, Tree.tokens, tokensOf]
  rw [htokens, breaksComments_append, breaksComments_append]
  have hchain : BreaksComments ((.whitespace, blank) :: (importDeclaration symbol).tokens) := by
    refine List.isChain_cons.mpr ⟨fun b _ hcomment => ?_, breaksComments_importDeclaration symbol⟩
    cases hcomment
  refine ⟨hbefore, ⟨hchain, hafter, ?_⟩, ?_⟩
  · intro a ha b _ hcomment
    rw [List.getLast?_cons, getLast?_importDeclaration] at ha
    cases ha
    cases hcomment
  · rintro a - b hb -
    cases hb
    exact isBreak_space hblank

end Between

/-! ## Units with room for imports -/

/-- Something in the unit is neither whitespace nor a comment, or it does not end with a line
comment. -/
def ClosedEnd (t : Tree) : Prop :=
  (∃ c ∈ t.children, c.kind.isTrivia = false) ∨
    ∀ token ∈ (tokensOf t.children).getLast?, token.1 ≠ .lineComment

/-- A unit in which an import can be added outside of line comments. -/
structure HasRoom (t : Tree) : Prop where
  bounded : AllBounded t.children
  breaks : BreaksComments (tokensOf t.children)
  closed : ClosedEnd t

theorem ne_lineComment_of_head {before after : List (Kind × String)}
    (h : BreaksComments (before ++ after)) (next : Kind × String) (hnext : next ∈ after.head?)
    (hbreak : isBreak next = false) : ∀ token ∈ before.getLast?, token.1 ≠ .lineComment := by
  intro token htoken hcomment
  have htrue := (breaksComments_append.mp h).2.2 token htoken next hnext hcomment
  rw [hbreak] at htrue
  cases htrue

/-- An element that is no trivia begins with no line break. -/
theorem exists_head_of_bounded {ts : List Tree} {x : Tree} (hall : AllBounded (x :: ts))
    (hkind : x.kind.isTrivia = false) :
    ∃ next ∈ (tokensOf (x :: ts)).head?, next.1.isTrivia = false := by
  have hhead : (tokensOf (x :: ts)).head?.any (fun token => !token.1.isTrivia) = true :=
    any_head?_append (hall.isBounded List.mem_cons_self hkind).tokens.1
  obtain ⟨next, hnext, hsignificant⟩ := (Option.any_eq_true _ _).mp hhead
  exact ⟨next, hnext, by simpa using hsignificant⟩

/-- **In a unit with room, an import is added outside of line comments**, and there is room for
more. -/
theorem hasRoom_insertImport {t : Tree} (h : HasRoom t) (symbol : TypeName) :
    HasRoom (insertImport t symbol) := by
  obtain ⟨pre, new, post, hchildren, hinsert, hplaced⟩ := insertImport_placed t symbol
  have hbounded := h.bounded
  have hbreaks := h.breaks
  rw [hchildren] at hbounded hbreaks
  rw [tokensOf_append] at hbreaks
  have hpost := (allBounded_append.mp hbounded).2
  have hdeclared : ∃ c ∈ new, c.kind.isTrivia = false := by
    obtain ⟨blank, -, rfl | rfl⟩ := hplaced.new_eq
    · exact ⟨_, List.mem_cons_self, rfl⟩
    · exact ⟨_, List.mem_cons_of_mem _ List.mem_cons_self, rfl⟩
  have habove {next : Tree} {rest : List Tree} (heq : post = next :: rest)
      (hnext : next.kind.isTrivia = false) :
      ∀ token ∈ (tokensOf pre).getLast?, token.1 ≠ .lineComment := by
    rw [heq] at hpost hbreaks
    obtain ⟨token, htoken, hsignificant⟩ := exists_head_of_bounded hpost hnext
    exact ne_lineComment_of_head hbreaks token htoken (isBreak_of_significant hsignificant)
  have hnew : BreaksComments (tokensOf pre ++ (tokensOf new ++ tokensOf post)) := by
    cases hplaced with
    | above isImport =>
      exact breaksComments_above (by decide) hbreaks (habove rfl (Tree.isTrivia_of_isImport isImport))
    | aboveStatic isImport =>
      exact breaksComments_above (by decide) hbreaks (habove rfl (Tree.isTrivia_of_isImport isImport))
    | below => exact breaksComments_below (by decide) hbreaks
    | belowPackage => exact breaksComments_below (by decide) hbreaks
    | onTop _ isTop =>
      refine breaksComments_above (by decide) hbreaks ?_
      rcases isTop with hnext | ⟨k, text, hkind, rfl⟩
      · exact habove rfl hnext
      · refine ne_lineComment_of_head hbreaks (k, text) rfl ?_
        rcases hkind with rfl | rfl <;> rfl
    | atEnd trivia =>
      refine breaksComments_above (by decide) hbreaks ?_
      rcases h.closed with ⟨c, hc, hsignificant⟩ | hend
      · rw [trivia c hc] at hsignificant
        cases hsignificant
      · exact hend
  refine ⟨allBounded_insertImport h.bounded symbol, ?_, ?_⟩
  · rw [hinsert, Tree.children, tokensOf_append, tokensOf_append, List.append_assoc]
    exact hnew
  · obtain ⟨c, hc, hsignificant⟩ := hdeclared
    rw [hinsert]
    exact .inl ⟨c, List.mem_append_left _ (List.mem_append_right _ hc), hsignificant⟩

/-! ## Imports in line comments -/

/-- An import stands directly behind a line comment. -/
def Swallows (t : Tree) : Prop :=
  ∃ before text swallowed after, t.children = before ++ .token .lineComment text :: swallowed :: after ∧
    swallowed.isImport = true

theorem lineAfter_of_swallows {t : Tree} (hall : AllBounded t.children) (h : Swallows t) :
    lineAfter false (tokensOf t.children) = none := by
  obtain ⟨before, text, swallowed, after, hchildren, himport⟩ := h
  rw [hchildren] at hall ⊢
  have hrest := (allBounded_cons.mp (allBounded_append.mp hall).2).2
  obtain ⟨next, hnext, hsignificant⟩ :=
    exists_head_of_bounded hrest (Tree.isTrivia_of_isImport himport)
  obtain ⟨tokens, htokens⟩ := List.head?_eq_some_iff.mp hnext
  have hlost : lineAfter true (tokensOf (swallowed :: after)) = none := by
    rw [htokens, lineAfter_cons, lineStep_significant hsignificant]
    rfl
  have hcomment (isOpen : Bool) :
      lineAfter isOpen (tokensOf (.token .lineComment text :: swallowed :: after)) = none := by
    rw [tokensOf, Tree.tokens, List.singleton_append, lineAfter_cons, lineStep_comment]
    exact hlost
  rw [tokensOf_append, lineAfter_append]
  cases lineAfter false (tokensOf before) with
  | none => rfl
  | some isOpen => exact hcomment isOpen

/-- Behind a token that is a comment, the declaration comes first. -/
theorem Placed.new_of_comment {t : Tree} {symbol : TypeName} {pre new post before : List Tree}
    {text : String} (h : Placed t symbol pre new post)
    (hpre : pre = before ++ [.token .lineComment text]) :
    ∃ blank, new = [importDeclaration symbol, space blank] := by
  have hlast {initial : List Tree} {last : Tree}
      (heq : initial ++ [last] = before ++ [.token .lineComment text]) :
      last = .token .lineComment text := by
    simpa using congrArg List.getLast? heq
  cases h with
  | above => exact ⟨_, rfl⟩
  | aboveStatic => exact ⟨_, rfl⟩
  | onTop => exact ⟨_, rfl⟩
  | atEnd => exact ⟨_, rfl⟩
  | below isImport =>
    rw [hlast hpre] at isImport
    cases isImport
  | belowPackage isPackage =>
    rw [hlast hpre] at isPackage
    cases isPackage

/-- One more import does not come between a line comment and the import that it swallows, unless it is
swallowed itself. -/
theorem swallows_insertImport {t : Tree} (h : Swallows t) (symbol : TypeName) :
    Swallows (insertImport t symbol) := by
  obtain ⟨before, text, swallowed, after, hswallows, himport⟩ := h
  obtain ⟨pre, new, post, hchildren, hinsert, hplaced⟩ := insertImport_placed t symbol
  have hcut : pre ++ post = (before ++ [.token .lineComment text]) ++ swallowed :: after := by
    rw [← hchildren, hswallows, List.append_assoc, List.singleton_append]
  rw [hinsert]
  -- Between the two of them, in front of both, or behind both.
  rcases List.append_eq_append_iff.mp hcut with ⟨rest, hpre, hpost⟩ | ⟨rest, hpre, hpost⟩
  · rcases List.eq_nil_or_concat rest with rfl | ⟨inside, last, rfl⟩
    · rw [List.append_nil] at hpre
      obtain ⟨blank, rfl⟩ := hplaced.new_of_comment hpre.symm
      refine ⟨before, text, importDeclaration symbol, space blank :: post, ?_, rfl⟩
      rw [Tree.children, ← hpre]
      simp
    · rw [List.concat_eq_append, ← List.append_assoc] at hpre
      obtain ⟨rfl, hlast⟩ := List.append_inj' hpre rfl
      cases hlast
      refine ⟨pre ++ new ++ inside, text, swallowed, after, ?_, himport⟩
      rw [Tree.children, hpost]
      simp
  · cases rest with
    | nil =>
      rw [List.append_nil] at hpre
      obtain ⟨blank, rfl⟩ := hplaced.new_of_comment hpre
      refine ⟨before, text, importDeclaration symbol, space blank :: post, ?_, rfl⟩
      rw [Tree.children, hpre]
      simp
    | cons first rest =>
      cases hpost
      refine ⟨before, text, swallowed, rest ++ new ++ post, ?_, himport⟩
      rw [Tree.children, hpre]
      simp

/-- The last element of a unit that ends with a line comment and has no other elements than whitespace
and comments. -/
theorem exists_concat_of_not_closedEnd {t : Tree} (hall : AllBounded t.children)
    (h : ¬ ClosedEnd t) :
    (∀ c ∈ t.children, c.kind.isTrivia = true) ∧
      ∃ before text, t.children = before ++ [.token .lineComment text] := by
  rw [ClosedEnd, not_or] at h
  have htrivia : ∀ c ∈ t.children, c.kind.isTrivia = true := by
    intro c hc
    rw [← Bool.not_eq_false]
    exact fun hfalse => h.1 ⟨c, hc, hfalse⟩
  refine ⟨htrivia, ?_⟩
  rcases List.eq_nil_or_concat t.children with hnil | ⟨before, last, hconcat⟩
  · rw [hnil] at h
    exact absurd nofun h.2
  · rw [List.concat_eq_append] at hconcat
    have hlast : last ∈ t.children := by simp [hconcat]
    cases last with
    | node k cs =>
      have hnode := (hall _ (mem_nodesOf_of_mem hlast List.mem_cons_self)).kind
      rw [htrivia _ hlast] at hnode
      cases hnode
    | token k text =>
      by_cases hcomment : k = .lineComment
      · subst hcomment
        exact ⟨before, text, hconcat⟩
      · refine absurd (fun token htoken => ?_) h.2
        rw [hconcat, tokensOf_append, tokensOf_singleton, Tree.tokens, List.getLast?_concat] at htoken
        cases htoken
        exact hcomment

/-- Behind a line comment at the end of a unit without declarations, an import is swallowed. -/
theorem swallows_of_not_closedEnd {t : Tree} (hall : AllBounded t.children) (h : ¬ ClosedEnd t)
    (symbol : TypeName) : Swallows (insertImport t symbol) := by
  obtain ⟨htrivia, before, text, hend⟩ := exists_concat_of_not_closedEnd hall h
  obtain ⟨pre, new, post, hchildren, hinsert, hplaced⟩ := insertImport_placed t symbol
  have hnone {c : Tree} (hc : c ∈ pre ++ post) (hkind : c.kind.isTrivia = false) :
      Swallows (insertImport t symbol) := by
    rw [htrivia c (hchildren ▸ hc)] at hkind
    cases hkind
  cases hplaced with
  | above isImport =>
    exact hnone (List.mem_append_right _ List.mem_cons_self) (Tree.isTrivia_of_isImport isImport)
  | aboveStatic isImport =>
    exact hnone (List.mem_append_right _ List.mem_cons_self) (Tree.isTrivia_of_isImport isImport)
  | below isImport =>
    exact hnone (List.mem_append_left _ (List.mem_append_right _ List.mem_cons_self))
      (Tree.isTrivia_of_isImport isImport)
  | belowPackage isPackage =>
    exact hnone (List.mem_append_left _ (List.mem_append_right _ List.mem_cons_self))
      (Tree.isTrivia_of_isPackage isPackage)
  | onTop _ _ declared =>
    obtain ⟨c, hc, hkind⟩ := declared
    exact hnone (hchildren ▸ hc) hkind
  | atEnd =>
    rw [hinsert]
    refine ⟨before, text, importDeclaration symbol, [space "\n"], ?_, rfl⟩
    rw [Tree.children, hend]
    simp

/-! ## Flushing requests -/

theorem addImports_eq_of_nil {t : Tree} {symbols : List TypeName} (h : (addImports t symbols).2 = []) :
    (addImports t symbols).1 = t := by
  induction symbols with
  | nil => rfl
  | cons symbol symbols ih =>
    rw [addImports] at h ⊢
    split at h
    next hcovered =>
      rw [if_pos hcovered]
      exact ih h
    next => cases h

/-- What the first added import brings about and further ones preserve. -/
theorem addImports_reaches {goal : Tree → Prop} {symbols : List TypeName} {t : Tree}
    (hfirst : ∀ s, goal (insertImport t s)) (hnext : ∀ t s, goal t → goal (insertImport t s))
    (hadded : (addImports t symbols).2 ≠ []) : goal (addImports t symbols).1 := by
  induction symbols with
  | nil => exact absurd rfl hadded
  | cons symbol symbols ih =>
    rw [addImports] at hadded ⊢
    split at hadded
    next hcovered =>
      rw [if_pos hcovered]
      exact ih hadded
    next hopen =>
      rw [if_neg hopen]
      exact addImports_preserves (fun t s _ => hnext t s) (hfirst symbol)

/-- A unit as units are read: its nodes begin and end with tokens that are neither whitespace nor
comments. -/
structure JavaUnit.IsBounded (u : JavaUnit) : Prop where
  isNode : u.tree.isNode = true
  bounded : AllBounded u.tree.children

theorem JavaUnit.isBounded_parse {source : String} {u : JavaUnit} (h : JavaUnit.parse source = .ok u) :
    u.IsBounded := by
  obtain ⟨hread, -⟩ | rfl := JavaUnit.parse_cases h
  · have hlined := Grammar.ensures_lined source u h hread
    exact ⟨by rw [hlined.isUnit]; rfl, hlined.bounded⟩
  · exact ⟨rfl, allBounded_token _ _⟩

theorem Tree.tokens_of_isNode {t : Tree} (h : t.isNode = true) : t.tokens = tokensOf t.children := by
  cases t with
  | token k s => cases h
  | node k cs => rfl

/-- **When the added imports stand outside of line comments.** In a unit whose line comments are ended
directly by line breaks, except for one at the very end, a flush keeps it so, and puts no token into a
line comment, unless it adds imports to a unit that has nothing but whitespace and comments and ends with
a line comment. All units that are read are bounded, and a flush leaves them so. -/
theorem ImportRequests.flush_breaksComments_iff {u : JavaUnit} (names : List TypeName)
    (hunit : u.IsBounded) (hbreaks : BreaksComments u.tree.tokens) :
    let out := (names.foldl request .empty).flush u
    (BreaksComments out.1.tree.tokens ↔ out.2 = [] ∨ ClosedEnd u.tree) ∧
    ((∃ last, lineAfter false out.1.tree.tokens = some last) ↔ out.2 = [] ∨ ClosedEnd u.tree) ∧
    out.1.IsBounded ∧
    ∀ source read, JavaUnit.parse source = .ok read → read.IsBounded := by
  intro out
  have hout : out.1.IsBounded := by
    refine ⟨?_, ?_⟩
    · exact @addImports_preserves (·.isNode = true) _ (fun _ _ _ _ => rfl) _ hunit.isNode
    · exact @addImports_preserves (fun t => AllBounded t.children) _
        (fun _ s _ ht => allBounded_insertImport ht s) _ hunit.bounded
  have htokens : out.1.tree.tokens = tokensOf out.1.tree.children := Tree.tokens_of_isNode hout.isNode
  have hroom (h : out.2 = [] ∨ ClosedEnd u.tree) : BreaksComments out.1.tree.tokens := by
    rcases h with hnone | hclosed
    · have hsame : out.1.tree = u.tree := addImports_eq_of_nil hnone
      rw [hsame]
      exact hbreaks
    · rw [Tree.tokens_of_isNode hunit.isNode] at hbreaks
      rw [htokens]
      exact (@addImports_preserves HasRoom _ (fun _ s _ ht => hasRoom_insertImport ht s) _
        ⟨hunit.bounded, hbreaks, hclosed⟩).breaks
  have hlost (h : ¬ (out.2 = [] ∨ ClosedEnd u.tree)) : lineAfter false out.1.tree.tokens = none := by
    rw [not_or] at h
    rw [htokens]
    exact lineAfter_of_swallows hout.bounded (addImports_reaches
      (swallows_of_not_closedEnd hunit.bounded h.2) (fun _ s ht => swallows_insertImport ht s) h.1)
  have hread (h : BreaksComments out.1.tree.tokens) :
      ∃ last, lineAfter false out.1.tree.tokens = some last :=
    exists_lineAfter_of_breaksComments h nofun
  have hfree (h : ∃ last, lineAfter false out.1.tree.tokens = some last) :
      out.2 = [] ∨ ClosedEnd u.tree := by
    by_contra hclosed
    obtain ⟨last, hlast⟩ := h
    rw [hlost hclosed] at hlast
    cases hlast
  exact ⟨⟨fun h => hfree (hread h), hroom⟩, ⟨hfree, fun h => hread (hroom h)⟩, hout,
    fun _ _ => JavaUnit.isBounded_parse⟩

/-- Line comments above the package, behind an import and at the very end stay where nothing is lost in
them. -/
theorem ImportRequests.flush_breaksComments_iff_declared :
    ∃ u, JavaUnit.parse "// header\npackage a;\nimport c.D; // last\nclass A \x7b \x7d // end" = .ok u ∧
      BreaksComments u.tree.tokens ∧
      ((mixedRequests.foldl request .empty).flush u).2 = [⟨"m.N.O"⟩, ⟨"z.Y"⟩] ∧
      BreaksComments ((mixedRequests.foldl request .empty).flush u).1.tree.tokens := by
  have hcheck : (JavaUnit.parse
      "// header\npackage a;\nimport c.D; // last\nclass A \x7b \x7d // end").toOption.any (fun u =>
        decide (BreaksComments u.tree.tokens ∧ (u.tree.children.any fun c => !c.kind.isTrivia) = true ∧
          ((mixedRequests.foldl request .empty).flush u).2 = [⟨"m.N.O"⟩, ⟨"z.Y"⟩])) = true := by
    rw [JavaUnit.parse_eq]
    decide +kernel
  obtain ⟨u, hparse, hfacts⟩ := exists_ok_of_any hcheck
  obtain ⟨hbreaks, hdeclared, hadded⟩ := of_decide_eq_true hfacts
  obtain ⟨c, hc, hkind⟩ := List.any_eq_true.mp hdeclared
  have hclosed : ClosedEnd u.tree := .inl ⟨c, hc, by simpa using hkind⟩
  exact ⟨u, hparse, hbreaks, hadded, (flush_breaksComments_iff mixedRequests
    (JavaUnit.isBounded_parse hparse) hbreaks).1.mpr (.inr hclosed)⟩

/-- In a unit that is a line comment, the import is lost. -/
theorem ImportRequests.flush_into_comment :
    ∃ u, JavaUnit.parse "// header" = .ok u ∧ BreaksComments u.tree.tokens ∧
      (((ImportRequests.empty.request ⟨"a.B"⟩).flush u).1.text = "// headerimport a.B;\n") ∧
      ¬ BreaksComments ((ImportRequests.empty.request ⟨"a.B"⟩).flush u).1.tree.tokens ∧
      lineAfter false ((ImportRequests.empty.request ⟨"a.B"⟩).flush u).1.tree.tokens = none := by
  have hcheck : (JavaUnit.parse "// header").toOption.any (fun u =>
      decide (BreaksComments u.tree.tokens ∧
        (((ImportRequests.empty.request ⟨"a.B"⟩).flush u).1.text = "// headerimport a.B;\n") ∧
        ¬ BreaksComments ((ImportRequests.empty.request ⟨"a.B"⟩).flush u).1.tree.tokens ∧
        lineAfter false ((ImportRequests.empty.request ⟨"a.B"⟩).flush u).1.tree.tokens = none)) =
          true := by
    rw [JavaUnit.parse_eq]
    decide +kernel
  obtain ⟨u, hparse, hfacts⟩ := exists_ok_of_any hcheck
  exact ⟨u, hparse, of_decide_eq_true hfacts⟩

end CallMigration
