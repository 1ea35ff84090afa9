import CallMigration.Proofs.Stock
import Mathlib.Tactic.ByContra

/-!
# What the stock recipe does to a tree

The stock recipe wraps the only argument of a matched call and leaves everything else where it is. A
`Growth` is a tree in which the argument lists with a wrapped argument are marked; it can be read as
the tree before and as the tree after.

* `Tree.FramedLists` : lists of one argument have it between parentheses, with nothing but trivia.
* `Growth.before`, `Growth.after`, `Growth.wraps` : the two trees, and how many arguments are wrapped.
* `Growth.Placed` : the marked lists are those of the calls that a resolver matches.
* `visit_growth` : a walk over a tree is a growth of it.
-/

namespace CallMigration

/-! ## Lists of one argument -/

def isTriviaToken : Tree → Bool
  | .token k _ => k.isTrivia
  | .node _ _ => false

/-- An opening parenthesis, trivia, one element, trivia and a closing parenthesis. -/
def isFramed : List Tree → Bool
  | .token .leftParen _ :: rest =>
    match rest.dropWhile isTriviaToken with
    | _ :: rest =>
      match rest.dropWhile isTriviaToken with
      | [.token .rightParen _] => true
      | _ => false
    | [] => false
  | _ => false

def Tree.FramedLists (t : Tree) : Prop :=
  ∀ list, .node .argumentList list ∈ t.nodes → (list.filter Call.isArgument).length = 1 →
    isFramed list = true

def isFramedNode : Tree → Bool
  | .node .argumentList list => (list.filter Call.isArgument).length != 1 || isFramed list
  | _ => true

theorem Tree.framedLists_iff {t : Tree} :
    (∀ n ∈ t.nodes, isFramedNode n = true) ↔ t.FramedLists := by
  constructor
  · intro h list hlist hone
    simpa [isFramedNode, hone] using h _ hlist
  · intro h n hn
    unfold isFramedNode
    split
    next list =>
      by_cases hone : (list.filter Call.isArgument).length = 1
      · simp [h list hn hone]
      · simp [hone]
    next => rfl

instance (t : Tree) : Decidable t.FramedLists :=
  decidable_of_iff _ Tree.framedLists_iff

def leaves (tokens : List (Kind × String)) : List Tree :=
  tokens.map fun (k, s) => .token k s

/-- An element between parentheses and trivia. -/
def framed (left : String) (lead : List (Kind × String)) (t : Tree)
    (trail : List (Kind × String)) (right : String) : List Tree :=
  .token .leftParen left :: (leaves lead ++ t :: (leaves trail ++ [.token .rightParen right]))

theorem mem_framed (left : String) (lead : List (Kind × String)) (t : Tree)
    (trail : List (Kind × String)) (right : String) : t ∈ framed left lead t trail right := by
  simp [framed]

def AllTrivia (tokens : List (Kind × String)) : Prop :=
  ∀ token ∈ tokens, token.1.isTrivia = true

theorem exists_leaves_takeWhile (ts : List Tree) :
    ∃ tokens, ts.takeWhile isTriviaToken = leaves tokens ∧ AllTrivia tokens := by
  induction ts with
  | nil => exact ⟨[], rfl, by simp [AllTrivia]⟩
  | cons t ts ih =>
    cases t with
    | node k cs => exact ⟨[], rfl, by simp [AllTrivia]⟩
    | token k s =>
      cases hk : k.isTrivia with
      | false => exact ⟨[], by simp [isTriviaToken, hk, leaves], by simp [AllTrivia]⟩
      | true =>
        obtain ⟨tokens, htokens, htrivia⟩ := ih
        refine ⟨(k, s) :: tokens, ?_, ?_⟩
        · rw [List.takeWhile_cons_of_pos (by exact hk), htokens]
          rfl
        · intro token htoken
          rcases List.mem_cons.mp htoken with rfl | htoken
          · exact hk
          · exact htrivia token htoken

theorem exists_framed {list : List Tree} (h : isFramed list = true) :
    ∃ left lead t trail right, list = framed left lead t trail right ∧
      AllTrivia lead ∧ AllTrivia trail := by
  unfold isFramed at h
  split at h
  next left rest =>
    split at h
    next t after hinner =>
      split at h
      next right hlast =>
        obtain ⟨lead, hlead, hleadTrivia⟩ := exists_leaves_takeWhile rest
        obtain ⟨trail, htrail, htrailTrivia⟩ := exists_leaves_takeWhile after
        refine ⟨left, lead, t, trail, right, ?_, hleadTrivia, htrailTrivia⟩
        rw [framed, ← htrail, ← hlast, List.takeWhile_append_dropWhile, ← hlead, ← hinner,
          List.takeWhile_append_dropWhile]
      next => cases h
    next => cases h
  next => cases h

theorem Tree.FramedLists.child {k : Kind} {cs : List Tree} {t : Tree}
    (h : (Tree.node k cs).FramedLists) (ht : t ∈ cs) : t.FramedLists :=
  fun list hlist => h list (List.mem_cons_of_mem _ (mem_nodesOf_of_mem ht hlist))

/-! ## Growths -/

/-- A tree before and after arguments are wrapped. -/
inductive Growth where
  | token (kind : Kind) (text : String)
  | node (kind : Kind) (parts : List Growth)
  /-- An argument list whose only argument is wrapped. -/
  | wrapped (left : String) (lead : List (Kind × String)) (argument : Growth)
    (trail : List (Kind × String)) (right : String)

namespace Growth

mutual
def before : Growth → Tree
  | token k s => .token k s
  | node k parts => .node k (befores parts)
  | wrapped left lead argument trail right =>
    .node .argumentList (framed left lead argument.before trail right)
/-- The elements before anything is wrapped. -/
def befores : List Growth → List Tree
  | [] => []
  | g :: gs => g.before :: befores gs
end

mutual
def after : Growth → Tree
  | token k s => .token k s
  | node k parts => .node k (afters parts)
  | wrapped left lead argument trail right =>
    .node .argumentList (framed left lead (UseTimeout.wrap argument.after) trail right)
/-- The elements after the marked arguments are wrapped. -/
def afters : List Growth → List Tree
  | [] => []
  | g :: gs => g.after :: afters gs
end

mutual
def wraps : Growth → Nat
  | token _ _ => 0
  | node _ parts => wrapsOf parts
  | wrapped _ _ argument _ _ => argument.wraps + 1
/-- The number of wrapped arguments in elements that follow each other. -/
def wrapsOf : List Growth → Nat
  | [] => 0
  | g :: gs => g.wraps + wrapsOf gs
end

/-- An argument list whose argument is wrapped. -/
def isWrapped : Growth → Bool
  | wrapped .. => true
  | _ => false

theorem befores_eq_map (gs : List Growth) : befores gs = gs.map before := by
  induction gs with
  | nil => rfl
  | cons g gs ih => rw [befores, ih, List.map_cons]

theorem afters_eq_map (gs : List Growth) : afters gs = gs.map after := by
  induction gs with
  | nil => rfl
  | cons g gs ih => rw [afters, ih, List.map_cons]

theorem wrapsOf_append (as bs : List Growth) : wrapsOf (as ++ bs) = wrapsOf as + wrapsOf bs := by
  induction as with
  | nil => simp [wrapsOf]
  | cons g as ih => rw [List.cons_append, wrapsOf, wrapsOf, ih, Nat.add_assoc]

theorem before_mem_befores {g : Growth} {gs : List Growth} (h : g ∈ gs) : g.before ∈ befores gs := by
  rw [befores_eq_map]
  exact List.mem_map_of_mem h

theorem kind_after (g : Growth) : g.after.kind = g.before.kind := by
  cases g <;> rfl

theorem isNode_after (g : Growth) : g.after.isNode = g.before.isNode := by
  cases g <;> rfl

theorem isArgumentList_after (g : Growth) : isArgumentList g.after = isArgumentList g.before := by
  cases g <;> rfl

theorem isArgumentList_afters {gs : List Growth} (h : ∀ t ∈ befores gs, isArgumentList t = false) :
    ∀ t ∈ afters gs, isArgumentList t = false := by
  rw [befores_eq_map, List.forall_mem_map] at h
  rw [afters_eq_map, List.forall_mem_map]
  intro g hg
  rw [isArgumentList_after, h g hg]

theorem isArgument_after (g : Growth) : Call.isArgument g.after = Call.isArgument g.before := by
  cases g <;> rfl

theorem exists_node_of_wraps (g : Growth) (h : g.wraps ≠ 0) : ∃ k cs, g.after = .node k cs := by
  cases g with
  | token k s => exact absurd rfl h
  | node k parts => exact ⟨_, _, rfl⟩
  | wrapped left lead argument trail right => exact ⟨_, _, rfl⟩

mutual
theorem after_eq_before : ∀ {g : Growth}, g.wraps = 0 → g.after = g.before
  | .token _ _, _ => rfl
  | .node k parts, h => by rw [after, before, afters_eq_befores h]
theorem afters_eq_befores : ∀ {gs : List Growth}, wrapsOf gs = 0 → afters gs = befores gs
  | [], _ => rfl
  | g :: gs, h => by
    obtain ⟨hg, hgs⟩ := Nat.add_eq_zero_iff.mp h
    rw [afters, befores, after_eq_before hg, afters_eq_befores hgs]
end

/-! ## Replacing a framed argument -/

theorem kind_of_mem_leaves {tokens : List (Kind × String)} (h : AllTrivia tokens) {t : Tree}
    (ht : t ∈ leaves tokens) : t.kind.isTrivia = true := by
  obtain ⟨token, htoken, rfl⟩ := List.mem_map.mp ht
  exact h token htoken

theorem isArgument_of_mem_leaves {tokens : List (Kind × String)} (h : AllTrivia tokens) {t : Tree}
    (ht : t ∈ leaves tokens) : Call.isArgument t = false := by
  have hkind : (Element.kind t).isTrivia = true := kind_of_mem_leaves h ht
  simp [Call.isArgument, Element.isSignificant, hkind]

theorem not_isTrivia_of_isArgument {t : Tree} (h : Call.isArgument t = true) :
    t.kind.isTrivia = false := by
  simp only [Call.isArgument, Element.isSignificant, Bool.and_eq_true, Bool.not_eq_true'] at h
  exact h.1.1.1

/-- The arguments of a framed list: the element in the middle, if it is one. -/
theorem filter_isArgument_framed {left right : String} {lead trail : List (Kind × String)} {t : Tree}
    (hlead : AllTrivia lead) (htrail : AllTrivia trail) :
    (framed left lead t trail right).filter Call.isArgument = [t].filter Call.isArgument := by
  have hleads : (leaves lead).filter Call.isArgument = [] :=
    List.filter_eq_nil_iff.mpr fun u hu => by simp [isArgument_of_mem_leaves hlead hu]
  have htrails : (leaves trail).filter Call.isArgument = [] :=
    List.filter_eq_nil_iff.mpr fun u hu => by simp [isArgument_of_mem_leaves htrail hu]
  have hleft : Call.isArgument (Tree.token .leftParen left) = false := rfl
  have hright : Call.isArgument (Tree.token .rightParen right) = false := rfl
  rw [framed, List.filter_cons_of_neg (by simp [hleft]), List.filter_append, hleads,
    List.nil_append, ← List.singleton_append, List.filter_append, List.filter_append, htrails]
  simp [hright]

theorem leadingTrivia_framed {lead : List (Kind × String)} {t : Tree} {rest : List Tree}
    (hlead : AllTrivia lead) (ht : t.kind.isTrivia = false) :
    leadingTrivia (leaves lead ++ t :: rest) = leaves lead := by
  rw [leadingTrivia, List.takeWhile_append_of_pos fun u hu => kind_of_mem_leaves hlead hu,
    List.takeWhile_cons_of_neg (by simp [ht]), List.append_nil]

theorem trailingTrivia_framed {trail : List (Kind × String)} {t : Tree} {rest : List Tree}
    (htrail : AllTrivia trail) (ht : t.kind.isTrivia = false) :
    trailingTrivia (rest ++ t :: leaves trail) = leaves trail := by
  rw [trailingTrivia, List.reverse_append, List.reverse_cons, List.append_assoc,
    List.takeWhile_append_of_pos fun u hu => kind_of_mem_leaves htrail (List.mem_reverse.mp hu),
    List.singleton_append, List.takeWhile_cons_of_neg (by simp [ht]), List.append_nil,
    List.reverse_reverse]

theorem replaceContents?_framed {left right : String} {lead trail : List (Kind × String)}
    {t : Tree} (hlead : AllTrivia lead) (htrail : AllTrivia trail) (ht : t.kind.isTrivia = false)
    (contents : Tree) :
    replaceContents? [contents] (framed left lead t trail right) =
      some (framed left lead contents trail right) := by
  have hlast : (leaves lead ++ t :: (leaves trail ++ [.token .rightParen right])).getLast? =
      some (.token .rightParen right) := by
    rw [← List.cons_append, ← List.append_assoc, List.getLast?_concat]
  have hinner : (leaves lead ++ t :: (leaves trail ++ [Tree.token .rightParen right])).dropLast =
      leaves lead ++ t :: leaves trail := by
    rw [← List.cons_append, ← List.append_assoc, List.dropLast_concat]
  have hparens : ((Tree.token .leftParen left).kind == Kind.leftParen &&
      (Tree.token .rightParen right).kind == Kind.rightParen) = true := rfl
  simp only [replaceContents?, framed, hlast, hinner, hparens, if_true,
    leadingTrivia_framed hlead ht, trailingTrivia_framed htrail ht]
  simp

theorem substitute_template (argument : Tree) :
    substituteAll [argument] (some .argumentList) UseTimeout.template.body =
      [UseTimeout.wrap argument] := by
  have htimeout : capturedAt? [argument] .identifier "Timeout" = none := by
    have h : slotIndex? "Timeout" = none := by decide
    rw [capturedAt?, h]
    rfl
  have hmillis : capturedAt? [argument] .identifier "ofMilliseconds" = none := by
    have h : slotIndex? "ofMilliseconds" = none := by decide
    rw [capturedAt?, h]
    rfl
  have hslot : capturedAt? [argument] .identifier "__hcrewrite_slot0__" = some argument := by
    have h : slotIndex? "__hcrewrite_slot0__" = some 0 := by decide
    rw [capturedAt?, h]
    rfl
  have hother (k : Kind) (s : String) (hk : (k == .identifier) = false) :
      capturedAt? [argument] k s = none := by
    rw [capturedAt?, hk]
    rfl
  have hgroup : group (some .argumentList) argument = argument := by
    simp [group, isDelimiting]
  simp only [UseTimeout.template, UseTimeout.wrap, substituteAll, substitute, htimeout, hmillis,
    hslot, hgroup, hother .dot "." rfl, hother .leftParen "(" rfl, hother .rightParen ")" rfl]

theorem replacement?_framed {pre post : List Tree} {left right : String}
    {lead trail : List (Kind × String)} {argument : Tree} (parent : Option Kind)
    (hpost : ∀ t ∈ post, isArgumentList t = false) (hlead : AllTrivia lead)
    (htrail : AllTrivia trail) (hargument : Call.isArgument argument = true) :
    UseTimeout.template.replacement?
        (.node .methodInvocation
          (pre ++ .node .argumentList (framed left lead argument trail right) :: post))
        [0] parent =
      some (.node .methodInvocation (pre ++
        .node .argumentList (framed left lead (UseTimeout.wrap argument) trail right) :: post)) := by
  have hlist : lastArguments?
      (pre ++ .node .argumentList (framed left lead argument trail right) :: post) =
        some (pre.length, framed left lead argument trail right) :=
    lastArguments?_eq_some_iff.mpr ⟨pre, post, rfl, rfl, hpost⟩
  have harguments : (framed left lead argument trail right).filter Call.isArgument = [argument] := by
    rw [filter_isArgument_framed hlead htrail, List.filter_cons_of_pos hargument, List.filter_nil]
  have hcaptured : ([0].mapM fun index => ([argument] : List Tree)[index]?) = some [argument] := rfl
  have hcount : ¬ [0].length ≠ UseTimeout.template.placeholders.length := by decide
  have htarget : UseTimeout.template.target = .arguments := rfl
  rw [Template.replacement?, if_neg hcount]
  simp only [hlist, harguments, hcaptured, htarget, substitute_template,
    replaceContents?_framed hlead htrail (not_isTrivia_of_isArgument hargument),
    Option.map_some, List.set_append_right, Nat.le_refl, Nat.sub_self, List.set_cons_zero]

/-! ## Where arguments are wrapped -/

mutual
/-- The marked lists are the last ones of the calls that match, and no others. -/
def Placed (r : Resolver) (around : List Span) (start : Nat) : Growth → Prop
  | token _ _ => True
  | node k parts =>
    (parts.any isWrapped = (k == .methodInvocation &&
      (UseTimeout.rule.matcher.find? r ⟨.node k (befores parts), start, around⟩).isSome)) ∧
    (parts.Pairwise fun g h => g.isWrapped = true → isArgumentList h.before = false) ∧
    PlacedAll r (⟨k, start, start + Tree.byteLengthOf (befores parts)⟩ :: around) start parts
  | wrapped left lead argument trail right =>
    AllTrivia lead ∧ AllTrivia trail ∧ Call.isArgument argument.before = true ∧
    argument.isWrapped = false ∧
    Placed r
      (⟨.argumentList, start, start +
        Tree.byteLengthOf (framed left lead argument.before trail right)⟩ :: around)
      (start + left.utf8ByteSize + Tree.byteLengthOf (leaves lead)) argument
/-- The same for elements that follow each other. -/
def PlacedAll (r : Resolver) (around : List Span) (start : Nat) : List Growth → Prop
  | [] => True
  | g :: gs => Placed r around start g ∧ PlacedAll r around (start + g.before.byteLength) gs
end

theorem placedAll_append {r : Resolver} {around : List Span} {start : Nat} {as bs : List Growth} :
    PlacedAll r around start (as ++ bs) ↔
      PlacedAll r around start as ∧
        PlacedAll r around (start + Tree.byteLengthOf (befores as)) bs := by
  induction as generalizing start with
  | nil => simp [PlacedAll, befores, Tree.byteLengthOf]
  | cons g as ih =>
    rw [List.cons_append, PlacedAll, PlacedAll, ih, befores, Tree.byteLengthOf, Nat.add_assoc,
      and_assoc]

/-! ## Parts of a growth from parts of the tree -/

theorem befores_append (as bs : List Growth) : befores (as ++ bs) = befores as ++ befores bs := by
  simp [befores_eq_map]

theorem befores_eq_append {gs : List Growth} {as bs : List Tree} (h : befores gs = as ++ bs) :
    ∃ pre post, gs = pre ++ post ∧ befores pre = as ∧ befores post = bs := by
  simp only [befores_eq_map] at h ⊢
  exact List.map_eq_append_iff.mp h

theorem befores_eq_cons {gs : List Growth} {t : Tree} {ts : List Tree} (h : befores gs = t :: ts) :
    ∃ g post, gs = g :: post ∧ g.before = t ∧ befores post = ts := by
  simp only [befores_eq_map] at h ⊢
  exact List.map_eq_cons_iff.mp h

theorem eq_token_of_before {g : Growth} {k : Kind} {s : String} (h : g.before = .token k s) :
    g = .token k s := by
  cases g with
  | token k s =>
    cases h
    rfl
  | node k parts => cases h
  | wrapped left lead argument trail right => cases h

def tokens (ts : List (Kind × String)) : List Growth :=
  ts.map fun (k, s) => .token k s

theorem befores_tokens (ts : List (Kind × String)) : befores (tokens ts) = leaves ts := by
  simp [befores_eq_map, tokens, leaves, before]

theorem eq_tokens_of_befores {gs : List Growth} {ts : List (Kind × String)}
    (h : befores gs = leaves ts) : gs = tokens ts := by
  induction ts generalizing gs with
  | nil =>
    cases gs with
    | nil => rfl
    | cons g gs => cases h
  | cons t ts ih =>
    obtain ⟨g, post, rfl, hg, hpost⟩ := befores_eq_cons h
    rw [eq_token_of_before hg, ih hpost]
    rfl

theorem afters_tokens (ts : List (Kind × String)) : afters (tokens ts) = leaves ts := by
  simp [afters_eq_map, tokens, leaves, after]

theorem wrapsOf_tokens (ts : List (Kind × String)) : wrapsOf (tokens ts) = 0 := by
  induction ts with
  | nil => rfl
  | cons t ts ih =>
    change 0 + wrapsOf (tokens ts) = 0
    rw [ih]

theorem afters_append (as bs : List Growth) : afters (as ++ bs) = afters as ++ afters bs := by
  simp [afters_eq_map]

/-- The parts of an argument list in which nothing is wrapped at the top. -/
def frame (left : String) (lead : List (Kind × String)) (argument : Growth)
    (trail : List (Kind × String)) (right : String) : List Growth :=
  .token .leftParen left ::
    (tokens lead ++ argument :: (tokens trail ++ [.token .rightParen right]))

theorem afters_frame (left : String) (lead : List (Kind × String)) (argument : Growth)
    (trail : List (Kind × String)) (right : String) :
    afters (frame left lead argument trail right) = framed left lead argument.after trail right := by
  simp [frame, framed, afters, afters_append, afters_tokens, after]

theorem befores_frame (left : String) (lead : List (Kind × String)) (argument : Growth)
    (trail : List (Kind × String)) (right : String) :
    befores (frame left lead argument trail right) =
      framed left lead argument.before trail right := by
  simp [frame, framed, befores, befores_append, befores_tokens, before]

theorem wrapsOf_frame (left : String) (lead : List (Kind × String)) (argument : Growth)
    (trail : List (Kind × String)) (right : String) :
    wrapsOf (frame left lead argument trail right) = argument.wraps := by
  simp [frame, wrapsOf, wrapsOf_append, wrapsOf_tokens, wraps]

theorem placed_of_placedAll_frame {r : Resolver} {around : List Span} {start : Nat} {left right : String}
    {lead trail : List (Kind × String)} {argument : Growth}
    (h : PlacedAll r around start (frame left lead argument trail right)) :
    Placed r around (start + left.utf8ByteSize + Tree.byteLengthOf (leaves lead)) argument := by
  rw [frame, PlacedAll, placedAll_append, befores_tokens] at h
  exact h.2.2.1

theorem exists_of_befores_framed {gs : List Growth} {left right : String}
    {lead trail : List (Kind × String)} {t : Tree} (h : befores gs = framed left lead t trail right) :
    ∃ argument, argument.before = t ∧ gs = frame left lead argument trail right := by
  obtain ⟨first, rest, rfl, hfirst, hrest⟩ := befores_eq_cons h
  obtain ⟨leads, rest, rfl, hleads, hrest⟩ := befores_eq_append hrest
  obtain ⟨argument, rest, rfl, hargument, hrest⟩ := befores_eq_cons hrest
  obtain ⟨trails, rest, rfl, htrails, hrest⟩ := befores_eq_append hrest
  obtain ⟨last, rest, rfl, hlast, hrest⟩ := befores_eq_cons hrest
  refine ⟨argument, hargument, ?_⟩
  rw [eq_token_of_before hfirst, eq_tokens_of_befores hleads, eq_tokens_of_befores htrails,
    eq_token_of_before hlast, frame]
  cases rest with
  | nil => rfl
  | cons g gs => cases hrest

/-- The growth of the parts of a call, cut at the argument list and at the argument. -/
theorem befores_eq_list {gs : List Growth} {pre post : List Tree} {left right : String}
    {lead trail : List (Kind × String)} {t : Tree}
    (h : befores gs = pre ++ .node .argumentList (framed left lead t trail right) :: post)
    (hplain : ∀ g ∈ gs, g.isWrapped = false) :
    ∃ pres argument posts,
      gs = pres ++ .node .argumentList (frame left lead argument trail right) :: posts ∧
        befores pres = pre ∧ argument.before = t ∧ befores posts = post := by
  obtain ⟨pres, rest, rfl, hpres, hrest⟩ := befores_eq_append h
  obtain ⟨list, posts, rfl, hlist, hposts⟩ := befores_eq_cons hrest
  have hlistPlain : list.isWrapped = false := hplain list (by simp)
  match list, hlist, hlistPlain with
  | .node k parts, hlist, _ =>
    simp only [before, Tree.node.injEq] at hlist
    obtain ⟨rfl, hparts⟩ := hlist
    obtain ⟨argument, hargument, rfl⟩ := exists_of_befores_framed hparts
    exact ⟨pres, argument, posts, rfl, hpres, hargument, hposts⟩

/-- Whatever has happened to the parts of a call, its argument can be wrapped. -/
theorem replacement?_afters (pres : List Growth) {posts : List Growth} (left right : String)
    {lead trail : List (Kind × String)} {argument : Growth} (parent : Option Kind)
    (hposts : ∀ t ∈ befores posts, isArgumentList t = false) (hlead : AllTrivia lead)
    (htrail : AllTrivia trail) (hargument : Call.isArgument argument.before = true) :
    UseTimeout.template.replacement?
        (.node .methodInvocation (afters
          (pres ++ .node .argumentList (frame left lead argument trail right) :: posts)))
        [0] parent =
      some (.node .methodInvocation
        (afters (pres ++ .wrapped left lead argument trail right :: posts))) := by
  have hafter : Call.isArgument argument.after = true := by
    rw [isArgument_after, hargument]
  rw [afters_append, afters, after, afters_frame, afters_append, afters, after]
  exact replacement?_framed parent (isArgumentList_afters hposts) hlead htrail hafter

end Growth

/-! ## The walk -/

section

variable {R : Type} [TypeResolver R] {rule : Rule} {r : R} {around : List Span} {start : Nat}
  {cs : List Tree} {w : Walk}

theorem Rule.visit_node {k : Kind} (hk : k ≠ .methodInvocation) :
    rule.visit r around start (.node k cs) w =
      let v := rule.visitAll r (⟨k, start, start + Tree.byteLengthOf cs⟩ :: around) start cs w
      (if v.2.1 then some (.node k v.1) else none, v.2.2) := by
  rw [visit, if_neg hk]

theorem Rule.visit_kept
    (h : (rule.matcher.find? r ⟨.node .methodInvocation cs, start, around⟩).isSome = false) :
    rule.visit r around start (.node .methodInvocation cs) w =
      let range := (start, start + Tree.byteLengthOf cs)
      let v := rule.visitAll r (⟨.methodInvocation, start, start + Tree.byteLengthOf cs⟩ :: around)
        start cs (w.enter range)
      (if v.2.1 then some (.node .methodInvocation v.1) else none, v.2.2.keep range) := by
  rw [visit, if_pos rfl]
  simp only [h, Bool.false_eq_true, if_false]
  congr 1
  split <;> rfl

/-- The walk over a call that matches and can be replaced. -/
theorem Rule.visit_replaced {cs' : List Tree} {changed : Bool} {w' : Walk} {new : Tree}
    (h : (rule.matcher.find? r ⟨.node .methodInvocation cs, start, around⟩).isSome = true)
    (hparts : rule.visitAll r (⟨.methodInvocation, start, start + Tree.byteLengthOf cs⟩ :: around)
      start cs (w.enter (start, start + Tree.byteLengthOf cs)) = (cs', changed, w'))
    (hnew : rule.template.replacement? (.node .methodInvocation (if changed then cs' else cs))
      rule.selected (around.head?.map (·.kind)) = some new) :
    rule.visit r around start (.node .methodInvocation cs) w =
      (some new, w'.replace (start, start + Tree.byteLengthOf cs) rule.template.imports) := by
  rw [visit, if_pos rfl]
  have hrebuilt : (if changed then Tree.node .methodInvocation cs' else .node .methodInvocation cs) =
      .node .methodInvocation (if changed then cs' else cs) := by
    split <;> rfl
  simp only [h, hparts, if_true, hrebuilt, Site.parentKind?, hnew]

end

/-- Nothing keeps a run from walking over the unit. -/
structure Rule.Enters (rule : Rule) (table : TypeTable) (u : JavaUnit) : Prop where
  errors : u.hasErrors = false
  gate : rule.gate.isPresent (.ofTree table u.tree) = true
  imports : rule.template.imports.any (conflicts u.tree) = false

/-- The outcome of a walk that gave a new tree, or none. -/
def Outcome.ofWalk (u : JavaUnit) (new : Option Tree) (w : Walk) : Outcome :=
  match new with
  | some (.node k cs) =>
    let (out, added) := w.imports.flush (u.withTree (.node k cs))
    ⟨out, decide (out.tree ≠ u.tree), { w.stats with importsAdded := added.length }, added, none⟩
  | _ => ⟨u, false, w.stats, [], none⟩

theorem Outcome.skipped_ofWalk (u : JavaUnit) (new : Option Tree) (w : Walk) :
    (ofWalk u new w).skipped = none := by
  unfold ofWalk
  split <;> rfl

/-- A run is skipped, or it is the walk over the whole unit. -/
theorem Rule.run_cases (rule : Rule) (table : TypeTable) (u : JavaUnit) :
    (¬ rule.Enters table u ∧ ∃ reason, rule.run table u = .skip u reason) ∨
      rule.Enters table u ∧ rule.run table u =
        .ofWalk u (rule.visit (Resolver.ofTree table u.tree) [] 0 u.tree (.start true)).1
          (rule.visit (Resolver.ofTree table u.tree) [] 0 u.tree (.start true)).2 := by
  unfold run runWith
  dsimp only
  rw [← Gate.isPresent]
  split
  next herrors => exact .inl ⟨fun henters => by simp [henters.errors] at herrors, _, rfl⟩
  next herrors =>
    split
    next hgate => exact .inl ⟨fun henters => by simp [henters.gate] at hgate, _, rfl⟩
    next hgate =>
      split
      next himports => exact .inl ⟨fun henters => by simp [henters.imports] at himports, _, rfl⟩
      next himports =>
        refine .inr ⟨⟨?_, ?_, ?_⟩, rfl⟩
        · simpa using herrors
        · simpa using hgate
        · simpa using himports

namespace UseTimeout

/-- Nothing but the type of timeouts has been requested. -/
def Ready (w : Walk) : Prop :=
  w.imports = .empty ∨ w.imports = ⟨[timeout]⟩

/-- A walk has gone on and wrapped a number of arguments. -/
structure Follows (count : Nat) (w w' : Walk) : Prop where
  migrated : w'.stats.callsMigrated = w.stats.callsMigrated + count
  imports : w'.imports = if count = 0 then w.imports else ⟨[timeout]⟩

theorem Follows.ready {count : Nat} {w w' : Walk} (h : Follows count w w') (hw : Ready w) :
    Ready w' := by
  unfold Ready
  rw [h.imports]
  split
  · exact hw
  · exact .inr rfl

theorem Follows.trans {a b : Nat} {w w' w'' : Walk} (h : Follows a w w') (h' : Follows b w' w'') :
    Follows (a + b) w w'' := by
  constructor
  · rw [h'.migrated, h.migrated, Nat.add_assoc]
  · rw [h'.imports, h.imports]
    by_cases ha : a = 0 <;> by_cases hb : b = 0 <;> simp [ha, hb]

theorem Follows.enter {count : Nat} {w w' : Walk} {range : Nat × Nat}
    (h : Follows count (w.enter range) w') : Follows count w w' :=
  ⟨h.migrated, h.imports⟩

theorem Follows.keep {count : Nat} {w w' : Walk} (h : Follows count w w') (range : Nat × Nat) :
    Follows count w (w'.keep range) :=
  ⟨h.migrated, h.imports⟩

theorem Follows.replace {count : Nat} {w w' : Walk} (h : Follows count w w') (hw : Ready w)
    (range : Nat × Nat) : Follows (count + 1) w (w'.replace range template.imports) := by
  constructor
  · change w'.stats.callsMigrated + 1 = _
    rw [h.migrated, Nat.add_assoc]
  · change ImportRequests.request w'.imports timeout = ⟨[timeout]⟩
    rcases h.ready hw with hw' | hw' <;> rw [hw'] <;> rfl

theorem arguments_of_find? {r : Resolver} {site : Site}
    (h : (rule.matcher.find? r site).isSome = true) :
    (Call.arguments site.element).length = 1 := by
  obtain ⟨s, hs⟩ := Option.isSome_iff_exists.mp h
  obtain ⟨hmem, -, htypes, -⟩ := Matcher.find?_eq_some hs
  have hparams : ∀ s ∈ setters, s.params.length = 1 := by decide
  rw [← Site.arguments_element, List.length_map, ← length_of_mapM_eq_some htypes]
  exact hparams s hmem

/-- The arguments of a matched call stand in a framed list. -/
theorem exists_framed_of_find? {r : Resolver} {around : List Span} {start : Nat} {cs : List Tree}
    (hframed : (Tree.node .methodInvocation cs).FramedLists)
    (h : (rule.matcher.find? r ⟨.node .methodInvocation cs, start, around⟩).isSome = true) :
    ∃ pre post left lead argument trail right,
      cs = pre ++ .node .argumentList (framed left lead argument trail right) :: post ∧
      (∀ t ∈ post, isArgumentList t = false) ∧ AllTrivia lead ∧ AllTrivia trail ∧
      Call.isArgument argument = true := by
  have hlength := arguments_of_find? h
  cases hlast : lastArguments? cs with
  | none =>
    rw [Call.arguments_eq_nil hlast] at hlength
    cases hlength
  | some found =>
    obtain ⟨position, list⟩ := found
    obtain ⟨pre, post, rfl, -, hpost⟩ := lastArguments?_eq_some_iff.mp hlast
    rw [Call.arguments_eq hlast] at hlength
    have hmem : Tree.node .argumentList list ∈
        (Tree.node .methodInvocation (pre ++ .node .argumentList list :: post)).nodes :=
      List.mem_cons_of_mem _
        (mem_nodesOf_of_mem (List.mem_append_right pre List.mem_cons_self) List.mem_cons_self)
    obtain ⟨left, lead, argument, trail, right, rfl, hlead, htrail⟩ :=
      exists_framed (hframed list hmem hlength)
    refine ⟨pre, post, left, lead, argument, trail, right, rfl, hpost, hlead, htrail, ?_⟩
    rw [Growth.filter_isArgument_framed hlead htrail] at hlength
    by_contra hno
    rw [List.filter_cons_of_neg hno] at hlength
    cases hlength

/-- A growth of an element that a walk has gone through. -/
def Walked (r : Resolver) (around : List Span) (start : Nat) (t : Tree) (w : Walk) (g : Growth) :
    Prop :=
  g.before = t ∧ g.isWrapped = false ∧ g.Placed r around start ∧
    (rule.visit r around start t w).1 = (if g.wraps = 0 then none else some g.after) ∧
    Follows g.wraps w (rule.visit r around start t w).2

/-- A growth of elements that a walk has gone through. -/
def WalkedAll (r : Resolver) (around : List Span) (start : Nat) (ts : List Tree) (w : Walk)
    (gs : List Growth) : Prop :=
  Growth.befores gs = ts ∧ (∀ g ∈ gs, g.isWrapped = false) ∧ Growth.PlacedAll r around start gs ∧
    (rule.visitAll r around start ts w).1 = Growth.afters gs ∧
    (rule.visitAll r around start ts w).2.1 = decide (Growth.wrapsOf gs ≠ 0) ∧
    Follows (Growth.wrapsOf gs) w (rule.visitAll r around start ts w).2.2

theorem WalkedAll.children {r : Resolver} {around : List Span} {start : Nat} {ts : List Tree} {w : Walk}
    {gs : List Growth} (h : WalkedAll r around start ts w gs) :
    (if (rule.visitAll r around start ts w).2.1 then (rule.visitAll r around start ts w).1 else ts) =
      Growth.afters gs := by
  obtain ⟨rfl, -, -, hnew, hchanged, -⟩ := h
  rw [hnew, hchanged]
  by_cases hnone : Growth.wrapsOf gs = 0
  · simp [hnone, Growth.afters_eq_befores hnone]
  · simp [hnone]

theorem any_isWrapped_eq_false {gs : List Growth} (h : ∀ g ∈ gs, g.isWrapped = false) :
    gs.any Growth.isWrapped = false := by
  rw [List.any_eq_false]
  intro g hg
  rw [h g hg]
  decide

theorem pairwise_of_plain {gs : List Growth} (h : ∀ g ∈ gs, g.isWrapped = false) :
    gs.Pairwise fun g h => g.isWrapped = true → isArgumentList h.before = false := by
  refine List.pairwise_of_forall_mem_list fun g hg _ _ hwrapped => ?_
  rw [h g hg] at hwrapped
  cases hwrapped

theorem placed_of_plain {r : Resolver} {around : List Span} {start : Nat} {k : Kind}
    {gs : List Growth} (hplain : ∀ g ∈ gs, g.isWrapped = false)
    (hcall : (k == .methodInvocation && (rule.matcher.find? r
      ⟨.node k (Growth.befores gs), start, around⟩).isSome) = false)
    (h : Growth.PlacedAll r (⟨k, start, start + Tree.byteLengthOf (Growth.befores gs)⟩ :: around)
      start gs) : (Growth.node k gs).Placed r around start := by
  refine ⟨?_, ?_, h⟩
  · rw [any_isWrapped_eq_false hplain, hcall]
  · exact pairwise_of_plain hplain

/-- A node that is no call takes over what happens to its parts. -/
theorem walked_node {r : Resolver} {around : List Span} {start : Nat} {k : Kind} {cs : List Tree}
    {w : Walk} {gs : List Growth} (hk : k ≠ .methodInvocation)
    (h : WalkedAll r (⟨k, start, start + Tree.byteLengthOf cs⟩ :: around) start cs w gs) :
    Walked r around start (.node k cs) w (.node k gs) := by
  obtain ⟨rfl, hplain, hplaced, hnew, hchanged, hfollows⟩ := h
  refine ⟨rfl, rfl, placed_of_plain hplain (by simp [hk]) hplaced, ?_, ?_⟩
  · rw [Rule.visit_node hk]
    by_cases hnone : Growth.wrapsOf gs = 0 <;>
      simp [hnew, hchanged, Growth.wraps, Growth.after, hnone]
  · rw [Rule.visit_node hk]
    exact hfollows

theorem walked_kept {r : Resolver} {around : List Span} {start : Nat} {cs : List Tree} {w : Walk}
    {gs : List Growth}
    (hfind : (rule.matcher.find? r ⟨.node .methodInvocation cs, start, around⟩).isSome = false)
    (h : WalkedAll r (⟨.methodInvocation, start, start + Tree.byteLengthOf cs⟩ :: around) start cs
      (w.enter (start, start + Tree.byteLengthOf cs)) gs) :
    Walked r around start (.node .methodInvocation cs) w (.node .methodInvocation gs) := by
  obtain ⟨rfl, hplain, hplaced, hnew, hchanged, hfollows⟩ := h
  refine ⟨rfl, rfl, placed_of_plain hplain (by simp [hfind]) hplaced, ?_, ?_⟩
  · rw [Rule.visit_kept hfind]
    by_cases hnone : Growth.wrapsOf gs = 0 <;>
      simp [hnew, hchanged, Growth.wraps, Growth.after, hnone]
  · rw [Rule.visit_kept hfind]
    exact hfollows.enter.keep _

theorem walked_wrapped {r : Resolver} {around : List Span} {start : Nat} {cs : List Tree} {w : Walk}
    {gs : List Growth} (hframed : (Tree.node .methodInvocation cs).FramedLists) (hw : Ready w)
    (hfind : (rule.matcher.find? r ⟨.node .methodInvocation cs, start, around⟩).isSome = true)
    (h : WalkedAll r (⟨.methodInvocation, start, start + Tree.byteLengthOf cs⟩ :: around) start cs
      (w.enter (start, start + Tree.byteLengthOf cs)) gs) :
    ∃ g, Walked r around start (.node .methodInvocation cs) w g := by
  have hchildren := h.children
  obtain ⟨hbefores, hplain, hplaced, -, -, hfollows⟩ := h
  obtain ⟨pre, post, left, lead, t, trail, right, rfl, hpost, hlead, htrail, ht⟩ :=
    exists_framed_of_find? hframed hfind
  obtain ⟨pres, argument, posts, rfl, rfl, rfl, rfl⟩ := Growth.befores_eq_list hbefores hplain
  -- The call is replaced after its parts were visited, so the argument that is wrapped has grown.
  have hnew := Growth.replacement?_afters pres left right (around.head?.map (·.kind)) hpost hlead
    htrail ht
  rw [← hchildren] at hnew
  have hvisit := Rule.visit_replaced hfind rfl hnew
  refine ⟨.node .methodInvocation (pres ++ .wrapped left lead argument trail right :: posts),
    ?_, rfl, ⟨?_, ?_, ?_⟩, ?_, ?_⟩
  · simp [Growth.before, Growth.befores_append, Growth.befores]
  · simp [Growth.befores_append, Growth.befores, Growth.before, hfind, Growth.isWrapped]
  · rw [List.pairwise_append, List.pairwise_cons]
    refine ⟨pairwise_of_plain fun g hg => hplain g (by simp [hg]), ⟨?_, ?_⟩, ?_⟩
    · intro g hg _
      exact hpost _ (Growth.before_mem_befores hg)
    · exact pairwise_of_plain fun g hg => hplain g (by simp [hg])
    · intro g hg h _ hwrapped
      rw [hplain g (by simp [hg])] at hwrapped
      cases hwrapped
  · rw [Growth.placedAll_append, Growth.PlacedAll, Growth.Placed, Growth.befores_frame] at hplaced
    obtain ⟨hpres, ⟨hnone, -, hinner⟩, hafter⟩ := hplaced
    have hinside : argument.isWrapped = false := by
      have hall := List.any_eq_false.mp hnone argument (by simp [Growth.frame])
      simpa using hall
    rw [Growth.before, Growth.befores_frame] at hafter
    rw [Growth.placedAll_append, Growth.befores_append]
    exact ⟨hpres, ⟨hlead, htrail, ht, hinside, Growth.placed_of_placedAll_frame hinner⟩, hafter⟩
  · rw [hvisit]
    simp [Growth.wraps, Growth.wrapsOf_append, Growth.wrapsOf, Growth.after,
      Growth.afters_append, Growth.afters]
  · rw [hvisit]
    have hcount : (Growth.node .methodInvocation
        (pres ++ .wrapped left lead argument trail right :: posts)).wraps =
        Growth.wrapsOf (pres ++ .node .argumentList
          (Growth.frame left lead argument trail right) :: posts) + 1 := by
      simp only [Growth.wraps, Growth.wrapsOf_append, Growth.wrapsOf, Growth.wrapsOf_frame]
      omega
    rw [hcount]
    exact hfollows.enter.replace hw _

mutual
/-- A walk over a tree wraps arguments of it, and does nothing else. -/
theorem visit_growth (r : Resolver) :
    ∀ (t : Tree) (around : List Span) (start : Nat) (w : Walk), t.FramedLists → Ready w →
      ∃ g, Walked r around start t w g
  | .token k s, around, start, w, _, _ => by
    refine ⟨.token k s, rfl, rfl, trivial, ?_, ?_⟩
    · rw [Rule.visit]
      rfl
    · rw [Rule.visit]
      exact ⟨rfl, rfl⟩
  | .node k cs, around, start, w, hframed, hw => by
    by_cases hk : k = .methodInvocation
    · subst hk
      obtain ⟨gs, h⟩ := visitAll_growth r cs _ start
        (w.enter (start, start + Tree.byteLengthOf cs)) (fun t ht => hframed.child ht)
        hw
      cases hfind : (rule.matcher.find? r ⟨.node .methodInvocation cs, start, around⟩).isSome with
      | false => exact ⟨_, walked_kept hfind h⟩
      | true => exact walked_wrapped hframed hw hfind h
    · obtain ⟨gs, h⟩ := visitAll_growth r cs _ start w (fun t ht => hframed.child ht) hw
      exact ⟨_, walked_node hk h⟩
theorem visitAll_growth (r : Resolver) :
    ∀ (ts : List Tree) (around : List Span) (start : Nat) (w : Walk),
      (∀ t ∈ ts, t.FramedLists) → Ready w → ∃ gs, WalkedAll r around start ts w gs
  | [], around, start, w, _, _ => by
    refine ⟨[], rfl, by simp, trivial, ?_, ?_, ?_⟩ <;> rw [Rule.visitAll]
    · rfl
    · rfl
    · exact ⟨rfl, rfl⟩
  | t :: ts, around, start, w, hframed, hw => by
    obtain ⟨g, rfl, hplain, hplaced, hnew, hfollows⟩ :=
      visit_growth r t around start w (hframed _ List.mem_cons_self) hw
    obtain ⟨gs, rfl, hplains, hplaceds, hnews, hchanged, hfollowss⟩ :=
      visitAll_growth r ts around (start + g.before.byteLength) _
        (fun t ht => hframed t (List.mem_cons_of_mem _ ht)) (hfollows.ready hw)
    refine ⟨g :: gs, rfl, ?_, ⟨hplaced, hplaceds⟩, ?_, ?_, ?_⟩
    · intro h hh
      rcases List.mem_cons.mp hh with rfl | hh
      · exact hplain
      · exact hplains h hh
    · rw [Rule.visitAll]
      simp only [hnew, hnews, Growth.afters, List.cons.injEq, and_true]
      by_cases hnone : g.wraps = 0
      · simp [hnone, Growth.after_eq_before hnone]
      · simp [hnone]
    · rw [Rule.visitAll]
      by_cases hnone : g.wraps = 0 <;> simp [hnew, hchanged, hnone, Growth.wrapsOf]
    · rw [Rule.visitAll]
      exact hfollows.trans hfollowss
end

/-! ## The run -/

/-- What a run that was not skipped leaves behind: the tree after a growth, with the import of the
type of timeouts if it is needed. -/
structure Grown (table : TypeTable) (u : JavaUnit) (out : Outcome) (g : Growth) : Prop where
  before : g.before = u.tree
  placed : g.Placed (Resolver.ofTree table u.tree) [] 0
  migrated : out.stats.callsMigrated = g.wraps
  skipped : out.skipped = none
  changed : out.changed = decide (out.unit.tree ≠ u.tree)
  unit : out.unit = u.withTree (if g.wraps = 0 then u.tree else (addImports g.after [timeout]).1)
  added : out.importsAdded = if g.wraps = 0 then [] else (addImports g.after [timeout]).2

theorem run_growth (table : TypeTable) {u : JavaUnit} (hframed : u.tree.FramedLists) :
    (∃ reason, rule.run table u = .skip u reason) ∨ ∃ g, Grown table u (rule.run table u) g := by
  rcases rule.run_cases table u with ⟨-, hskip⟩ | ⟨-, hrun⟩
  · exact .inl hskip
  · obtain ⟨g, hbefore, -, hplaced, hnew, hfollows⟩ := visit_growth
      (Resolver.ofTree table u.tree) u.tree [] 0 (.start true) hframed (.inl rfl)
    refine .inr ⟨g, ?_⟩
    have hmigrated := hfollows.migrated
    have himports := hfollows.imports
    rw [hrun]
    by_cases hnone : g.wraps = 0
    · rw [hnew, if_pos hnone]
      refine ⟨hbefore, hplaced, ?_, rfl, ?_, ?_, ?_⟩
      · exact hmigrated.trans (Nat.zero_add _)
      · simp [Outcome.ofWalk]
      · rw [if_pos hnone]
        rfl
      · rw [if_pos hnone]
        rfl
    · rw [hnew, if_neg hnone]
      rw [if_neg hnone] at himports
      obtain ⟨k, cs, hafter⟩ := g.exists_node_of_wraps hnone
      rw [hafter]
      simp only [Outcome.ofWalk, ImportRequests.flush, himports]
      refine ⟨hbefore, hplaced, ?_, rfl, rfl, ?_, ?_⟩
      · exact hmigrated.trans (Nat.zero_add _)
      · rw [if_neg hnone, hafter]
        rfl
      · rw [if_neg hnone, hafter]
        rfl

end UseTimeout

end CallMigration
