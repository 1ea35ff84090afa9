import CallMigration.Proofs.Growth
import CallMigration.Proofs.Insertion
import CallMigration.Proofs.Simulation

/-!
# The shape of parsed units

What is proved of runs that follow each other needs a few facts about trees that every parsed unit
without syntax errors has: no element but trivia is empty, the parts that are read for their text hold
no argument lists, and parameters stand in a list of their own.

* `Tree.Regular` : these facts, for every node of a tree.
* `SourceShaped` : a whole unit, its imports and its package included.
* `Growth.insertions` : where bytes are put in when arguments are wrapped.
* `Growth.insertions_inside` : they are put in between the ends of an element, never at them.
-/

namespace CallMigration

open Element

/-! ## Regular trees -/

/-- Nothing in the element lists arguments. -/
def Tree.isBare (t : Tree) : Bool :=
  t.nodes.all fun n => n.kind != .argumentList

/-- Elements that are read for their text. -/
def isSpelled (k : Kind) : Bool :=
  k.isType || k == .identifier || isNumber k || k == .importDeclaration || k == .packageDeclaration

/-- Elements that can have a type. -/
def isExpression : Kind → Bool
  | .identifier | .integerLiteral | .floatingPointLiteral | .stringLiteral | .characterLiteral
  | .trueLiteral | .falseLiteral | .parenthesizedExpression | .castExpression
  | .objectCreationExpression | .methodInvocation | .fieldAccess | .binaryExpression
  | .unaryExpression => true
  | _ => false

/-- A framed list with the usual parentheses. -/
def isParenthesized (list : List Tree) : Bool :=
  isFramed list && list.head? == some (.token .leftParen "(")
    && list.getLast? == some (.token .rightParen ")")

/-- What holds of the parts of a node. -/
structure RegularPart (k : Kind) (t : Tree) : Prop where
  solid : isTriviaToken t = true ∨ 0 < t.byteLength
  inner : t.kind ≠ .program
  listed : ownedByGrandparent t.kind = true → k = .node
  spelled : isSpelled k = true → t.isBare = true

instance (k : Kind) (t : Tree) : Decidable (RegularPart k t) :=
  decidable_of_iff ((isTriviaToken t = true ∨ 0 < t.byteLength) ∧ t.kind ≠ .program ∧
    (ownedByGrandparent t.kind = true → k = .node) ∧ (isSpelled k = true → t.isBare = true))
    ⟨fun ⟨h₁, h₂, h₃, h₄⟩ => ⟨h₁, h₂, h₃, h₄⟩, fun ⟨h₁, h₂, h₃, h₄⟩ => ⟨h₁, h₂, h₃, h₄⟩⟩

/-- What holds of a node. -/
structure RegularNode (k : Kind) (cs : List Tree) : Prop where
  parts : ∀ t ∈ cs, RegularPart k t
  spelled : ∀ i ∈ spelledPart? k, ∀ t ∈ (significantChildren (Tree.node k cs))[i]?,
    t.isBare = true
  argument : k = .argumentList → (cs.filter Call.isArgument).length = 1 →
    isParenthesized cs = true

instance (k : Kind) (cs : List Tree) : Decidable (RegularNode k cs) :=
  decidable_of_iff ((∀ t ∈ cs, RegularPart k t) ∧
    (∀ i ∈ spelledPart? k, ∀ t ∈ (significantChildren (Tree.node k cs))[i]?, t.isBare = true) ∧
    (k = .argumentList → (cs.filter Call.isArgument).length = 1 → isParenthesized cs = true))
    ⟨fun ⟨h₁, h₂, h₃⟩ => ⟨h₁, h₂, h₃⟩, fun ⟨h₁, h₂, h₃⟩ => ⟨h₁, h₂, h₃⟩⟩

namespace Tree

def Regular (t : Tree) : Prop :=
  ∀ n ∈ t.nodes, RegularNode n.kind n.children

instance (t : Tree) : Decidable t.Regular :=
  inferInstanceAs (Decidable (∀ n ∈ t.nodes, RegularNode n.kind n.children))

theorem Regular.root {k : Kind} {cs : List Tree} (h : (Tree.node k cs).Regular) : RegularNode k cs :=
  h _ List.mem_cons_self

theorem Regular.child {k : Kind} {cs : List Tree} {t : Tree} (h : (Tree.node k cs).Regular)
    (ht : t ∈ cs) : t.Regular :=
  fun n hn => h n (List.mem_cons_of_mem _ (mem_nodesOf_of_mem ht hn))

theorem Regular.framedLists {t : Tree} (h : t.Regular) : t.FramedLists := by
  intro list hlist hone
  have hparen := (h _ hlist).argument rfl hone
  simp only [isParenthesized, Bool.and_eq_true] at hparen
  exact hparen.1.1

end Tree

/-- Nothing that could be taken for type arguments or a call. -/
def isPath (s : String) : Bool :=
  s.toList.all fun c => c != '<' && c != '(' && c != ')'

/-- The shape of a parsed unit. -/
structure SourceShaped (t : Tree) : Prop where
  isNode : t.isNode = true
  program : t.kind = .program
  regular : t.Regular
  imports : ∀ i ∈ t.imports, isPath i.path = true
  package : ∀ p ∈ t.packageName?, isPath p = true

instance (t : Tree) : Decidable (SourceShaped t) :=
  decidable_of_iff (t.isNode = true ∧ t.kind = .program ∧ t.Regular ∧
    (∀ i ∈ t.imports, isPath i.path = true) ∧ ∀ p ∈ t.packageName?, isPath p = true)
    ⟨fun ⟨h₁, h₂, h₃, h₄, h₅⟩ => ⟨h₁, h₂, h₃, h₄, h₅⟩,
      fun ⟨h₁, h₂, h₃, h₄, h₅⟩ => ⟨h₁, h₂, h₃, h₄, h₅⟩⟩

/-! ## Expressions -/

theorem isExpression_of_ownedByParent {k : Kind} (h : ownedByParent k = true) :
    isExpression k = false := by
  cases k <;> first | rfl | cases h

theorem isExpression_of_ownedByGrandparent {k : Kind} (h : ownedByGrandparent k = true) :
    isExpression k = false := by
  cases k <;> first | rfl | cases h

theorem isExpression_of_literalType? {k : Kind} {text : String}
    (h : (literalType? k text).isSome = true) : isExpression k = true := by
  cases k <;> first | rfl | cases h

theorem isExpression_of_typeBy? {r : Resolver} {infer inferInit : Site → Option TypeName} {x : Site}
    (h : (r.typeBy? infer inferInit x).isSome = true) : isExpression (kind x) = true := by
  unfold Resolver.typeBy? at h
  cases he : x.element with
  | token k text =>
    have hk : kind x = k := congrArg Tree.kind he
    rw [hk]
    rw [he] at h
    by_cases hidentifier : k = .identifier
    · rw [hidentifier]
      rfl
    · have hliteral : (literalType? k text).isSome = true := by
        simpa only [hidentifier] using h
      exact isExpression_of_literalType? hliteral
  | node k cs =>
    have hk : kind x = k := congrArg Tree.kind he
    rw [hk]
    rw [he] at h
    cases k <;> first | rfl | cases h

theorem isExpression_of_typeOf? {r : Resolver} {x : Site} (h : (r.typeOf? x).isSome = true) :
    isExpression (kind x) = true :=
  isExpression_of_typeBy? h

namespace Growth

def argument? : Growth → Option Growth
  | wrapped _ _ argument _ _ => some argument
  | _ => none

/-! ## Elements without argument lists -/

mutual
theorem wraps_eq_zero : ∀ {g : Growth}, g.before.isBare = true → g.wraps = 0
  | .token _ _, _ => rfl
  | .node k parts, h => by
    rw [before, Tree.isBare, Tree.nodes, List.all_cons, Bool.and_eq_true] at h
    exact wrapsOf_eq_zero h.2
  | .wrapped _ _ _ _ _, h => by
    rw [before, Tree.isBare, Tree.nodes, List.all_cons, Bool.and_eq_true] at h
    cases h.1
theorem wrapsOf_eq_zero : ∀ {gs : List Growth},
    ((Tree.nodesOf (befores gs)).all fun n => n.kind != .argumentList) = true → wrapsOf gs = 0
  | [], _ => rfl
  | g :: gs, h => by
    rw [befores, Tree.nodesOf, List.all_append, Bool.and_eq_true] at h
    rw [wrapsOf, wraps_eq_zero h.1, wrapsOf_eq_zero h.2]
end

theorem after_of_isBare {g : Growth} (h : g.before.isBare = true) : g.after = g.before :=
  after_eq_before (wraps_eq_zero h)

/-- A node of which no part has an argument list stays. -/
theorem after_of_isSpelled {g : Growth} (h : g.before.Regular)
    (hk : isSpelled g.before.kind = true) : g.after = g.before := by
  match g, h, hk with
  | .token _ _, _, _ => rfl
  | .wrapped _ _ _ _ _, _, hk => cases hk
  | .node k parts, h, hk =>
    have hparts : ∀ g ∈ parts, g.after = g.before := by
      intro g hg
      exact after_of_isBare ((h.root.parts _ (before_mem_befores hg)).spelled hk)
    rw [after, before, afters_eq_map, befores_eq_map, List.map_congr_left hparts]

/-! ## Where bytes are put in -/

mutual
def insertions (start : Nat) : Growth → List Insertion
  | token _ _ => []
  | node _ parts => insertionsOf start parts
  | wrapped left lead argument _ _ =>
    ⟨start + left.utf8ByteSize + Tree.byteLengthOf (leaves lead), 23⟩ ::
      (argument.insertions (start + left.utf8ByteSize + Tree.byteLengthOf (leaves lead)) ++
        [⟨start + left.utf8ByteSize + Tree.byteLengthOf (leaves lead) +
          argument.before.byteLength, 1⟩])
def insertionsOf (start : Nat) : List Growth → List Insertion
  | [] => []
  | g :: gs => g.insertions start ++ insertionsOf (start + g.before.byteLength) gs
end

theorem byteLengthOf_framed (left : String) (lead : List (Kind × String)) (t : Tree)
    (trail : List (Kind × String)) (right : String) :
    Tree.byteLengthOf (framed left lead t trail right) =
      left.utf8ByteSize + Tree.byteLengthOf (leaves lead) + t.byteLength +
        Tree.byteLengthOf (leaves trail) + right.utf8ByteSize := by
  simp only [framed, Tree.byteLengthOf, Tree.byteLengthOf_append, Tree.byteLength]
  omega

theorem utf8ByteSize_texts : "Timeout".utf8ByteSize = 7 ∧ ".".utf8ByteSize = 1 ∧
    "ofMilliseconds".utf8ByteSize = 14 ∧ "(".utf8ByteSize = 1 ∧ ")".utf8ByteSize = 1 := by
  decide

theorem byteLength_wrap (t : Tree) : (UseTimeout.wrap t).byteLength = t.byteLength + 24 := by
  obtain ⟨hclass, hdot, hname, hleft, hright⟩ := utf8ByteSize_texts
  simp only [UseTimeout.wrap, Tree.byteLength, Tree.byteLengthOf, hclass, hdot, hname, hleft, hright]
  omega

mutual
theorem byteLength_after (start : Nat) : ∀ g : Growth,
    g.after.byteLength = g.before.byteLength + Insertion.total (g.insertions start)
  | .token _ _ => rfl
  | .node _ parts => byteLengthOf_afters start parts
  | .wrapped left lead argument trail right => by
    have hargument := byteLength_after
      (start + left.utf8ByteSize + Tree.byteLengthOf (leaves lead)) argument
    rw [after, before, Tree.byteLength, Tree.byteLength, byteLengthOf_framed, byteLengthOf_framed,
      byteLength_wrap, insertions, Insertion.total_cons, Insertion.total_append,
      Insertion.total_cons, hargument]
    have hnone : Insertion.total [] = 0 := rfl
    omega
theorem byteLengthOf_afters (start : Nat) : ∀ gs : List Growth,
    Tree.byteLengthOf (afters gs) =
      Tree.byteLengthOf (befores gs) + Insertion.total (insertionsOf start gs)
  | [] => rfl
  | g :: gs => by
    rw [afters, befores, Tree.byteLengthOf, Tree.byteLengthOf, insertionsOf,
      Insertion.total_append, byteLength_after start g,
      byteLengthOf_afters (start + g.before.byteLength) gs]
    omega
end

theorem wrapped_parens {r : Resolver} {around : List Span} {start : Nat} {left right : String}
    {lead trail : List (Kind × String)} {argument : Growth}
    (hregular : (wrapped left lead argument trail right).before.Regular)
    (hplaced : (wrapped left lead argument trail right).Placed r around start) :
    left = "(" ∧ right = ")" := by
  obtain ⟨hlead, htrail, hargument, -, -⟩ := hplaced
  have hone : ((framed left lead argument.before trail right).filter Call.isArgument).length = 1 := by
    rw [filter_isArgument_framed hlead htrail, List.filter_cons_of_pos hargument]
    rfl
  have hparen := hregular.root.argument rfl hone
  have hlast : (framed left lead argument.before trail right).getLast? =
      some (.token .rightParen right) := by
    rw [framed, ← List.cons_append, ← List.cons_append, ← List.append_assoc, List.getLast?_concat]
  simp only [isParenthesized, hlast, Bool.and_eq_true] at hparen
  constructor
  · simpa [framed] using hparen.1.2
  · simpa using hparen.2

mutual
theorem insertions_inside {r : Resolver} : ∀ {g : Growth} {around : List Span} {start : Nat},
    g.before.Regular → g.Placed r around start → ∀ i ∈ g.insertions start,
      start < i.offset ∧ i.offset < start + g.before.byteLength
  | .token _ _, _, _, _, _, i, hi => by cases hi
  | .node k parts, around, start, hregular, hplaced, i, hi => by
    refine insertionsOf_inside (fun g hg => ?_) hplaced.2.2 i hi
    exact hregular.child (before_mem_befores hg)
  | .wrapped left lead argument trail right, around, start, hregular, hplaced, i, hi => by
    obtain ⟨rfl, rfl⟩ := wrapped_parens hregular hplaced
    have hinner := insertions_inside (hregular.child (mem_framed _ _ _ _ _)) hplaced.2.2.2.2
    -- The parentheses keep both insertions away from the ends of the list.
    obtain ⟨-, -, -, hleft, hright⟩ := utf8ByteSize_texts
    rw [before, Tree.byteLength, byteLengthOf_framed]
    rw [insertions] at hi
    rcases List.mem_cons.mp hi with rfl | hi
    · simp only
      omega
    · rcases List.mem_append.mp hi with hi | hi
      · have hboth := hinner i hi
        omega
      · rw [List.mem_singleton.mp hi]
        simp only
        omega
theorem insertionsOf_inside {r : Resolver} : ∀ {gs : List Growth} {around : List Span} {start : Nat},
    (∀ g ∈ gs, g.before.Regular) → PlacedAll r around start gs → ∀ i ∈ insertionsOf start gs,
      start < i.offset ∧ i.offset < start + Tree.byteLengthOf (befores gs)
  | [], _, _, _, _, i, hi => by cases hi
  | g :: gs, around, start, hregular, hplaced, i, hi => by
    rw [befores, Tree.byteLengthOf]
    rcases List.mem_append.mp hi with hi | hi
    · have hboth := insertions_inside (hregular g List.mem_cons_self) hplaced.1 i hi
      omega
    · have hboth := insertionsOf_inside (fun h hh => hregular h (List.mem_cons_of_mem _ hh))
        hplaced.2 i hi
      omega
end

/-! ## Calls with a wrapped argument -/

theorem arguments_framed {k : Kind} {pre post : List Tree} {left right : String}
    {lead trail : List (Kind × String)} {t : Tree} (hpost : ∀ u ∈ post, isArgumentList u = false)
    (hlead : AllTrivia lead) (htrail : AllTrivia trail) (ht : Call.isArgument t = true) :
    Call.arguments (Tree.node k
      (pre ++ .node .argumentList (framed left lead t trail right) :: post)) = [t] := by
  rw [Call.arguments_eq (lastArguments?_eq_some_iff.mpr ⟨pre, post, rfl, rfl, hpost⟩),
    filter_isArgument_framed hlead htrail, List.filter_cons_of_pos ht, List.filter_nil]

/-- A node with a wrapped argument in one of its parts, cut at that part. -/
theorem Placed.cut {r : Resolver} {around : List Span} {start : Nat} {k : Kind}
    {parts : List Growth} (h : (node k parts).Placed r around start) {g argument : Growth}
    (hg : g ∈ parts) (hargument : g.argument? = some argument) :
    k = .methodInvocation ∧ (UseTimeout.rule.matcher.find? r
        ⟨.node .methodInvocation (befores parts), start, around⟩).isSome = true ∧
      ∃ pre left lead trail right post,
        parts = pre ++ wrapped left lead argument trail right :: post ∧
        (∀ t ∈ befores post, isArgumentList t = false) ∧ AllTrivia lead ∧ AllTrivia trail ∧
        Call.isArgument argument.before = true := by
  obtain ⟨hany, hpair, hall⟩ := h
  obtain ⟨pre, post, rfl⟩ := List.append_of_mem hg
  match g, hargument with
  | .wrapped left lead _ trail right, rfl =>
    have hwrapped : ((pre ++ wrapped left lead argument trail right :: post).any isWrapped) = true :=
      List.any_eq_true.mpr ⟨_, List.mem_append_right pre List.mem_cons_self, rfl⟩
    rw [hwrapped, eq_comm, Bool.and_eq_true, beq_iff_eq] at hany
    obtain ⟨rfl, hfind⟩ := hany
    rw [placedAll_append] at hall
    obtain ⟨-, ⟨hlead, htrail, hisArgument, -, -⟩, -⟩ := hall
    refine ⟨rfl, hfind, pre, left, lead, trail, right, post, rfl, ?_, hlead, htrail, hisArgument⟩
    rw [List.pairwise_append, List.pairwise_cons] at hpair
    rw [befores_eq_map, List.forall_mem_map]
    intro h hh
    exact hpair.2.1.1 h hh rfl

theorem Placed.isExpression {r : Resolver} {around : List Span} {start : Nat} {k : Kind}
    {parts : List Growth} (h : (node k parts).Placed r around start) {g argument : Growth}
    (hg : g ∈ parts) (hargument : g.argument? = some argument) :
    isExpression argument.before.kind = true := by
  obtain ⟨rfl, hfind, pre, left, lead, trail, right, post, rfl, hpost, hlead, htrail, ht⟩ :=
    h.cut hg hargument
  obtain ⟨s, hs⟩ := Option.isSome_iff_exists.mp hfind
  obtain ⟨-, -, htypes, -⟩ := Matcher.find?_eq_some hs
  have helements := Site.arguments_element ⟨.node .methodInvocation
    (befores (pre ++ wrapped left lead argument trail right :: post)), start, around⟩
  rw [befores_append, befores, before, arguments_framed hpost hlead htrail ht] at helements
  obtain ⟨y, hy, hyelement⟩ := List.map_eq_singleton_iff.mp helements
  rw [befores_append, befores, before, hy] at htypes
  have hsome : (r.typeOf? y).isSome = true := by
    cases htype : r.typeOf? y with
    | none => simp [htype] at htypes
    | some t => rfl
  rw [← hyelement]
  exact isExpression_of_typeOf? hsome

end Growth

end CallMigration
