import CallMigration.Proofs.Shape

/-!
# A unit laid over the unit it has grown into

Every element of a unit is still there after a run of the stock recipe, at a place behind the bytes
that were put in before it, and with the nodes of wrapping calls among those around it. An `Overlay`
says which bytes are put in where. Elements that stand over each other make a simulation: nothing
that a resolver looks at has changed between them.

* `Overlay.Stands` : a growth whose two readings stand at two places.
* `Overlay.Counterpart` : places with such a growth, whitespace and comments apart.
* `Overlay.siteRelation` : counterparts look alike.
* `Overlay.Aligned`, `Overlay.aligned` : the nodes of both units, in order.
-/

namespace CallMigration

open Element

/-- Two readings of a unit: the bytes put in, the numbers of bytes of the texts, and the resolver by
which arguments were wrapped. -/
structure Overlay where
  insertions : List Insertion
  size : Nat
  size' : Nat
  resolver : Resolver

namespace Overlay

/-- The spans and offsets that belong together. -/
def correspondence (o : Overlay) : Correspondence :=
  .ofInsertions o.insertions o.size o.size'

/-- The two readings of a growth stand at two places. -/
structure Stands (o : Overlay) (g : Growth) (x x' : Site) : Prop where
  before : x.element = g.before
  after : x'.element = g.after
  located : Insertion.Located o.insertions (g.insertions x.start) x.start
    (x.start + g.before.byteLength) x'.start
  placed : g.Placed o.resolver x.around x.start
  regular : g.before.Regular
  typed : ∀ argument, g.argument? = some argument → isExpression argument.before.kind = true
  solid : isTriviaToken g.before = true ∨ 0 < g.before.byteLength
  inner : g.before.kind ≠ .program
  around : o.correspondence.Around x.around x'.around
  parent : isExpression g.before.kind = false →
    Option.Rel o.correspondence.spans x.around[0]? x'.around[0]?
  grandparent : ownedByGrandparent g.before.kind = true →
    Option.Rel o.correspondence.spans x.around[1]? x'.around[1]?

/-- The same for growths that follow each other. -/
structure StandsAll (o : Overlay) (gs : List Growth) (outer outer' : List Span)
    (start start' : Nat) : Prop where
  located : Insertion.Located o.insertions (Growth.insertionsOf start gs) start
    (start + Tree.byteLengthOf (Growth.befores gs)) start'
  placed : Growth.PlacedAll o.resolver outer start gs
  regular : ∀ g ∈ gs, g.before.Regular
  typed : ∀ g ∈ gs, ∀ argument, g.argument? = some argument →
    isExpression argument.before.kind = true
  solid : ∀ g ∈ gs, isTriviaToken g.before = true ∨ 0 < g.before.byteLength
  inner : ∀ g ∈ gs, g.before.kind ≠ .program
  around : o.correspondence.Around outer outer'
  parent : Option.Rel o.correspondence.spans outer[0]? outer'[0]?
  grandparent : ∀ g ∈ gs, ownedByGrandparent g.before.kind = true →
    Option.Rel o.correspondence.spans outer[1]? outer'[1]?

variable {o : Overlay}

/-! ## Elements that follow each other -/

section

variable {g : Growth} {gs : List Growth} {around around' : List Span} {start start' : Nat}

theorem StandsAll.split (h : o.StandsAll (g :: gs) around around' start start') :
    Insertion.Located o.insertions (g.insertions start) start (start + g.before.byteLength) start' ∧
      Insertion.Located o.insertions (Growth.insertionsOf (start + g.before.byteLength) gs)
        (start + g.before.byteLength)
        (start + g.before.byteLength + Tree.byteLengthOf (Growth.befores gs))
        (start' + g.after.byteLength) := by
  have hhere := Growth.insertions_inside (h.regular g List.mem_cons_self) h.placed.1
  have hthere := Growth.insertionsOf_inside
    (fun e he => h.regular e (List.mem_cons_of_mem _ he)) h.placed.2
  have hlocated := h.located
  rw [Growth.befores, Tree.byteLengthOf, ← Nat.add_assoc] at hlocated
  have hboth := Insertion.Located.split hlocated (Nat.le_add_right _ _) (Nat.le_add_right _ _)
    (fun i hi => (hhere i hi).2.le) (fun i hi => (hthere i hi).1.le)
  have hmoved : start' + (start + g.before.byteLength - start) +
      Insertion.total (g.insertions start) = start' + g.after.byteLength := by
    rw [Growth.byteLength_after start g]
    omega
  rw [hmoved] at hboth
  exact hboth

theorem StandsAll.head (h : o.StandsAll (g :: gs) around around' start start') :
    o.Stands g ⟨g.before, start, around⟩ ⟨g.after, start', around'⟩ where
  before := rfl
  after := rfl
  located := h.split.1
  placed := h.placed.1
  regular := h.regular g List.mem_cons_self
  typed := h.typed g List.mem_cons_self
  solid := h.solid g List.mem_cons_self
  inner := h.inner g List.mem_cons_self
  around := h.around
  parent _ := h.parent
  grandparent := h.grandparent g List.mem_cons_self

theorem StandsAll.tail (h : o.StandsAll (g :: gs) around around' start start') :
    o.StandsAll gs around around' (start + g.before.byteLength) (start' + g.after.byteLength) where
  located := h.split.2
  placed := h.placed.2
  regular e he := h.regular e (List.mem_cons_of_mem _ he)
  typed e he := h.typed e (List.mem_cons_of_mem _ he)
  solid e he := h.solid e (List.mem_cons_of_mem _ he)
  inner e he := h.inner e (List.mem_cons_of_mem _ he)
  around := h.around
  parent := h.parent
  grandparent e he := h.grandparent e (List.mem_cons_of_mem _ he)

end

/-! ## Single elements -/

section

variable {g : Growth} {x x' : Site}

theorem Stands.moveStart_eq (h : o.Stands g x x') (hpos : 0 < g.before.byteLength) :
    Insertion.moveStart o.insertions x.start = x'.start := by
  refine h.located.moveStart_eq (by omega) fun i hi => ?_
  exact (Growth.insertions_inside h.regular h.placed i hi).1

theorem Stands.span (h : o.Stands g x x') (hpos : 0 < g.before.byteLength) :
    o.correspondence.spans x.span x'.span := by
  have hinside := Growth.insertions_inside h.regular h.placed
  have hstop := h.located.moveStop_eq (by omega) fun i hi => (hinside i hi).2
  refine .inr ⟨?_, ?_⟩
  · rw [Site.span, h.before]
    exact h.inner
  · rw [Site.span, Site.span, h.before, h.after]
    simp only [h.moveStart_eq hpos, hstop, Growth.kind_after, Growth.byteLength_after x.start g]
    congr 1
    omega

theorem Stands.parts {k : Kind} {parts : List Growth} (h : o.Stands (.node k parts) x x') :
    o.StandsAll parts (x.span :: x.around) (x'.span :: x'.around) x.start x'.start := by
  have hpos : 0 < (Growth.node k parts).before.byteLength := by
    rcases h.solid with htrivia | hpos
    · cases htrivia
    · exact hpos
  have hspan := h.span hpos
  have hpart (g : Growth) (hg : g ∈ parts) : RegularPart k g.before :=
    h.regular.root.parts _ (Growth.before_mem_befores hg)
  refine ⟨h.located, ?_, fun g hg => h.regular.child (Growth.before_mem_befores hg), ?_,
    fun g hg => (hpart g hg).solid, fun g hg => (hpart g hg).inner, .node hspan h.around,
    .some hspan, ?_⟩
  · rw [Site.span, h.before]
    exact h.placed.2.2
  · intro g hg argument hargument
    exact h.placed.isExpression hg hargument
  · intro g hg howned
    -- A parameter stands in a list, which is no expression.
    have hk : k = .node := (hpart g hg).listed howned
    subst hk
    exact h.parent rfl

end

/-! ## Wrapping calls -/

/-- A wrapping call at its place. -/
def wrapSite (t : Tree) (start : Nat) (around : List Span) : Site :=
  ⟨UseTimeout.wrap t, start, around⟩

/-- The argument list of a wrapping call at its place. -/
def wrapList (t : Tree) (start : Nat) (around : List Span) : Site :=
  ⟨.node .argumentList [.token .leftParen "(", t, .token .rightParen ")"], start + 22,
    (wrapSite t start around).span :: around⟩

/-- The argument of a wrapping call at its place. -/
def wrapArgument (t : Tree) (start : Nat) (around : List Span) : Site :=
  ⟨t, start + 23, (wrapList t start around).span :: (wrapSite t start around).span :: around⟩

section

variable {left right : String} {lead trail : List (Kind × String)} {argument : Growth}
  {x x' : Site} (h : o.Stands (.wrapped left lead argument trail right) x x')

include h

theorem Stands.wrapped_pos : 0 < (Growth.wrapped left lead argument trail right).before.byteLength := by
  rcases h.solid with htrivia | hpos
  · cases htrivia
  · exact hpos

theorem Stands.argument_pos : 0 < argument.before.byteLength := by
  rcases (h.regular.root.parts _ (mem_framed _ _ _ _ _)).solid with htrivia | hpos
  · have hargument := Growth.not_isTrivia_of_isArgument h.placed.2.2.1
    cases hbefore : argument.before with
    | node k cs =>
      rw [hbefore] at htrivia
      cases htrivia
    | token k s =>
      rw [hbefore] at htrivia hargument
      exact absurd (hargument.symm.trans htrivia) Bool.false_ne_true
  · exact hpos

/-- The insertions in a wrapped argument, and the one in front of it. -/
theorem Stands.argument_located :
    (⟨x.start + left.utf8ByteSize + Tree.byteLengthOf (leaves lead), 23⟩ : Insertion) ∈ o.insertions ∧
    Insertion.Located o.insertions
      (argument.insertions (x.start + left.utf8ByteSize + Tree.byteLengthOf (leaves lead)))
      (x.start + left.utf8ByteSize + Tree.byteLengthOf (leaves lead))
      (x.start + left.utf8ByteSize + Tree.byteLengthOf (leaves lead) + argument.before.byteLength)
      (x'.start + left.utf8ByteSize + Tree.byteLengthOf (leaves lead) + 23) := by
  have hinside := Growth.insertions_inside (h.regular.child (mem_framed _ _ _ _ _)) h.placed.2.2.2.2
  have hlocated := h.located
  rw [Growth.before, Tree.byteLength, Growth.byteLengthOf_framed, Growth.insertions,
    ← List.singleton_append] at hlocated
  constructor
  · obtain ⟨before, after, heq, -⟩ := hlocated
    rw [heq]
    simp
  · have hfront : x.start ≤ x.start + left.utf8ByteSize + Tree.byteLengthOf (leaves lead) := by
      omega
    have hback : x.start + left.utf8ByteSize + Tree.byteLengthOf (leaves lead) ≤
        x.start + left.utf8ByteSize + Tree.byteLengthOf (leaves lead) +
          argument.before.byteLength := by
      omega
    have hbehind := (Insertion.Located.split hlocated hfront (by omega) (by simp) ?_).2
    · have hwithin := (Insertion.Located.split hbehind hback (by omega)
        (fun i hi => (hinside i hi).2.le) (by simp)).1
      have hstart : x'.start + (x.start + left.utf8ByteSize + Tree.byteLengthOf (leaves lead) -
          x.start) + Insertion.total
            [⟨x.start + left.utf8ByteSize + Tree.byteLengthOf (leaves lead), 23⟩] =
          x'.start + left.utf8ByteSize + Tree.byteLengthOf (leaves lead) + 23 := by
        rw [Insertion.total_cons]
        have hnone : Insertion.total [] = 0 := rfl
        omega
      rw [hstart] at hwithin
      exact hwithin
    · intro i hi
      rcases List.mem_append.mp hi with hi | hi
      · exact (hinside i hi).1.le
      · rw [List.mem_singleton.mp hi]
        exact Nat.le_add_right _ _

theorem Stands.wrapped :
    o.Stands argument
      ⟨argument.before, x.start + left.utf8ByteSize + Tree.byteLengthOf (leaves lead),
        x.span :: x.around⟩
      (wrapArgument argument.after (x'.start + left.utf8ByteSize + Tree.byteLengthOf (leaves lead))
        (x'.span :: x'.around)) := by
  obtain ⟨hmem, hlocated⟩ := h.argument_located
  have hregular := h.regular.child (mem_framed _ _ _ _ _)
  have htyped := h.typed argument rfl
  have hpos := h.argument_pos
  have hmoved := hlocated.moveStart_eq (by omega)
    fun i hi => (Growth.insertions_inside hregular h.placed.2.2.2.2 i hi).1
  -- The wrapping call and its list start within the inserted bytes, so nothing was there before.
  have hlist : o.correspondence.Fresh (wrapList argument.after
      (x'.start + left.utf8ByteSize + Tree.byteLengthOf (leaves lead)) (x'.span :: x'.around)).span :=
    Correspondence.fresh_of_mem hmem (by rw [hmoved]; simp only [wrapList, Site.span]; omega)
      (by rw [hmoved]; simp only [wrapList, Site.span]; omega) nofun rfl
  have hcall : o.correspondence.Fresh (wrapSite argument.after
      (x'.start + left.utf8ByteSize + Tree.byteLengthOf (leaves lead)) (x'.span :: x'.around)).span :=
    Correspondence.fresh_of_mem hmem (by rw [hmoved]; simp only [wrapSite, Site.span]; omega)
      (by rw [hmoved]; simp only [wrapSite, Site.span]; omega) nofun rfl
  refine ⟨rfl, rfl, hlocated, ?_, hregular, ?_, .inr hpos, ?_,
    .fresh hlist (.fresh hcall (.node (h.span h.wrapped_pos) h.around)), ?_, ?_⟩
  · rw [Site.span, h.before]
    exact h.placed.2.2.2.2
  · intro inner hinner
    have hplain : argument.isWrapped = false := h.placed.2.2.2.1
    match argument, hinner, hplain with
    | .wrapped .., _, hplain => cases hplain
  · exact (h.regular.root.parts _ (mem_framed _ _ _ _ _)).inner
  · intro hexpression
    rw [htyped] at hexpression
    cases hexpression
  · intro howned
    rw [isExpression_of_ownedByGrandparent howned] at htyped
    cases htyped

end

/-! ## Counterparts -/

/-- Elements at two places that are the readings of one growth. -/
def Near (o : Overlay) (x x' : Site) : Prop :=
  ∃ g, o.Stands g x x'

/-- The same, for elements that are neither whitespace nor comments. -/
def Counterpart (o : Overlay) (x x' : Site) : Prop :=
  isTriviaToken x.element = false ∧ o.Near x x'

theorem StandsAll.forall₂ {gs : List Growth} {around around' : List Span} {start start' : Nat}
    (h : o.StandsAll gs around around' start start') :
    List.Forall₂ (fun y y' => ∃ g ∈ gs, o.Stands g y y')
      (Site.place around start (Growth.befores gs))
      (Site.place around' start' (Growth.afters gs)) := by
  induction gs generalizing start start' with
  | nil => exact .nil
  | cons g gs ih =>
    refine .cons ⟨g, List.mem_cons_self, h.head⟩ ((ih h.tail).imp ?_)
    rintro y y' ⟨e, he, hstands⟩
    exact ⟨e, List.mem_cons_of_mem _ he, hstands⟩

theorem Stands.children {k : Kind} {parts : List Growth} {x x' : Site}
    (h : o.Stands (.node k parts) x x') :
    List.Forall₂ (fun y y' => ∃ g ∈ parts, o.Stands g y y') (Element.children x)
      (Element.children x') := by
  have hparts := h.parts.forall₂
  show List.Forall₂ _ (Site.place _ _ x.element.children) (Site.place _ _ x'.element.children)
  rw [h.before, h.after]
  exact hparts

theorem near_of_mem {gs : List Growth} {x x' : Site} (h : ∃ g ∈ gs, o.Stands g x x') :
    o.Near x x' := by
  obtain ⟨g, -, h⟩ := h
  exact ⟨g, h⟩

theorem Near.kind {x x' : Site} (h : o.Near x x') : Element.kind x' = Element.kind x := by
  obtain ⟨g, h⟩ := h
  show x'.element.kind = x.element.kind
  rw [h.before, h.after, Growth.kind_after]

theorem forall₂_counterpart {p : Site → Bool} {xs xs' : List Site}
    (hp : ∀ x, p x = true → Element.isSignificant x = true)
    (hpq : ∀ x x', o.Near x x' → p x = p x') (h : List.Forall₂ o.Near xs xs') :
    List.Forall₂ o.Counterpart (xs.filter p) (xs'.filter p) := by
  have hfiltered := forall₂_filter hpq h
  refine ((List.forall₂_and_left _ _).mpr ⟨?_, hfiltered⟩).imp fun _ _ hboth => hboth
  intro x hx
  have hsignificant := hp x (List.mem_filter.mp hx).2
  cases he : x.element with
  | node k cs => rfl
  | token k s =>
    have hk : Element.kind x = k := congrArg Tree.kind he
    rw [Element.isSignificant, hk] at hsignificant
    simpa [isTriviaToken] using hsignificant

namespace Counterpart

variable {x x' : Site}

theorem pos (h : o.Counterpart x x') {g : Growth} (hg : o.Stands g x x') :
    0 < g.before.byteLength := by
  rcases hg.solid with htrivia | hpos
  · rw [← hg.before, h.1] at htrivia
    cases htrivia
  · exact hpos

theorem parts (h : o.Counterpart x x') (hk : Element.kind x ≠ .argumentList) :
    List.Forall₂ o.Counterpart (significantChildren x) (significantChildren x') := by
  obtain ⟨-, g, hg⟩ := h
  cases g with
  | token k s =>
    have hx : significantChildren x = [] := by
      show (Site.place _ _ x.element.children).filter _ = []
      rw [hg.before]
      rfl
    have hx' : significantChildren x' = [] := by
      show (Site.place _ _ x'.element.children).filter _ = []
      rw [hg.after]
      rfl
    rw [hx, hx']
    exact .nil
  | node k parts =>
    refine forall₂_counterpart (fun _ hy => hy) (fun y y' hy => ?_)
      (hg.children.imp fun _ _ => near_of_mem)
    rw [Element.isSignificant, Element.isSignificant, hy.kind]
  | wrapped left lead argument trail right =>
    exact absurd (congrArg Tree.kind hg.before) hk

theorem element_eq (h : o.Counterpart x x') (hk : isSpelled (Element.kind x) = true) :
    x'.element = x.element := by
  obtain ⟨-, g, hg⟩ := h
  have hkind : Element.kind x = g.before.kind := congrArg Tree.kind hg.before
  rw [hg.before, hg.after, Growth.after_of_isSpelled hg.regular (hkind ▸ hk)]

theorem isCall_eq (h : o.Counterpart x x') : Call.isCall x' = Call.isCall x := by
  have hkind : Element.kind x' = Element.kind x := h.2.kind
  obtain ⟨-, g, hg⟩ := h
  have hnode : x'.element.isNode = x.element.isNode := by
    rw [hg.before, hg.after, Growth.isNode_after]
  rw [Call.isCall, Call.isCall, hkind]
  exact congrArg (· && _) hnode

theorem text_eq (h : o.Counterpart x x') (hk : isSpelled (Element.kind x) = true) :
    significantText x' = significantText x :=
  congrArg Tree.significantText (h.element_eq hk)

end Counterpart

theorem siteRelation (o : Overlay) : SiteRelation o.correspondence o.Counterpart where
  start h := by
    obtain ⟨g, hg⟩ := h.2
    exact (hg.moveStart_eq (h.pos hg)).symm
  use h _ := by
    obtain ⟨g, hg⟩ := h.2
    exact (hg.moveStart_eq (h.pos hg)).symm
  span h _ := by
    obtain ⟨g, hg⟩ := h.2
    exact hg.span (h.pos hg)
  around h := by
    obtain ⟨g, hg⟩ := h.2
    exact hg.around
  kind h := h.2.kind
  tokenText h := by
    obtain ⟨g, hg⟩ := h.2
    rw [hg.before, hg.after]
    cases g <;> rfl
  parts := Counterpart.parts
  typeText h hk := h.text_eq (by rw [isSpelled, hk]; rfl)
  nameText h hk := h.text_eq (by rw [hk]; rfl)
  parent h hk := by
    obtain ⟨g, hg⟩ := h.2
    refine hg.parent ?_
    rw [← hg.before]
    exact isExpression_of_ownedByParent hk
  grandparent h hk := by
    obtain ⟨g, hg⟩ := h.2
    refine hg.grandparent ?_
    rw [← hg.before]
    exact hk

/-! ## Calls -/

section

variable {k : Kind} {parts : List Growth} {x x' : Site}

/-- The arguments of a call stay, unless its argument is wrapped. -/
theorem Stands.arguments (h : o.Stands (.node k parts) x x')
    (hplain : parts.any Growth.isWrapped = false) :
    List.Forall₂ o.Counterpart (Call.arguments x) (Call.arguments x') := by
  have hlists : Option.Rel (fun l l' => ∃ g ∈ parts, o.Stands g l l') (Call.argumentList? x)
      (Call.argumentList? x') := by
    refine rel_getLast? (forall₂_filter ?_ h.children)
    rintro l l' ⟨g, -, hg⟩
    have hnode : l'.element.isNode = l.element.isNode := by
      rw [hg.before, hg.after, Growth.isNode_after]
    rw [Near.kind ⟨g, hg⟩]
    exact congrArg (· && _) hnode.symm
  unfold Call.arguments
  rcases Rel.cases hlists with ⟨hx, hx'⟩ | ⟨l, l', hx, hx', g, hmem, hg⟩ <;> rw [hx, hx']
  · exact .nil
  · have hwrapped : g.isWrapped = false := by
      simpa using List.any_eq_false.mp hplain g hmem
    have hnear : List.Forall₂ o.Near (Element.children l) (Element.children l') := by
      match g, hg, hwrapped with
      | .token k s, hg, _ =>
        show List.Forall₂ _ (Site.place _ _ l.element.children) (Site.place _ _ l'.element.children)
        rw [hg.before, hg.after]
        exact .nil
      | .node k parts, hg, _ => exact hg.children.imp fun _ _ => near_of_mem
    refine forall₂_counterpart (fun y hy => ?_) (fun y y' hy => ?_) hnear
    · simp only [Call.isArgument, Bool.and_eq_true] at hy
      exact hy.1.1.1
    · rw [Call.isArgument, Call.isArgument, Element.isSignificant, Element.isSignificant, hy.kind]

theorem Stands.arguments_wrapped (h : o.Stands (.node k parts) x x')
    (hwrapped : parts.any Growth.isWrapped = true) :
    ∃ argument : Growth, Call.arguments x.element = [argument.before] ∧
      Call.arguments x'.element = [UseTimeout.wrap argument.after] := by
  obtain ⟨g, hg, hisWrapped⟩ := List.any_eq_true.mp hwrapped
  match g, hisWrapped with
  | .wrapped _ _ argument _ _, _ =>
    obtain ⟨-, -, pre, left, lead, trail, right, post, rfl, hpost, hlead, htrail, ht⟩ :=
      h.placed.cut hg rfl
    refine ⟨argument, ?_, ?_⟩
    · rw [h.before, Growth.before, Growth.befores_append, Growth.befores, Growth.before]
      exact Growth.arguments_framed hpost hlead htrail ht
    · rw [h.after, Growth.after, Growth.afters_append, Growth.afters, Growth.after]
      exact Growth.arguments_framed (Growth.isArgumentList_afters hpost) hlead htrail rfl

end

theorem Counterpart.argumentCount {x x' : Site} (h : o.Counterpart x x')
    (hk : Element.kind x = .methodInvocation) :
    (Call.arguments x').length = (Call.arguments x).length := by
  obtain ⟨-, g, hg⟩ := h
  have hlength (y : Site) : (Call.arguments y).length = (Call.arguments y.element).length := by
    rw [← Site.arguments_element, List.length_map]
  match g, hg with
  | .token k s, hg =>
    rw [hlength, hlength, hg.before, hg.after]
    rfl
  | .node k parts, hg =>
    cases hwrapped : parts.any Growth.isWrapped with
    | false => exact (hg.arguments hwrapped).length_eq.symm
    | true =>
      obtain ⟨argument, hbefore, hafter⟩ := hg.arguments_wrapped hwrapped
      rw [hlength, hlength, hbefore, hafter]
      rfl
  | .wrapped left lead argument trail right, hg =>
    have hlist : Element.kind x = .argumentList := congrArg Tree.kind hg.before
    rw [hlist] at hk
    cases hk

theorem Stands.isBare_of_spelled {g : Growth} {x x' : Site} (h : o.Stands g x x') {i : Nat}
    (hi : spelledPart? (Element.kind x) = some i) {y : Site}
    (hy : (significantChildren x)[i]? = some y) : y.element.isBare = true := by
  have hmem : (significantChildren x.element)[i]? = some y.element := by
    rw [← Site.map_element_significant, List.getElem?_map, hy]
    rfl
  have hregular := h.regular
  rw [← h.before] at hregular
  have hkind : Element.kind x = x.element.kind := rfl
  rw [hkind] at hi
  cases he : x.element with
  | token k s =>
    rw [he] at hmem
    cases hmem
  | node k cs =>
    rw [he] at hmem hregular hi
    exact hregular.root.spelled i hi y.element hmem

/-- The parts of an expression that are read for their text stay. -/
theorem Counterpart.spelled {x x' : Site} (h : o.Counterpart x x') {i : Nat}
    (hi : spelledPart? (Element.kind x) = some i) :
    (significantChildren x')[i]?.map significantText =
      (significantChildren x)[i]?.map significantText := by
  have hk : Element.kind x ≠ .argumentList := by
    intro hk
    rw [hk] at hi
    cases hi
  rcases Rel.cases (rel_getElem? (h.parts hk) i) with ⟨hy, hy'⟩ | ⟨y, y', hy, hy', -, e, he⟩ <;>
    rw [hy, hy']
  obtain ⟨-, g, hg⟩ := h
  have hbare := hg.isBare_of_spelled hi hy
  have heq : y'.element = y.element := by
    rw [he.before, he.after, Growth.after_of_isBare (he.before ▸ hbare)]
  exact congrArg some (congrArg Tree.significantText heq)

/-! ## The nodes of both units -/

/-- Nodes that a run puts in: those of wrapping calls and of an import. -/
inductive IsAdded : Tree → Prop
  | call (t : Tree) : IsAdded (UseTimeout.wrap t)
  | list (cs : List Tree) : IsAdded (.node .argumentList cs)
  | declaration (cs : List Tree) : IsAdded (.node .importDeclaration cs)
  | name (cs : List Tree) : IsAdded (.node .scopedIdentifier cs)

/-- The nodes of a unit that has grown: the counterparts of the nodes before, in order, and added
nodes among them. -/
inductive Aligned (o : Overlay) : List Site → List Site → Prop
  | nil : Aligned o [] []
  | both {x x' : Site} {xs xs' : List Site} : x.element.isNode = true → o.Counterpart x x' →
      Aligned o xs xs' → Aligned o (x :: xs) (x' :: xs')
  | added {x' : Site} {xs xs' : List Site} : IsAdded x'.element → Aligned o xs xs' →
      Aligned o xs (x' :: xs')

theorem IsAdded.ofNode {x : Site} (h : IsAdded x.element) : Declaration.ofNode x = [] := by
  have hkind : Element.kind x = x.element.kind := rfl
  unfold Declaration.ofNode
  rw [hkind]
  generalize x.element = t at h
  cases h <;> rfl

theorem IsAdded.declaredName? {t : Tree} (h : IsAdded t) : CallMigration.declaredName? t = none := by
  cases h <;> rfl

theorem Counterpart.declaredName?_eq {x x' : Site} (h : o.Counterpart x x') :
    declaredName? x'.element = declaredName? x.element := by
  have hkind : x'.element.kind = x.element.kind := h.2.kind
  unfold declaredName?
  rw [hkind]
  split
  next htype =>
    have hk : Element.kind x ≠ .argumentList := by
      intro hk
      rw [show x.element.kind = .argumentList from hk] at htype
      cases htype
    rw [← Site.map_element_significant, ← Site.map_element_significant, List.find?_map,
      List.find?_map]
    have hnames := rel_find?
      (p := (fun t : Tree => t.kind == .identifier || t.kind == .typeIdentifier) ∘ Site.element)
      (q := (fun t : Tree => t.kind == .identifier || t.kind == .typeIdentifier) ∘ Site.element)
      (fun y y' hy => by
        have hyk : y'.element.kind = y.element.kind := hy.2.kind
        simp only [Function.comp, hyk]) (h.parts hk)
    rcases Rel.cases hnames with ⟨hy, hy'⟩ | ⟨y, y', hy, hy', hcounter⟩ <;> rw [hy, hy']
    have hspelled : isSpelled (Element.kind y) = true := by
      have hfound := List.find?_some hy
      simp only [Function.comp, Bool.or_eq_true, beq_iff_eq] at hfound
      rcases hfound with hyk | hyk <;> rw [show Element.kind y = _ from hyk] <;> rfl
    simp only [Option.map_some, hcounter.element_eq hspelled]
  next => rfl

namespace Aligned

variable {xs xs' ys ys' : List Site}

theorem append (h : o.Aligned xs xs') (h' : o.Aligned ys ys') :
    o.Aligned (xs ++ ys) (xs' ++ ys') := by
  induction h with
  | nil => exact h'
  | both hnode hx _ ih => exact .both hnode hx ih
  | added hx _ ih => exact .added hx ih

theorem of_added (h : ∀ x' ∈ xs', IsAdded x'.element) : o.Aligned [] xs' := by
  induction xs' with
  | nil => exact .nil
  | cons x' xs' ih =>
    exact .added (h x' List.mem_cons_self) (ih fun y hy => h y (List.mem_cons_of_mem _ hy))

theorem exists_right (h : o.Aligned xs xs') {x : Site} (hx : x ∈ xs) :
    ∃ x' ∈ xs', o.Counterpart x x' := by
  induction h with
  | nil => cases hx
  | both _ hcounter _ ih =>
    rcases List.mem_cons.mp hx with rfl | hx
    · exact ⟨_, List.mem_cons_self, hcounter⟩
    · obtain ⟨x', hx', hrel⟩ := ih hx
      exact ⟨x', List.mem_cons_of_mem _ hx', hrel⟩
  | added _ _ ih =>
    obtain ⟨x', hx', hrel⟩ := ih hx
    exact ⟨x', List.mem_cons_of_mem _ hx', hrel⟩

theorem exists_left (h : o.Aligned xs xs') {x' : Site} (hx' : x' ∈ xs') :
    IsAdded x'.element ∨ ∃ x ∈ xs, o.Counterpart x x' := by
  induction h with
  | nil => cases hx'
  | both _ hcounter _ ih =>
    rcases List.mem_cons.mp hx' with rfl | hx'
    · exact .inr ⟨_, List.mem_cons_self, hcounter⟩
    · rcases ih hx' with hadded | ⟨x, hx, hrel⟩
      · exact .inl hadded
      · exact .inr ⟨x, List.mem_cons_of_mem _ hx, hrel⟩
  | added hadded _ ih =>
    rcases List.mem_cons.mp hx' with rfl | hx'
    · exact .inl hadded
    · exact ih hx'

theorem declarations (h : o.Aligned xs xs') :
    List.Forall₂ (DeclarationRel o.correspondence o.Counterpart) (xs.flatMap Declaration.ofNode)
      (xs'.flatMap Declaration.ofNode) := by
  induction h with
  | nil => exact .nil
  | both hnode hx _ ih =>
    rw [List.flatMap_cons, List.flatMap_cons]
    exact List.rel_append (o.siteRelation.ofNode hx hnode) ih
  | added hadded _ ih =>
    have hnone := hadded.ofNode
    rw [List.flatMap_cons, hnone]
    exact ih

theorem declaredNames (h : o.Aligned xs xs') :
    (xs'.map Site.element).filterMap declaredName? = (xs.map Site.element).filterMap declaredName? := by
  induction h with
  | nil => rfl
  | both _ hx _ ih =>
    rw [List.map_cons, List.map_cons, List.filterMap_cons, List.filterMap_cons, hx.declaredName?_eq,
      ih]
  | added hadded _ ih =>
    rw [List.map_cons, List.filterMap_cons, hadded.declaredName?]
    exact ih

end Aligned

theorem nodes_of_isNode {x : Site} (h : x.element.isNode = true) :
    x.nodes = x :: Site.nodesAtAll (x.span :: x.around) x.start x.element.children := by
  obtain ⟨t, start, around⟩ := x
  cases t with
  | token k s => cases h
  | node k cs => rfl

theorem nodesAtAll_leaves (around : List Span) (tokens : List (Kind × String)) (start : Nat) :
    Site.nodesAtAll around start (leaves tokens) = [] := by
  induction tokens generalizing start with
  | nil => rfl
  | cons token tokens ih => exact ih _

theorem nodesAtAll_append (around : List Span) (as bs : List Tree) (start : Nat) :
    Site.nodesAtAll around start (as ++ bs) = Site.nodesAtAll around start as ++
      Site.nodesAtAll around (start + Tree.byteLengthOf as) bs := by
  induction as generalizing start with
  | nil => rfl
  | cons t as ih =>
    rw [List.cons_append, Site.nodesAtAll, Site.nodesAtAll, ih, Tree.byteLengthOf, List.append_assoc,
      Nat.add_assoc]

/-- The nodes of a framed list are those of the element in the middle. -/
theorem nodesAtAll_framed (around : List Span) (start : Nat) (left : String)
    (lead : List (Kind × String)) (t : Tree) (trail : List (Kind × String)) (right : String) :
    Site.nodesAtAll around start (framed left lead t trail right) =
      Site.nodesAt around (start + left.utf8ByteSize + Tree.byteLengthOf (leaves lead)) t := by
  rw [framed, Site.nodesAtAll, Site.nodesAt, List.nil_append, nodesAtAll_append, nodesAtAll_leaves,
    List.nil_append, Site.nodesAtAll, nodesAtAll_append, nodesAtAll_leaves, List.nil_append]
  exact List.append_nil _

theorem nodesAt_wrap (around : List Span) (start : Nat) (t : Tree) :
    Site.nodesAt around start (UseTimeout.wrap t) =
      wrapSite t start around :: wrapList t start around :: (wrapArgument t start around).nodes := by
  obtain ⟨hclass, hdot, hname, hleft, -⟩ := Growth.utf8ByteSize_texts
  simp only [UseTimeout.wrap, wrapSite, wrapList, wrapArgument, Site.nodes, Site.nodesAt,
    Site.nodesAtAll, Site.span, Tree.kind, Tree.byteLength, hclass, hdot, hname, hleft,
    List.nil_append, List.append_nil, Nat.add_assoc, Nat.reduceAdd]

/-- A node and its counterpart come before the nodes inside of them. -/
theorem Stands.aligned_node {g : Growth} {x x' : Site} (h : o.Stands g x x')
    (hnode : g.before.isNode = true)
    (hinner : o.Aligned (Site.nodesAtAll (x.span :: x.around) x.start g.before.children)
      (Site.nodesAtAll (x'.span :: x'.around) x'.start g.after.children)) :
    o.Aligned x.nodes x'.nodes := by
  have hx : x.element.isNode = true := by
    rw [h.before, hnode]
  have hx' : x'.element.isNode = true := by
    rw [h.after, Growth.isNode_after, hnode]
  have htrivia : isTriviaToken x.element = false := by
    generalize x.element = t at hx
    cases t with
    | token k s => cases hx
    | node k cs => rfl
  rw [nodes_of_isNode hx, nodes_of_isNode hx']
  refine .both hx ⟨htrivia, g, h⟩ ?_
  rw [h.before, h.after]
  exact hinner

mutual
theorem aligned : ∀ {g : Growth} {x x' : Site}, o.Stands g x x' → o.Aligned x.nodes x'.nodes
  | .token k s, x, x', h => by
    rw [Site.nodes, Site.nodes, h.before, h.after]
    exact .nil
  | .node k parts, x, x', h => h.aligned_node rfl (alignedAll h.parts)
  | .wrapped left lead argument trail right, x, x', h => by
    refine h.aligned_node rfl ?_
    show o.Aligned (Site.nodesAtAll _ _ (framed ..)) (Site.nodesAtAll _ _ (framed ..))
    -- Only the wrapping call and its list come in between.
    rw [nodesAtAll_framed, nodesAtAll_framed, nodesAt_wrap]
    exact .added (.call _) (.added (.list _) (aligned h.wrapped))
theorem alignedAll : ∀ {gs : List Growth} {around around' : List Span} {start start' : Nat},
    o.StandsAll gs around around' start start' →
      o.Aligned (Site.nodesAtAll around start (Growth.befores gs))
        (Site.nodesAtAll around' start' (Growth.afters gs))
  | [], _, _, _, _, _ => .nil
  | _ :: _, _, _, _, _, h => (aligned h.head).append (alignedAll h.tail)
end

end Overlay

end CallMigration
