import CallMigration.Proofs.Completeness

/-!
# What is moved stays together

Where an expression lands in a new place, its neighbours there may bind a part of it. A captured
argument lands in a slot, and the result of a template lands where the call stood; both may have been
moved before, and both may be moved again when a call further out is replaced. To follow them all, the
walk is done on trees with marks: an element is marked when it is put in a new place, and it takes the
mark along.

* `MarkedTree` : a tree that remembers which of its elements were put in a new place.
* `Rule.trace` : the walk with marks.
* `Rule.erase_trace` : without the marks it is the walk.
* `StaysGrouped` : nothing around an element can tear it apart.
* `Rule.moved_staysGrouped` : all marked elements stay together, in the place where they end.
-/

namespace CallMigration

/-! ## Trees with marks -/

/-- A tree in which the elements are marked that were put in a new place. -/
inductive MarkedTree where
  | token (moved : Bool) (kind : Kind) (text : String)
  | node (moved : Bool) (kind : Kind) (children : List MarkedTree)
deriving Inhabited

namespace MarkedTree

def kind : MarkedTree → Kind
  | token _ k _ => k
  | node _ k _ => k

/-- The element was put in a new place. -/
def moved : MarkedTree → Bool
  | token m _ _ => m
  | node m _ _ => m

mutual
def erase : MarkedTree → Tree
  | token _ k s => .token k s
  | node _ k cs => .node k (eraseAll cs)
def eraseAll : List MarkedTree → List Tree
  | [] => []
  | t :: ts => t.erase :: eraseAll ts
end

theorem eraseAll_eq_map (ts : List MarkedTree) : eraseAll ts = ts.map erase := by
  induction ts with
  | nil => rfl
  | cons t ts ih => rw [eraseAll, ih, List.map_cons]

@[simp]
theorem kind_erase (t : MarkedTree) : t.erase.kind = t.kind := by
  cases t <;> rfl

def mark : MarkedTree → MarkedTree
  | token _ k s => token true k s
  | node _ k cs => node true k cs

@[simp]
theorem erase_mark (t : MarkedTree) : t.mark.erase = t.erase := by
  cases t <;> rfl

mutual
/-- The marked elements, each with the kind of the node that it is a child of. `parent` is the kind of
the node around the whole. -/
def moves (parent : Option Kind) : MarkedTree → List (Option Kind × Tree)
  | token m k s => if m then [(parent, .token k s)] else []
  | node m k cs => (if m then [(parent, .node k (eraseAll cs))] else []) ++ movesAll (some k) cs
/-- The marked elements among elements that are children of one node. -/
def movesAll (parent : Option Kind) : List MarkedTree → List (Option Kind × Tree)
  | [] => []
  | t :: ts => t.moves parent ++ movesAll parent ts
end

/-- The marked elements below an element. -/
def inside : MarkedTree → List (Option Kind × Tree)
  | token _ _ _ => []
  | node _ k cs => movesAll (some k) cs

@[simp]
theorem inside_mark (t : MarkedTree) : t.mark.inside = t.inside := by
  cases t <;> rfl

theorem mem_moves_iff {parent : Option Kind} {t : MarkedTree} {move : Option Kind × Tree} :
    move ∈ t.moves parent ↔ (t.moved = true ∧ move = (parent, t.erase)) ∨ move ∈ t.inside := by
  cases t with
  | token m k s => cases m <;> simp [moves, moved, erase, inside]
  | node m k cs => cases m <;> simp [moves, moved, erase, inside]

theorem mem_movesAll_iff {parent : Option Kind} {ts : List MarkedTree} {move : Option Kind × Tree} :
    move ∈ movesAll parent ts ↔ ∃ t ∈ ts, move ∈ t.moves parent := by
  induction ts with
  | nil => simp [movesAll]
  | cons t ts ih => rw [movesAll, List.mem_append, ih]; simp

end MarkedTree

/-! ## Elements that stay together -/

/-- The kinds of the nodes that nothing around them can tear apart. -/
def primaryKinds : List Kind :=
  [.methodInvocation, .fieldAccess, .objectCreationExpression, .parenthesizedExpression,
    .stringLiteral, .characterLiteral]

/-- The kinds of the nodes that bind no part of a child. -/
def delimitingKinds : List Kind :=
  [.argumentList, .parenthesizedExpression, .expressionStatement, .returnStatement,
    .variableDeclarator, .assignmentExpression, .lambdaExpression]

/-- An element stays together: it is a token or a node of a primary kind, or the node that it is a
child of is of a delimiting kind. -/
def StaysGrouped (parent : Option Kind) (t : Tree) : Prop :=
  t.isNode = false ∨ t.kind ∈ primaryKinds ∨ ∃ k ∈ parent, k ∈ delimitingKinds

theorem isPrimary_iff {t : Tree} :
    isPrimary t = true ↔ t.isNode = false ∨ t.kind ∈ primaryKinds := by
  cases t with
  | token k s => simp [isPrimary, Tree.isNode]
  | node k cs => simp [isPrimary, Tree.isNode, Tree.kind, primaryKinds, or_assoc]

theorem isDelimiting_iff {k : Kind} : isDelimiting k = true ↔ k ∈ delimitingKinds := by
  simp [isDelimiting, delimitingKinds, or_assoc]

theorem staysGrouped_iff {parent : Option Kind} {t : Tree} :
    StaysGrouped parent t ↔ (isPrimary t || (parent.map isDelimiting).getD false) = true := by
  rw [StaysGrouped, ← or_assoc, ← isPrimary_iff, Bool.or_eq_true]
  cases parent with
  | none => simp
  | some k => simp [isDelimiting_iff]

namespace MarkedTree

/-! ## Putting an element in a new place -/

/-- The element in a new place below a node of kind `parent`, in parentheses where it needs them. Both
the element and the parentheses around it are new there. -/
def put (parent : Option Kind) (t : MarkedTree) : MarkedTree :=
  if isPrimary t.erase || (parent.map isDelimiting).getD false then t.mark
  else
    .node true .parenthesizedExpression
      [.token false .leftParen "(", t.mark, .token false .rightParen ")"]

/-- The argument for the slot that a token stands for. -/
def capturedAt? (captured : List MarkedTree) (k : Kind) (text : String) : Option MarkedTree :=
  if k == .identifier then (slotIndex? text).bind (captured[·]?) else none

mutual
/-- An element of a body with the captured arguments in its slots. -/
def fill (captured : List MarkedTree) (parent : Option Kind) : Tree → MarkedTree
  | .token k s =>
    match capturedAt? captured k s with
    | some argument => put parent argument
    | none => .token false k s
  | .node k cs => .node false k (fillAll captured (some k) cs)
/-- The elements of a body with the captured arguments in their slots. -/
def fillAll (captured : List MarkedTree) (parent : Option Kind) : List Tree → List MarkedTree
  | [] => []
  | t :: ts => fill captured parent t :: fillAll captured parent ts
end

theorem erase_put (parent : Option Kind) (t : MarkedTree) :
    (put parent t).erase = group parent t.erase := by
  unfold put group
  split
  next => exact t.erase_mark
  next => simp [erase, eraseAll, parenthesize]

theorem erase_capturedAt? (captured : List MarkedTree) (k : Kind) (text : String) :
    (capturedAt? captured k text).map erase =
      CallMigration.capturedAt? (captured.map erase) k text := by
  unfold capturedAt? CallMigration.capturedAt?
  split
  next =>
    cases slotIndex? text with
    | none => rfl
    | some index => exact List.getElem?_map.symm
  next => rfl

mutual
theorem erase_fill (captured : List MarkedTree) (parent : Option Kind) :
    ∀ t : Tree, (fill captured parent t).erase = substitute (captured.map erase) parent t
  | .token k s => by
    rw [fill, substitute, ← erase_capturedAt?]
    cases capturedAt? captured k s with
    | none => rfl
    | some argument => exact erase_put parent argument
  | .node k cs => by rw [fill, substitute, erase, erase_fillAll captured (some k) cs]
theorem erase_fillAll (captured : List MarkedTree) (parent : Option Kind) :
    ∀ ts : List Tree,
      eraseAll (fillAll captured parent ts) = substituteAll (captured.map erase) parent ts
  | [] => rfl
  | t :: ts => by
    rw [fillAll, substituteAll, eraseAll, erase_fill captured parent t,
      erase_fillAll captured parent ts]
end

/-- What is put in a new place stays together there, if all that was moved inside of it does. -/
theorem staysGrouped_put {parent : Option Kind} {t : MarkedTree}
    (h : ∀ move ∈ t.inside, StaysGrouped move.1 move.2) :
    ∀ move ∈ (put parent t).moves parent, StaysGrouped move.1 move.2 := by
  intro move hmove
  unfold put at hmove
  split at hmove
  next hgrouped =>
    rcases mem_moves_iff.mp hmove with ⟨-, rfl⟩ | hinside
    · rw [erase_mark]
      exact staysGrouped_iff.mpr hgrouped
    · exact h move (t.inside_mark ▸ hinside)
  next =>
    rcases mem_moves_iff.mp hmove with ⟨-, rfl⟩ | hinside
    · exact .inr (.inl (by simp [erase, Tree.kind, primaryKinds]))
    · obtain ⟨part, hpart, hmove⟩ := mem_movesAll_iff.mp hinside
      simp only [List.mem_cons, List.not_mem_nil, or_false] at hpart
      rcases hpart with rfl | rfl | rfl
      · cases hmove
      · -- The element itself: its parent is now the pair of parentheses.
        rcases mem_moves_iff.mp hmove with ⟨-, rfl⟩ | hinside
        · exact .inr (.inr ⟨_, rfl, by simp [delimitingKinds]⟩)
        · exact h move (t.inside_mark ▸ hinside)
      · cases hmove

mutual
/-- All that is moved in a filled body stays together, if it does so in the arguments. -/
theorem staysGrouped_fill {captured : List MarkedTree}
    (h : ∀ a ∈ captured, ∀ move ∈ a.inside, StaysGrouped move.1 move.2) (parent : Option Kind) :
    ∀ t : Tree, ∀ move ∈ (fill captured parent t).moves parent, StaysGrouped move.1 move.2
  | .token k s => by
    rw [fill]
    split
    next argument hargument =>
      refine staysGrouped_put (h argument ?_)
      rw [capturedAt?, Option.ite_none_right_eq_some, Option.bind_eq_some_iff] at hargument
      obtain ⟨-, i, -, hi⟩ := hargument
      exact List.mem_of_getElem? hi
    next => exact nofun
  | .node k cs => by
    rw [fill]
    intro move hmove
    rcases mem_moves_iff.mp hmove with ⟨hmoved, -⟩ | hinside
    · cases hmoved
    · exact staysGrouped_fillAll h (some k) cs move hinside
theorem staysGrouped_fillAll {captured : List MarkedTree}
    (h : ∀ a ∈ captured, ∀ move ∈ a.inside, StaysGrouped move.1 move.2) (parent : Option Kind) :
    ∀ ts : List Tree, ∀ move ∈ movesAll parent (fillAll captured parent ts),
      StaysGrouped move.1 move.2
  | [] => nofun
  | t :: ts => by
    rw [fillAll, movesAll]
    exact List.forall_mem_append.mpr
      ⟨staysGrouped_fill h parent t, staysGrouped_fillAll h parent ts⟩
end

/-! ## Replacing a call -/

/-- The last argument list among the children of a call: its position, its mark and its children. -/
def lastArguments? (children : List MarkedTree) : Option (Nat × Bool × List MarkedTree) :=
  (children.zipIdx.filterMap fun (t, i) =>
    match t with
    | .node m .argumentList cs => some (i, m, cs)
    | _ => none).getLast?

def replaceContents? (contents list : List MarkedTree) : Option (List MarkedTree) :=
  match list with
  | [] => none
  | first :: rest =>
    match rest.getLast? with
    | none => none
    | some last =>
      if first.kind == .leftParen && last.kind == .rightParen then
        let inner := rest.dropLast
        let leading := inner.takeWhile fun t => t.kind.isTrivia
        let trailing := (inner.reverse.takeWhile fun t => t.kind.isTrivia).reverse
        some (first :: (leading ++ contents ++ trailing ++ [last]))
      else none

/-- What a call with the given children is replaced by. The result is new where it stands. -/
def replaced? (t : Template) (children : List MarkedTree) (selected : List Nat)
    (parent : Option Kind) : Option MarkedTree :=
  if selected.length ≠ t.placeholders.length then none
  else
    match lastArguments? children with
    | none => none
    | some (position, m, list) =>
      let arguments := list.filter fun a => Call.isArgument a.erase
      match selected.mapM fun index => arguments[index]? with
      | none => none
      | some captured =>
        match t.target with
        | .invocation =>
          match t.body with
          | [body] => some (put parent (fill captured none body))
          | _ => none
        | .arguments =>
          (replaceContents? (fillAll captured (some .argumentList) t.body) list).map
            fun contents =>
              .node true .methodInvocation (children.set position (.node m .argumentList contents))

/-- The list that is found is a child of the call. -/
theorem getElem?_of_lastArguments? {children list : List MarkedTree} {position : Nat} {m : Bool}
    (h : lastArguments? children = some (position, m, list)) :
    children[position]? = some (.node m .argumentList list) := by
  obtain ⟨⟨t, i⟩, hmem, hlist⟩ := List.mem_filterMap.mp (List.mem_of_getLast? h)
  simp only at hlist
  split at hlist
  next m' cs =>
    cases hlist
    exact List.mem_zipIdx_iff_getElem?.mp hmem
  next => cases hlist

theorem erase_lastArguments? (children : List MarkedTree) :
    (lastArguments? children).map (fun (i, _, cs) => (i, cs.map erase)) =
      CallMigration.lastArguments? (children.map erase) := by
  unfold lastArguments? CallMigration.lastArguments?
  rw [← List.getLast?_map, List.map_filterMap, List.zipIdx_map, List.filterMap_map]
  congr 2
  funext ⟨t, i⟩
  cases t with
  | token m k s => rfl
  | node m k cs => cases k <;> simp [erase, eraseAll_eq_map]

theorem erase_replaceContents? (contents list : List MarkedTree) :
    (replaceContents? contents list).map (·.map erase) =
      CallMigration.replaceContents? (contents.map erase) (list.map erase) := by
  cases list with
  | nil => rfl
  | cons first rest =>
    unfold replaceContents? CallMigration.replaceContents?
    simp only [List.map_cons, List.getLast?_map]
    cases rest.getLast? with
    | none => rfl
    | some last =>
      simp only [Option.map_some, kind_erase]
      split
      next =>
        simp [leadingTrivia, trailingTrivia, ← List.map_dropLast, ← List.map_reverse,
          List.takeWhile_map, Function.comp_def]
      next => rfl

/-- What stands in a list with other contents is one of these or stood there before. -/
theorem mem_replaceContents? {contents list out : List MarkedTree} {t : MarkedTree}
    (h : replaceContents? contents list = some out) (ht : t ∈ out) : t ∈ contents ∨ t ∈ list := by
  unfold replaceContents? at h
  split at h
  next => cases h
  next first rest =>
    split at h
    next => cases h
    next last hlast =>
      simp only [Option.ite_none_right_eq_some, Option.some.injEq] at h
      obtain ⟨-, rfl⟩ := h
      have hinner : ∀ u ∈ rest.dropLast, u ∈ first :: rest :=
        fun u hu => List.mem_cons_of_mem _ ((List.dropLast_sublist rest).subset hu)
      simp only [List.mem_cons, List.mem_append, List.not_mem_nil, or_false, List.mem_reverse] at ht
      rcases ht with rfl | ((hleading | hcontents) | htrailing) | rfl
      · exact .inr List.mem_cons_self
      · exact .inr (hinner t ((List.takeWhile_sublist _).subset hleading))
      · exact .inl hcontents
      · exact .inr (hinner t (List.mem_reverse.mp ((List.takeWhile_sublist _).subset htrailing)))
      · exact .inr (List.mem_cons_of_mem _ (List.mem_of_getLast? hlast))

theorem erase_mapM (arguments : List MarkedTree) (selected : List Nat) :
    (selected.mapM fun index => arguments[index]?).map (·.map erase) =
      selected.mapM fun index => (arguments.map erase)[index]? := by
  induction selected with
  | nil => rfl
  | cons index selected ih =>
    rw [List.mapM_cons, List.mapM_cons, ← ih, List.getElem?_map]
    cases arguments[index]? with
    | none => rfl
    | some a => cases selected.mapM fun index => arguments[index]? <;> rfl

theorem erase_replaced? (t : Template) (children : List MarkedTree) (selected : List Nat)
    (parent : Option Kind) :
    (replaced? t children selected parent).map erase =
      t.replacement? (.node .methodInvocation (eraseAll children)) selected parent := by
  unfold replaced? Template.replacement?
  simp only [eraseAll_eq_map, ← erase_lastArguments?]
  split
  next => rfl
  next =>
    cases lastArguments? children with
    | none => rfl
    | some found =>
      obtain ⟨position, m, list⟩ := found
      simp only [Option.map_some, List.filter_map, Function.comp_def, ← erase_mapM]
      cases selected.mapM fun index => (list.filter fun a => Call.isArgument a.erase)[index]? with
      | none => rfl
      | some captured =>
        simp only [Option.map_some]
        cases t.target with
        | invocation =>
          simp only
          cases t.body with
          | nil => rfl
          | cons body others =>
            cases others with
            | nil => simp only [Option.map_some, erase_put, erase_fill]
            | cons => rfl
        | arguments =>
          simp only [← erase_fillAll, eraseAll_eq_map, ← erase_replaceContents?, Option.map_map]
          congr 1
          funext contents
          simp [erase, eraseAll_eq_map, List.map_set]

/-- All that is moved in a replaced call stays together, if it did so in the call. -/
theorem staysGrouped_replaced? {t : Template} {children : List MarkedTree} {selected : List Nat}
    {parent : Option Kind} {new : MarkedTree}
    (h : ∀ move ∈ movesAll (some .methodInvocation) children, StaysGrouped move.1 move.2)
    (hnew : replaced? t children selected parent = some new) :
    ∀ move ∈ new.moves parent, StaysGrouped move.1 move.2 := by
  unfold replaced? at hnew
  split at hnew
  next => cases hnew
  next =>
    split at hnew
    next => cases hnew
    next position m list hlist =>
      have hposition := getElem?_of_lastArguments? hlist
      have hinList : ∀ move ∈ (node m .argumentList list).moves (some .methodInvocation),
          StaysGrouped move.1 move.2 :=
        fun move hmove => h move (mem_movesAll_iff.mpr ⟨_, List.mem_of_getElem? hposition, hmove⟩)
      have hinArgument : ∀ a ∈ list, ∀ move ∈ a.moves (some .argumentList),
          StaysGrouped move.1 move.2 :=
        fun a ha move hmove =>
          hinList move (mem_moves_iff.mpr (.inr (mem_movesAll_iff.mpr ⟨a, ha, hmove⟩)))
      simp only at hnew
      split at hnew
      next => cases hnew
      next captured hcaptured =>
        have hinside : ∀ a ∈ captured, ∀ move ∈ a.inside, StaysGrouped move.1 move.2 := by
          intro a ha move hmove
          have hmem := List.mem_filter.mp (mem_of_mapM_getElem? hcaptured ha)
          exact hinArgument a hmem.1 move (mem_moves_iff.mpr (.inr hmove))
        split at hnew
        next =>
          split at hnew
          next body _ =>
            cases hnew
            refine staysGrouped_put fun move hmove => ?_
            exact staysGrouped_fill hinside none body move (mem_moves_iff.mpr (.inr hmove))
          next => cases hnew
        next =>
          obtain ⟨contents, hcontents, rfl⟩ := Option.map_eq_some_iff.mp hnew
          intro move hmove
          rcases mem_moves_iff.mp hmove with ⟨-, rfl⟩ | hmove
          · exact .inr (.inl (by simp [erase, Tree.kind, primaryKinds]))
          · obtain ⟨child, hchild, hmove⟩ := mem_movesAll_iff.mp hmove
            rcases List.mem_or_eq_of_mem_set hchild with hchild | rfl
            · exact h move (mem_movesAll_iff.mpr ⟨child, hchild, hmove⟩)
            · rcases mem_moves_iff.mp hmove with ⟨hmoved, rfl⟩ | hmove
              · -- The list itself was moved before, so it stayed together under the call.
                exact hinList (some .methodInvocation, (node m .argumentList list).erase)
                  (mem_moves_iff.mpr (.inl ⟨hmoved, rfl⟩))
              · obtain ⟨part, hpart, hmove⟩ := mem_movesAll_iff.mp hmove
                rcases mem_replaceContents? hcontents hpart with hpart | hpart
                · exact staysGrouped_fillAll hinside (some .argumentList) t.body move
                    (mem_movesAll_iff.mpr ⟨part, hpart, hmove⟩)
                · exact hinArgument part hpart move hmove

end MarkedTree

/-! ## The walk with marks -/

namespace Rule

open MarkedTree

variable {R : Type} [TypeResolver R]

mutual
/-- The walk below an element, which marks what it puts in a new place. -/
def trace (rule : Rule) (r : R) (around : List Span) (start : Nat) : Tree → MarkedTree
  | .token k s => .token false k s
  | .node k cs =>
    let parts := traceAll rule r (⟨k, start, start + Tree.byteLengthOf cs⟩ :: around) start cs
    if k = .methodInvocation ∧ (rule.matcher.find? r ⟨.node k cs, start, around⟩).isSome then
      (replaced? rule.template parts rule.selected (around.head?.map (·.kind))).getD
        (.node false k parts)
    else .node false k parts
/-- The walk over elements that follow each other, with marks. -/
def traceAll (rule : Rule) (r : R) (around : List Span) (start : Nat) :
    List Tree → List MarkedTree
  | [] => []
  | t :: ts => trace rule r around start t :: traceAll rule r around (start + t.byteLength) ts
end

section

variable {rule : Rule} {r : R} {around : List Span} {start : Nat} {cs : List Tree}

/-- The walk with marks over a node that is no match. -/
theorem trace_unmatched {k : Kind}
    (h : ¬ (k = .methodInvocation ∧ (rule.matcher.find? r ⟨.node k cs, start, around⟩).isSome)) :
    rule.trace r around start (.node k cs) = .node false k
      (rule.traceAll r (⟨k, start, start + Tree.byteLengthOf cs⟩ :: around) start cs) := by
  rw [trace, if_neg h]

theorem trace_matched
    (h : (rule.matcher.find? r ⟨.node .methodInvocation cs, start, around⟩).isSome = true) :
    rule.trace r around start (.node .methodInvocation cs) =
      let parts := rule.traceAll r
        (⟨.methodInvocation, start, start + Tree.byteLengthOf cs⟩ :: around) start cs
      (replaced? rule.template parts rule.selected (around.head?.map (·.kind))).getD
        (.node false .methodInvocation parts) := by
  rw [trace, if_pos ⟨rfl, h⟩]

end

mutual
theorem erase_trace (rule : Rule) (r : R) : ∀ (t : Tree) (around : List Span) (start : Nat)
    (w : Walk), (rule.trace r around start t).erase = (rule.visit r around start t w).1.getD t
  | .token k s, _, _, _ => by
    rw [trace, visit]
    rfl
  | .node k cs, around, start, w => by
    by_cases hk : k = .methodInvocation
    · subst hk
      have hparts := erase_traceAll rule r cs
        (⟨.methodInvocation, start, start + Tree.byteLengthOf cs⟩ :: around) start
        (w.enter (start, start + Tree.byteLengthOf cs))
      cases hfind : (rule.matcher.find? r ⟨.node .methodInvocation cs, start, around⟩).isSome with
      | false =>
        rw [trace_unmatched (by simp [hfind]), visit_kept hfind, MarkedTree.erase, hparts]
        exact (getD_rebuilt _ _ _ _ _).symm
      | true =>
        rw [trace_matched hfind]
        -- The call that is replaced has the parts as they are after the walk.
        have hnew := erase_replaced? rule.template (rule.traceAll r
          (⟨.methodInvocation, start, start + Tree.byteLengthOf cs⟩ :: around) start cs)
          rule.selected (around.head?.map (·.kind))
        rw [hparts, ← visitAll_rebuilt rfl] at hnew
        cases hreplaced : replaced? rule.template (rule.traceAll r
            (⟨.methodInvocation, start, start + Tree.byteLengthOf cs⟩ :: around) start cs)
            rule.selected (around.head?.map (·.kind)) with
        | none =>
          rw [hreplaced] at hnew
          rw [visit_unreplaced rfl hnew.symm]
          simp only [hreplaced, Option.getD_none, MarkedTree.erase, hparts]
          exact (getD_rebuilt _ _ _ _ _).symm
        | some new =>
          rw [hreplaced] at hnew
          rw [visit_replaced hfind rfl hnew.symm]
          simp only [hreplaced, Option.getD_some]
    · rw [trace_unmatched (fun h => hk h.1), visit_node hk, MarkedTree.erase,
        erase_traceAll rule r cs _ start w]
      exact (getD_rebuilt _ _ _ _ _).symm
theorem erase_traceAll (rule : Rule) (r : R) : ∀ (ts : List Tree) (around : List Span)
    (start : Nat) (w : Walk),
    eraseAll (rule.traceAll r around start ts) = (rule.visitAll r around start ts w).1
  | [], _, _, _ => by
    rw [traceAll, visitAll]
    rfl
  | t :: ts, around, start, w => by
    rw [traceAll, eraseAll, visitAll, erase_trace rule r t around start w,
      erase_traceAll rule r ts around _ (rule.visit r around start t w).2]
end

mutual
theorem staysGrouped_trace (rule : Rule) (r : R) : ∀ (t : Tree) (around : List Span)
    (start : Nat), ∀ move ∈ (rule.trace r around start t).moves (around.head?.map (·.kind)),
      StaysGrouped move.1 move.2
  | .token k s, _, _ => by
    rw [trace]
    exact nofun
  | .node k cs, around, start => by
    have hparts := staysGrouped_traceAll rule r cs
      (⟨k, start, start + Tree.byteLengthOf cs⟩ :: around) start
    have hkept : ∀ move ∈ (node false k (rule.traceAll r
        (⟨k, start, start + Tree.byteLengthOf cs⟩ :: around) start cs)).moves
          (around.head?.map (·.kind)), StaysGrouped move.1 move.2 := by
      intro move hmove
      rcases mem_moves_iff.mp hmove with ⟨hmoved, -⟩ | hinside
      · cases hmoved
      · exact hparts move hinside
    by_cases hcall : k = .methodInvocation ∧
        (rule.matcher.find? r ⟨.node k cs, start, around⟩).isSome
    · obtain ⟨rfl, hfind⟩ := hcall
      rw [trace_matched hfind]
      cases hnew : replaced? rule.template (rule.traceAll r
          (⟨.methodInvocation, start, start + Tree.byteLengthOf cs⟩ :: around) start cs)
          rule.selected (around.head?.map (·.kind)) with
      | none => simpa only [hnew, Option.getD_none] using hkept
      | some new =>
        simp only [hnew, Option.getD_some]
        exact staysGrouped_replaced? hparts hnew
    · rw [trace_unmatched hcall]
      exact hkept
theorem staysGrouped_traceAll (rule : Rule) (r : R) : ∀ (ts : List Tree)
    (around : List Span) (start : Nat),
    ∀ move ∈ movesAll (around.head?.map (·.kind)) (rule.traceAll r around start ts),
      StaysGrouped move.1 move.2
  | [], _, _ => by
    rw [traceAll]
    exact nofun
  | t :: ts, around, start => by
    rw [traceAll, movesAll]
    exact List.forall_mem_append.mpr ⟨staysGrouped_trace rule r t around start,
      staysGrouped_traceAll rule r ts around _⟩
end

/-- **What is moved stays together.** In the tree that a walk leaves, every captured argument in a
slot and every result of a template is a token or a node of a primary kind, or the child of a node of
a delimiting kind, however often it was moved on by calls further out. -/
theorem moved_staysGrouped (rule : Rule) (r : R) (around : List Span) (start : Nat) (t : Tree)
    (w : Walk) :
    (rule.trace r around start t).erase = (rule.visit r around start t w).1.getD t ∧
      ∀ move ∈ (rule.trace r around start t).moves (around.head?.map (·.kind)),
        StaysGrouped move.1 move.2 :=
  ⟨erase_trace rule r t around start w, staysGrouped_trace rule r t around start⟩

end Rule

/-- A recipe that replaces calls of `p.A.f` by a product. -/
def scaling : RecipeParts :=
  { RecipeParts.ofName "scaling" with
    precondition := some ("p..*", false)
    signatures := ["p.A f(int)"]
    template := some "#\x7b\x7d * 1000"
    target := .invocation
    table := ⟨[⟨⟨"p.A"⟩, [], [⟨"f", [⟨"int"⟩], ⟨"int"⟩, false⟩]⟩]⟩ }

def scalingRecipe : Recipe :=
  ⟨"scaling", "scaling", "", ⟨⟨.recursive "p", false⟩, ⟨[⟨⟨"p.A"⟩, "f", [⟨"int"⟩]⟩], false⟩,
    ⟨"#\x7b\x7d * 1000", .invocation, [.any], [],
      [.node .binaryExpression [.token .identifier "__hcrewrite_slot0__", .token .whitespace " ",
        .token .token "*", .token .whitespace " ", .token .integerLiteral "1000"]]⟩, [0]⟩,
    scaling.table⟩

theorem scaling_build : scaling.build = .ok scalingRecipe :=
  RecipeParts.build_eq rfl parse_unwrappingGate rfl parseSignatures_unwrapping rfl rfl rfl
    (eq_ok_of_toOption (by
      rw [Template.ofFragment_eq]
      decide +kernel))
    rfl rfl

/-- The product that replaces the inner call stands in an argument list at first, where it needs no
parentheses; then it becomes a factor, and gets them. -/
theorem Rule.moved_staysGrouped_nested :
    ∃ recipe u, scaling.build = .ok recipe ∧
      JavaUnit.parse "class X \x7b int g(p.A a) \x7b return 2 / a.f(a.f(1 + 2)); \x7d \x7d" =
        .ok u ∧
      ((recipe.rule.visit (Resolver.ofTree recipe.table u.tree) [] 0 u.tree (.start true)).1.getD
        u.tree).text =
          "class X \x7b int g(p.A a) \x7b return 2 / (((1 + 2) * 1000) * 1000); \x7d \x7d" ∧
      ((recipe.rule.trace (Resolver.ofTree recipe.table u.tree) [] 0 u.tree).moves none).map
          (fun move => (move.1, move.2.text)) =
        [(some .binaryExpression, "(((1 + 2) * 1000) * 1000)"),
          (some .parenthesizedExpression, "((1 + 2) * 1000) * 1000"),
          (some .binaryExpression, "((1 + 2) * 1000)"),
          (some .parenthesizedExpression, "(1 + 2) * 1000"),
          (some .binaryExpression, "(1 + 2)"), (some .parenthesizedExpression, "1 + 2")] ∧
      (recipe.rule.trace (Resolver.ofTree recipe.table u.tree) [] 0 u.tree).erase =
        (recipe.rule.visit (Resolver.ofTree recipe.table u.tree) [] 0 u.tree (.start true)).1.getD u.tree ∧
      ∀ move ∈ (recipe.rule.trace (Resolver.ofTree recipe.table u.tree) [] 0 u.tree).moves none,
        StaysGrouped move.1 move.2 := by
  let recipe := scalingRecipe
  have hcheck :
      (JavaUnit.parse
        "class X \x7b int g(p.A a) \x7b return 2 / a.f(a.f(1 + 2)); \x7d \x7d").toOption.any
        (fun u => ((recipe.rule.visit (Resolver.ofTree recipe.table u.tree) [] 0 u.tree
            (.start true)).1.getD u.tree).text ==
              "class X \x7b int g(p.A a) \x7b return 2 / (((1 + 2) * 1000) * 1000); \x7d \x7d" &&
          ((recipe.rule.trace (Resolver.ofTree recipe.table u.tree) [] 0 u.tree).moves none).map
              (fun move => (move.1, move.2.text)) ==
            [(some .binaryExpression, "(((1 + 2) * 1000) * 1000)"),
              (some .parenthesizedExpression, "((1 + 2) * 1000) * 1000"),
              (some .binaryExpression, "((1 + 2) * 1000)"),
              (some .parenthesizedExpression, "(1 + 2) * 1000"),
              (some .binaryExpression, "(1 + 2)"), (some .parenthesizedExpression, "1 + 2")]) =
      true := by
    rw [JavaUnit.parse_eq]
    decide +kernel
  obtain ⟨u, hparse, hcheck⟩ := exists_ok_of_any hcheck
  simp only [Bool.and_eq_true, beq_iff_eq] at hcheck
  exact ⟨recipe, u, scaling_build, hparse, hcheck.1, hcheck.2,
    Rule.moved_staysGrouped recipe.rule (Resolver.ofTree recipe.table u.tree) [] 0 u.tree (.start true)⟩

end CallMigration
