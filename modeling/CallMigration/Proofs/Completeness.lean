import CallMigration.Proofs.Build
import CallMigration.Proofs.Slots
import CallMigration.Proofs.Stock
import CallMigration.Proofs.Walk

/-!
# Every match is migrated

A call is matched as it stands in the source, but it is replaced only after its parts have been
walked, which may have replaced its receiver and its arguments. A replaced call is an argument and no
argument list, whatever it is replaced by, so the call around it still has its arguments where they
were, and as many of them as its signature asks for.

* `Tree.ClosedCalls` : every call has an argument list, and the last one is closed.
* `Rule.SameRole` : what an element and its replacement have in common.
* `Rule.replacement?_isSome` : a matched call is replaced, whatever became of its parts.
* `Recipe.run_counts_matches` : a run visits all calls and migrates all matches.
-/

namespace CallMigration

/-! ## Calls with closed lists -/

/-- The list begins and ends with a parenthesis. -/
def isClosed (list : List Tree) : Bool :=
  list.head?.map Tree.kind == some .leftParen && list.getLast?.map Tree.kind == some .rightParen

/-- Every call has an argument list, and the last one is closed. -/
def Tree.ClosedCalls (t : Tree) : Prop :=
  ∀ n ∈ t.nodes, Call.isCall n = true →
    (Call.argumentList? n).any (fun list => isClosed list.children) = true

instance (t : Tree) : Decidable t.ClosedCalls :=
  inferInstanceAs (Decidable (∀ n ∈ t.nodes, Call.isCall n = true →
    (Call.argumentList? n).any (fun list => isClosed list.children) = true))

theorem Tree.ClosedCalls.child {k : Kind} {cs : List Tree} {t : Tree}
    (h : (Tree.node k cs).ClosedCalls) (ht : t ∈ cs) : t.ClosedCalls :=
  fun n hn => h n (List.mem_cons_of_mem _ (mem_nodesOf_of_mem ht hn))

/-- The arguments of a call of a closed tree, taken apart. -/
theorem Tree.ClosedCalls.exists_list {cs : List Tree}
    (h : (Tree.node .methodInvocation cs).ClosedCalls) :
    ∃ before list after, cs = before ++ .node .argumentList list :: after ∧
      (∀ t ∈ after, isArgumentList t = false) ∧ isClosed list = true := by
  have hself := h _ List.mem_cons_self rfl
  cases hlast : lastArguments? cs with
  | none =>
    have hnone : cs.filter isArgumentList = [] :=
      List.filter_eq_nil_iff.mpr fun t ht => by simp [lastArguments?_eq_none hlast t ht]
    change ((cs.filter isArgumentList).getLast?).any _ = true at hself
    rw [hnone] at hself
    cases hself
  | some found =>
    obtain ⟨before, after, rfl, -, hafter⟩ := lastArguments?_eq_some_iff.mp hlast
    rw [Call.argumentList?_append hafter] at hself
    exact ⟨before, found.2, after, rfl, hafter, hself⟩

theorem exists_of_isClosed {list : List Tree} (h : isClosed list = true) :
    ∃ first inner last, list = first :: (inner ++ [last]) ∧
      first.kind = .leftParen ∧ last.kind = .rightParen := by
  rw [isClosed, Bool.and_eq_true, beq_iff_eq, beq_iff_eq] at h
  obtain ⟨hfirst, hlast⟩ := h
  cases list with
  | nil => cases hfirst
  | cons first rest =>
    have hkind : first.kind = .leftParen := Option.some.inj hfirst
    cases rest using List.reverseRecOn with
    | nil =>
      rw [List.getLast?_singleton, Option.map_some, hkind] at hlast
      cases hlast
    | append_singleton inner last =>
      rw [← List.cons_append, List.getLast?_concat] at hlast
      exact ⟨first, inner, last, rfl, hkind, Option.some.inj hlast⟩

theorem replaceContents?_of_isClosed {list : List Tree} (h : isClosed list = true)
    (contents : List Tree) : (replaceContents? contents list).isSome = true := by
  obtain ⟨first, inner, last, rfl, hfirst, hlast⟩ := exists_of_isClosed h
  simp [replaceContents?, hfirst, hlast]

/-! ## The role of a replaced element -/

namespace Rule

/-- What a checked rule needs to replace every call that it matches. -/
structure Checked (rule : Rule) : Prop where
  length : rule.selected.length = rule.template.placeholders.length
  selected : ∀ s ∈ rule.matcher.signatures, ∀ index ∈ rule.selected, index < s.params.length
  operand : rule.template.target = .invocation →
    ∃ expression, rule.template.body = [expression] ∧ Call.isArgument expression = true

/-- An element and what a walk makes of it, in a node of the kind `parent`. -/
structure SameRole (parent : Option Kind) (t t' : Tree) : Prop where
  argument : Call.isArgument t' = Call.isArgument t
  kind : t.kind ≠ .methodInvocation → t'.kind = t.kind
  list : parent = some .methodInvocation → isArgumentList t' = isArgumentList t

theorem SameRole.refl (parent : Option Kind) (t : Tree) : SameRole parent t t :=
  ⟨rfl, fun _ => rfl, fun _ => rfl⟩

theorem sameRole_node (parent : Option Kind) (k : Kind) (cs cs' : List Tree) :
    SameRole parent (.node k cs) (.node k cs') :=
  ⟨rfl, fun _ => rfl, fun _ => rfl⟩

theorem isArgument_group {parent : Option Kind} {t : Tree} (h : Call.isArgument t = true) :
    Call.isArgument (group parent t) = true := by
  unfold group
  split
  · exact h
  · rfl

/-- In a call, no element is put as an argument list. -/
theorem isArgumentList_group (t : Tree) :
    isArgumentList (group (some .methodInvocation) t) = false := by
  unfold group
  split
  next h =>
    have hprimary : isPrimary t = true := by simpa [isDelimiting] using h
    cases t with
    | token k s => rfl
    | node k cs =>
      cases k <;> first | rfl | cases hprimary
  next => rfl

theorem isArgument_substitute {captured : List Tree} {parent : Option Kind} {t : Tree}
    (h : Call.isArgument t = true) (hcaptured : ∀ a ∈ captured, Call.isArgument a = true) :
    Call.isArgument (substitute captured parent t) = true := by
  cases t with
  | token k s =>
    rw [substitute]
    split
    next argument hargument =>
      obtain ⟨-, index, -, hindex⟩ := Template.capturedAt?_eq_some_iff.mp hargument
      exact isArgument_group (hcaptured argument (List.mem_of_getElem? hindex))
    next => exact h
  | node k cs =>
    rw [substitute]
    exact h

theorem exists_mapM_getElem? {α : Type} (as : List α) (indices : List Nat)
    (h : ∀ index ∈ indices, index < as.length) :
    ∃ captured, indices.mapM (as[·]?) = some captured := by
  induction indices with
  | nil => exact ⟨[], rfl⟩
  | cons index indices ih =>
    obtain ⟨rest, hrest⟩ := ih fun i hi => h i (List.mem_cons_of_mem _ hi)
    obtain ⟨a, ha⟩ : ∃ a, as[index]? = some a :=
      ⟨_, List.getElem?_eq_getElem (h index List.mem_cons_self)⟩
    refine ⟨a :: rest, ?_⟩
    rw [List.mapM_cons, ha, hrest]
    rfl

/-- A call that is replaced is an argument, and no argument list if it is part of a call. -/
theorem sameRole_replacement {rule : Rule} (hrule : rule.Checked) {call new : Tree}
    {parent : Option Kind} (h : rule.template.replacement? call rule.selected parent = some new)
    (cs : List Tree) : SameRole parent (.node .methodInvocation cs) new := by
  obtain ⟨captured, hcaptured, -, hnew⟩ := Template.replacement?_cases h
  rcases hnew with ⟨htarget, body, hbody, rfl⟩ |
    ⟨-, before, opening, inner, closing, after, -, -, -, -, rfl⟩
  · obtain ⟨expression, hsingle, hexpression⟩ := hrule.operand htarget
    cases hbody.symm.trans hsingle
    have hall : ∀ a ∈ captured, Call.isArgument a = true := fun a ha =>
      Call.isArgument_of_mem_arguments (mem_of_mapM_getElem? hcaptured ha)
    refine ⟨?_, fun hcall => absurd rfl hcall, ?_⟩
    · exact isArgument_group (isArgument_substitute hexpression hall)
    · rintro rfl
      exact isArgumentList_group _
  · exact sameRole_node parent _ _ _

/-! ## The walk over the parts of a call -/

variable {R : Type} [TypeResolver R] {rule : Rule} {r : R}

/-- What a walk makes of an element has the same role. -/
theorem sameRole_visit (hrule : rule.Checked) (around : List Span) (start : Nat) (t : Tree)
    (w : Walk) :
    SameRole (around.head?.map (·.kind)) t ((rule.visit r around start t w).1.getD t) := by
  cases t with
  | token k s => exact .refl _ _
  | node k cs =>
    by_cases hk : k = .methodInvocation
    · subst hk
      rcases visit_call rule r around start cs w rfl with ⟨new, -, hnew, heq⟩ | heq
      · rw [heq]
        exact sameRole_replacement hrule hnew cs
      · rw [heq]
        simp only
        split
        · exact sameRole_node _ _ _ _
        · exact .refl _ _
    · rw [visit_node hk]
      simp only
      split
      · exact sameRole_node _ _ _ _
      · exact .refl _ _

theorem sameRole_visitAll (hrule : rule.Checked) (around : List Span) (start : Nat)
    (ts : List Tree) (w : Walk) :
    List.Forall₂ (SameRole (around.head?.map (·.kind))) ts
      (rule.visitAll r around start ts w).1 := by
  induction ts generalizing start w with
  | nil => exact .nil
  | cons t ts ih =>
    rw [visitAll]
    exact .cons (sameRole_visit hrule around start t w) (ih _ _)

theorem visitAll_append (rule : Rule) (r : R) (around : List Span) (start : Nat)
    (ts us : List Tree) (w : Walk) :
    ∃ new start' w', (rule.visitAll r around start (ts ++ us) w).1 =
      new ++ (rule.visitAll r around start' us w').1 := by
  induction ts generalizing start w with
  | nil => exact ⟨[], start, w, rfl⟩
  | cons t ts ih =>
    obtain ⟨new, start', w', heq⟩ := ih (start + t.byteLength) (rule.visit r around start t w).2
    refine ⟨(rule.visit r around start t w).1.getD t :: new, start', w', ?_⟩
    rw [List.cons_append, visitAll]
    simp only [heq, List.cons_append]

theorem isClosed_of_sameRole {parent : Option Kind} {list list' : List Tree}
    (h : List.Forall₂ (SameRole parent) list list') (hclosed : isClosed list = true) :
    isClosed list' = true := by
  obtain ⟨first, inner, last, rfl, hfirst, hlast⟩ := exists_of_isClosed hclosed
  have hend := rel_getLast? h
  rw [← List.cons_append, List.getLast?_concat] at hend
  rcases Rel.cases hend with ⟨hnone, -⟩ | ⟨_, last', hsome, hlast', hrole⟩
  · cases hnone
  · cases hsome
    obtain ⟨first', rest', hrole', -, rfl⟩ := List.forall₂_cons_left_iff.mp h
    rw [isClosed, hlast', List.head?_cons, Option.map_some, Option.map_some,
      hrole'.kind (by rw [hfirst]; decide), hrole.kind (by rw [hlast]; decide), hfirst, hlast]
    decide

theorem exists_visit_list (hrule : rule.Checked) (around : List Span) (start : Nat)
    {list : List Tree} (hclosed : isClosed list = true) (w : Walk) :
    ∃ list', (rule.visit r around start (.node .argumentList list) w).1.getD
        (.node .argumentList list) = .node .argumentList list' ∧
      isClosed list' = true ∧
      (list'.filter Call.isArgument).length = (list.filter Call.isArgument).length := by
  have hroles := sameRole_visitAll (r := r) hrule
    (⟨.argumentList, start, start + Tree.byteLengthOf list⟩ :: around) start list w
  refine ⟨_, ?_, isClosed_of_sameRole hroles hclosed,
    (forall₂_filter (fun a b h => h.argument.symm) hroles).length_eq.symm⟩
  rw [visit_node (by decide)]
  exact getD_rebuilt .argumentList _ start list w

/-- After a walk over the parts of a call, its arguments are still in a closed list, which is the last
one, and there are as many of them. -/
theorem exists_walked_list (hrule : rule.Checked) {cs : List Tree}
    (hclosed : (Tree.node .methodInvocation cs).ClosedCalls) (around : List Span)
    (haround : around.head?.map (·.kind) = some .methodInvocation) (start : Nat) (w : Walk) :
    ∃ position list', lastArguments? (rule.visitAll r around start cs w).1 =
        some (position, list') ∧
      isClosed list' = true ∧
      (list'.filter Call.isArgument).length =
        (Call.arguments (Tree.node .methodInvocation cs)).length := by
  obtain ⟨before, list, after, rfl, hafter, hlist⟩ := hclosed.exists_list
  obtain ⟨new, start', w', heq⟩ := visitAll_append rule r around start before
    (.node .argumentList list :: after) w
  obtain ⟨list', hnew, hclosed', hcount⟩ :=
    exists_visit_list (r := r) hrule around start' hlist w'
  rw [visitAll] at heq
  simp only [hnew] at heq
  have hposition : lastArguments? (before ++ .node .argumentList list :: after) =
      some (before.length, list) := lastArguments?_eq_some_iff.mpr ⟨before, after, rfl, rfl, hafter⟩
  refine ⟨new.length, list', lastArguments?_eq_some_iff.mpr ⟨new, _, heq, rfl, ?_⟩, hclosed', ?_⟩
  · intro t' ht'
    obtain ⟨t, ht, hrole⟩ := exists_left_of_forall₂ (sameRole_visitAll hrule around _ after _) ht'
    rw [hrole.list haround, hafter t ht]
  · rw [hcount, Call.arguments_eq hposition]

theorem replacement?_isSome (hrule : rule.Checked) {call : Site} {cs : List Tree}
    {parent : Option Kind} {position : Nat} {list : List Tree}
    (hfind : (rule.matcher.find? r call).isSome = true)
    (hlist : lastArguments? cs = some (position, list)) (hclosed : isClosed list = true)
    (hcount : (list.filter Call.isArgument).length = (Call.arguments call).length) :
    ∃ new, rule.template.replacement? (.node .methodInvocation cs) rule.selected parent =
      some new := by
  obtain ⟨s, hs⟩ := Option.isSome_iff_exists.mp hfind
  obtain ⟨hmem, -, htypes, -⟩ := Matcher.find?_eq_some hs
  have harity : s.params.length = (list.filter Call.isArgument).length := by
    rw [hcount, length_of_mapM_eq_some htypes]
  obtain ⟨captured, hcaptured⟩ := exists_mapM_getElem? (list.filter Call.isArgument) rule.selected
    fun index hindex => by
      rw [← harity]
      exact hrule.selected s hmem index hindex
  unfold Template.replacement?
  simp only [hrule.length, ne_eq, not_true_eq_false, if_false, hlist, hcaptured]
  split
  next htarget =>
    obtain ⟨expression, hbody, -⟩ := hrule.operand htarget
    rw [hbody]
    exact ⟨_, rfl⟩
  next =>
    obtain ⟨contents, hcontents⟩ :=
      Option.isSome_iff_exists.mp (replaceContents?_of_isClosed hclosed _)
    rw [hcontents]
    exact ⟨_, rfl⟩

theorem replacement?_visited (hrule : rule.Checked) {around : List Span} {start : Nat}
    {cs cs' : List Tree} {changed : Bool} {w w' : Walk}
    (hclosed : (Tree.node .methodInvocation cs).ClosedCalls)
    (hfind : (rule.matcher.find? r ⟨.node .methodInvocation cs, start, around⟩).isSome = true)
    (hparts : rule.visitAll r (⟨.methodInvocation, start, start + Tree.byteLengthOf cs⟩ :: around)
      start cs w = (cs', changed, w')) :
    ∃ new, rule.template.replacement? (.node .methodInvocation (if changed then cs' else cs))
      rule.selected (around.head?.map (·.kind)) = some new := by
  obtain ⟨position, list, hlist, hlistClosed, hcount⟩ := exists_walked_list (r := r) hrule hclosed
    (⟨.methodInvocation, start, start + Tree.byteLengthOf cs⟩ :: around) rfl start w
  rw [hparts] at hlist
  rw [visitAll_rebuilt hparts]
  refine replacement?_isSome hrule hfind hlist hlistClosed (hcount.trans ?_)
  have helements := Site.arguments_element ⟨.node .methodInvocation cs, start, around⟩
  rw [← helements, List.length_map]

/-! ## Counting -/

/-- A call that a signature of the rule fits. -/
def isMatch (rule : Rule) (r : R) (x : Site) : Bool :=
  Call.isCall x && (rule.matcher.find? r x).isSome

/-- A walk from `w` to `w'` over some nodes has counted the calls and the matches among them. -/
structure Tallies (rule : Rule) (r : R) (nodes : List Site) (w w' : Walk) : Prop where
  visited : w'.stats.callsVisited = w.stats.callsVisited + (nodes.filter Call.isCall).length
  migrated : w'.stats.callsMigrated = w.stats.callsMigrated + (nodes.filter (rule.isMatch r)).length

theorem Tallies.append {xs ys : List Site} {w w' w'' : Walk} (h : Tallies rule r xs w w')
    (h' : Tallies rule r ys w' w'') : Tallies rule r (xs ++ ys) w w'' := by
  constructor
  · rw [h'.visited, h.visited, List.filter_append, List.length_append, Nat.add_assoc]
  · rw [h'.migrated, h.migrated, List.filter_append, List.length_append, Nat.add_assoc]

theorem Tallies.node {x : Site} {nodes : List Site} {w w' : Walk} (h : Tallies rule r nodes w w')
    (hx : Call.isCall x = false) : Tallies rule r (x :: nodes) w w' := by
  constructor
  · rw [h.visited, List.filter_cons_of_neg (by simp [hx])]
  · rw [h.migrated, List.filter_cons_of_neg (by simp [isMatch, hx])]

/-- A call is counted as visited when it is met, and if it does not match, that is all. -/
theorem Tallies.keep {x : Site} {nodes : List Site} {w w' : Walk} {range : Nat × Nat}
    (h : Tallies rule r nodes (w.enter range) w') (hx : Call.isCall x = true)
    (hfind : (rule.matcher.find? r x).isSome = false) :
    Tallies rule r (x :: nodes) w (w'.keep range) := by
  constructor
  · rw [List.filter_cons_of_pos hx, List.length_cons]
    refine h.visited.trans ?_
    change w.stats.callsVisited + 1 + _ = _
    omega
  · rw [List.filter_cons_of_neg (by simp [isMatch, hfind])]
    exact h.migrated

/-- A match is counted twice, once as visited and once as migrated. -/
theorem Tallies.replace {x : Site} {nodes : List Site} {w w' : Walk} {range : Nat × Nat}
    (h : Tallies rule r nodes (w.enter range) w') (hx : Call.isCall x = true)
    (hfind : (rule.matcher.find? r x).isSome = true) (needed : List TypeName) :
    Tallies rule r (x :: nodes) w (w'.replace range needed) := by
  constructor
  · rw [List.filter_cons_of_pos hx, List.length_cons]
    refine h.visited.trans ?_
    change w.stats.callsVisited + 1 + _ = _
    omega
  · rw [List.filter_cons_of_pos (by simp [isMatch, hx, hfind]), List.length_cons]
    change w'.stats.callsMigrated + 1 = _
    rw [h.migrated]
    rfl

mutual
theorem visit_tallies (hrule : rule.Checked) : ∀ (t : Tree) (around : List Span) (start : Nat)
    (w : Walk), t.ClosedCalls →
      Tallies rule r (Site.nodesAt around start t) w (rule.visit r around start t w).2
  | .token k s, around, start, w, _ => by
    rw [visit, Site.nodesAt]
    exact ⟨rfl, rfl⟩
  | .node k cs, around, start, w, hclosed => by
    rw [Site.nodesAt]
    by_cases hk : k = .methodInvocation
    · subst hk
      have hparts := visitAll_tallies hrule cs
        (⟨.methodInvocation, start, start + Tree.byteLengthOf cs⟩ :: around) start
        (w.enter (start, start + Tree.byteLengthOf cs)) fun t ht => hclosed.child ht
      cases hfind : (rule.matcher.find? r ⟨.node .methodInvocation cs, start, around⟩).isSome with
      | false =>
        rw [visit_kept hfind]
        exact hparts.keep rfl hfind
      | true =>
        rcases hvisit : rule.visitAll r
          (⟨.methodInvocation, start, start + Tree.byteLengthOf cs⟩ :: around) start cs
          (w.enter (start, start + Tree.byteLengthOf cs)) with ⟨cs', changed, w'⟩
        obtain ⟨new, hnew⟩ := replacement?_visited hrule hclosed hfind hvisit
        rw [visit_replaced hfind hvisit hnew]
        rw [hvisit] at hparts
        exact hparts.replace rfl hfind _
    · rw [visit_node hk]
      refine Tallies.node (visitAll_tallies hrule cs _ start w fun t ht => hclosed.child ht) ?_
      rw [Call.isCall, Bool.and_eq_false_iff, beq_eq_false_iff_ne]
      exact .inr hk
theorem visitAll_tallies (hrule : rule.Checked) : ∀ (ts : List Tree) (around : List Span)
    (start : Nat) (w : Walk), (∀ t ∈ ts, t.ClosedCalls) →
      Tallies rule r (Site.nodesAtAll around start ts) w (rule.visitAll r around start ts w).2.2
  | [], around, start, w, _ => by
    rw [visitAll, Site.nodesAtAll]
    exact ⟨rfl, rfl⟩
  | t :: ts, around, start, w, hclosed => by
    rw [visitAll, Site.nodesAtAll]
    exact (visit_tallies hrule t around start w (hclosed t List.mem_cons_self)).append
      (visitAll_tallies hrule ts around _ _ fun u hu => hclosed u (List.mem_cons_of_mem _ hu))
end

end Rule

/-! ## Runs of built recipes -/

theorem Template.exists_expression {fragment : String} {placeholders : List Placeholder}
    {imports : List String} {t : Template}
    (h : compile fragment placeholders imports .invocation = .ok t) :
    ∃ expression, t.body = [expression] := by
  obtain ⟨u, -, -, hfound⟩ := readBody_eq_ok_iff.mp (compileWith_eq_ok_iff.mp h).read
  obtain ⟨expression, hbody, -⟩ := text_of_expressionOf? hfound
  exact ⟨expression, hbody⟩

theorem RecipeParts.Built.checked {parts : RecipeParts} {recipe : Recipe} (h : parts.Built recipe)
    (hoperand : recipe.rule.template.target = .invocation →
      ∀ expression ∈ recipe.rule.template.body, Call.isArgument expression = true) :
    recipe.rule.Checked := by
  refine ⟨h.length_selected, fun s hs index hindex => h.selected_lt hs hindex, fun htarget => ?_⟩
  obtain ⟨fragment, placeholders, hcompile⟩ := h.template
  rw [← (Template.compileWith_eq_ok_iff.mp hcompile).target_eq, htarget] at hcompile
  obtain ⟨expression, hbody⟩ := Template.exists_expression hcompile
  refine ⟨expression, hbody, hoperand htarget expression ?_⟩
  rw [hbody]
  exact List.mem_singleton_self expression

theorem Outcome.stats_ofWalk (u : JavaUnit) (new : Option Tree) (w : Walk) :
    (ofWalk u new w).stats.callsVisited = w.stats.callsVisited ∧
      (ofWalk u new w).stats.callsMigrated = w.stats.callsMigrated := by
  unfold ofWalk
  split <;> exact ⟨rfl, rfl⟩

/-- A recipe that replaces calls of `p.A.f` by their argument. -/
def unwrapping : RecipeParts :=
  { RecipeParts.ofName "unwrapping" with
    precondition := some ("p..*", false)
    signatures := ["p.A f(int)"]
    template := some "#\x7b\x7d"
    target := .invocation
    table := ⟨[⟨⟨"p.A"⟩, [], [⟨"f", [⟨"int"⟩], ⟨"int"⟩, false⟩]⟩]⟩ }

def unwrappingRecipe : Recipe :=
  ⟨"unwrapping", "unwrapping", "", ⟨⟨.recursive "p", false⟩, ⟨[⟨⟨"p.A"⟩, "f", [⟨"int"⟩]⟩], false⟩,
    ⟨"#\x7b\x7d", .invocation, [.any], [], [.token .identifier "__hcrewrite_slot0__"]⟩, [0]⟩,
    unwrapping.table⟩

theorem parse_unwrappingGate : Gate.parse "p..*" false = .ok unwrappingRecipe.rule.gate :=
  eq_ok_of_toOption (by decide +kernel)

theorem parseSignatures_unwrapping :
    RecipeParts.parseSignatures unwrapping.signatures = .ok unwrappingRecipe.rule.matcher.signatures :=
  eq_ok_of_toOption (by decide +kernel)

end CallMigration
