import CallMigration.Proofs.Grouping

/-!
# Every call settles

A walk notes the state of a call under its byte range, when it meets the call and again when it leaves it.
A call in the parts of another one can have the same range and writes over its state in between, but the
call around it is left later. So the range of a call has the final state of one of the calls with this
range, and all other ranges are never touched.

What a walk makes of an element does not depend on the states. Only a call that is replaced changes a tree,
and every node around it is built again, with all other children as they were.

* `Rule.migrated?`, `Rule.fate` : what a call is replaced by, and the state that it gets in the end.
* `Rule.rebuilt` : a node with what became of its children.
* `Rule.Settles` : what a walk over some nodes does to the states.
* `Rule.visit_answer` : what a walk makes of an element.
* `Rule.visit_settles_calls` : the states and the tree after a walk.
-/

namespace CallMigration

def Site.range (x : Site) : Nat × Nat :=
  (x.start, x.start + x.element.byteLength)

/-! ## States by their ranges -/

namespace Walk

theorem lookup_cons_of_ne {range range' : Nat × Nat} (h : range' ≠ range) (s : VisitState)
    (states : List ((Nat × Nat) × VisitState)) :
    ((range, s) :: states).lookup range' = states.lookup range' := by
  have hne : (range' == range) = false := beq_eq_false_iff_ne.mpr h
  rw [List.lookup_cons, hne]

theorem lookup_setState (range range' : Nat × Nat) (s : VisitState)
    (states : List ((Nat × Nat) × VisitState)) :
    (setState range s states).lookup range' =
      if range' = range then some s else states.lookup range' := by
  by_cases h : range' = range
  · rw [if_pos h, h]
    induction states with
    | nil => rw [setState, List.lookup_cons_self]
    | cons entry states ih =>
      unfold setState
      split
      next => exact List.lookup_cons_self
      next hne => rw [lookup_cons_of_ne (Ne.symm hne), ih]
  · rw [if_neg h]
    induction states with
    | nil => rw [setState, lookup_cons_of_ne h]
    | cons entry states ih =>
      unfold setState
      split
      next heq =>
        rw [lookup_cons_of_ne h, lookup_cons_of_ne]
        rwa [heq]
      next => rw [List.lookup_cons, List.lookup_cons, ih]

theorem mem_keys_setState {range range' : Nat × Nat} {s : VisitState}
    {states : List ((Nat × Nat) × VisitState)}
    (h : range' ∈ (setState range s states).map (·.1)) :
    range' = range ∨ range' ∈ states.map (·.1) := by
  induction states with
  | nil => exact .inl (List.mem_singleton.mp h)
  | cons entry states ih =>
    obtain ⟨first, t⟩ := entry
    unfold setState at h
    split at h
    next =>
      rcases List.mem_cons.mp h with rfl | h
      · exact .inl rfl
      · exact .inr (List.mem_cons_of_mem _ h)
    next =>
      rcases List.mem_cons.mp h with rfl | h
      · exact .inr List.mem_cons_self
      · exact (ih h).imp_right (List.mem_cons_of_mem _)

/-- No range has two states. -/
def Single (w : Walk) : Prop :=
  (w.states.map (·.1)).Nodup

theorem nodup_setState (range : Nat × Nat) (s : VisitState)
    {states : List ((Nat × Nat) × VisitState)} (h : (states.map (·.1)).Nodup) :
    ((setState range s states).map (·.1)).Nodup := by
  induction states with
  | nil => exact List.nodup_cons.mpr ⟨List.not_mem_nil, List.nodup_nil⟩
  | cons entry states ih =>
    obtain ⟨first, t⟩ := entry
    rw [List.map_cons, List.nodup_cons] at h
    unfold setState
    split
    next hfirst =>
      rw [List.map_cons, List.nodup_cons, ← hfirst]
      exact h
    next hfirst =>
      rw [List.map_cons, List.nodup_cons]
      refine ⟨fun hmem => ?_, ih h.2⟩
      rcases mem_keys_setState hmem with hrange | hmem
      · exact hfirst hrange
      · exact h.1 hmem

theorem Single.lookup {w : Walk} (h : w.Single) {range : Nat × Nat} {s : VisitState}
    (hmem : (range, s) ∈ w.states) : w.states.lookup range = some s := by
  obtain ⟨before, after, hstates⟩ := List.append_of_mem hmem
  unfold Single at h
  rw [hstates, List.map_append, List.map_cons, List.nodup_append] at h
  rw [List.lookup_eq_some_iff]
  refine ⟨before, after, hstates, fun entry hentry => ?_⟩
  have hne := h.2.2 entry.1 (List.mem_map_of_mem hentry) range List.mem_cons_self
  exact bne_iff_ne.mpr (Ne.symm hne)

end Walk

namespace Rule

variable {R : Type} [TypeResolver R] {rule : Rule} {r : R} {around : List Span} {start : Nat}

theorem keeps_single (rule : Rule) : rule.Keeps Walk.Single where
  enter _ range h := Walk.nodup_setState range .visiting h
  keep _ range h := Walk.nodup_setState range .unchanged h
  replace _ range h := Walk.nodup_setState range .migrated h

/-! ## What a walk makes of an element -/

/-- The node with what became of its children. -/
def rebuilt (rule : Rule) (r : R) (x : Site) : Tree :=
  .node x.element.kind (x.children.map fun c =>
    (rule.visit r c.around c.start c.element (.start true)).1.getD c.element)

/-- What a call is replaced by: the template is applied to the call with what became of its parts, if a
signature fits the call as it stands in the source. -/
def migrated? (rule : Rule) (r : R) (x : Site) : Option Tree :=
  if Call.isCall x && (rule.matcher.find? r x).isSome then
    rule.template.replacement? (rule.rebuilt r x) rule.selected x.parentKind?
  else none

def fate (rule : Rule) (r : R) (x : Site) : VisitState :=
  if (rule.migrated? r x).isSome then .migrated else .unchanged

def anyMigrated (rule : Rule) (r : R) (nodes : List Site) : Bool :=
  nodes.any fun y => (rule.migrated? r y).isSome

/-- What a walk makes of an element does not depend on what it has seen before. -/
theorem visitAll_fst (ts : List Tree) (w : Walk) :
    (rule.visitAll r around start ts w).1 = (Site.place around start ts).map fun c =>
      (rule.visit r c.around c.start c.element (.start true)).1.getD c.element := by
  induction ts generalizing start w with
  | nil =>
    rw [visitAll]
    rfl
  | cons t ts ih =>
    have hhead : (rule.visit r around start t w).1.getD t =
        (rule.visit r around start t (.start true)).1.getD t :=
      (erase_trace rule r t around start w).symm.trans (erase_trace rule r t around start _)
    rw [visitAll, Site.place, List.map_cons]
    simp only [hhead, ih]

theorem rebuilt_node (rule : Rule) (r : R) (around : List Span) (start : Nat) (k : Kind)
    (cs : List Tree) (w : Walk) :
    rule.rebuilt r ⟨.node k cs, start, around⟩ = .node k
      (rule.visitAll r (⟨k, start, start + Tree.byteLengthOf cs⟩ :: around) start cs w).1 := by
  rw [visitAll_fst]
  rfl

theorem migrated?_eq_none {x : Site} (h : Call.isCall x = false) : rule.migrated? r x = none := by
  unfold migrated?
  simp [h]

theorem visit_call_eq {cs cs' : List Tree} {changed : Bool} {w w' : Walk}
    (hparts : rule.visitAll r (⟨.methodInvocation, start, start + Tree.byteLengthOf cs⟩ :: around)
      start cs (w.enter (start, start + Tree.byteLengthOf cs)) = (cs', changed, w')) :
    rule.visit r around start (.node .methodInvocation cs) w =
      let x : Site := ⟨.node .methodInvocation cs, start, around⟩
      ((rule.migrated? r x).or (if changed then some (rule.rebuilt r x) else none),
        if (rule.migrated? r x).isSome then w'.replace x.range rule.template.imports
        else w'.keep x.range) := by
  have hrebuilt := rebuilt_node rule r around start .methodInvocation cs
    (w.enter (start, start + Tree.byteLengthOf cs))
  rw [hparts] at hrebuilt
  have hsame : (if changed then cs' else cs) = cs' := visitAll_rebuilt hparts
  cases hfind : (rule.matcher.find? r ⟨.node .methodInvocation cs, start, around⟩).isSome with
  | false =>
    have hnone : rule.migrated? r ⟨.node .methodInvocation cs, start, around⟩ = none := by
      unfold migrated?
      simp [hfind]
    rw [visit_kept hfind]
    simp only [hparts, hnone, hrebuilt]
    rfl
  | true =>
    have hmigrated : rule.migrated? r ⟨.node .methodInvocation cs, start, around⟩ =
        rule.template.replacement? (.node .methodInvocation (if changed then cs' else cs))
          rule.selected (around.head?.map (·.kind)) := by
      unfold migrated?
      rw [hsame, ← hrebuilt, hfind]
      rfl
    cases hnew : rule.migrated? r ⟨.node .methodInvocation cs, start, around⟩ with
    | none =>
      rw [visit_unreplaced hparts (hmigrated.symm.trans hnew)]
      simp only [hnew, hrebuilt]
      rfl
    | some new =>
      rw [visit_replaced hfind hparts (hmigrated.symm.trans hnew)]
      simp only [hnew]
      rfl

theorem isCall_eq_false {k : Kind} {cs : List Tree} (hk : k ≠ .methodInvocation) :
    Call.isCall (⟨.node k cs, start, around⟩ : Site) = false := by
  rw [Call.isCall, Bool.and_eq_false_iff, beq_eq_false_iff_ne]
  exact .inr hk

theorem isSome_ite_some (changed : Bool) (t : Tree) :
    (if changed then some t else none).isSome = changed := by
  cases changed <;> rfl

mutual
/-- A walk makes something of an element exactly if a call in it is replaced. -/
theorem visit_isSome : ∀ (t : Tree) (around : List Span) (start : Nat) (w : Walk),
    (rule.visit r around start t w).1.isSome = rule.anyMigrated r (Site.nodesAt around start t)
  | .token _ _, _, _, _ => by
    rw [visit, Site.nodesAt]
    rfl
  | .node k cs, around, start, w => by
    rw [Site.nodesAt, anyMigrated, List.any_cons]
    by_cases hk : k = .methodInvocation
    · subst hk
      have hparts := visitAll_changed cs
        (⟨.methodInvocation, start, start + Tree.byteLengthOf cs⟩ :: around) start
        (w.enter (start, start + Tree.byteLengthOf cs))
      rw [visit_call_eq rfl, ← anyMigrated, ← hparts]
      simp only [Option.isSome_or, isSome_ite_some]
    · have hparts := visitAll_changed cs (⟨k, start, start + Tree.byteLengthOf cs⟩ :: around) start w
      rw [visit_node hk, migrated?_eq_none (isCall_eq_false hk), ← anyMigrated, ← hparts]
      simp only [isSome_ite_some]
      rfl
theorem visitAll_changed : ∀ (ts : List Tree) (around : List Span) (start : Nat) (w : Walk),
    (rule.visitAll r around start ts w).2.1 = rule.anyMigrated r (Site.nodesAtAll around start ts)
  | [], _, _, _ => by
    rw [visitAll]
    rfl
  | t :: ts, around, start, w => by
    rw [visitAll, Site.nodesAtAll, anyMigrated, List.any_append]
    simp only [visit_isSome t around start w, visitAll_changed ts around _ _]
    rfl
end

/-- **What a walk makes of an element**: its replacement, or else the node with what became of its children
if a call in it is replaced, or else nothing. -/
theorem visit_answer (rule : Rule) (r : R) (x : Site) (w : Walk) :
    (rule.visit r x.around x.start x.element w).1 =
      (rule.migrated? r x).or (if rule.anyMigrated r x.nodes then some (rule.rebuilt r x) else none) := by
  obtain ⟨t, start, around⟩ := x
  cases t with
  | token k s => rfl
  | node k cs =>
    have hnodes : rule.anyMigrated r (⟨.node k cs, start, around⟩ : Site).nodes =
        ((rule.migrated? r ⟨.node k cs, start, around⟩).isSome || rule.anyMigrated r
          (Site.nodesAtAll (⟨k, start, start + Tree.byteLengthOf cs⟩ :: around) start cs)) := rfl
    rw [hnodes]
    by_cases hk : k = .methodInvocation
    · subst hk
      rw [visit_call_eq rfl]
      simp only [visitAll_changed]
      cases rule.migrated? r ⟨.node .methodInvocation cs, start, around⟩ <;> rfl
    · rw [visit_node hk, migrated?_eq_none (isCall_eq_false hk), rebuilt_node rule r around start k cs w]
      simp only [visitAll_changed]
      rfl

/-! ## What a walk does to the states -/

/-- After a walk from `w` to `w'` over some nodes, the range of a call has the final state of one of the
calls with this range, and a range of no call has the state that it had before. -/
def Settles (rule : Rule) (r : R) (nodes : List Site) (w w' : Walk) : Prop :=
  ∀ range, (∃ x ∈ nodes, Call.isCall x = true ∧ x.range = range ∧
      w'.states.lookup range = some (rule.fate r x)) ∨
    (∀ x ∈ nodes, Call.isCall x = true → x.range ≠ range) ∧
      w'.states.lookup range = w.states.lookup range

theorem Settles.refl (w : Walk) : rule.Settles r [] w w :=
  fun _ => .inr ⟨List.forall_mem_nil _, rfl⟩

theorem Settles.append {xs ys : List Site} {w w' w'' : Walk} (h : rule.Settles r xs w w')
    (h' : rule.Settles r ys w' w'') : rule.Settles r (xs ++ ys) w w'' := by
  intro range
  rcases h' range with ⟨y, hy, hcall, hrange, hlookup⟩ | ⟨hother', hsame'⟩
  · exact .inl ⟨y, List.mem_append_right _ hy, hcall, hrange, hlookup⟩
  · rcases h range with ⟨x, hx, hcall, hrange, hlookup⟩ | ⟨hother, hsame⟩
    · exact .inl ⟨x, List.mem_append_left _ hx, hcall, hrange, hsame'.trans hlookup⟩
    · exact .inr ⟨List.forall_mem_append.mpr ⟨hother, hother'⟩, hsame'.trans hsame⟩

theorem Settles.node {x : Site} {nodes : List Site} {w w' : Walk} (h : rule.Settles r nodes w w')
    (hx : Call.isCall x = false) : rule.Settles r (x :: nodes) w w' := by
  intro range
  rcases h range with ⟨y, hy, hcall, hrange, hlookup⟩ | ⟨hother, hsame⟩
  · exact .inl ⟨y, List.mem_cons_of_mem _ hy, hcall, hrange, hlookup⟩
  · refine .inr ⟨List.forall_mem_cons.mpr ⟨fun hcall => ?_, hother⟩, hsame⟩
    rw [hx] at hcall
    cases hcall

/-- A call is met before its parts and left after them, whatever states these have left. -/
theorem Settles.call {x : Site} {nodes : List Site} {w w' w'' : Walk}
    (h : rule.Settles r nodes (w.enter x.range) w') (hx : Call.isCall x = true)
    (hleft : w''.states = Walk.setState x.range (rule.fate r x) w'.states) :
    rule.Settles r (x :: nodes) w w'' := by
  intro range
  rw [hleft, Walk.lookup_setState]
  by_cases hrange : range = x.range
  · rw [if_pos hrange]
    exact .inl ⟨x, List.mem_cons_self, hx, hrange.symm, rfl⟩
  · rw [if_neg hrange]
    rcases h range with ⟨y, hy, hcall, hyrange, hlookup⟩ | ⟨hother, hsame⟩
    · exact .inl ⟨y, List.mem_cons_of_mem _ hy, hcall, hyrange, hlookup⟩
    · have hentered : (w.enter x.range).states.lookup range = w.states.lookup range :=
        (Walk.lookup_setState _ _ _ _).trans (if_neg hrange)
      refine .inr ⟨List.forall_mem_cons.mpr ⟨fun _ heq => hrange heq.symm, hother⟩, ?_⟩
      rw [hsame, hentered]

theorem states_left (rule : Rule) (r : R) (x : Site) (w : Walk) :
    (if (rule.migrated? r x).isSome then w.replace x.range rule.template.imports
      else w.keep x.range).states = Walk.setState x.range (rule.fate r x) w.states := by
  unfold fate
  split <;> rfl

mutual
theorem visit_settles (rule : Rule) (r : R) : ∀ (t : Tree) (around : List Span)
    (start : Nat) (w : Walk),
    rule.Settles r (Site.nodesAt around start t) w (rule.visit r around start t w).2
  | .token _ _, _, _, w => by
    rw [visit, Site.nodesAt]
    exact .refl w
  | .node k cs, around, start, w => by
    rw [Site.nodesAt]
    by_cases hk : k = .methodInvocation
    · subst hk
      rw [visit_call_eq rfl]
      exact (visitAll_settles rule r cs _ start _).call rfl (states_left rule r _ _)
    · rw [visit_node hk]
      exact (visitAll_settles rule r cs _ start w).node (isCall_eq_false hk)
theorem visitAll_settles (rule : Rule) (r : R) : ∀ (ts : List Tree) (around : List Span)
    (start : Nat) (w : Walk),
    rule.Settles r (Site.nodesAtAll around start ts) w (rule.visitAll r around start ts w).2.2
  | [], _, _, w => by
    rw [visitAll, Site.nodesAtAll]
    exact .refl w
  | t :: ts, around, start, w => by
    rw [visitAll, Site.nodesAtAll]
    exact (visit_settles rule r t around start w).append (visitAll_settles rule r ts around _ _)
end

theorem single_visit (rule : Rule) (r : R) (t : Tree) (gatePresent : Bool) :
    (rule.visit r [] 0 t (.start gatePresent)).2.Single :=
  visit_preserves rule.keeps_single t [] 0 _ List.nodup_nil

theorem mem_states_visit {t : Tree} {gatePresent : Bool} {range : Nat × Nat} {s : VisitState}
    (h : (range, s) ∈ (rule.visit r [] 0 t (.start gatePresent)).2.states) :
    ∃ x ∈ (Site.root t).nodes, Call.isCall x = true ∧ x.range = range ∧ s = rule.fate r x := by
  have hlookup := (single_visit rule r t gatePresent).lookup h
  rcases visit_settles rule r t [] 0 (.start gatePresent) range with
    ⟨x, hx, hcall, hrange, hfate⟩ | ⟨-, hsame⟩
  · rw [hlookup] at hfate
    exact ⟨x, hx, hcall, hrange, Option.some.inj hfate⟩
  · rw [hlookup] at hsame
    cases hsame

theorem isFinal_fate (rule : Rule) (r : R) (x : Site) : (rule.fate r x).isFinal = true := by
  unfold fate
  split <;> rfl

theorem state_left {x : Site} (hx : Call.isCall x = true) (w : Walk) :
    (rule.visit r x.around x.start x.element w).2.state x.range = rule.fate r x := by
  obtain ⟨t, start, around⟩ := x
  cases t with
  | token k s => cases hx
  | node k cs =>
    have hk : k = .methodInvocation := by
      rw [Call.isCall, Bool.and_eq_true, beq_iff_eq] at hx
      exact hx.2
    subst hk
    rw [visit_call_eq rfl, Walk.state, states_left, Walk.lookup_setState, if_pos rfl]
    rfl

theorem visit_eq_none_iff (x : Site) (w : Walk) :
    (rule.visit r x.around x.start x.element w).1 = none ↔
      ∀ y ∈ x.nodes, rule.migrated? r y = none := by
  rw [← Option.not_isSome_iff_eq_none, visit_isSome, anyMigrated, Bool.not_eq_true, List.any_eq_false]
  simp only [Option.not_isSome_iff_eq_none]
  rfl

theorem getElem?_rebuilt {x c : Site} {i : Nat} (h : x.children[i]? = some c) (w : Walk)
    (hnone : (rule.visit r c.around c.start c.element w).1 = none) :
    (rule.rebuilt r x).children[i]? = some c.element := by
  have hstart := (visit_eq_none_iff c (.start true)).mpr ((visit_eq_none_iff c w).mp hnone)
  unfold rebuilt
  rw [Tree.children, List.getElem?_map, h, Option.map_some, hstart, Option.getD_none]

/-- **Every call settles**, also where calls share a byte range: after a walk over a unit the range of every
call is recorded, and what is recorded for a range is that one of the calls with it was migrated or left
unchanged. Whatever was walked over before, a call has its own state when it is left; a walk makes nothing
of an element exactly if no call in it is replaced, which is when none is counted, and then the node around
the element is rebuilt with the element as it was. -/
theorem visit_settles_calls (rule : Rule) (r : R) :
    (∀ (t : Tree) (gatePresent : Bool),
      let w := (rule.visit r [] 0 t (.start gatePresent)).2
      (∀ x ∈ (Site.root t).nodes, Call.isCall x = true →
        (w.states.lookup x.range).isSome = true) ∧
      (∀ range s, (range, s) ∈ w.states →
        (s = .migrated ∨ s = .unchanged) ∧ ∃ x ∈ (Site.root t).nodes, Call.isCall x = true ∧
          x.range = range ∧ s = if (rule.migrated? r x).isSome then .migrated else .unchanged) ∧
      w.isSettled = true) ∧
    ∀ (x : Site) (w : Walk),
      let after := rule.visit r x.around x.start x.element w
      (Call.isCall x = true →
        after.2.state x.range = if (rule.migrated? r x).isSome then .migrated else .unchanged) ∧
      after.1 = (rule.migrated? r x).or
        (if x.nodes.any fun y => (rule.migrated? r y).isSome then some (rule.rebuilt r x)
        else none) ∧
      (after.1 = none ↔ ∀ y ∈ x.nodes, rule.migrated? r y = none) ∧
      (after.1 = none ↔ after.2.stats.callsMigrated = w.stats.callsMigrated) ∧
      ∀ (i : Nat) (c : Site), x.children[i]? = some c →
        (rule.visit r c.around c.start c.element w).1 = none →
          (rule.rebuilt r x).children[i]? = some c.element := by
  constructor
  · intro t gatePresent w
    have hfinal : ∀ range s, (range, s) ∈ w.states → s.isFinal = true := by
      intro range s hmem
      obtain ⟨x, -, -, -, rfl⟩ := mem_states_visit hmem
      exact isFinal_fate rule r x
    refine ⟨fun x hx hcall => ?_, fun range s hmem => ⟨?_, mem_states_visit hmem⟩, ?_⟩
    · rcases visit_settles rule r t [] 0 (.start gatePresent) x.range with
        ⟨y, -, -, -, hfate⟩ | ⟨hother, -⟩
      · exact Option.isSome_of_eq_some hfate
      · exact absurd rfl (hother x hx hcall)
    · have hs := hfinal range s hmem
      cases s with
      | unvisited => cases hs
      | visiting => cases hs
      | migrated => exact .inl rfl
      | unchanged => exact .inr rfl
    · exact List.all_eq_true.mpr fun entry hentry => hfinal entry.1 entry.2 hentry
  · intro x w after
    refine ⟨fun hx => state_left hx w, visit_answer rule r x w, visit_eq_none_iff x w, ?_,
      fun i c hc hnone => getElem?_rebuilt hc w hnone⟩
    rw [← not_iff_not, ← ne_eq, ← Option.isSome_iff_ne_none]
    exact visit_isSome_iff rule r x.element x.around x.start w

/-- The call `p.A.f(1)` is the only part of another call, which has the same byte range. -/
def sharedRange : Tree :=
  .node .program [.node .methodInvocation [.node .methodInvocation [
    .node .fieldAccess [.token .identifier "p", .token .dot ".", .token .identifier "A"],
    .token .dot ".", .token .identifier "f",
    .node .argumentList [.token .leftParen "(", .token .integerLiteral "1", .token .rightParen ")"]]]]

/-- The inner call is migrated, with its receiver as it was; then the outer one is left unchanged, and that
is what is recorded. -/
theorem visit_settles_calls_shared :
    ∃ recipe outer inner receiver, scaling.build = .ok recipe ∧
      (Site.root sharedRange).children = [outer] ∧ outer.children = [inner] ∧
      inner.children[0]? = some receiver ∧ outer.range = inner.range ∧
      let r := Resolver.ofTree recipe.table sharedRange
      let w := (recipe.rule.visit r [] 0 sharedRange (.start true)).2
      w.states = [(inner.range, .unchanged)] ∧ w.stats.callsMigrated = 1 ∧
      (w.states.lookup inner.range).isSome = true ∧
      (∃ x ∈ (Site.root sharedRange).nodes, Call.isCall x = true ∧ x.range = inner.range ∧
        recipe.rule.migrated? r x = none) ∧
      w.isSettled = true ∧
      (recipe.rule.visit r inner.around inner.start inner.element w).2.state inner.range =
        .migrated ∧
      (recipe.rule.rebuilt r inner).children[0]? = some receiver.element := by
  let outer : Site := ((Site.root sharedRange).children[0]?).getD default
  let inner : Site := (outer.children[0]?).getD default
  let receiver : Site := (inner.children[0]?).getD default
  let recipe := scalingRecipe
  have hbuild : scaling.build = .ok recipe := scaling_build
  have hcheck : (
      let r := Resolver.ofTree recipe.table sharedRange
      let w := (recipe.rule.visit r [] 0 sharedRange (.start true)).2
      w.states == [(inner.range, .unchanged)] && w.stats.callsMigrated == 1 &&
        (recipe.rule.migrated? r inner).isSome &&
        (recipe.rule.visit r receiver.around receiver.start receiver.element w).1 == none) =
      true := by
    decide +kernel
  simp only [Bool.and_eq_true, beq_iff_eq] at hcheck
  obtain ⟨⟨⟨hstates, hcount⟩, hinner⟩, hreceiver⟩ := hcheck
  obtain ⟨hunit, hsite⟩ := visit_settles_calls recipe.rule (Resolver.ofTree recipe.table sharedRange)
  obtain ⟨hrecorded, hfinal, hsettled⟩ := hunit sharedRange true
  obtain ⟨hstate, -, -, -, hkept⟩ := hsite inner
    (recipe.rule.visit (Resolver.ofTree recipe.table sharedRange) [] 0 sharedRange (.start true)).2
  obtain ⟨-, x, hx, hcall, hrange, hfate⟩ := hfinal inner.range .unchanged (by simp [hstates])
  have hnone : recipe.rule.migrated? (Resolver.ofTree recipe.table sharedRange) x = none := by
    rw [← Option.not_isSome_iff_eq_none]
    intro hsome
    rw [if_pos hsome] at hfate
    cases hfate
  have hmem : inner ∈ (Site.root sharedRange).nodes := by decide +kernel
  refine ⟨recipe, outer, inner, receiver, hbuild, rfl, rfl, rfl, rfl, hstates, hcount,
    hrecorded inner hmem rfl, ⟨x, hx, hcall, hrange, hnone⟩, hsettled, ?_,
    hkept 0 receiver rfl hreceiver⟩
  rw [hstate rfl, if_pos hinner]

end Rule

end CallMigration
