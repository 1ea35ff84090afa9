import CallMigration.Proofs.Evaluation
import CallMigration.Proofs.Rerun
import Mathlib.Tactic.ByContra

/-!
# Running the stock recipe twice

The second run of a recipe has nothing to do if no call of the unit that the first one left is
matched. Calls that were migrated are not, since their argument is a timeout now. But the added import
can give a meaning to names inside of calls that were left alone, and some of these match only then.

* `Rule.Quiet`, `Rule.run_idle_iff` : a run changes nothing exactly if no call can be replaced.
* `Rule.Asleep` : no call matches only with the imports of the unit afterwards.
* `UseTimeout.rerun_idle_iff` : exactly then the second run changes nothing.
-/

namespace CallMigration

open Element

/-! ## Runs without a match -/

namespace Rule

variable {R : Type} [TypeResolver R] {rule : Rule} {r : R}

def Hit (rule : Rule) (r : R) (call : Site) : Prop :=
  (rule.matcher.find? r call).isSome = true ∧
    (rule.template.replacement? call.element rule.selected call.parentKind?).isSome = true

/-- None of the nodes is a call that is replaced. -/
def Quiet (rule : Rule) (r : R) (nodes : List Site) : Prop :=
  ∀ call ∈ nodes, Call.isCall call = true → ¬ rule.Hit r call

theorem quiet_cons {x : Site} {nodes : List Site} :
    rule.Quiet r (x :: nodes) ↔ (Call.isCall x = true → ¬ rule.Hit r x) ∧ rule.Quiet r nodes :=
  List.forall_mem_cons

theorem quiet_append {xs ys : List Site} :
    rule.Quiet r (xs ++ ys) ↔ rule.Quiet r xs ∧ rule.Quiet r ys :=
  List.forall_mem_append

/-- The walk over a call that matches and cannot be replaced. -/
theorem visit_unreplaced {around : List Span} {start : Nat} {cs cs' : List Tree} {changed : Bool}
    {w w' : Walk}
    (hparts : rule.visitAll r (⟨.methodInvocation, start, start + Tree.byteLengthOf cs⟩ :: around)
      start cs (w.enter (start, start + Tree.byteLengthOf cs)) = (cs', changed, w'))
    (hnone : rule.template.replacement? (.node .methodInvocation (if changed then cs' else cs))
      rule.selected (around.head?.map (·.kind)) = none) :
    rule.visit r around start (.node .methodInvocation cs) w =
      (if changed then some (.node .methodInvocation cs') else none,
        w'.keep (start, start + Tree.byteLengthOf cs)) := by
  rw [visit, if_pos rfl]
  have hrebuilt : (if changed then Tree.node .methodInvocation cs' else .node .methodInvocation cs) =
      .node .methodInvocation (if changed then cs' else cs) := by
    split <;> rfl
  simp only [hparts, hrebuilt, Site.parentKind?, hnone]
  cases changed <;> simp

/-- What a walk that counts `before` calls in front of an element counts behind it. -/
def Counts (rule : Rule) (r : R) (nodes : List Site) (changed : Bool) (before after : Nat) :
    Prop :=
  before ≤ after ∧ (after = before ↔ rule.Quiet r nodes) ∧ (after = before → changed = false)

theorem Counts.append {xs ys : List Site} {changed changed' : Bool} {before middle after : Nat}
    (h : Counts rule r xs changed before middle) (h' : Counts rule r ys changed' middle after) :
    Counts rule r (xs ++ ys) (changed || changed') before after := by
  obtain ⟨hle, hiff, hsame⟩ := h
  obtain ⟨hle', hiff', hsame'⟩ := h'
  -- The counts never fall, so they agree at the ends only if they agree in the middle.
  have hboth (heq : after = before) : middle = before ∧ after = middle := by
    omega
  rw [Counts, quiet_append, ← hiff, ← hiff']
  refine ⟨hle.trans hle', ⟨hboth, fun ⟨heq, heq'⟩ => heq'.trans heq⟩, fun heq => ?_⟩
  rw [hsame (hboth heq).1, hsame' (hboth heq).2]
  rfl

theorem Counts.kept {x : Site} {nodes : List Site} {changed : Bool} {before after : Nat}
    (h : Counts rule r nodes changed before after)
    (hno : after = before → Call.isCall x = true → ¬ rule.Hit r x) :
    Counts rule r (x :: nodes) changed before after := by
  obtain ⟨hle, hiff, hsame⟩ := h
  refine ⟨hle, ?_, hsame⟩
  rw [quiet_cons]
  constructor
  · intro heq
    exact ⟨hno heq, hiff.mp heq⟩
  · intro hquiet
    exact hiff.mpr hquiet.2

/-- A call that is replaced is counted. Only if nothing is replaced in its parts, it is replaced as it
stands. -/
theorem Counts.replaced {x : Site} {nodes : List Site} {changed : Bool} {before after : Nat}
    (h : Counts rule r nodes changed before after) (hcall : Call.isCall x = true)
    (hhit : after = before → rule.Hit r x) :
    Counts rule r (x :: nodes) true before (after + 1) := by
  obtain ⟨hle, hiff, -⟩ := h
  refine ⟨by omega, ?_, fun heq => by omega⟩
  rw [quiet_cons]
  constructor
  · intro heq
    omega
  · intro hquiet
    exact absurd (hhit (hiff.mpr hquiet.2)) (hquiet.1 hcall)

/-- The walk over a call, from what is counted in its parts. -/
theorem counts_call {around : List Span} {start : Nat} {cs cs' : List Tree} {changed : Bool}
    {w w' : Walk}
    (hparts : rule.visitAll r (⟨.methodInvocation, start, start + Tree.byteLengthOf cs⟩ :: around)
      start cs (w.enter (start, start + Tree.byteLengthOf cs)) = (cs', changed, w'))
    (h : Counts rule r
      (Site.nodesAtAll (⟨.methodInvocation, start, start + Tree.byteLengthOf cs⟩ :: around) start cs)
      changed w.stats.callsMigrated w'.stats.callsMigrated) :
    Counts rule r (Site.nodesAt around start (.node .methodInvocation cs))
      (rule.visit r around start (.node .methodInvocation cs) w).1.isSome w.stats.callsMigrated
      (rule.visit r around start (.node .methodInvocation cs) w).2.stats.callsMigrated := by
  have hsame : (if changed then some (Tree.node .methodInvocation cs') else none).isSome = changed := by
    cases changed <;> rfl
  have horiginal (heq : w'.stats.callsMigrated = w.stats.callsMigrated) :
      (if changed then cs' else cs) = cs := by
    rw [h.2.2 heq]
    rfl
  rw [Site.nodesAt]
  cases hfind : (rule.matcher.find? r ⟨.node .methodInvocation cs, start, around⟩).isSome with
  | false =>
    rw [visit_kept hfind]
    simp only [hparts, hsame]
    refine h.kept fun _ _ hhit => ?_
    rw [hhit.1] at hfind
    cases hfind
  | true =>
    cases hnew : rule.template.replacement? (.node .methodInvocation (if changed then cs' else cs))
        rule.selected (around.head?.map (·.kind)) with
    | none =>
      rw [visit_unreplaced hparts hnew, hsame]
      refine h.kept fun heq _ hhit => ?_
      rw [horiginal heq] at hnew
      exact Option.isSome_iff_ne_none.mp hhit.2 hnew
    | some new =>
      rw [visit_replaced hfind hparts hnew]
      refine h.replaced rfl fun heq => ⟨hfind, ?_⟩
      rw [horiginal heq] at hnew
      exact Option.isSome_of_eq_some hnew

mutual
/-- A walk counts a call exactly if there is one that is replaced. -/
theorem visit_counts (rule : Rule) (r : R) : ∀ (t : Tree) (around : List Span) (start : Nat)
    (w : Walk),
    Counts rule r (Site.nodesAt around start t) (rule.visit r around start t w).1.isSome
      w.stats.callsMigrated (rule.visit r around start t w).2.stats.callsMigrated
  | .token k s, around, start, w => by
    rw [visit, Site.nodesAt]
    exact ⟨Nat.le_refl _, ⟨fun _ => List.forall_mem_nil _, fun _ => rfl⟩, fun _ => rfl⟩
  | .node k cs, around, start, w => by
    by_cases hk : k = .methodInvocation
    · subst hk
      exact counts_call rfl (visitAll_counts rule r cs _ start
        (w.enter (start, start + Tree.byteLengthOf cs)))
    · have hparts := visitAll_counts rule r cs (⟨k, start, start + Tree.byteLengthOf cs⟩ :: around) start w
      have hno : ¬ Call.isCall (⟨.node k cs, start, around⟩ : Site) = true := by
        intro hcall
        rw [Call.isCall, Bool.and_eq_true, beq_iff_eq] at hcall
        exact hk hcall.2
      rw [visit_node hk, Site.nodesAt]
      refine Counts.kept ?_ fun _ hcall => absurd hcall hno
      obtain ⟨hle, hiff, hsame⟩ := hparts
      refine ⟨hle, hiff, fun heq => ?_⟩
      simp only [hsame heq]
      rfl
theorem visitAll_counts (rule : Rule) (r : R) : ∀ (ts : List Tree) (around : List Span) (start : Nat)
    (w : Walk),
    Counts rule r (Site.nodesAtAll around start ts) (rule.visitAll r around start ts w).2.1
      w.stats.callsMigrated (rule.visitAll r around start ts w).2.2.stats.callsMigrated
  | [], around, start, w => by
    rw [visitAll, Site.nodesAtAll]
    exact ⟨Nat.le_refl _, ⟨fun _ => List.forall_mem_nil _, fun _ => rfl⟩, fun _ => rfl⟩
  | t :: ts, around, start, w => by
    rw [visitAll, Site.nodesAtAll]
    exact (visit_counts rule r t around start w).append
      (visitAll_counts rule r ts around (start + t.byteLength) (rule.visit r around start t w).2)
end

/-- What the run of a rule does to a unit is nothing. -/
structure Idle (out : Outcome) (u : JavaUnit) : Prop where
  migrated : out.stats.callsMigrated = 0
  imports : out.importsAdded = []
  unit : out.unit = u
  changed : out.changed = false

/-- A run changes nothing exactly if it is skipped or no call is replaced. -/
theorem run_idle_iff (rule : Rule) (table : TypeTable) (u : JavaUnit) :
    Idle (rule.run table u) u ↔ (rule.run table u).skipped.isSome = true ∨
      rule.Quiet (Resolver.ofTree table u.tree) (Site.root u.tree).nodes := by
  rcases rule.run_cases table u with ⟨-, reason, hskip⟩ | ⟨-, hrun⟩
  · rw [hskip]
    exact iff_of_true ⟨rfl, rfl, rfl, rfl⟩ (.inl rfl)
  · obtain ⟨-, hiff, hsame⟩ := visit_counts rule (Resolver.ofTree table u.tree) u.tree [] 0 (.start true)
    have hzero : (Walk.start true).stats.callsMigrated = 0 := rfl
    have hroot : Site.nodesAt [] 0 u.tree = (Site.root u.tree).nodes := rfl
    rw [hzero] at hiff hsame
    rw [hroot] at hiff
    have hskipped : ¬ (rule.run table u).skipped.isSome = true := by
      rw [hrun, Outcome.skipped_ofWalk]
      exact Bool.false_ne_true
    rw [or_iff_right hskipped, ← hiff, hrun]
    unfold Outcome.ofWalk
    split
    next k cs hnew =>
      -- There is a new tree, so a call was counted.
      have hcounted : (rule.visit (Resolver.ofTree table u.tree) [] 0 u.tree
          (.start true)).2.stats.callsMigrated ≠ 0 := by
        intro heq
        have hnone := hsame heq
        rw [hnew] at hnone
        cases hnone
      exact iff_of_false (fun hidle => hcounted hidle.migrated) hcounted
    next =>
      constructor
      · intro hidle
        exact hidle.migrated
      · intro heq
        exact ⟨heq, rfl, rfl, rfl⟩

theorem skipped_eq_none_iff (rule : Rule) (table : TypeTable) (u : JavaUnit) :
    (rule.run table u).skipped = none ↔ rule.Enters table u := by
  rcases rule.run_cases table u with ⟨henters, reason, hskip⟩ | ⟨henters, hrun⟩
  · rw [hskip]
    exact iff_of_false nofun henters
  · rw [hrun, Outcome.skipped_ofWalk]
    exact iff_of_true rfl henters

/-- No call that does not match in a unit would match, had the unit the given imports. -/
def Asleep (rule : Rule) (table : TypeTable) (t : Tree) (imports : List ImportDecl) : Prop :=
  ∀ call ∈ (Site.root t).nodes, Call.isCall call = true →
    rule.matcher.find? (Resolver.ofTree table t) call = none →
    rule.matcher.find? ((Resolver.ofTree table t).withImports imports) call = none

instance (rule : Rule) (table : TypeTable) (t : Tree) (imports : List ImportDecl) :
    Decidable (rule.Asleep table t imports) :=
  inferInstanceAs (Decidable (∀ call ∈ (Site.root t).nodes, Call.isCall call = true →
    rule.matcher.find? (Resolver.ofTree table t) call = none →
    rule.matcher.find? ((Resolver.ofTree table t).withImports imports) call = none))

theorem asleep_self (rule : Rule) (table : TypeTable) (t : Tree) : rule.Asleep table t t.imports :=
  fun _ _ _ hnone => hnone

end Rule

namespace UseTimeout

/-! ## Wrapped arguments are no numbers -/

theorem no_paren_table : ∀ info ∈ TypeTable.httpClient5.types, ¬ HasParen info.name.chars := by
  have hall : ∀ info ∈ HttpClient5.table.types,
      '(' ∉ info.name.chars ∧ ')' ∉ info.name.chars := by decide +kernel
  rw [httpClient5_eq]
  intro info hinfo hparen
  exact hparen.elim (hall info hinfo).1 (hall info hinfo).2

theorem no_paren_setters : ∀ s ∈ rule.matcher.signatures, ¬ HasParen s.owner.chars := by
  have hall : ∀ s ∈ setters, '(' ∉ s.owner.chars ∧ ')' ∉ s.owner.chars := by decide +kernel
  intro s hs hparen
  exact hparen.elim (hall s hs).1 (hall s hs).2

theorem returns_ne_int {info : TypeInfo} (hinfo : info ∈ TypeTable.httpClient5.types)
    {m : MethodInfo} (hm : m ∈ info.methods) (hname : m.name = "ofMilliseconds") :
    m.returns ≠ int := by
  have hall : ∀ info ∈ HttpClient5.table.types, ∀ m ∈ info.methods, m.name = "ofMilliseconds" →
      m.returns ≠ int := by decide +kernel
  rw [httpClient5_eq] at hinfo
  exact hall info hinfo m hm hname

/-- A call of the name is no number, whatever its parts mean. -/
theorem typeOf?_conversion {r : Resolver} (hr : r.table = .httpClient5) {x : Site} {cs : List Tree}
    (hx : x.element = .node .methodInvocation cs) (hname : Call.name? x = some "ofMilliseconds") :
    r.typeOf? x ≠ some int := by
  intro htype
  rw [Resolver.typeOf?, Resolver.stepLimit, Resolver.typeWithin?, Resolver.typeBy?, hx] at htype
  simp only [hname] at htype
  split at htype
  next owner name howner hsome =>
    cases hsome
    obtain ⟨info, hinfo, m, hm, hmname, hreturns⟩ := TypeTable.exists_method_of_returnType? htype
    rw [hr] at hinfo
    exact returns_ne_int hinfo hm hmname hreturns
  next => cases htype

theorem typeOf?_wrap {r : Resolver} (hr : r.table = .httpClient5) {x : Site} {t : Tree}
    (hx : x.element = wrap t) : r.typeOf? x ≠ some int := by
  refine typeOf?_conversion hr hx ?_
  rw [Site.name?_element, hx]
  rfl

theorem find?_wrap (r : Resolver) {x : Site} {t : Tree} (hx : x.element = wrap t) :
    rule.matcher.find? r x = none := by
  have hname : Call.name? x = some "ofMilliseconds" := by
    rw [Site.name?_element, hx]
    rfl
  have hsetters : ∀ s ∈ setters, s.name ≠ "ofMilliseconds" := by decide
  rw [Option.eq_none_iff_forall_ne_some]
  intro s hs
  obtain ⟨hmem, hsname, -, -⟩ := Matcher.find?_eq_some hs
  rw [hname, Option.some.injEq] at hsname
  exact hsetters s hmem hsname.symm

theorem find?_added (r : Resolver) {x : Site} (hx : Overlay.IsAdded x.element)
    (hcall : Call.isCall x = true) : rule.matcher.find? r x = none := by
  rw [Call.isCall, Bool.and_eq_true, beq_iff_eq] at hcall
  have hkind : x.element.kind = .methodInvocation := hcall.2
  generalize he : x.element = t at hx hkind
  cases hx with
  | call argument => exact find?_wrap r he
  | list cs => cases hkind
  | declaration cs => cases hkind
  | name cs => cases hkind

theorem find?_wrapped {r : Resolver} (hr : r.table = .httpClient5) {x : Site} {t : Tree}
    (hx : Call.arguments x.element = [wrap t]) : rule.matcher.find? r x = none := by
  have hparams : ∀ s ∈ setters, s.params = [int] := by decide
  rw [Option.eq_none_iff_forall_ne_some]
  intro s hs
  obtain ⟨hmem, -, htypes, -⟩ := Matcher.find?_eq_some hs
  have helements := Site.arguments_element x
  rw [hx] at helements
  obtain ⟨y, hy, hyelement⟩ := List.map_eq_singleton_iff.mp helements
  rw [hy, hparams s hmem] at htypes
  refine typeOf?_wrap hr hyelement ?_
  cases htype : r.typeOf? y with
  | none => simp [htype] at htypes
  | some t => simpa [htype] using htypes

/-! ## Calls of the unit afterwards -/

section

variable {t t' : Tree} {pres posts : List Growth} {extra : List Tree}
  (h : Spread (Resolver.ofTree .httpClient5 t) t t' pres posts extra) {x x' : Site}

include h

omit h in
/-- The growth of a call: whether its argument is wrapped says whether it matched. -/
theorem exists_parts {o : Overlay} (hx : o.Counterpart x x') (hcall : Call.isCall x = true) :
    ∃ parts, o.Stands (.node .methodInvocation parts) x x' ∧
      parts.any Growth.isWrapped = (rule.matcher.find? o.resolver x).isSome := by
  obtain ⟨-, g, hg⟩ := hx
  rw [Call.isCall, Bool.and_eq_true, beq_iff_eq] at hcall
  have hnode : x.element.isNode = true := hcall.1
  have hkind : x.element.kind = .methodInvocation := hcall.2
  rw [hg.before] at hnode hkind
  cases g with
  | token k s => cases hnode
  | node k parts =>
    cases hkind
    refine ⟨parts, hg, ?_⟩
    have hany := hg.placed.1
    have hsite : (⟨.node .methodInvocation (Growth.befores parts), x.start, x.around⟩ : Site) = x := by
      rw [show Tree.node .methodInvocation (Growth.befores parts) = x.element from hg.before.symm]
    rw [hsite] at hany
    exact hany
  | wrapped left lead argument trail right => cases hkind

/-- A call that did not match has the match that the imports of the unit afterwards give it. -/
theorem find?_counterpart (hx : (Overlay.ofRun (Resolver.ofTree .httpClient5 t) pres posts extra).Counterpart x x')
    (hcall : Call.isCall x = true) :
    rule.matcher.find? (Resolver.ofTree .httpClient5 t') x' =
      if (rule.matcher.find? (Resolver.ofTree .httpClient5 t) x).isSome then none
      else rule.matcher.find? ((Resolver.ofTree .httpClient5 t).withImports t'.imports) x := by
  obtain ⟨parts, hparts, hany⟩ := exists_parts hx hcall
  have hresolver : (Overlay.ofRun (Resolver.ofTree .httpClient5 t) pres posts extra).resolver =
      Resolver.ofTree .httpClient5 t := rfl
  rw [hresolver] at hany
  rw [← hany]
  cases hwrapped : parts.any Growth.isWrapped with
  | true =>
    obtain ⟨argument, -, harguments⟩ := hparts.arguments_wrapped hwrapped
    have htable : (Resolver.ofTree .httpClient5 t').table = .httpClient5 := rfl
    rw [if_pos rfl]
    exact find?_wrapped htable harguments
  | false =>
    have hk : Element.kind x ≠ .argumentList := by
      rw [Call.isCall, Bool.and_eq_true, beq_iff_eq] at hcall
      rw [hcall.2]
      decide
    rw [if_neg Bool.false_ne_true]
    exact (h.simulation no_paren_table).find?_eq no_paren_setters hx hk (hparts.arguments hwrapped)

/-- A call that did not match, and does with the imports of the unit afterwards, is replaced in it. -/
theorem hit_counterpart (hx : (Overlay.ofRun (Resolver.ofTree .httpClient5 t) pres posts extra).Counterpart x x')
    (hcall : Call.isCall x = true)
    (hnone : (rule.matcher.find? (Resolver.ofTree .httpClient5 t) x).isSome = false)
    (hsome : (rule.matcher.find? ((Resolver.ofTree .httpClient5 t).withImports t'.imports)
      x).isSome = true) :
    rule.Hit (Resolver.ofTree .httpClient5 t') x' := by
  refine ⟨?_, ?_⟩
  · rw [find?_counterpart h hx hcall, hnone]
    exact hsome
  · obtain ⟨parts, hparts, hany⟩ := exists_parts hx hcall
    have hplain : ∀ g ∈ parts, g.isWrapped = false := by
      have hnowhere : parts.any Growth.isWrapped = false := hany.trans hnone
      simpa using hnowhere
    have hsite : x = ⟨.node .methodInvocation (Growth.befores parts), x.start, x.around⟩ := by
      rw [show Tree.node .methodInvocation (Growth.befores parts) = x.element from
        hparts.before.symm]
    rw [hsite] at hsome
    obtain ⟨pre, post, left, lead, argument, trail, right, hlist, hpost, hlead, htrail, hargument⟩ :=
      exists_framed_of_find? hparts.regular.framedLists hsome
    obtain ⟨pres, g, posts, rfl, rfl, rfl, rfl⟩ := Growth.befores_eq_list hlist hplain
    have hnew := Growth.replacement?_afters pres left right x'.parentKind? hpost hlead htrail
      hargument
    rw [hparts.after]
    exact Option.isSome_of_eq_some hnew

/-- The calls of the unit afterwards that are replaced are those that match only with its imports. -/
theorem quiet_iff :
    rule.Quiet (Resolver.ofTree .httpClient5 t') (Site.root t').nodes ↔
      rule.Asleep .httpClient5 t t'.imports := by
  have hroot : Call.isCall (Site.root t) = false := by
    rw [Call.isCall, h.kind_root]
    exact Bool.and_false _
  have hroot' : Call.isCall (Site.root t') = false := by
    rw [Call.isCall, h.kind_root']
    exact Bool.and_false _
  rw [Rule.Asleep, h.nodes_eq, h.nodes_eq', Rule.quiet_cons, List.forall_mem_cons]
  constructor
  · rintro ⟨-, hquiet⟩
    refine ⟨fun hcall => absurd (hroot.symm.trans hcall) Bool.false_ne_true, ?_⟩
    intro x hx hcall hnone
    obtain ⟨x', hx', hcounter⟩ := h.aligned.exists_right hx
    by_contra hsome
    have hhit := hit_counterpart h hcounter hcall (by rw [hnone]; rfl)
      (Option.isSome_iff_ne_none.mpr hsome)
    exact hquiet x' hx' (by rw [hcounter.isCall_eq, hcall]) hhit
  · rintro ⟨-, hasleep⟩
    refine ⟨fun hcall => absurd (hroot'.symm.trans hcall) Bool.false_ne_true, ?_⟩
    intro x' hx' hcall hhit
    have hfind := hhit.1
    rcases h.aligned.exists_left hx' with hadded | ⟨x, hx, hcounter⟩
    · rw [find?_added _ hadded hcall] at hfind
      cases hfind
    -- A call that matched before has a wrapped argument now; all others are asleep.
    · rw [hcounter.isCall_eq] at hcall
      rw [find?_counterpart h hcounter hcall] at hfind
      split at hfind
      next => cases hfind
      next hno =>
        rw [hasleep x hx hcall (Option.not_isSome_iff_eq_none.mp hno)] at hfind
        cases hfind

/-! ## The second run -/

omit h in
theorem gate_timeout (p : Nat) : rule.gate.matchesImport ⟨timeout.text, false, false, p⟩ = true := by
  have hmatches : rule.gate.pattern.matchesType (TypeName.ofWritten timeout.text) = true := by
    decide +kernel
  rw [Gate.matchesImport]
  simp only [Bool.false_eq_true, if_false, hmatches]

theorem gate_of_added (hextra : extra ≠ []) :
    rule.gate.isPresent (Resolver.ofTree .httpClient5 t') = true := by
  obtain ⟨p, hp⟩ := h.exists_import hextra
  rw [ofTree_timeout] at hp
  have himports : (Resolver.ofTree .httpClient5 t').scope.imports.any rule.gate.matchesImport = true :=
    List.any_eq_true.mpr ⟨_, hp, gate_timeout p⟩
  rw [Gate.isPresent, Gate.isPresentIn, himports]
  rfl

theorem conflicts_eq_false (hbefore : conflicts t timeout = false) :
    conflicts t' timeout = false := by
  rw [conflicts, Bool.or_eq_false_iff, List.any_eq_false] at hbefore ⊢
  refine ⟨?_, h.declaredNames ▸ hbefore.2⟩
  intro i hi hclash
  rcases h.mem_imports hi with ⟨j, hj, hsame⟩ | ⟨p, heq⟩
  · refine hbefore.1 j hj ?_
    rw [← hclash, ImportDecl.simpleName?, ImportDecl.simpleName?, hsame.path, hsame.isStatic,
      hsame.isWildcard]
  · rw [heq, ofTree_timeout, Bool.and_eq_true] at hclash
    simp at hclash

end

theorem Grown.exists_spread {u : JavaUnit} {out : Outcome} {g : Growth}
    (hshape : SourceShaped u.tree) (h : Grown .httpClient5 u out g) (hwraps : g.wraps ≠ 0) :
    ∃ pres posts extra,
      Spread (Resolver.ofTree .httpClient5 u.tree) u.tree out.unit.tree pres posts extra ∧
        (out.importsAdded = [] → extra = []) := by
  have hnode := hshape.isNode
  have hkind := hshape.program
  have hunit : out.unit.tree = (addImports g.after [timeout]).1 := by
    rw [h.unit, if_neg hwraps]
    rfl
  have hadded : out.importsAdded = (addImports g.after [timeout]).2 := by
    rw [h.added, if_neg hwraps]
  rw [← h.before] at hnode hkind
  cases g with
  | token k s => cases hnode
  | node k gs =>
    cases hkind
    rw [Growth.after, addImports] at hunit hadded
    split at hunit
    next =>
      refine ⟨gs, [], [], ⟨hshape, ?_, ?_, ?_, .inl rfl⟩, fun _ => rfl⟩
      · rw [List.append_nil]
        exact h.before.symm
      · rw [hunit]
        simp [addImports, Growth.afters]
      · rw [List.append_nil]
        exact h.placed
    next huncovered =>
      rw [if_neg huncovered] at hadded
      obtain ⟨pre, new, post, text, hsplit, hinsert, hnew⟩ :=
        insertImport_eq .program (Growth.afters gs) timeout
      rw [Growth.afters_eq_map] at hsplit
      obtain ⟨pres, posts, rfl, rfl, rfl⟩ := List.map_eq_append_iff.mp hsplit
      refine ⟨pres, posts, new, ⟨hshape, h.before.symm, ?_, h.placed, .inr ⟨text, hnew⟩⟩, ?_⟩
      · rw [hunit, Growth.afters_eq_map pres, Growth.afters_eq_map posts, ← hinsert]
        rfl
      · intro hnone
        rw [hadded] at hnone
        cases hnone
  | wrapped left lead argument trail right => cases hkind

theorem rerun_grown {u : JavaUnit} {out : Outcome} {g : Growth} (hshape : SourceShaped u.tree)
    (herrors : u.hasErrors = false) (hconflict : conflicts u.tree timeout = false)
    (h : Grown .httpClient5 u out g) (hwraps : g.wraps ≠ 0) :
    Rule.Idle (rule.run .httpClient5 out.unit) out.unit ↔
      rule.Asleep .httpClient5 u.tree out.unit.tree.imports := by
  obtain ⟨pres, posts, extra, hspread, -⟩ := h.exists_spread hshape hwraps
  have hunit : out.unit.hasErrors = false := by
    rw [h.unit]
    exact herrors
  rw [Rule.run_idle_iff, quiet_iff hspread]
  constructor
  · rintro (hskipped | hasleep)
    -- With an added import, the second run is never skipped: the gate lets it through.
    · by_cases hextra : extra = []
      · rw [hspread.imports_eq hextra]
        exact Rule.asleep_self _ _ _
      · have hnone : (rule.run .httpClient5 out.unit).skipped = none := by
          refine (Rule.skipped_eq_none_iff _ _ _).mpr ⟨hunit, gate_of_added hspread hextra, ?_⟩
          show (conflicts out.unit.tree timeout || false) = false
          rw [conflicts_eq_false hspread hconflict]
          rfl
        rw [hnone] at hskipped
        cases hskipped
    · exact hasleep
  · exact .inr

/-- The second run over a unit of the shape of parsed sources. -/
theorem rerun_shaped {u : JavaUnit} (hshape : SourceShaped u.tree) :
    Rule.Idle (rule.run .httpClient5 (rule.run .httpClient5 u).unit) (rule.run .httpClient5 u).unit ↔
      rule.Asleep .httpClient5 u.tree (rule.run .httpClient5 u).unit.tree.imports := by
  rcases run_growth .httpClient5 hshape.regular.framedLists with ⟨reason, hskip⟩ | ⟨g, h⟩
  · have hunit : (rule.run .httpClient5 u).unit = u := by
      rw [hskip]
      rfl
    rw [hunit]
    refine iff_of_true ((Rule.run_idle_iff _ _ _).mpr (.inl ?_)) (Rule.asleep_self _ _ _)
    rw [hskip]
    rfl
  · by_cases hwraps : g.wraps = 0
    · have hunit : (rule.run .httpClient5 u).unit = u := by
        rw [h.unit, if_pos hwraps]
        rfl
      rw [hunit]
      refine iff_of_true ⟨?_, ?_, hunit, ?_⟩ (Rule.asleep_self _ _ _)
      · rw [h.migrated, hwraps]
      · rw [h.added, if_pos hwraps]
      · rw [h.changed, hunit]
        simp
    · obtain ⟨herrors, -, hconflict⟩ := (Rule.skipped_eq_none_iff _ _ _).mp h.skipped
      exact rerun_grown hshape herrors
        (by simpa using List.any_eq_false.mp hconflict timeout List.mem_cons_self) h hwraps

theorem asleep_of_importsAdded {u : JavaUnit} (hshape : SourceShaped u.tree)
    (hnone : (rule.run .httpClient5 u).importsAdded = []) :
    rule.Asleep .httpClient5 u.tree (rule.run .httpClient5 u).unit.tree.imports := by
  have hself := rule.asleep_self .httpClient5 u.tree
  rcases run_growth .httpClient5 hshape.regular.framedLists with ⟨reason, hskip⟩ | ⟨g, h⟩
  · rw [hskip]
    exact hself
  · by_cases hwraps : g.wraps = 0
    · rw [h.unit, if_pos hwraps]
      exact hself
    · obtain ⟨pres, posts, extra, hspread, hextra⟩ := h.exists_spread hshape hwraps
      rw [hspread.imports_eq (hextra hnone)]
      exact hself

/-- **Running the stock recipe again** changes nothing exactly if it is skipped or no call of what the
first run left can be replaced. For units of the shape of parsed sources, it changes nothing exactly
if the imports that are there after the first run give no match to a call that had none; so it
changes nothing if no import was added. -/
theorem rerun_idle_iff (u : JavaUnit) :
    ∃ recipe, useTimeout = .ok recipe ∧
      (Rule.Idle (recipe.run (recipe.run u).unit) (recipe.run u).unit ↔
        (recipe.run (recipe.run u).unit).skipped.isSome = true ∨
          recipe.rule.Quiet (Resolver.ofTree recipe.table (recipe.run u).unit.tree)
            (Site.root (recipe.run u).unit.tree).nodes) ∧
      (SourceShaped u.tree →
        (Rule.Idle (recipe.run (recipe.run u).unit) (recipe.run u).unit ↔
          recipe.rule.Asleep recipe.table u.tree (recipe.run u).unit.tree.imports) ∧
        ((recipe.run u).importsAdded = [] →
          Rule.Idle (recipe.run (recipe.run u).unit) (recipe.run u).unit)) := by
  refine ⟨_, useTimeout_eq, Rule.run_idle_iff _ _ _, fun hshape => ?_⟩
  refine ⟨rerun_shaped hshape, fun hnone => ?_⟩
  exact (rerun_shaped hshape).mpr (asleep_of_importsAdded hshape hnone)

theorem asleep_requestUnit :
    SourceShaped requestUnit.tree ∧
      rule.Asleep HttpClient5.table requestUnit.tree
        ((recipe HttpClient5.table).run requestUnit).unit.tree.imports := by
  decide +kernel

/-- The import that a run over the unit of a single call adds wakes nothing. -/
theorem rerun_idle_iff_request :
    SourceShaped requestUnit.tree ∧
      ∃ recipe, useTimeout = .ok recipe ∧ (recipe.run requestUnit).stats.callsMigrated = 1 ∧
        Rule.Idle (recipe.run (recipe.run requestUnit).unit) (recipe.run requestUnit).unit := by
  obtain ⟨hshape, hasleep⟩ := asleep_requestUnit
  obtain ⟨found, hfound, -, hidle⟩ := rerun_idle_iff requestUnit
  have hrecipe : found = recipe HttpClient5.table := by
    rw [useTimeout_eq, httpClient5_eq] at hfound
    cases hfound
    rfl
  subst hrecipe
  exact ⟨hshape, _, hfound, migrated_requestUnit, (hidle hshape).1.mpr hasleep⟩

/-- Each node that owns a declaration is the only one with its kind and byte range. -/
def OwnersUnique (t : Tree) : Prop :=
  ∀ d ∈ (Scope.collect t).declarations,
    ((Site.root t).nodes.filter fun n => n.span == d.owner).length = 1

instance (t : Tree) : Decidable (OwnersUnique t) :=
  inferInstanceAs (Decidable (∀ d ∈ (Scope.collect t).declarations,
    ((Site.root t).nodes.filter fun n => n.span == d.owner).length = 1))

/-- A unit without an import of `Timeout`. One of its calls is migrated only when the import that
the other one needs is there. -/
def wakingSource : String :=
  "import org.apache.hc.client5.http.config.RequestConfig;\nclass A \x7b Object f = RequestConfig.custom().setConnectTimeout(1 << Timeout.ofMilliseconds(1).toMilliseconds()).setResponseTimeout(5); \x7d\n"

/-- A second run over a unit migrates a call. -/
def isWoken (table : TypeTable) (u : JavaUnit) : Bool :=
  !u.hasErrors && decide (OwnersUnique u.tree) && decide (SourceShaped u.tree) &&
    ((recipe table).run ((recipe table).run u).unit).changed &&
    ((recipe table).run ((recipe table).run u).unit).stats.callsMigrated == 1

theorem isWoken_wakingSource :
    ((JavaUnit.parse wakingSource).toOption.any (isWoken HttpClient5.table)) = true := by
  rw [JavaUnit.parse_eq]
  decide +kernel

/-- Running the recipe again can migrate a call: the added import is what `Timeout` inside of its
argument means. -/
theorem rerun_wakes_call :
    ∃ recipe u, useTimeout = .ok recipe ∧ JavaUnit.parse wakingSource = .ok u ∧
      u.hasErrors = false ∧ OwnersUnique u.tree ∧
      (recipe.run (recipe.run u).unit).stats.callsMigrated = 1 ∧
      (recipe.run (recipe.run u).unit).changed = true := by
  have hwoken := isWoken_wakingSource
  have hrecipe : useTimeout = .ok (recipe HttpClient5.table) := by
    rw [useTimeout_eq, httpClient5_eq]
  cases hparse : JavaUnit.parse wakingSource with
  | error e =>
    rw [hparse] at hwoken
    cases hwoken
  | ok u =>
    rw [hparse] at hwoken
    have hall : isWoken HttpClient5.table u = true := hwoken
    simp only [isWoken, Bool.and_eq_true, Bool.not_eq_true', decide_eq_true_eq, beq_iff_eq] at hall
    obtain ⟨⟨⟨⟨herrors, howners⟩, -⟩, hchanged⟩, hmigrated⟩ := hall
    exact ⟨_, u, hrecipe, rfl, herrors, howners, hmigrated, hchanged⟩

end UseTimeout

end CallMigration
