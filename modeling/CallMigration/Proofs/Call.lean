import CallMigration.Proofs.Basic
import CallMigration.Rule.Substitution
import Mathlib.Data.List.Basic
import Mathlib.Data.List.Induction

/-!
# The argument list of a call

A call keeps its arguments in the last of its children that is an argument list. The migration looks
for it by position and the resolver by kind; both find the same one.

* `lastArguments?_eq_some_iff` : the position and the children of the last argument list.
* `Call.arguments_eq` : the arguments of a call with such a list.
* `replaceContents?_eq_some` : what stays when the contents of a list are replaced.
* `Template.replacement?_cases` : all that a replaced call can be.
* `Site.arguments_element` : the arguments do not depend on the place of a call.
-/

namespace CallMigration

def isArgumentList (t : Tree) : Bool :=
  t.isNode && t.kind == .argumentList

theorem isArgumentList_iff {t : Tree} :
    isArgumentList t = true ↔ ∃ list, t = .node .argumentList list := by
  cases t with
  | token k s => simp [isArgumentList, Tree.isNode]
  | node k cs => simp [isArgumentList, Tree.isNode, Tree.kind]

theorem lastArguments?_concat_list (children list : List Tree) :
    lastArguments? (children ++ [.node .argumentList list]) = some (children.length, list) := by
  simp [lastArguments?, List.zipIdx_append]

theorem lastArguments?_concat_of_false (children : List Tree) {t : Tree}
    (h : isArgumentList t = false) :
    lastArguments? (children ++ [t]) = lastArguments? children := by
  have hnone : ∀ list, t ≠ .node .argumentList list := by
    rintro list rfl
    cases h
  simp [lastArguments?, List.zipIdx_append]

/-- The last argument list of a call is where it is found. -/
theorem lastArguments?_eq_some_iff {children list : List Tree} {position : Nat} :
    lastArguments? children = some (position, list) ↔
      ∃ before after, children = before ++ .node .argumentList list :: after ∧
        before.length = position ∧ ∀ t ∈ after, isArgumentList t = false := by
  constructor
  · intro h
    induction children using List.reverseRecOn with
    | nil => cases h
    | append_singleton children t ih =>
      cases ht : isArgumentList t with
      | true =>
        obtain ⟨contents, rfl⟩ := isArgumentList_iff.mp ht
        rw [lastArguments?_concat_list] at h
        cases h
        exact ⟨children, [], rfl, rfl, by simp⟩
      | false =>
        rw [lastArguments?_concat_of_false children ht] at h
        obtain ⟨before, after, rfl, hlength, hafter⟩ := ih h
        refine ⟨before, after ++ [t], by simp, hlength, ?_⟩
        intro u hu
        rcases List.mem_append.mp hu with hu | hu
        · exact hafter u hu
        · rw [List.mem_singleton.mp hu]
          exact ht
  · rintro ⟨before, after, rfl, rfl, hafter⟩
    induction after using List.reverseRecOn with
    | nil => exact lastArguments?_concat_list before list
    | append_singleton after t ih =>
      have ht : isArgumentList t = false := hafter t (by simp)
      rw [← List.cons_append, ← List.append_assoc, lastArguments?_concat_of_false _ ht]
      exact ih fun u hu => hafter u (by simp [hu])

theorem lastArguments?_eq_none {children : List Tree} (h : lastArguments? children = none) :
    ∀ t ∈ children, isArgumentList t = false := by
  induction children using List.reverseRecOn with
  | nil => simp
  | append_singleton children t ih =>
    cases ht : isArgumentList t with
    | true =>
      obtain ⟨list, rfl⟩ := isArgumentList_iff.mp ht
      rw [lastArguments?_concat_list] at h
      cases h
    | false =>
      rw [lastArguments?_concat_of_false children ht] at h
      intro u hu
      rcases List.mem_append.mp hu with hu | hu
      · exact ih h u hu
      · rw [List.mem_singleton.mp hu]
        exact ht

theorem replaceContents?_eq_some {contents list out : List Tree}
    (h : replaceContents? contents list = some out) :
    ∃ first inner last, list = first :: (inner ++ [last]) ∧
      out = first :: (leadingTrivia inner ++ contents ++ trailingTrivia inner ++ [last]) ∧
      first.kind = .leftParen ∧ last.kind = .rightParen := by
  unfold replaceContents? at h
  split at h
  next => cases h
  next first rest =>
    split at h
    next => cases h
    next last hlast =>
      rw [Option.ite_none_right_eq_some, Bool.and_eq_true, beq_iff_eq, beq_iff_eq] at h
      refine ⟨first, rest.dropLast, last, ?_, (Option.some.inj h.2).symm, h.1⟩
      rw [List.dropLast_append_getLast? last hlast]

namespace Call

theorem argumentList?_append {k : Kind} {before after list : List Tree}
    (h : ∀ t ∈ after, isArgumentList t = false) :
    argumentList? (Tree.node k (before ++ .node .argumentList list :: after)) =
      some (.node .argumentList list) := by
  have hafter : after.filter isArgumentList = [] :=
    List.filter_eq_nil_iff.mpr fun t ht => by rw [h t ht]; decide
  change ((before ++ .node .argumentList list :: after).filter isArgumentList).getLast? = _
  rw [List.filter_append, List.filter_cons_of_pos rfl, hafter, List.getLast?_append]
  rfl

theorem arguments_append {k : Kind} {before after list : List Tree}
    (h : ∀ t ∈ after, isArgumentList t = false) :
    arguments (Tree.node k (before ++ .node .argumentList list :: after)) =
      list.filter isArgument := by
  rw [arguments, argumentList?_append h]
  rfl

/-- Both ways to look for the arguments of a call find the same ones. -/
theorem arguments_eq {k : Kind} {children list : List Tree} {position : Nat}
    (h : lastArguments? children = some (position, list)) :
    arguments (Tree.node k children) = list.filter isArgument := by
  obtain ⟨before, after, rfl, -, hafter⟩ := lastArguments?_eq_some_iff.mp h
  exact arguments_append hafter

theorem filter_isArgument_between {opening closing : Tree} (hopening : opening.kind = .leftParen)
    (hclosing : closing.kind = .rightParen) (inner : List Tree) :
    (opening :: (inner ++ [closing])).filter isArgument = inner.filter isArgument := by
  have hopen : ¬ isArgument opening = true := by
    simp [isArgument, Element.kind, Element.tree, hopening]
  have hclose : ¬ isArgument closing = true := by
    simp [isArgument, Element.kind, Element.tree, hclosing]
  rw [List.filter_cons_of_neg hopen, List.filter_append, List.filter_cons_of_neg hclose,
    List.filter_nil, List.append_nil]

theorem arguments_eq_nil {k : Kind} {children : List Tree} (h : lastArguments? children = none) :
    arguments (Tree.node k children) = [] := by
  have hnone : children.filter isArgumentList = [] :=
    List.filter_eq_nil_iff.mpr fun t ht => by simp [lastArguments?_eq_none h t ht]
  have hlist : argumentList? (Tree.node k children) = none := by
    change (children.filter isArgumentList).getLast? = none
    rw [hnone, List.getLast?_nil]
  rw [arguments, hlist]

theorem isArgument_of_mem_arguments {call argument : Tree} (h : argument ∈ arguments call) :
    isArgument argument = true := by
  unfold arguments at h
  split at h
  next => exact (List.mem_filter.mp h).2
  next => cases h

end Call

/-! ## Replaced calls -/

/-- All that a replaced call can be. The selected arguments of the call are there, one for each
placeholder. The new element is the body around them; or it is the call, with the body between the
trivia that stands next to the parentheses of its last argument list. -/
theorem Template.replacement?_cases {t : Template} {call new : Tree} {selected : List Nat}
    {parent : Option Kind} (h : t.replacement? call selected parent = some new) :
    ∃ captured, (selected.mapM fun index => (Call.arguments call)[index]?) = some captured ∧
      captured.length = t.placeholders.length ∧
      ((t.target = .invocation ∧ ∃ body, t.body = [body] ∧
          new = group parent (substitute captured none body)) ∨
        (t.target = .arguments ∧ ∃ before opening inner closing after,
          call = .node .methodInvocation
            (before ++ .node .argumentList (opening :: (inner ++ [closing])) :: after) ∧
          (∀ u ∈ after, isArgumentList u = false) ∧
          opening.kind = .leftParen ∧ closing.kind = .rightParen ∧
          new = .node .methodInvocation (before ++ .node .argumentList (opening ::
            (leadingTrivia inner ++ substituteAll captured (some .argumentList) t.body ++
              trailingTrivia inner ++ [closing])) :: after))) := by
  unfold replacement? at h
  split at h
  next children =>
    rw [Option.ite_none_left_eq_some, ne_eq, not_not] at h
    obtain ⟨hlength, h⟩ := h
    split at h
    next => cases h
    next position list hlist =>
      simp only at h
      split at h
      next => cases h
      next captured hcaptured =>
        rw [← Call.arguments_eq (k := .methodInvocation) hlist] at hcaptured
        refine ⟨captured, hcaptured, (length_of_mapM_eq_some hcaptured).trans hlength, ?_⟩
        split at h
        next htarget =>
          split at h
          next body hbody => exact .inl ⟨htarget, body, hbody, (Option.some.inj h).symm⟩
          next => cases h
        next htarget =>
          obtain ⟨contents, hcontents, rfl⟩ := Option.map_eq_some_iff.mp h
          obtain ⟨opening, inner, closing, rfl, rfl, hopening, hclosing⟩ :=
            replaceContents?_eq_some hcontents
          obtain ⟨before, after, rfl, rfl, hafter⟩ := lastArguments?_eq_some_iff.mp hlist
          refine .inr ⟨htarget, before, opening, inner, closing, after, rfl, hafter, hopening,
            hclosing, ?_⟩
          rw [List.set_append_right _ _ (Nat.le_refl _), Nat.sub_self, List.set_cons_zero]
  next => cases h

/-! ## Elements at their place -/

namespace Site

theorem map_element_place (around : List Span) (start : Nat) (ts : List Tree) :
    (place around start ts).map element = ts := by
  induction ts generalizing start with
  | nil => rfl
  | cons t ts ih => rw [place, List.map_cons, ih]

theorem map_element_children (s : Site) :
    (Element.children s).map element = s.element.children :=
  map_element_place _ _ _

/-- The elements of a place that satisfy a condition on elements. -/
theorem map_element_filter {p : Site → Bool} {q : Tree → Bool} (h : ∀ s, p s = q s.element)
    (ss : List Site) : (ss.filter p).map element = (ss.map element).filter q := by
  rw [List.filter_map]
  congr 1
  exact List.filter_congr fun s _ => h s

theorem map_element_significant (s : Site) :
    (Element.significantChildren s).map element = Element.significantChildren s.element := by
  rw [Element.significantChildren, map_element_filter (p := Element.isSignificant)
    (q := Element.isSignificant) fun _ => rfl, map_element_children]
  rfl

theorem name?_element (s : Site) : Call.name? s = Call.name? s.element := by
  unfold Call.name?
  rw [← map_element_significant, List.takeWhile_map, List.filterMap_map]
  rfl

theorem arguments_element (s : Site) :
    (Call.arguments s).map element = Call.arguments s.element := by
  have hlist : (Call.argumentList? s).map element = Call.argumentList? s.element := by
    have hfilter := map_element_filter (p := fun x => (Element.tree x).isNode &&
      Element.kind x == .argumentList) (q := isArgumentList) (fun _ => rfl) (Element.children s)
    rw [Call.argumentList?, ← List.getLast?_map, hfilter, map_element_children]
    rfl
  rw [Call.arguments, Call.arguments, ← hlist]
  cases Call.argumentList? s with
  | none => rfl
  | some list =>
    change (Call.argumentsOf list).map element = Call.argumentsOf list.element
    rw [Call.argumentsOf, map_element_filter (p := Call.isArgument) (q := Call.isArgument)
      fun _ => rfl, map_element_children]
    rfl

end Site

end CallMigration
