import CallMigration.Proofs.Idempotence

/-!
# What a walk keeps

A walk over a tree enters calls, and replaces or keeps each of them. Whatever these three steps keep,
the walk keeps. It changes the tree exactly if it replaces a call, and nothing of a tree without
calls.

* `Rule.visit_call` : the two things that can happen to a call.
* `Rule.visit_preserves` : invariants of a walk.
* `Rule.visit_isSome_iff` : a tree is changed exactly if a call in it is replaced.
* `Rule.visit_bare` : a tree without calls is left alone.
-/

namespace CallMigration.Rule

variable {R : Type} [TypeResolver R] {rule : Rule} {r : R}

theorem visitAll_unchanged {around : List Span} {start : Nat} {ts : List Tree} {w : Walk}
    (h : (rule.visitAll r around start ts w).2.1 = false) :
    (rule.visitAll r around start ts w).1 = ts := by
  induction ts generalizing start w with
  | nil => rfl
  | cons t ts ih =>
    rw [visitAll] at h ⊢
    simp only [Bool.or_eq_false_iff] at h
    rw [Option.isSome_eq_false_iff, Option.isNone_iff_eq_none] at h
    simp only [h.1, Option.getD_none, ih h.2]

theorem visitAll_rebuilt {around : List Span} {start : Nat} {ts ts' : List Tree} {changed : Bool}
    {w w' : Walk} (h : rule.visitAll r around start ts w = (ts', changed, w')) :
    (if changed then ts' else ts) = ts' := by
  cases changed with
  | true => rfl
  | false =>
    have hsame := visitAll_unchanged (congrArg (·.2.1) h)
    rw [h] at hsame
    exact hsame.symm

theorem getD_rebuilt (k : Kind) (around : List Span) (start : Nat) (ts : List Tree) (w : Walk) :
    (if (rule.visitAll r around start ts w).2.1 then
      some (Tree.node k (rule.visitAll r around start ts w).1) else none).getD (.node k ts) =
        .node k (rule.visitAll r around start ts w).1 := by
  split
  next => rfl
  next h => rw [visitAll_unchanged (by simpa using h), Option.getD_none]

/-- A call is replaced, or it is kept with whatever became of its parts. -/
theorem visit_call (rule : Rule) (r : R) (around : List Span) (start : Nat) (cs : List Tree)
    (w : Walk) {cs' : List Tree} {changed : Bool} {w' : Walk}
    (hparts : rule.visitAll r (⟨.methodInvocation, start, start + Tree.byteLengthOf cs⟩ :: around)
      start cs (w.enter (start, start + Tree.byteLengthOf cs)) = (cs', changed, w')) :
    (∃ new, (rule.matcher.find? r ⟨.node .methodInvocation cs, start, around⟩).isSome = true ∧
      rule.template.replacement? (.node .methodInvocation cs') rule.selected
        (around.head?.map (·.kind)) = some new ∧
      rule.visit r around start (.node .methodInvocation cs) w =
        (some new, w'.replace (start, start + Tree.byteLengthOf cs) rule.template.imports)) ∨
    rule.visit r around start (.node .methodInvocation cs) w =
      (if changed then some (.node .methodInvocation cs') else none,
        w'.keep (start, start + Tree.byteLengthOf cs)) := by
  have hsame := visitAll_rebuilt hparts
  cases hfind : (rule.matcher.find? r ⟨.node .methodInvocation cs, start, around⟩).isSome with
  | false =>
    right
    rw [visit_kept hfind]
    simp only [hparts]
  | true =>
    cases hnew : rule.template.replacement? (.node .methodInvocation (if changed then cs' else cs))
        rule.selected (around.head?.map (·.kind)) with
    | none => exact .inr (visit_unreplaced hparts hnew)
    | some new => exact .inl ⟨new, rfl, by rw [← hsame]; exact hnew, visit_replaced hfind hparts hnew⟩

/-! ## Invariants -/

/-- Every step of a walk keeps the property. -/
structure Keeps (rule : Rule) (P : Walk → Prop) : Prop where
  enter : ∀ w range, P w → P (w.enter range)
  keep : ∀ w range, P w → P (w.keep range)
  replace : ∀ w range, P w → P (w.replace range rule.template.imports)

mutual
theorem visit_preserves {P : Walk → Prop} (h : rule.Keeps P) :
    ∀ (t : Tree) (around : List Span) (start : Nat) (w : Walk), P w →
      P (rule.visit r around start t w).2
  | .token _ _, _, _, _, hw => by
    rw [visit]
    exact hw
  | .node k cs, around, start, w, hw => by
    by_cases hk : k = .methodInvocation
    · subst hk
      have hparts := visitAll_preserves h cs
        (⟨.methodInvocation, start, start + Tree.byteLengthOf cs⟩ :: around) start _
        (h.enter w (start, start + Tree.byteLengthOf cs) hw)
      rcases visit_call rule r around start cs w rfl with ⟨new, -, -, heq⟩ | heq
      · rw [heq]
        exact h.replace _ _ hparts
      · rw [heq]
        exact h.keep _ _ hparts
    · rw [visit_node hk]
      exact visitAll_preserves h cs _ start w hw
theorem visitAll_preserves {P : Walk → Prop} (h : rule.Keeps P) :
    ∀ (ts : List Tree) (around : List Span) (start : Nat) (w : Walk), P w →
      P (rule.visitAll r around start ts w).2.2
  | [], _, _, _, hw => by
    rw [visitAll]
    exact hw
  | t :: ts, around, start, w, hw => by
    rw [visitAll]
    exact visitAll_preserves h ts around _ _ (visit_preserves h t around start w hw)
end

/-! ## Trees that stay -/

mutual
theorem migrated_of_unchanged : ∀ (t : Tree) (around : List Span) (start : Nat) (w : Walk),
    (rule.visit r around start t w).1 = none →
      (rule.visit r around start t w).2.stats.callsMigrated = w.stats.callsMigrated
  | .token _ _, _, _, _, _ => by rw [visit]
  | .node k cs, around, start, w, h => by
    by_cases hk : k = .methodInvocation
    · subst hk
      have hparts := migratedAll_of_unchanged cs
        (⟨.methodInvocation, start, start + Tree.byteLengthOf cs⟩ :: around) start
        (w.enter (start, start + Tree.byteLengthOf cs))
      rcases visit_call rule r around start cs w rfl with ⟨new, -, -, heq⟩ | heq
      · rw [heq] at h
        cases h
      · rw [heq] at h ⊢
        refine hparts ?_
        simpa using h
    · rw [visit_node hk] at h ⊢
      refine migratedAll_of_unchanged cs _ start w ?_
      simpa using h
theorem migratedAll_of_unchanged : ∀ (ts : List Tree) (around : List Span) (start : Nat) (w : Walk),
    (rule.visitAll r around start ts w).2.1 = false →
      (rule.visitAll r around start ts w).2.2.stats.callsMigrated = w.stats.callsMigrated
  | [], _, _, _, _ => by rw [visitAll]
  | t :: ts, around, start, w, h => by
    rw [visitAll] at h ⊢
    simp only [Bool.or_eq_false_iff] at h
    rw [Option.isSome_eq_false_iff, Option.isNone_iff_eq_none] at h
    exact (migratedAll_of_unchanged ts around _ _ h.2).trans
      (migrated_of_unchanged t around start w h.1)
end

/-- A tree is changed exactly if a call in it is replaced. -/
theorem visit_isSome_iff (rule : Rule) (r : R) (t : Tree) (around : List Span) (start : Nat) (w : Walk) :
    (rule.visit r around start t w).1.isSome = true ↔
      (rule.visit r around start t w).2.stats.callsMigrated ≠ w.stats.callsMigrated := by
  obtain ⟨-, -, hsame⟩ := visit_counts rule r t around start w
  constructor
  · intro hchanged hcount
    rw [hsame hcount] at hchanged
    cases hchanged
  · intro hcount
    rw [Option.isSome_iff_ne_none]
    exact fun hnone => hcount (migrated_of_unchanged t around start w hnone)

mutual
theorem visit_bare : ∀ (t : Tree) (around : List Span) (start : Nat) (w : Walk),
    (∀ n ∈ t.nodes, Call.isCall n = false) → rule.visit r around start t w = (none, w)
  | .token _ _, _, _, _, _ => by rw [visit]
  | .node k cs, around, start, w, h => by
    have hk : k ≠ .methodInvocation := by
      rintro rfl
      cases h _ List.mem_cons_self
    rw [visit_node hk, visitAll_bare cs _ start w fun n hn => h n (List.mem_cons_of_mem _ hn)]
    rfl
theorem visitAll_bare : ∀ (ts : List Tree) (around : List Span) (start : Nat) (w : Walk),
    (∀ n ∈ Tree.nodesOf ts, Call.isCall n = false) →
      rule.visitAll r around start ts w = (ts, false, w)
  | [], _, _, _, _ => by rw [visitAll]
  | t :: ts, around, start, w, h => by
    have ht := visit_bare t around start w fun n hn => h n (List.mem_append_left _ hn)
    have hts := visitAll_bare ts around (start + t.byteLength) w
      fun n hn => h n (List.mem_append_right _ hn)
    rw [visitAll, ht]
    simp only [hts]
    rfl
end

end CallMigration.Rule
