import CallMigration.Tree.Basic

/-!
# Answers and lists of elements

What a partial computation answers, and the functions on lists of elements of a tree, which are the
ones on single elements put together in order.
-/

namespace CallMigration

theorem eq_ok_of_toOption {ε α : Type} {x : Except ε α} {a : α} (h : x.toOption = some a) :
    x = .ok a := by
  cases x with
  | error e => cases h
  | ok b =>
    cases h
    rfl

theorem exists_ok_of_any {ε α : Type} {x : Except ε α} {p : α → Bool}
    (h : x.toOption.any p = true) : ∃ a, x = .ok a ∧ p a = true := by
  obtain ⟨a, ha, hp⟩ := Option.any_eq_true _ _ |>.mp h
  exact ⟨a, eq_ok_of_toOption ha, hp⟩

theorem exists_of_bind_eq_ok {ε α β : Type} {x : Except ε α} {f : α → Except ε β} {b : β}
    (h : x.bind f = .ok b) : ∃ a, x = .ok a ∧ f a = .ok b := by
  cases x with
  | error e => cases h
  | ok a => exact ⟨a, rfl, h⟩

theorem length_of_mapM_eq_some {α β : Type} {f : α → Option β} {xs : List α} {ys : List β}
    (h : xs.mapM f = some ys) : ys.length = xs.length := by
  induction xs generalizing ys with
  | nil =>
    rw [List.mapM_nil] at h
    cases h
    rfl
  | cons x xs ih =>
    rw [List.mapM_cons] at h
    obtain ⟨y, -, h⟩ := Option.bind_eq_some_iff.mp h
    obtain ⟨zs, hzs, h⟩ := Option.bind_eq_some_iff.mp h
    cases h
    rw [List.length_cons, List.length_cons, ih hzs]

theorem mem_of_mapM_getElem? {α : Type} {as captured : List α} {indices : List Nat}
    (h : indices.mapM (as[·]?) = some captured) : captured ⊆ as := by
  induction indices generalizing captured with
  | nil =>
    cases h
    exact List.nil_subset as
  | cons index indices ih =>
    rw [List.mapM_cons] at h
    obtain ⟨a, ha, h⟩ := Option.bind_eq_some_iff.mp h
    obtain ⟨rest, hrest, h⟩ := Option.bind_eq_some_iff.mp h
    cases h
    exact List.cons_subset.mpr ⟨List.mem_of_getElem? ha, ih hrest⟩

namespace Tree

@[simp]
theorem tokensOf_append (a b : List Tree) : tokensOf (a ++ b) = tokensOf a ++ tokensOf b := by
  induction a with
  | nil => rfl
  | cons t a ih => rw [List.cons_append, tokensOf, tokensOf, ih, List.append_assoc]

@[simp]
theorem byteLengthOf_append (a b : List Tree) :
    byteLengthOf (a ++ b) = byteLengthOf a + byteLengthOf b := by
  induction a with
  | nil => rw [List.nil_append, byteLengthOf, Nat.zero_add]
  | cons t a ih => rw [List.cons_append, byteLengthOf, byteLengthOf, ih, Nat.add_assoc]

theorem nodesOf_append (a b : List Tree) : nodesOf (a ++ b) = nodesOf a ++ nodesOf b := by
  induction a with
  | nil => rfl
  | cons t a ih => rw [List.cons_append, nodesOf, nodesOf, ih, List.append_assoc]

theorem tokensOf_singleton (t : Tree) : tokensOf [t] = t.tokens := by
  rw [tokensOf, tokensOf, List.append_nil]

theorem tokensOf_sublist {as bs : List Tree} (h : as.Sublist bs) :
    (tokensOf as).Sublist (tokensOf bs) := by
  induction h with
  | slnil => exact List.Sublist.refl _
  | cons t _ ih => exact ih.trans (List.sublist_append_right t.tokens _)
  | cons_cons t _ ih => exact (List.Sublist.refl t.tokens).append ih

theorem nodesOf_sublist {as bs : List Tree} (h : as.Sublist bs) :
    (nodesOf as).Sublist (nodesOf bs) := by
  induction h with
  | slnil => exact List.Sublist.refl _
  | cons t _ ih => exact ih.trans (List.sublist_append_right t.nodes _)
  | cons_cons t _ ih => exact (List.Sublist.refl t.nodes).append ih

theorem joinTokens_toList (tokens : List (Kind × String)) :
    (joinTokens tokens).toList = tokens.flatMap (·.2.toList) := by
  induction tokens with
  | nil => rfl
  | cons token tokens ih =>
    rw [List.flatMap_cons, ← ih]
    simp [joinTokens]

end Tree

theorem mem_nodesOf_of_mem {t n : Tree} {ts : List Tree} (ht : t ∈ ts) (hn : n ∈ t.nodes) :
    n ∈ Tree.nodesOf ts := by
  induction ts with
  | nil => cases ht
  | cons u ts ih =>
    rw [Tree.nodesOf, List.mem_append]
    rcases List.mem_cons.mp ht with rfl | ht
    · exact .inl hn
    · exact .inr (ih ht)

end CallMigration
