import CallMigration.Types.Table
import Mathlib.Data.List.Basic

/-!
# What a table knows after an insertion

A table has one entry for each name, in increasing order of the names, and every insertion keeps it
so. Therefore the entry of a name is the one that the insertions of that name have made, and no
insertion takes a supertype away.

* `TypeTable.Ordered` : one entry for each name, in increasing order.
* `TypeTable.ordered_insertAll` : every table that is made by insertions is ordered.
* `TypeTable.get?_insert`, `TypeTable.mem_supertypesOf_insert` : what is known after an insertion.
-/

namespace CallMigration

theorem TypeName.lt_of_not_lt {a b : TypeName} (hne : a ≠ b) (h : ¬ a < b) : b < a := by
  by_contra hba
  apply hne
  have htext : a.text = b.text := String.le_antisymm (String.not_lt.mp hba) (String.not_lt.mp h)
  exact congrArg TypeName.mk htext

theorem TypeName.ne_of_lt {a b : TypeName} (h : a < b) : a ≠ b := by
  rintro rfl
  exact String.lt_irrefl a.text h

theorem TypeInfo.name_extend (a b : TypeInfo) : (a.extend b).name = a.name := rfl

theorem TypeInfo.mem_supertypes_extend {a b : TypeInfo} {sup : TypeName} :
    sup ∈ (a.extend b).supertypes ↔ sup ∈ a.supertypes ∨ sup ∈ b.supertypes := by
  have hfold (added : List TypeName) : ∀ sups : List TypeName,
      sup ∈ added.foldl (fun ss s => if ss.contains s then ss else ss ++ [s]) sups ↔
        sup ∈ sups ∨ sup ∈ added := by
    induction added with
    | nil => simp
    | cons s added ih =>
      intro sups
      rw [List.foldl_cons, ih]
      split
      next hs =>
        have hs : s ∈ sups := List.contains_iff_mem.mp hs
        rw [List.mem_cons, ← or_assoc]
        exact or_congr_left ⟨.inl, Or.rec id fun heq => heq ▸ hs⟩
      next => simp [or_assoc]
  exact hfold b.supertypes a.supertypes

namespace TypeTable

/-! ## The order of the entries -/

/-- One entry for each name, in increasing order of the names. -/
def Ordered (table : TypeTable) : Prop :=
  table.types.Pairwise fun a b => a.name < b.name

theorem ordered_empty : empty.Ordered :=
  .nil

theorem name_of_mem_insertInto {info t : TypeInfo} {ts : List TypeInfo}
    (h : t ∈ insertInto info ts) : t.name = info.name ∨ ∃ u ∈ ts, t.name = u.name := by
  induction ts with
  | nil => exact .inl (congrArg TypeInfo.name (List.mem_singleton.mp h))
  | cons u ts ih =>
    rw [insertInto] at h
    split at h
    next heq =>
      rcases List.mem_cons.mp h with rfl | h
      · exact .inl heq.symm
      · exact .inr ⟨t, List.mem_cons_of_mem u h, rfl⟩
    next =>
      split at h
      next =>
        rcases List.mem_cons.mp h with rfl | h
        · exact .inl rfl
        · exact .inr ⟨t, h, rfl⟩
      next =>
        rcases List.mem_cons.mp h with rfl | h
        · exact .inr ⟨t, List.mem_cons_self, rfl⟩
        · rcases ih h with hname | ⟨v, hv, hname⟩
          · exact .inl hname
          · exact .inr ⟨v, List.mem_cons_of_mem u hv, hname⟩

theorem pairwise_insertInto (info : TypeInfo) {ts : List TypeInfo}
    (h : ts.Pairwise fun a b => a.name < b.name) :
    (insertInto info ts).Pairwise fun a b => a.name < b.name := by
  induction ts with
  | nil => exact List.pairwise_singleton _ _
  | cons t ts ih =>
    obtain ⟨ht, hrest⟩ := List.pairwise_cons.mp h
    rw [insertInto]
    split
    next => exact List.pairwise_cons.mpr ⟨ht, hrest⟩
    next hne =>
      split
      next hlt =>
        refine List.pairwise_cons.mpr ⟨fun u hu => ?_, h⟩
        rcases List.mem_cons.mp hu with rfl | hu
        · exact hlt
        · exact String.lt_trans hlt (ht u hu)
      next hlt =>
        refine List.pairwise_cons.mpr ⟨fun u hu => ?_, ih hrest⟩
        rcases name_of_mem_insertInto hu with hname | ⟨v, hv, hname⟩
        · rw [hname]
          exact TypeName.lt_of_not_lt hne hlt
        · rw [hname]
          exact ht v hv

theorem Ordered.insert {table : TypeTable} (h : table.Ordered) (info : TypeInfo) :
    (table.insert info).Ordered :=
  pairwise_insertInto info h

theorem Ordered.insertAll {table : TypeTable} (h : table.Ordered) (infos : List TypeInfo) :
    (table.insertAll infos).Ordered := by
  induction infos generalizing table with
  | nil => exact h
  | cons info infos ih => exact ih (h.insert info)

theorem ordered_insertAll (infos : List TypeInfo) : (empty.insertAll infos).Ordered :=
  ordered_empty.insertAll infos

/-! ## What is known after an insertion -/

theorem find?_insertInto (info : TypeInfo) (name : TypeName) {ts : List TypeInfo}
    (h : ts.Pairwise fun a b => a.name < b.name) :
    ((insertInto info ts).find? fun t => t.name == name) =
      if name = info.name then
        some (((ts.find? fun t => t.name == name).map (·.extend info)).getD info)
      else ts.find? fun t => t.name == name := by
  induction ts with
  | nil =>
    by_cases hname : name = info.name
    · simp [insertInto, hname]
    · simp [insertInto, hname, Ne.symm hname]
  | cons t ts ih =>
    obtain ⟨ht, hrest⟩ := List.pairwise_cons.mp h
    rw [insertInto]
    split
    next heq =>
      by_cases hname : name = info.name
      · simp [hname, heq, TypeInfo.name_extend]
      · have hskip : t.name ≠ name := fun hsame => hname (hsame ▸ heq.symm)
        simp [hname, hskip, TypeInfo.name_extend]
    next hne =>
      split
      next hlt =>
        by_cases hname : name = info.name
        · have hnone : ((t :: ts).find? fun t => t.name == name) = none := by
            refine List.find?_eq_none.mpr fun u hu => ?_
            have hgreater : info.name < u.name := by
              rcases List.mem_cons.mp hu with rfl | hu
              · exact hlt
              · exact String.lt_trans hlt (ht u hu)
            simpa [hname] using (TypeName.ne_of_lt hgreater).symm
          rw [if_pos hname, hnone]
          simp [hname]
        · simp [hname, Ne.symm hname]
      next =>
        by_cases hhere : t.name = name
        · have hname : name ≠ info.name := fun hsame => hne (hhere.trans hsame).symm
          simp [hhere, hname]
        · rw [List.find?_cons_of_neg (by simpa using hhere), ih hrest,
            List.find?_cons_of_neg (by simpa using hhere)]

/-- The entry of a name after an insertion: that of the inserted name extends the one before. -/
theorem get?_insert {table : TypeTable} (h : table.Ordered) (info : TypeInfo) (name : TypeName) :
    (table.insert info).get? name =
      if name = info.name then some (((table.get? name).map (·.extend info)).getD info)
      else table.get? name :=
  find?_insertInto info name h

theorem mem_supertypesOf_insert {table : TypeTable} (h : table.Ordered) {info : TypeInfo}
    {t sup : TypeName} :
    sup ∈ (table.insert info).supertypesOf t ↔
      sup ∈ table.supertypesOf t ∨ t = info.name ∧ sup ∈ info.supertypes := by
  unfold supertypesOf
  rw [get?_insert h]
  by_cases ht : t = info.name
  · rw [if_pos ht]
    cases table.get? t with
    | none => simp [ht]
    | some before => simp [ht, TypeInfo.mem_supertypes_extend]
  · simp [ht]

theorem supertypesOf_subset_insertAll {table : TypeTable} (h : table.Ordered)
    (infos : List TypeInfo) (t : TypeName) :
    table.supertypesOf t ⊆ (table.insertAll infos).supertypesOf t := by
  induction infos generalizing table with
  | nil => exact List.Subset.refl _
  | cons info infos ih =>
    intro sup hsup
    exact ih (h.insert info) ((mem_supertypesOf_insert h).mpr (.inl hsup))

end TypeTable

end CallMigration
