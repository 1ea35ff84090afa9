import CallMigration.Proofs.Tables
import Mathlib.Data.List.Sort

/-!
# Tables as finite maps

A table is no more than the entries that it gives for names. The entry of a name after several
insertions depends on the inserted declaration of that name alone, as long as no name is inserted twice,
so the order of the insertions makes no difference.

* `TypeTable.Ordered.ext` : tables with the same entries are the same.
* `TypeInfo.combine?` : the entry of a name that is declared on two sides.
* `TypeTable.get?_insertAll` : the entries after insertions of different names.
* `TypeTable.insertAll_perm`, `TypeTable.insertAll_types` : insertions in another order, and of all that
  a table has.
* `TypeTable.mem_supertypesOf_merge`, `TypeTable.methodsOf_merge` : what is known after a merge.
-/

namespace CallMigration

/-- The entry of a name with entries on two sides, the second of which extends the first. -/
def TypeInfo.combine? : Option TypeInfo → Option TypeInfo → Option TypeInfo
  | none, b => b
  | some a, none => some a
  | some a, some b => some (a.extend b)

@[simp] theorem TypeInfo.combine?_none_left (b : Option TypeInfo) : combine? none b = b := rfl

@[simp] theorem TypeInfo.combine?_none_right (a : Option TypeInfo) : combine? a none = a := by
  cases a <;> rfl

theorem TypeInfo.combine?_some (a : Option TypeInfo) (b : TypeInfo) :
    combine? a (some b) = some ((a.map (·.extend b)).getD b) := by
  cases a <;> rfl

namespace TypeTable

/-! ## Entries decide -/

/-- Of declarations with different names, the one that is found is the one with the name. -/
theorem find?_name_eq_some_iff {infos : List TypeInfo} (h : (infos.map (·.name)).Nodup)
    {name : TypeName} {info : TypeInfo} :
    (infos.find? fun t => t.name == name) = some info ↔ info ∈ infos ∧ info.name = name := by
  constructor
  · intro hfind
    exact ⟨List.mem_of_find?_eq_some hfind, by simpa using List.find?_some hfind⟩
  · rintro ⟨hmem, rfl⟩
    cases hfind : infos.find? fun t => t.name == info.name with
    | none => exact absurd hmem fun hin => by simpa using List.find?_eq_none.mp hfind info hin
    | some found =>
      have hname : found.name = info.name := by simpa using List.find?_some hfind
      rw [List.inj_on_of_nodup_map h (List.mem_of_find?_eq_some hfind) hmem hname]

theorem find?_name_perm {infos infos' : List TypeInfo} (h : (infos.map (·.name)).Nodup)
    (hperm : infos.Perm infos') (name : TypeName) :
    (infos'.find? fun t => t.name == name) = infos.find? fun t => t.name == name := by
  have h' : (infos'.map (·.name)).Nodup := (hperm.map _).nodup_iff.mp h
  apply Option.ext
  intro info
  rw [find?_name_eq_some_iff h', find?_name_eq_some_iff h, hperm.mem_iff]

theorem Ordered.nodup_names {table : TypeTable} (h : table.Ordered) :
    (table.types.map (·.name)).Nodup :=
  List.pairwise_map.mpr (h.imp TypeName.ne_of_lt)

theorem Ordered.ext {table table' : TypeTable} (h : table.Ordered) (h' : table'.Ordered)
    (hget : ∀ name, table.get? name = table'.get? name) : table = table' := by
  have hmem (info : TypeInfo) : info ∈ table.types ↔ info ∈ table'.types := by
    have hinfo := Option.ext_iff.mp (hget info.name) info
    unfold get? at hinfo
    rw [find?_name_eq_some_iff h.nodup_names, find?_name_eq_some_iff h'.nodup_names] at hinfo
    simpa using hinfo
  have hperm : table.types.Perm table'.types :=
    (List.perm_ext_iff_of_nodup h.nodup_names.of_map h'.nodup_names.of_map).mpr hmem
  have htypes : table.types = table'.types := by
    refine hperm.eq_of_pairwise (fun a b _ _ hab hba => ?_) h h'
    exact absurd (String.lt_trans hab hba) (String.lt_irrefl _)
  exact congrArg TypeTable.mk htypes

/-! ## Insertions of different names -/

/-- The entry of a name after insertions of different names: the inserted one, or the one before, or both
together. -/
theorem get?_insertAll {table : TypeTable} (h : table.Ordered) {infos : List TypeInfo}
    (hnodup : (infos.map (·.name)).Nodup) (name : TypeName) :
    (table.insertAll infos).get? name =
      TypeInfo.combine? (table.get? name) (infos.find? fun t => t.name == name) := by
  induction infos generalizing table with
  | nil => exact (TypeInfo.combine?_none_right _).symm
  | cons info infos ih =>
    rw [List.map_cons, List.nodup_cons] at hnodup
    obtain ⟨hnew, hrest⟩ := hnodup
    show ((table.insert info).insertAll infos).get? name = _
    rw [ih (h.insert info) hrest, get?_insert h]
    by_cases hname : name = info.name
    · -- The name is not inserted again.
      have hnone : (infos.find? fun t => t.name == name) = none := by
        apply List.find?_eq_none.mpr
        intro t ht heq
        apply hnew
        rw [← hname, ← eq_of_beq heq]
        exact List.mem_map_of_mem ht
      rw [if_pos hname, hnone, TypeInfo.combine?_none_right, List.find?_cons_of_pos (by simp [hname]),
        TypeInfo.combine?_some]
    · rw [if_neg hname, List.find?_cons_of_neg (by simpa using Ne.symm hname)]

/-- **Declarations of different names may be inserted in any order.** -/
theorem insertAll_perm {table : TypeTable} (h : table.Ordered) {infos infos' : List TypeInfo}
    (hnodup : (infos.map (·.name)).Nodup) (hperm : infos.Perm infos') :
    table.insertAll infos' = table.insertAll infos := by
  have hnodup' : (infos'.map (·.name)).Nodup := (hperm.map _).nodup_iff.mp hnodup
  apply (h.insertAll infos').ext (h.insertAll infos)
  intro name
  rw [get?_insertAll h hnodup', get?_insertAll h hnodup, find?_name_perm hnodup hperm]

/-- A table is what the insertion of all that it has makes. -/
theorem Ordered.insertAll_types {table : TypeTable} (h : table.Ordered) :
    empty.insertAll table.types = table := by
  apply (ordered_insertAll table.types).ext h
  intro name
  rw [get?_insertAll ordered_empty h.nodup_names]
  rfl

theorem ordered_iff_exists {table : TypeTable} :
    table.Ordered ↔ ∃ infos, table = empty.insertAll infos := by
  constructor
  · intro h
    exact ⟨table.types, h.insertAll_types.symm⟩
  · rintro ⟨infos, rfl⟩
    exact ordered_insertAll infos

/-! ## Merges -/

/-- The declared methods of a name; none for an undeclared one. -/
def methodsOf (table : TypeTable) (name : TypeName) : List MethodInfo :=
  match table.get? name with
  | some info => info.methods
  | none => []

section Merge

variable {table other : TypeTable} (h : table.Ordered) (hother : other.Ordered)

include h hother

theorem get?_merge (name : TypeName) :
    (table.merge other).get? name = TypeInfo.combine? (table.get? name) (other.get? name) :=
  get?_insertAll h hother.nodup_names name

theorem contains_merge (name : TypeName) :
    (table.merge other).contains name = (table.contains name || other.contains name) := by
  unfold contains
  rw [get?_merge h hother]
  cases table.get? name with
  | none => rfl
  | some a => cases other.get? name <;> rfl

theorem mem_supertypesOf_merge {name sup : TypeName} :
    sup ∈ (table.merge other).supertypesOf name ↔
      sup ∈ table.supertypesOf name ∨ sup ∈ other.supertypesOf name := by
  unfold supertypesOf
  rw [get?_merge h hother]
  cases table.get? name with
  | none => simp
  | some a =>
    cases other.get? name with
    | none => simp
    | some b => exact TypeInfo.mem_supertypes_extend

/-- The methods after a merge are those of one side and then those of the other. -/
theorem methodsOf_merge (name : TypeName) :
    (table.merge other).methodsOf name = table.methodsOf name ++ other.methodsOf name := by
  unfold methodsOf
  rw [get?_merge h hother]
  cases table.get? name with
  | none => simp
  | some a =>
    cases other.get? name with
    | none => simp
    | some b => rfl

end Merge

end TypeTable

end CallMigration
