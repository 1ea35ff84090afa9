import CallMigration.Document.Types
import CallMigration.Proofs.Merging
import CallMigration.Proofs.Signatures

/-!
# Documents of tables

The document of a table lists its types, and a table is read by inserting what is listed. Type names are
erased again when they are read, so they come back if there is nothing left in them to erase, and
whatever was read is of that kind.

* `TypeTable.Erased` : erasure leaves all names of a table alone.
* `TypeTable.decode?_encode` : what is written is read back.
* `TypeTable.erased_of_decode?` : what is read can be written.
* `TypeTable.unordered_and_documented` : neither the order of insertions nor the way through a document
  makes a difference.
-/

namespace CallMigration

open Value

/-! ## Names that are read back -/

/-- Erasure leaves the types of a method alone. -/
structure MethodInfo.Erased (m : MethodInfo) : Prop where
  params : ∀ p ∈ m.params, p.Erased
  returns : m.returns.Erased

/-- Erasure leaves all names of a declaration alone. -/
structure TypeInfo.Erased (info : TypeInfo) : Prop where
  name : info.name.Erased
  supertypes : ∀ sup ∈ info.supertypes, sup.Erased
  methods : ∀ m ∈ info.methods, m.Erased

/-- Erasure leaves all names of a table alone. -/
def TypeTable.Erased (table : TypeTable) : Prop :=
  ∀ info ∈ table.types, info.Erased

-- Of the characters of the name, not of all characters that there are.
instance (n : TypeName) : Decidable n.Erased :=
  List.decidableBAll (fun c => isErased c = true) n.chars

instance (m : MethodInfo) : Decidable m.Erased :=
  decidable_of_iff ((∀ p ∈ m.params, p.Erased) ∧ m.returns.Erased)
    ⟨fun h => ⟨h.1, h.2⟩, fun h => ⟨h.1, h.2⟩⟩

instance (info : TypeInfo) : Decidable info.Erased :=
  decidable_of_iff
    (info.name.Erased ∧ (∀ sup ∈ info.supertypes, sup.Erased) ∧ ∀ m ∈ info.methods, m.Erased)
    ⟨fun h => ⟨h.1, h.2.1, h.2.2⟩, fun h => ⟨h.1, h.2, h.3⟩⟩

instance (table : TypeTable) : Decidable table.Erased :=
  inferInstanceAs (Decidable (∀ info ∈ table.types, info.Erased))

theorem TypeInfo.Erased.extend {a b : TypeInfo} (ha : a.Erased) (hb : b.Erased) :
    (a.extend b).Erased where
  name := ha.name
  supertypes := by
    intro sup hsup
    rcases TypeInfo.mem_supertypes_extend.mp hsup with h | h
    · exact ha.supertypes sup h
    · exact hb.supertypes sup h
  methods := by
    intro m hm
    rcases List.mem_append.mp hm with h | h
    · exact ha.methods m h
    · exact hb.methods m h

theorem TypeTable.erased_insertInto {info : TypeInfo} (hinfo : info.Erased) {ts : List TypeInfo}
    (h : ∀ t ∈ ts, t.Erased) : ∀ t ∈ insertInto info ts, t.Erased := by
  induction ts with
  | nil => simpa [insertInto] using hinfo
  | cons u ts ih =>
    rw [List.forall_mem_cons] at h
    rw [insertInto]
    split
    · exact List.forall_mem_cons.mpr ⟨h.1.extend hinfo, h.2⟩
    · split
      · exact List.forall_mem_cons.mpr ⟨hinfo, List.forall_mem_cons.mpr h⟩
      · exact List.forall_mem_cons.mpr ⟨h.1, ih h.2⟩

theorem TypeTable.Erased.insertAll {table : TypeTable} (h : table.Erased) {infos : List TypeInfo}
    (hinfos : ∀ info ∈ infos, info.Erased) : (table.insertAll infos).Erased := by
  induction infos generalizing table with
  | nil => exact h
  | cons info infos ih =>
    rw [List.forall_mem_cons] at hinfos
    exact ih (erased_insertInto hinfos.1 h) hinfos.2

/-! ## What is written is read back -/

theorem Value.asList?_list {α : Type} {decode : Value → Option α} {encode : α → Value} {xs : List α}
    (h : ∀ x ∈ xs, decode (encode x) = some x) : asList? decode (.list (xs.map encode)) = some xs := by
  show (xs.map encode).mapM decode = some xs
  induction xs with
  | nil => rfl
  | cons x xs ih =>
    rw [List.forall_mem_cons] at h
    rw [List.map_cons, List.mapM_cons, h.1, ih h.2]
    rfl

theorem TypeName.decode?_encode {n : TypeName} (h : n.Erased) : decode? n.encode = some n := by
  show some (ofWritten n.text) = some n
  rw [ofWritten_text h]

theorem MethodInfo.decode?_encode {m : MethodInfo} (h : m.Erased) : decode? m.encode = some m := by
  have hparams := asList?_list fun p hp => TypeName.decode?_encode (h.params p hp)
  have hreturns := TypeName.decode?_encode h.returns
  unfold decode? encode
  simp [asFields?, areDistinct, fieldNames, required?, withDefault?, List.lookup_cons, asText?,
    asBool?, hparams, hreturns]

theorem TypeInfo.decode?_encode {info : TypeInfo} (h : info.Erased) :
    decode? info.encode = some info := by
  have hname := TypeName.decode?_encode h.name
  have hsupertypes := asList?_list fun sup hsup => TypeName.decode?_encode (h.supertypes sup hsup)
  have hmethods := asList?_list fun m hm => MethodInfo.decode?_encode (h.methods m hm)
  unfold decode? encode
  simp [asFields?, areDistinct, fieldNames, required?, withDefault?, List.lookup_cons, hname,
    hsupertypes, hmethods]

/-- **The document of a table is read back.** -/
theorem TypeTable.decode?_encode {table : TypeTable} (hordered : table.Ordered)
    (h : table.Erased) : decode? table.encode = some table := by
  have htypes := asList?_list fun info hinfo => TypeInfo.decode?_encode (h info hinfo)
  have hread : decode? table.encode = some (empty.insertAll table.types) := by
    unfold decode? encode
    simp [asFields?, areDistinct, withDefault?, htypes]
  rw [hread, hordered.insertAll_types]

/-! ## What is read can be written -/

theorem Value.forall_of_asList? {α : Type} {decode : Value → Option α} {P : α → Prop}
    (hdecode : ∀ v x, decode v = some x → P x) {v : Value} {xs : List α}
    (h : asList? decode v = some xs) : ∀ x ∈ xs, P x := by
  obtain ⟨vs, -, hvs⟩ := Option.bind_eq_some_iff.mp h
  intro x hx
  obtain ⟨v', -, hv'⟩ := Signature.forall_of_mapM_eq_some hvs x hx
  exact hdecode v' x hv'

/-- What holds of a value that is read and of the default value holds of a field. -/
theorem Value.of_withDefault? {α : Type} {decode : Value → Option α} {P : α → Prop}
    (hdecode : ∀ v x, decode v = some x → P x) {default : α} (hdefault : P default)
    {fields : List (String × Value)} {name : String} {x : α}
    (h : withDefault? fields name decode default = some x) : P x := by
  unfold withDefault? at h
  split at h
  next v _ => exact hdecode v x h
  next =>
    cases h
    exact hdefault

theorem TypeName.erased_of_decode? (v : Value) (n : TypeName) (h : decode? v = some n) :
    n.Erased := by
  obtain ⟨text, -, rfl⟩ := Option.map_eq_some_iff.mp h
  exact erased_ofWritten text

theorem MethodInfo.erased_of_decode? (v : Value) (m : MethodInfo) (h : decode? v = some m) :
    m.Erased := by
  obtain ⟨fields, -, h⟩ := Option.bind_eq_some_iff.mp h
  obtain ⟨name, -, h⟩ := Option.bind_eq_some_iff.mp h
  obtain ⟨params, hparams, h⟩ := Option.bind_eq_some_iff.mp h
  obtain ⟨returns, hreturns, h⟩ := Option.bind_eq_some_iff.mp h
  obtain ⟨isStatic, -, h⟩ := Option.bind_eq_some_iff.mp h
  cases h
  obtain ⟨v', -, hv'⟩ := Option.bind_eq_some_iff.mp hreturns
  constructor
  · exact of_withDefault? (fun _ _ => forall_of_asList? TypeName.erased_of_decode?)
      (List.forall_mem_nil _) hparams
  · exact TypeName.erased_of_decode? v' returns hv'

theorem TypeInfo.erased_of_decode? (v : Value) (info : TypeInfo) (h : decode? v = some info) :
    info.Erased := by
  obtain ⟨fields, -, h⟩ := Option.bind_eq_some_iff.mp h
  obtain ⟨name, hname, h⟩ := Option.bind_eq_some_iff.mp h
  obtain ⟨supertypes, hsupertypes, h⟩ := Option.bind_eq_some_iff.mp h
  obtain ⟨methods, hmethods, h⟩ := Option.bind_eq_some_iff.mp h
  cases h
  obtain ⟨v', -, hv'⟩ := Option.bind_eq_some_iff.mp hname
  constructor
  · exact TypeName.erased_of_decode? v' name hv'
  · exact of_withDefault? (fun _ _ => forall_of_asList? TypeName.erased_of_decode?)
      (List.forall_mem_nil _) hsupertypes
  · exact of_withDefault? (fun _ _ => forall_of_asList? MethodInfo.erased_of_decode?)
      (List.forall_mem_nil _) hmethods

/-- A table that is read is ordered, and erasure leaves its names alone. -/
theorem TypeTable.erased_of_decode? {v : Value} {table : TypeTable} (h : decode? v = some table) :
    table.Ordered ∧ table.Erased := by
  obtain ⟨fields, -, h⟩ := Option.bind_eq_some_iff.mp h
  obtain ⟨infos, hinfos, h⟩ := Option.bind_eq_some_iff.mp h
  cases h
  refine ⟨ordered_insertAll infos, ?_⟩
  apply Erased.insertAll (List.forall_mem_nil _)
  exact of_withDefault? (fun _ _ => forall_of_asList? TypeInfo.erased_of_decode?)
    (List.forall_mem_nil _) hinfos

/-! ## Order and documents -/

/-- **Neither the order of insertions nor the way through a document makes a difference.** Declarations of
different names may be inserted in any order, into whatever table is there. So a merge may take the types
of the other table in any order; it knows the types of both, with the supertypes of both and the methods
of one behind those of the other. The document of a table lists one declaration for each name, in
increasing order, and inserting these in any order makes the table again; if erasure leaves the names
alone, the document itself is read as that table, and so is the document of every table that was read. -/
theorem TypeTable.unordered_and_documented (table : TypeTable)
    (h : ∃ built, table = empty.insertAll built) :
    (∀ infos infos' : List TypeInfo, (infos.map (·.name)).Nodup → infos.Perm infos' →
      table.insertAll infos' = table.insertAll infos) ∧
    (∀ other : TypeTable, (∃ built, other = empty.insertAll built) →
      (∀ infos, infos.Perm other.types → table.insertAll infos = table.merge other) ∧
      ∀ name, (table.merge other).contains name = (table.contains name || other.contains name) ∧
        (∀ sup, sup ∈ (table.merge other).supertypesOf name ↔
          sup ∈ table.supertypesOf name ∨ sup ∈ other.supertypesOf name) ∧
        (table.merge other).methodsOf name = table.methodsOf name ++ other.methodsOf name) ∧
    (table.types.Pairwise fun a b => a.name < b.name) ∧
    (∀ infos, infos.Perm table.types → empty.insertAll infos = table) ∧
    (table.Erased → decode? table.encode = some table) ∧
    ∀ v read, decode? v = some read → decode? read.encode = some read := by
  rw [← ordered_iff_exists] at h
  refine ⟨fun infos infos' hnodup hperm => insertAll_perm h hnodup hperm, ?_, h, ?_,
    decode?_encode h, ?_⟩
  · intro other hother
    rw [← ordered_iff_exists] at hother
    refine ⟨fun infos hperm => insertAll_perm h hother.nodup_names hperm.symm, fun name => ?_⟩
    exact ⟨contains_merge h hother name, fun sup => mem_supertypesOf_merge h hother,
      methodsOf_merge h hother name⟩
  · intro infos hperm
    rw [insertAll_perm ordered_empty h.nodup_names hperm.symm, h.insertAll_types]
  · intro v read hread
    obtain ⟨hordered, herased⟩ := erased_of_decode? hread
    exact decode?_encode hordered herased

/-- A type that is declared in two parts, with a supertype and a method of the same name in both. -/
theorem TypeTable.unordered_and_documented_parts :
    let method (returns : String) : MethodInfo := ⟨"make", [⟨"int"⟩], ⟨returns⟩, true⟩
    let table := empty.insertAll [⟨⟨"p.B"⟩, [⟨"p.C"⟩], [method "p.B"]⟩]
    let infos : List TypeInfo := [⟨⟨"p.B"⟩, [⟨"p.D"⟩, ⟨"p.C"⟩], [method "p.D"]⟩, ⟨⟨"p.A"⟩, [], []⟩]
    let other := empty.insertAll infos
    (table.merge other).Erased ∧ table.insertAll infos.reverse = table.insertAll infos ∧
      table.insertAll infos = table.merge other ∧
      ⟨"p.D"⟩ ∈ (table.merge other).supertypesOf ⟨"p.B"⟩ ∧
      (table.merge other).methodsOf ⟨"p.B"⟩ = [method "p.B"] ++ [method "p.D"] ∧
      decode? (table.merge other).encode = some (table.merge other) := by
  intro method table infos other
  have hmerged : ∃ built, table.merge other = empty.insertAll built :=
    ordered_iff_exists.mp ((ordered_insertAll _).insertAll other.types)
  have herased : (table.merge other).Erased := by decide +kernel
  obtain ⟨hperm, hmerge, -⟩ := unordered_and_documented table ⟨_, rfl⟩
  obtain ⟨hany, hknown⟩ := hmerge other ⟨infos, rfl⟩
  obtain ⟨-, hsupertypes, hmethods⟩ := hknown ⟨"p.B"⟩
  obtain ⟨-, -, -, -, hdocument, -⟩ := unordered_and_documented (table.merge other) hmerged
  refine ⟨herased, ?_, ?_, ?_, ?_, hdocument herased⟩
  · exact hperm infos infos.reverse (by decide +kernel) (List.reverse_perm infos).symm
  · exact hany infos (by decide +kernel)
  · exact (hsupertypes ⟨"p.D"⟩).mpr (.inr (by decide +kernel))
  · rw [hmethods]
    decide +kernel

end CallMigration
