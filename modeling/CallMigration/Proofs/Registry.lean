import CallMigration.Proofs.Call
import CallMigration.Rule.Matcher
import CallMigration.Tree.Unit

/-!
# When a registry of signatures is disjoint

`Matcher.build` compares signatures in pairs, while a call brings in a third type, its owner. With
subtype matching the owner can be a subtype of two owners that are not related to each other, and
then the pairwise comparison has not seen the clash.

* `Matcher.matching` : the registered signatures that a call satisfies, given what a resolver
  answers for its owner and its arguments; `Matcher.find?_eq_head?` says that `find?` takes the
  first of them.
* `Matcher.Unrelated` : no two signatures of one shape have owners with a common subtype.
* `Matcher.build_disjoint_iff` : a built registry is disjoint exactly if its signatures are
  unrelated, and then the order of registration does not matter.
-/

namespace CallMigration

namespace TypeTable

theorem isSubtype_refl (table : TypeTable) (t : TypeName) : table.isSubtype t t = true := by
  simp [isSubtype]

theorem ancestry_of_get?_eq_none {table : TypeTable} {t : TypeName} (h : table.get? t = none) :
    table.ancestry t = [t] := by
  have hnone : table.supertypesOf t = [] := by
    rw [supertypesOf, h]
  have hdone (steps : Nat) : table.ascend steps [] [t] = [t] := by
    cases steps <;> rfl
  rw [ancestry, ascend, List.contains_nil, if_neg Bool.false_ne_true, hnone]
  exact hdone _

theorem isSubtype_of_get?_eq_none {table : TypeTable} {t sup : TypeName} (h : table.get? t = none) :
    table.isSubtype t sup = true ↔ t = sup := by
  rw [isSubtype, ancestry_of_get?_eq_none h, Bool.or_eq_true, beq_iff_eq, List.contains_iff_mem,
    List.mem_singleton]
  exact ⟨fun heq => heq.elim id Eq.symm, .inl⟩

end TypeTable

theorem Signature.sameShape_iff {a b : Signature} :
    a.sameShape b = true ↔ a.name = b.name ∧ a.params = b.params := by
  simp [Signature.sameShape]

theorem Signature.eq_of_sameShape {a b : Signature} (h : a.sameShape b = true)
    (howner : a.owner = b.owner) : a = b := by
  obtain ⟨hname, hparams⟩ := sameShape_iff.mp h
  cases a
  cases b
  subst howner hname hparams
  rfl

theorem Signature.sameShape_comm (a b : Signature) : a.sameShape b = b.sameShape a := by
  unfold Signature.sameShape
  rw [Bool.beq_comm, Bool.beq_comm (a := a.params)]

namespace Resolver

variable (r : Resolver)

@[simp]
theorem typeResolver_typeOf? : TypeResolver.typeOf? r = r.typeOf? := rfl

@[simp]
theorem typeResolver_ownerOf? : TypeResolver.ownerOf? r = r.ownerOf? := rfl

@[simp]
theorem typeResolver_resolve? : TypeResolver.resolve? r = r.resolve? := rfl

@[simp]
theorem typeResolver_isSubtype : TypeResolver.isSubtype r = r.table.isSubtype := rfl

end Resolver

namespace Matcher

variable {signatures : List Signature} {subtypes : Bool} {table : TypeTable} {m : Matcher}

/-! ## What `build` checks -/

theorem overlaps_comm (table : TypeTable) (subtypes : Bool) (a b : Signature) :
    overlaps table subtypes a b = overlaps table subtypes b a := by
  unfold overlaps
  rw [Signature.sameShape_comm a b, Bool.or_comm (table.isSubtype a.owner b.owner), Bool.beq_comm]

theorem firstOverlap?_eq_none_iff :
    firstOverlap? table subtypes signatures = none ↔
      signatures.Pairwise fun a b => overlaps table subtypes a b = false := by
  induction signatures with
  | nil => simp [firstOverlap?]
  | cons a rest ih =>
    rw [List.pairwise_cons, ← ih, firstOverlap?]
    cases h : rest.find? (overlaps table subtypes a) with
    | some b =>
      have hb : overlaps table subtypes a b = true := List.find?_some h
      have hmem : b ∈ rest := List.mem_of_find?_eq_some h
      constructor
      · intro hnone
        cases hnone
      · rintro ⟨hall, -⟩
        rw [hall b hmem] at hb
        cases hb
    | none =>
      have hall : ∀ b ∈ rest, overlaps table subtypes a b = false := by
        simpa using h
      exact ⟨fun hrest => ⟨hall, hrest⟩, fun hboth => hboth.2⟩

theorem build_eq_ok_iff :
    build signatures subtypes table = .ok m ↔
      (signatures.Pairwise fun a b => overlaps table subtypes a b = false) ∧
        m = ⟨signatures, subtypes⟩ := by
  rw [← firstOverlap?_eq_none_iff, build]
  cases h : firstOverlap? table subtypes signatures with
  | some pair => simp
  | none =>
    rw [Except.ok.injEq]
    exact ⟨fun hm => ⟨rfl, hm.symm⟩, fun hm => hm.2.symm⟩

theorem build_perm {others : List Signature} (hperm : others.Perm signatures)
    (h : build signatures subtypes table = .ok m) :
    build others subtypes table = .ok ⟨others, subtypes⟩ := by
  obtain ⟨hpair, -⟩ := build_eq_ok_iff.mp h
  refine build_eq_ok_iff.mpr ⟨?_, rfl⟩
  refine (hperm.pairwise_iff ?_).mpr hpair
  intro a b hab
  rw [overlaps_comm]
  exact hab

theorem nodup_of_build (h : build signatures subtypes table = .ok m) : signatures.Nodup := by
  obtain ⟨hpair, -⟩ := build_eq_ok_iff.mp h
  refine hpair.imp ?_
  rintro a b hab rfl
  simp [overlaps] at hab

/-! ## What a call matches -/

section

variable {R : Type} [TypeResolver R] {r : R} {name : String} {owner : TypeName}
  {types : List TypeName}

/-- The registered signatures that a call of `name` on `owner` with arguments of the given types
satisfies. -/
def matching (m : Matcher) (r : R) (name : String) (owner : TypeName) (types : List TypeName) :
    List Signature :=
  m.signatures.filter fun s => s.name == name && m.accepts r owner types s

theorem mem_matching_iff {s : Signature} :
    s ∈ m.matching r name owner types ↔
      s ∈ m.signatures ∧ s.name = name ∧ s.params = types ∧
        (owner = s.owner ∨ m.subtypeMatching = true ∧ TypeResolver.isSubtype r owner s.owner = true) := by
  simp only [matching, accepts, List.mem_filter, Bool.and_eq_true, Bool.or_eq_true, beq_iff_eq]
  constructor
  · rintro ⟨hs, hname, howner, hparams⟩
    exact ⟨hs, hname, hparams, howner⟩
  · rintro ⟨hs, hname, hparams, howner⟩
    exact ⟨hs, hname, howner, hparams⟩

/-- The number of arguments need not be compared apart from their types. -/
theorem find?_candidates (m : Matcher) (r : R) (name : String) (owner : TypeName)
    (types : List TypeName) :
    (m.candidates name types.length).find? (m.accepts r owner types) =
      (m.matching r name owner types).head? := by
  rw [← List.head?_filter, candidates, matching, List.filter_filter]
  congr 1
  apply List.filter_congr
  intro s _
  unfold accepts Signature.arity
  by_cases hparams : s.params = types
  · rw [hparams, beq_self_eq_true, beq_self_eq_true, Bool.and_true, Bool.and_true, Bool.and_comm]
  · rw [beq_eq_false_iff_ne.mpr hparams, Bool.and_false, Bool.and_false, Bool.false_and]

/-- `find?` takes the first of the signatures that the call satisfies. -/
theorem find?_eq_head? (m : Matcher) (r : R) (call : Site) :
    m.find? r call =
      match Call.name? call, TypeResolver.ownerOf? r call,
        (Call.arguments call).mapM (TypeResolver.typeOf? r) with
      | some name, some owner, some types => (m.matching r name owner types).head?
      | _, _, _ => none := by
  unfold find?
  cases Call.name? call with
  | none => rfl
  | some name =>
    cases howner : TypeResolver.ownerOf? r call with
    | none => cases h : m.candidates name (Call.arguments call).length <;> simp [h]
    | some owner =>
      cases htypes : (Call.arguments call).mapM (TypeResolver.typeOf? r) with
      | none => cases h : m.candidates name (Call.arguments call).length <;> simp [h, htypes]
      | some types =>
        have hlength := length_of_mapM_eq_some htypes
        have hfind := find?_candidates m r name owner types
        rw [hlength] at hfind
        cases h : m.candidates name (Call.arguments call).length with
        | nil =>
          rw [h] at hfind
          simpa [h] using hfind
        | cons s rest =>
          rw [h] at hfind
          simpa [h, htypes] using hfind

theorem find?_eq_some {call : Site} {s : Signature} (h : m.find? r call = some s) :
    s ∈ m.signatures ∧ Call.name? call = some s.name ∧
      (Call.arguments call).mapM (TypeResolver.typeOf? r) = some s.params ∧
      ∃ owner, TypeResolver.ownerOf? r call = some owner ∧
        (owner = s.owner ∨ m.subtypeMatching = true ∧ TypeResolver.isSubtype r owner s.owner = true) := by
  rw [find?_eq_head?] at h
  split at h
  next name owner types hname howner htypes =>
    obtain ⟨hs, rfl, rfl, hmatch⟩ := mem_matching_iff.mp (List.mem_of_mem_head? h)
    exact ⟨hs, hname, htypes, owner, howner, hmatch⟩
  next => cases h

end

/-! ## Disjoint registries -/

/-- No two signatures with the same name and parameters have owners with a common subtype. -/
def Unrelated (table : TypeTable) (signatures : List Signature) : Prop :=
  ∀ a ∈ signatures, ∀ b ∈ signatures, a ≠ b → a.sameShape b = true →
    ∀ t, ¬ (table.isSubtype t a.owner = true ∧ table.isSubtype t b.owner = true)

/-- Only the types of the table can be below several owners. -/
theorem unrelated_iff :
    Unrelated table signatures ↔
      ∀ a ∈ signatures, ∀ b ∈ signatures, a ≠ b → a.sameShape b = true → ∀ info ∈ table.types,
        ¬ (table.isSubtype info.name a.owner = true ∧ table.isSubtype info.name b.owner = true) := by
  constructor
  · intro h a ha b hb hne hshape info _
    exact h a ha b hb hne hshape info.name
  · intro h a ha b hb hne hshape t ⟨hta, htb⟩
    cases ht : table.get? t with
    | some info =>
      obtain rfl : info.name = t := by simpa using List.find?_some ht
      exact h a ha b hb hne hshape info (List.mem_of_find?_eq_some ht) ⟨hta, htb⟩
    | none =>
      have howner : a.owner = b.owner :=
        ((TypeTable.isSubtype_of_get?_eq_none ht).mp hta).symm.trans
          ((TypeTable.isSubtype_of_get?_eq_none ht).mp htb)
      exact hne (Signature.eq_of_sameShape hshape howner)

instance : Decidable (Unrelated table signatures) :=
  decidable_of_iff _ unrelated_iff.symm

def Over {R : Type} [TypeResolver R] (r : R) (table : TypeTable) : Prop :=
  ∀ sub sup, TypeResolver.isSubtype r sub sup = table.isSubtype sub sup

/-- Whatever a resolver over the table answers, a call satisfies at most one signature. -/
def Disjoint (m : Matcher) (table : TypeTable) : Prop :=
  ∀ (R : Type) [TypeResolver R] (r : R), Over r table →
    ∀ name owner types, (m.matching r name owner types).length ≤ 1

theorem length_le_one_iff {α : Type} {l : List α} (h : l.Nodup) :
    l.length ≤ 1 ↔ ∀ a ∈ l, ∀ b ∈ l, a = b := by
  match l, h with
  | [], _ => simp
  | [a], _ => simp
  | a :: b :: rest, h =>
    have hne : a ≠ b := by
      rintro rfl
      simp at h
    constructor
    · intro hlength
      simp at hlength
    · intro hall
      exact absurd (hall a (by simp) b (by simp)) hne

section

variable {R : Type} [TypeResolver R] {r : R}

theorem nodup_matching (h : build signatures subtypes table = .ok m) (r : R) (name : String)
    (owner : TypeName) (types : List TypeName) : (m.matching r name owner types).Nodup := by
  have hnodup := nodup_of_build h
  obtain ⟨-, rfl⟩ := build_eq_ok_iff.mp h
  exact hnodup.filter _

/-- Signatures that a call satisfies have the same shape and owners above the call's owner. -/
theorem shape_of_mem_matching (hr : Over r table) {name : String} {owner : TypeName}
    {types : List TypeName} {a b : Signature} (ha : a ∈ m.matching r name owner types)
    (hb : b ∈ m.matching r name owner types) :
    a.sameShape b = true ∧ table.isSubtype owner a.owner = true ∧
      table.isSubtype owner b.owner = true := by
  obtain ⟨-, hna, hpa, hoa⟩ := mem_matching_iff.mp ha
  obtain ⟨-, hnb, hpb, hob⟩ := mem_matching_iff.mp hb
  refine ⟨Signature.sameShape_iff.mpr ⟨hna.trans hnb.symm, hpa.trans hpb.symm⟩, ?_, ?_⟩
  · rcases hoa with rfl | ⟨-, hsub⟩
    · exact TypeTable.isSubtype_refl _ _
    · exact (hr _ _).symm.trans hsub
  · rcases hob with rfl | ⟨-, hsub⟩
    · exact TypeTable.isSubtype_refl _ _
    · exact (hr _ _).symm.trans hsub

end

theorem disjoint_of_unrelated (h : build signatures subtypes table = .ok m)
    (hun : subtypes = true → Unrelated table signatures) : Disjoint m table := by
  intro R _ r hr name owner types
  rw [length_le_one_iff (nodup_matching h r name owner types)]
  intro a ha b hb
  obtain ⟨hshape, hsa, hsb⟩ := shape_of_mem_matching hr ha hb
  obtain ⟨hma, -, -, hoa⟩ := mem_matching_iff.mp ha
  obtain ⟨hmb, -, -, hob⟩ := mem_matching_iff.mp hb
  obtain ⟨-, rfl⟩ := build_eq_ok_iff.mp h
  cases subtypes with
  | true =>
    by_cases hab : a = b
    · exact hab
    · exact absurd ⟨hsa, hsb⟩ (hun rfl a hma b hmb hab hshape owner)
  | false =>
    simp only [Bool.false_eq_true, false_and, or_false] at hoa hob
    exact Signature.eq_of_sameShape hshape (hoa.symm.trans hob)

theorem unrelated_of_disjoint (h : build signatures true table = .ok m)
    (hdis : Disjoint m table) : Unrelated table signatures := by
  intro a ha b hb hne hshape t ⟨hta, htb⟩
  obtain ⟨hname, hparams⟩ := Signature.sameShape_iff.mp hshape
  let r : Resolver := ⟨table, default⟩
  have hle := hdis Resolver r (fun _ _ => rfl) a.name t a.params
  rw [length_le_one_iff (nodup_matching h r a.name t a.params)] at hle
  obtain ⟨-, rfl⟩ := build_eq_ok_iff.mp h
  refine hne (hle a ?_ b ?_)
  · exact mem_matching_iff.mpr ⟨ha, rfl, rfl, .inr ⟨rfl, hta⟩⟩
  · exact mem_matching_iff.mpr ⟨hb, hname.symm, hparams.symm, .inr ⟨rfl, htb⟩⟩

/-- In a disjoint registry the order of registration does not matter. -/
theorem find?_perm (m m' : Matcher) {R : Type} [TypeResolver R] {r : R}
    (hperm : m'.signatures.Perm m.signatures) (hsub : m'.subtypeMatching = m.subtypeMatching)
    (hdis : Disjoint m table) (hr : Over r table) (call : Site) :
    m'.find? r call = m.find? r call := by
  have hmatching : ∀ name owner types,
      m'.matching r name owner types = m.matching r name owner types := by
    intro name owner types
    have hperm' : (m'.matching r name owner types).Perm (m.matching r name owner types) := by
      unfold matching accepts
      rw [hsub]
      exact hperm.filter _
    have hle := hdis R r hr name owner types
    match hm : m.matching r name owner types with
    | [] =>
      rw [hm] at hperm'
      exact hperm'.eq_nil
    | [s] =>
      rw [hm] at hperm'
      exact List.perm_singleton.mp hperm'
    | a :: b :: rest =>
      rw [hm] at hle
      simp at hle
  rw [find?_eq_head?, find?_eq_head?]
  simp only [hmatching]

/-- **A built registry is disjoint exactly if its signatures are unrelated**, which without subtype
matching they always are; and then the answer for a call does not depend on the order in which the
signatures were registered. -/
theorem build_disjoint_iff (h : build signatures subtypes table = .ok m) :
    (Disjoint m table ↔ (subtypes = true → Unrelated table signatures)) ∧
      ((subtypes = true → Unrelated table signatures) →
        ∀ others : List Signature, others.Perm signatures →
          ∃ m', build others subtypes table = .ok m' ∧
            ∀ (R : Type) [TypeResolver R] (r : R), Over r table →
              ∀ call, m'.find? r call = m.find? r call) := by
  refine ⟨⟨?_, disjoint_of_unrelated h⟩, ?_⟩
  · rintro hdis rfl
    exact unrelated_of_disjoint h hdis
  · intro hun others hperm
    refine ⟨⟨others, subtypes⟩, build_perm hperm h, ?_⟩
    intro R _ r hr call
    have hdis := disjoint_of_unrelated h hun
    obtain ⟨-, rfl⟩ := build_eq_ok_iff.mp h
    exact find?_perm ⟨signatures, subtypes⟩ ⟨others, subtypes⟩ hperm rfl hdis hr call

/-! ## A type below two unrelated owners -/

/-- A table in which `p.C` has the two supertypes `p.A` and `p.B`. -/
def diamond : TypeTable :=
  TypeTable.empty.insertAll
    [⟨⟨"p.A"⟩, [], []⟩, ⟨⟨"p.B"⟩, [], []⟩, ⟨⟨"p.C"⟩, [⟨"p.A"⟩, ⟨"p.B"⟩], []⟩]

/-- The method `f()` of the type `p.A`. -/
def leftSignature : Signature := ⟨⟨"p.A"⟩, "f", []⟩

/-- The method `f()` of the type `p.B`. -/
def rightSignature : Signature := ⟨⟨"p.B"⟩, "f", []⟩

/-- What a matcher finds for the calls of a source, in order. -/
def answers (m : Matcher) (table : TypeTable) (source : String) : List (Option Signature) :=
  match JavaUnit.parse source with
  | .ok u =>
    ((Site.root u.tree).nodes.filter fun x => Call.isCall x).map 
      (m.find? (Resolver.ofTree table u.tree))
  | .error _ => []

/-- **Pairwise comparison is not enough**: both registries are accepted, and the call on a `p.C`
satisfies both signatures, so the one registered first is answered. -/
theorem diamond_answers_by_order :
    build [leftSignature, rightSignature] true diamond =
        .ok ⟨[leftSignature, rightSignature], true⟩ ∧
      build [rightSignature, leftSignature] true diamond =
        .ok ⟨[rightSignature, leftSignature], true⟩ ∧
      answers ⟨[leftSignature, rightSignature], true⟩ diamond
        "class X \x7b void g(p.C c) \x7b c.f(); \x7d \x7d" = [some leftSignature] ∧
      answers ⟨[rightSignature, leftSignature], true⟩ diamond
        "class X \x7b void g(p.C c) \x7b c.f(); \x7d \x7d" = [some rightSignature] := by
  refine ⟨build_eq_ok_iff.mpr ⟨by decide +kernel, rfl⟩,
    build_eq_ok_iff.mpr ⟨by decide +kernel, rfl⟩, ?_⟩
  decide +kernel

/-- A table in which `p.A` and `p.B` have one subtype each. -/
def fork : TypeTable :=
  TypeTable.empty.insertAll
    [⟨⟨"p.A"⟩, [], []⟩, ⟨⟨"p.B"⟩, [], []⟩, ⟨⟨"p.C"⟩, [⟨"p.A"⟩], []⟩, ⟨⟨"p.D"⟩, [⟨"p.B"⟩], []⟩]

/-- Without subtype matching the same two signatures are disjoint. With it they are, too, if no type is
below both owners, and then their order does not matter. -/
theorem build_disjoint_iff_siblings :
    (build [leftSignature, rightSignature] false diamond =
        .ok ⟨[leftSignature, rightSignature], false⟩ ∧
      Disjoint ⟨[leftSignature, rightSignature], false⟩ diamond) ∧
    build [leftSignature, rightSignature] true fork =
        .ok ⟨[leftSignature, rightSignature], true⟩ ∧
      Disjoint ⟨[leftSignature, rightSignature], true⟩ fork ∧
      ∃ m', build [rightSignature, leftSignature] true fork = .ok m' ∧
        ∀ call, m'.find? (⟨fork, default⟩ : Resolver) call =
          find? ⟨[leftSignature, rightSignature], true⟩ (⟨fork, default⟩ : Resolver) call := by
  have hexact : build [leftSignature, rightSignature] false diamond =
      .ok ⟨[leftSignature, rightSignature], false⟩ :=
    build_eq_ok_iff.mpr ⟨by decide +kernel, rfl⟩
  have hfork : build [leftSignature, rightSignature] true fork =
      .ok ⟨[leftSignature, rightSignature], true⟩ :=
    build_eq_ok_iff.mpr ⟨by decide +kernel, rfl⟩
  have hun : Unrelated fork [leftSignature, rightSignature] := by decide +kernel
  obtain ⟨hdis, horder⟩ := build_disjoint_iff hfork
  obtain ⟨m', hbuild, hsame⟩ := horder (fun _ => hun) _ (.swap _ _ [])
  exact ⟨⟨hexact, (build_disjoint_iff hexact).1.mpr nofun⟩, hfork, hdis.mpr fun _ => hun, m', hbuild,
    hsame Resolver ⟨fork, default⟩ fun _ _ => rfl⟩

end Matcher

end CallMigration
