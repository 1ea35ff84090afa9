import CallMigration.Proofs.Dimensions
import CallMigration.Proofs.Documents
import CallMigration.Proofs.Registry
import CallMigration.Proofs.TypeArguments

/-!
# Normal forms of types

Types are compared by the text of their names. That is a comparison of types as long as each type has one
name, the one that erasure makes of its spellings. A resolver makes names in many ways: it erases what is
written, puts the rest of a name behind the first segment, adds brackets to the name of an element, and
takes names out of a table. All of them lead to names that erasure leaves alone, if those of the table are
of that kind.

* `TypeName.exists_ofWritten_iff` : which names are made by erasure.
* `AnswersErased` : answers that erasure leaves alone.
* `Resolver.typeBy?_erased`, `Resolver.typeWithin?_erased` : the answers for an expression are if those for
  its parts are, and so they all are.
* `Signature.IsWritten`, `IsCallOf` : signatures, and calls of the method of one, with types compared as
  types.
* `Resolver.answers_normal` : all answers are in normal form, and a matcher that compares names finds the
  signatures whose methods are called.
-/

namespace CallMigration

open Element Text

/-! ## Names in normal form -/

namespace TypeName

theorem exists_ofWritten_iff {n : TypeName} : (∃ written, ofWritten written = n) ↔ n.Erased := by
  constructor
  · rintro ⟨written, rfl⟩
    exact erased_ofWritten written
  · exact fun h => ⟨n.text, ofWritten_text h⟩

theorem erased_iff {n : TypeName} :
    n.Erased ↔ ∀ c ∈ n.chars, isBlank c = false ∧ c ≠ '<' ∧ c ≠ '>' ∧ c ≠ '$' := by
  refine forall₂_congr fun c _ => ?_
  simp only [isErased, Bool.and_eq_true, bne_iff_ne, Bool.not_eq_true']
  tauto

/-- Names in normal form are the same exactly if the types are. -/
theorem Erased.sameType_iff {m n : TypeName} (hm : m.Erased) (hn : n.Erased) :
    SameType m.text n.text ↔ m = n := by
  rw [CallMigration.sameType_iff, ofWritten_text hm, ofWritten_text hn]

end TypeName

theorem basicTypes_erased : ∀ t ∈ basicTypes, t.Erased := by
  decide +kernel

theorem TypeTable.Erased.of_returnType? {table : TypeTable} (h : table.Erased) {owner t : TypeName}
    {name : String} {arity : Nat} (hreturns : table.returnType? owner name arity = some t) : t.Erased := by
  obtain ⟨info, hinfo, m, hm, -, rfl⟩ := exists_method_of_returnType? hreturns
  exact ((h info hinfo).methods m hm).returns

/-! ## Answers in normal form -/

/-- Erasure leaves all answers alone. -/
def AnswersErased (infer : Site → Option TypeName) : Prop :=
  ∀ e t, infer e = some t → t.Erased

theorem AnswersErased.of_none : AnswersErased fun _ => none :=
  fun _ _ h => nomatch h

namespace Resolver

section

variable {r : Resolver} {infer inferInit : Site → Option TypeName}

theorem declaredType?_erased (hinfer : AnswersErased infer) {declared : Declared} {t : TypeName}
    (h : r.declaredType? infer declared = some t) : t.Erased := by
  cases declared with
  | written type =>
    have hresolve : r.resolve? type = some t := h
    exact resolve?_erased hresolve
  | inferred init => exact hinfer init t h
  | ambiguous => cases h

theorem ownerBy?_erased (hinfer : AnswersErased infer) (hinit : AnswersErased inferInit) :
    AnswersErased (r.ownerBy? infer inferInit) := by
  intro call t h
  obtain ⟨receiver, -, hsource⟩ := exists_ownerSource h
  cases hsource with
  | lookup _ h => exact declaredType?_erased hinit h
  | name _ h => exact resolve?_erased h
  | receiver h => exact hinfer receiver t h

/-- **The type of an expression is in normal form** if those of its parts are. -/
theorem typeBy?_erased (htable : r.table.Erased) (hinfer : AnswersErased infer) :
    AnswersErased (r.typeBy? infer inferInit) := by
  intro e t h
  cases typeSource_of_typeBy? h with
  | basic h => exact basicTypes_erased t h
  | lookup _ h => exact declaredType?_erased hinfer h
  | part _ h => exact hinfer _ t h
  | written _ _ h => exact resolve?_erased h
  | call _ _ _ h => exact htable.of_returnType? h

/-- **However many steps are followed, the answer is in normal form.** -/
theorem typeWithin?_erased (htable : r.table.Erased) : ∀ steps, AnswersErased (r.typeWithin? steps)
  | 0 => .of_none
  | 1 => typeBy?_erased htable .of_none
  | steps + 2 => typeBy?_erased htable (typeWithin?_erased htable (steps + 1))

theorem ownerWithin?_erased (htable : r.table.Erased) (steps : Nat) :
    AnswersErased (r.ownerWithin? steps) :=
  ownerBy?_erased (typeWithin?_erased htable steps) (typeWithin?_erased htable (steps - 1))

end

end Resolver

/-! ## Calls of a method -/

/-- A signature that was made of written types or read from its notation. -/
def Signature.IsWritten (s : Signature) : Prop :=
  (∃ owner name params, Signature.ofWritten owner name params = s) ∨ ∃ text, Signature.parse text = .ok s

namespace Signature.IsWritten

variable {s : Signature} (h : s.IsWritten)

include h

theorem exists_ofWritten : ∃ owner name params, Signature.ofWritten owner name params = s := by
  rcases h with h | ⟨text, htext⟩
  · exact h
  · exact ⟨_, _, _, (isRead_of_parse htext).ofWritten_eq⟩

theorem owner_erased : s.owner.Erased := by
  obtain ⟨owner, name, params, rfl⟩ := h.exists_ofWritten
  exact TypeName.erased_ofWritten owner

theorem params_erased : ∀ p ∈ s.params, p.Erased := by
  obtain ⟨owner, name, params, rfl⟩ := h.exists_ofWritten
  intro p hp
  obtain ⟨param, -, rfl⟩ := List.mem_map.mp hp
  exact TypeName.erased_ofWritten param

end Signature.IsWritten

/-- A call is one of the method of a signature: it has its name, its owner is of the same type or, if that
is asked for, a subtype, and its arguments are of the same types as the parameters. -/
structure IsCallOf (r : Resolver) (subtypes : Bool) (call : Site) (s : Signature) : Prop where
  name : Call.name? call = some s.name
  owner : ∃ owner, r.ownerOf? call = some owner ∧
    (SameType owner.text s.owner.text ∨ subtypes = true ∧ r.isSubtype owner s.owner = true)
  arguments : ∃ types, (Call.arguments call).mapM r.typeOf? = some types ∧
    List.Forall₂ (fun t p => SameType t.text p.text) types s.params

theorem forall₂_sameType_iff {ts ps : List TypeName} (hts : ∀ t ∈ ts, t.Erased)
    (hps : ∀ p ∈ ps, p.Erased) :
    List.Forall₂ (fun t p => SameType t.text p.text) ts ps ↔ ts = ps := by
  constructor
  · intro h
    induction h with
    | nil => rfl
    | cons hsame _ ih =>
      rw [List.forall_mem_cons] at hts hps
      rw [(hts.1.sameType_iff hps.1).mp hsame, ih hts.2 hps.2]
  · rintro rfl
    exact List.forall₂_same.mpr fun t ht => ((hts t ht).sameType_iff (hts t ht)).mpr rfl

namespace Matcher

variable {m : Matcher} {r : Resolver} {call : Site} {s : Signature}

/-- Comparing names tells whether a call is one of the method. -/
theorem isCallOf_iff (m : Matcher) (htable : r.table.Erased) (hs : s.IsWritten) {name : String}
    {owner : TypeName} {types : List TypeName} (hname : Call.name? call = some name)
    (howner : r.ownerOf? call = some owner)
    (htypes : (Call.arguments call).mapM r.typeOf? = some types) :
    IsCallOf r m.subtypeMatching call s ↔ (s.name == name && m.accepts r owner types s) = true := by
  have hown : owner.Erased := Resolver.ownerWithin?_erased htable Resolver.stepLimit call owner howner
  have hall : ∀ t ∈ types, t.Erased := by
    intro t ht
    obtain ⟨e, -, he⟩ := Signature.forall_of_mapM_eq_some htypes t ht
    exact Resolver.typeWithin?_erased htable Resolver.stepLimit e t he
  have hsame := forall₂_sameType_iff hall hs.params_erased
  rw [accepts, Bool.and_eq_true, Bool.and_eq_true, Bool.or_eq_true, Bool.and_eq_true, beq_iff_eq,
    beq_iff_eq, beq_iff_eq]
  constructor
  · rintro ⟨hcalled, ⟨owner', howner', hof⟩, types', htypes', hargs⟩
    cases hname.symm.trans hcalled
    cases howner.symm.trans howner'
    cases htypes.symm.trans htypes'
    exact ⟨rfl, hof.imp_left (hown.sameType_iff hs.owner_erased).mp, (hsame.mp hargs).symm⟩
  · rintro ⟨rfl, hof, rfl⟩
    exact ⟨hname, ⟨owner, howner, hof.imp_left (hown.sameType_iff hs.owner_erased).mpr⟩, _, htypes,
      hsame.mpr rfl⟩

/-- **A matcher finds the first signature whose method is called**, though it compares names. -/
theorem find?_eq_some_iff_isCallOf (htable : r.table.Erased) (hm : ∀ s ∈ m.signatures, s.IsWritten) :
    m.find? r call = some s ↔ IsCallOf r m.subtypeMatching call s ∧
      ∃ before after, m.signatures = before ++ s :: after ∧
        ∀ s' ∈ before, ¬IsCallOf r m.subtypeMatching call s' := by
  rw [find?_eq_head?]
  split
  next name owner types hname howner htypes =>
    have hcall (s : Signature) (hs : s ∈ m.signatures) := isCallOf_iff m htable (hm s hs) hname howner htypes
    have hnone {before after : List Signature} (hsplit : m.signatures = before ++ s :: after) :
        (∀ s' ∈ before, (!(s'.name == name && m.accepts r owner types s')) = true) ↔
          ∀ s' ∈ before, ¬IsCallOf r m.subtypeMatching call s' := by
      refine forall₂_congr fun s' hs' => ?_
      rw [hcall s' (by rw [hsplit]; exact List.mem_append_left _ hs'), Bool.not_eq_true', Bool.not_eq_true]
    rw [matching, List.head?_filter, List.find?_eq_some_iff_append]
    constructor
    · rintro ⟨hfound, before, after, hsplit, hbefore⟩
      exact ⟨(hcall s (by rw [hsplit]; simp)).mpr hfound, before, after, hsplit, (hnone hsplit).mp hbefore⟩
    · rintro ⟨hcalled, before, after, hsplit, hbefore⟩
      exact ⟨(hcall s (by rw [hsplit]; simp)).mp hcalled, before, after, hsplit, (hnone hsplit).mpr hbefore⟩
  next hunknown =>
    constructor
    · intro h
      cases h
    · rintro ⟨⟨hcalled, ⟨owner, howner, -⟩, types, htypes, -⟩, -⟩
      exact absurd htypes (hunknown _ _ _ hcalled howner)

end Matcher

/-- **All types that a resolver answers are in normal form**, and so comparing names compares types. Erasing
twice is erasing once, and the names that are made by erasure are those with nothing in them to erase. If
the names of the table are of that kind, so are all that are answered for written names, expressions and
calls. Then a matcher, which compares names, finds the first of its signatures whose method is called, with
types taken for the same if they are spellings of one type. -/
theorem Resolver.answers_normal {table : TypeTable} (htable : table.Erased) (root : Tree) :
    (∀ written, TypeName.ofWritten (TypeName.ofWritten written).text = TypeName.ofWritten written) ∧
    (∀ n : TypeName, (∃ written, TypeName.ofWritten written = n) ↔
      ∀ c ∈ n.chars, isBlank c = false ∧ c ≠ '<' ∧ c ≠ '>' ∧ c ≠ '$') ∧
    (∀ written t, (ofTree table root).resolve? written = some t →
      ∃ written', TypeName.ofWritten written' = t) ∧
    (∀ e t, (ofTree table root).typeOf? e = some t → ∃ written, TypeName.ofWritten written = t) ∧
    (∀ call t, (ofTree table root).ownerOf? call = some t → ∃ written, TypeName.ofWritten written = t) ∧
    ∀ m : Matcher, (∀ s ∈ m.signatures, s.IsWritten) → ∀ call s,
      m.find? (ofTree table root) call = some s ↔
        IsCallOf (ofTree table root) m.subtypeMatching call s ∧
          ∃ before after, m.signatures = before ++ s :: after ∧
            ∀ s' ∈ before, ¬IsCallOf (ofTree table root) m.subtypeMatching call s' := by
  refine ⟨fun written => TypeName.ofWritten_text (TypeName.erased_ofWritten written), fun n => ?_,
    fun written t h => ?_, fun e t h => ?_, fun call t h => ?_, fun m hm call s => ?_⟩
  · rw [TypeName.exists_ofWritten_iff, TypeName.erased_iff]
  · exact TypeName.exists_ofWritten_iff.mpr (resolve?_erased h)
  · exact TypeName.exists_ofWritten_iff.mpr (typeWithin?_erased htable stepLimit e t h)
  · exact TypeName.exists_ofWritten_iff.mpr (ownerWithin?_erased htable stepLimit call t h)
  · exact Matcher.find?_eq_some_iff_isCallOf htable hm

/-- A call on a field whose type is written in segments, with type arguments. -/
def spelledSource : String :=
  "import p.Outer; class A \x7b Outer . Inner<T> f; int g = f.m(f.n()); \x7d"

/-- The type of that field, as the names of compiled classes are written. -/
def spelledTable : TypeTable :=
  .insertAll .empty [⟨.ofWritten "p.Outer$Inner<T>", [],
    [⟨"m", [.ofWritten "q.List<T> []"], .ofWritten "int", false⟩,
      ⟨"n", [], .ofWritten "q.List<T> []", false⟩]⟩]

/-- A signature that spells the owner and the parameter in further ways. -/
def spelledSignature : String :=
  "p.Outer$Inner<K, V<K>> m(q.List<?>[])"

theorem Resolver.answers_normal_spelled :
    spelledTable.Erased ∧ ∃ u s call, JavaUnit.parse spelledSource = .ok u ∧
      Signature.parse spelledSignature = .ok s ∧ s.owner.text = "p.Outer.Inner" ∧
      significantText call = "f.m(f.n())" ∧ IsCallOf (ofTree spelledTable u.tree) false call s ∧
      ∃ owner written, (ofTree spelledTable u.tree).ownerOf? call = some owner ∧
        TypeName.ofWritten written = owner ∧ SameType owner.text s.owner.text := by
  have htable : spelledTable.Erased := by decide +kernel
  have hcheck : (Signature.parse spelledSignature).toOption.any (fun s =>
      decide (s.owner.text = "p.Outer.Inner") &&
        (JavaUnit.parse spelledSource).toOption.any fun u =>
          (Site.root u.tree).nodes.any fun call =>
            decide (significantText call = "f.m(f.n())" ∧
              Matcher.find? ⟨[s], false⟩ (ofTree spelledTable u.tree) call = some s)) = true := by
    rw [JavaUnit.parse_eq]
    decide +kernel
  obtain ⟨s, hs, hread⟩ := exists_ok_of_any hcheck
  rw [Bool.and_eq_true, decide_eq_true_eq] at hread
  obtain ⟨u, hparse, hany⟩ := exists_ok_of_any hread.2
  obtain ⟨call, -, hfacts⟩ := List.any_eq_true.mp hany
  obtain ⟨htext, hfind⟩ := of_decide_eq_true hfacts
  obtain ⟨-, -, -, -, howners, hmatchers⟩ := answers_normal htable u.tree
  have hwritten : ∀ s' ∈ [s], s'.IsWritten := List.forall_mem_singleton.mpr (.inr ⟨_, hs⟩)
  obtain ⟨hcalled, -⟩ := (hmatchers ⟨[s], false⟩ hwritten call s).mp hfind
  obtain ⟨owner, howner, hsame | ⟨hsubtypes, -⟩⟩ := hcalled.owner
  · obtain ⟨written, hname⟩ := howners call owner howner
    exact ⟨htable, u, s, call, hparse, hs, hread.1, htext, hcalled, owner, written, howner, hname, hsame⟩
  · cases hsubtypes

end CallMigration
