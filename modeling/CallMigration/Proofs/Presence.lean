import CallMigration.Proofs.Evaluation
import CallMigration.Proofs.Mentions
import CallMigration.Proofs.Names
import CallMigration.Proofs.Slots

/-!
# What the gate of the stock recipe sees

The gate looks at imports, at types written with their packages and at declarations. A match needs a
type of the table, and the unit names that type somewhere. If a declaration names it, the gate sees it.
If not, the gate sees the import that explains the name, or the name itself if it is a chain with a
package. It may miss a name that is explained by the unit's own package or by an import of something
around the library's packages, and a full name that is spelled in another way than as a chain.

* `UseTimeout.isHidden` : a name of a type that the gate may miss.
* `UseTimeout.isPresent_or_isHidden` : the gate sees every other name of a type of the table.
* `UseTimeout.match_present_or_hidden` : a unit with a match is present, or has such a name.
-/

namespace CallMigration

open Element

/-! ## Dotted names -/

/-- Of two dotted beginnings of a text, one is the other or a dotted beginning of it. -/
theorem dotted_cases {a b r r' : List Char} (h : a ++ '.' :: r = b ++ '.' :: r') :
    (a = b ∨ ∃ s, a = b ++ '.' :: s) ∨ ∃ s, b = a ++ '.' :: s ∧ r = s ++ '.' :: r' := by
  rcases List.append_eq_append_iff.mp h with ⟨s, hb, hr⟩ | ⟨s, ha, hr⟩
  · cases s with
    | nil => exact .inl (.inl (by simp [hb]))
    | cons c s =>
      rw [List.cons_append, List.cons.injEq] at hr
      exact .inr ⟨s, by rw [hb, ← hr.1], hr.2⟩
  · cases s with
    | nil => exact .inl (.inl (by simp [ha]))
    | cons c s =>
      rw [List.cons_append, List.cons.injEq] at hr
      exact .inl (.inr ⟨s, by rw [ha, ← hr.1]⟩)

theorem TypePattern.within_iff {name base : String} :
    within name base = true ↔
      name.toList = base.toList ∨ ∃ s, name.toList = base.toList ++ '.' :: s := by
  unfold within
  rw [Bool.or_eq_true, beq_iff_eq, String.toList_inj]
  refine or_congr Iff.rfl ?_
  constructor
  · intro h
    split at h
    next s heq => exact ⟨s, (List.isPrefixOf?_eq_some_iff_append_eq.mp heq).symm⟩
    next => cases h
  · rintro ⟨s, hs⟩
    rw [List.isPrefixOf?_eq_some_iff_append_eq.mpr hs.symm]
    rfl

namespace TypeName

theorem dot_notMem_head (n : TypeName) : '.' ∉ n.head.toList := by
  intro hdot
  unfold head at hdot
  split at hdot
  next head rest hsplit =>
    rw [String.toList_ofList] at hdot
    exact absurd (not_mem_splitFirst hsplit '.' hdot) (by decide)
  next hsplit => exact absurd (splitFirst_eq_none hsplit '.' hdot) (by decide)

theorem Erased.head {n : TypeName} (h : n.Erased) : Erased ⟨n.head⟩ := by
  intro c hc
  unfold TypeName.head at hc
  split at hc
  next head rest hsplit =>
    obtain ⟨d, -, heq⟩ := splitFirst_eq_some hsplit
    refine h c ?_
    rw [heq]
    rw [chars, String.toList_ofList] at hc
    exact List.mem_append_left _ hc
  next => exact h c hc

theorem chars_inside (n found : TypeName) :
    (n.inside found).chars = found.chars ∨
      ∃ rest, (n.inside found).chars = found.chars ++ '.' :: rest := by
  unfold inside
  split
  next head rest hsplit =>
    right
    refine ⟨rest, ?_⟩
    simp [chars, member]
  next => exact .inl rfl

end TypeName

theorem TypeName.dimensions_of_count {n : TypeName} (h : n.dimensions.1 = 0) :
    n.dimensions.2 = n := by
  have hpairs (s : List Char) (hcount : (takePairs s).1 = 0) : (takePairs s).2 = s := by
    unfold takePairs at hcount ⊢
    split at hcount
    next => cases hcount
    next => rfl
  have hrest : (takePairs n.chars.reverse).2 = n.chars.reverse := hpairs _ h
  have hsecond : n.dimensions.2 = ⟨String.ofList (takePairs n.chars.reverse).2.reverse⟩ := rfl
  rw [hsecond, hrest, List.reverse_reverse, chars, String.ofList_toList]

theorem Resolver.resolveElement?_erased {r : Resolver} {name t : TypeName} (hname : name.Erased)
    (h : r.resolveElement? name = some t) : t.Erased := by
  by_cases hprimitive : name.isPrimitive = true
  · rw [resolveElement?, if_pos hprimitive] at h
    cases h
    exact hname
  · by_cases hvar : (name.text == "var") = true
    · rw [resolveElement?, if_neg hprimitive, if_pos hvar] at h
      cases h
    · rw [resolveElement?_eq r (by simpa using hprimitive) (by simpa using hvar)] at h
      unfold TypeName.meaning? at h
      split at h
      next found hfound =>
        cases h
        exact hname.inside (resolveHead?_erased hfound)
      next =>
        rw [Option.ite_none_right_eq_some] at h
        cases h.2
        exact hname

/-! ## Erased packages -/

theorem exists_eraseFrom_append (s s' : List Char) (depth : Nat) :
    ∃ depth', eraseFrom depth (s ++ s') = eraseFrom depth s ++ eraseFrom depth' s' := by
  induction s generalizing depth with
  | nil => exact ⟨depth, rfl⟩
  | cons c s ih =>
    rw [List.cons_append, eraseFrom, eraseFrom]
    split
    next => exact ih _
    next =>
      split
      next => exact ih _
      next =>
        split
        next => exact ih _
        next =>
          obtain ⟨depth', heq⟩ := ih depth
          exact ⟨depth', by rw [heq, List.cons_append]⟩

/-- A type in a package is spelled as the package and its name, unless the package ends in the middle of
type arguments. -/
theorem TypeName.chars_inPackage (package : String) {name : String} (h : Erased ⟨name⟩) :
    (ofWritten (package ++ "." ++ name)).chars = (ofWritten package).chars ∨
      (ofWritten (package ++ "." ++ name)).chars = (ofWritten package).chars ++ '.' :: name.toList := by
  have hkeep : ∀ c ∈ '.' :: name.toList, isErased c = true := by
    intro c hc
    rcases List.mem_cons.mp hc with rfl | hc
    · decide
    · exact h c hc
  have hopen : '<' ∉ '.' :: name.toList := fun hmem => absurd (hkeep _ hmem) (by decide)
  have hclose : '>' ∉ '.' :: name.toList := fun hmem => absurd (hkeep _ hmem) (by decide)
  have hsplit : (package ++ "." ++ name).toList = package.toList ++ '.' :: name.toList := by simp
  obtain ⟨depth, heq⟩ := exists_eraseFrom_append package.toList ('.' :: name.toList) 0
  rw [chars_ofWritten, chars_ofWritten, hsplit, heq]
  cases depth with
  | zero =>
    right
    rw [eraseFrom_of_isErased hkeep]
  | succ depth =>
    left
    have hnothing := eraseFrom_append_of_plain hopen hclose depth []
    rw [List.append_nil, eraseFrom] at hnothing
    rw [hnothing, List.append_nil]

/-! ## The types of the table -/

namespace UseTimeout

/-- The package that the types of the table stand below. -/
def family : String := "org.apache.hc"

/-- What the gate makes use of in the name of a type. -/
structure Familiar (t : TypeName) : Prop where
  below : ∃ s, t.chars = family.toList ++ '.' :: s
  noArray : t.isArray = false
  spelled : ∃ q, qualifiedType? t.text = some q ∧ TypePattern.within q.text family = true

theorem familiar_of_contains {t : TypeName} (h : TypeTable.httpClient5.contains t = true) :
    Familiar t := by
  have hall : ∀ info ∈ HttpClient5.table.types,
      info.name.text ≠ family ∧ TypePattern.within info.name.text family = true ∧
        info.name.isArray = false ∧
        ((qualifiedType? info.name.text).any fun q => TypePattern.within q.text family) = true := by
    decide +kernel
  obtain ⟨info, hinfo⟩ := Option.isSome_iff_exists.mp h
  have hmem := List.mem_of_find?_eq_some hinfo
  have hname := List.find?_some hinfo
  rw [beq_iff_eq] at hname
  subst hname
  rw [httpClient5_eq] at hmem
  obtain ⟨hother, hwithin, harray, hspelled⟩ := hall info hmem
  refine ⟨?_, harray, Option.any_eq_true _ _ |>.mp hspelled⟩
  exact (TypePattern.within_iff.mp hwithin).resolve_left fun heq => hother (String.toList_inj.mp heq)

theorem contains_basic : ∀ t ∈ basicTypes, TypeTable.httpClient5.contains t = false := by
  rw [httpClient5_eq]
  decide +kernel

theorem contains_primitive : ∀ name ∈ primitiveTypes,
    TypeTable.httpClient5.contains ⟨name⟩ = false := by
  rw [httpClient5_eq]
  decide +kernel

theorem contains_owner : ∀ s ∈ setters, TypeTable.httpClient5.contains s.owner = true := by
  have hmem : ∀ name ∈ [HttpClient5.requestBuilder, HttpClient5.socketBuilder],
      ∃ info ∈ HttpClient5.table.types, info.name = ⟨name⟩ := by
    simp [HttpClient5.table, HttpClient5.entry]
  have howner : ∀ s ∈ setters,
      ∃ name ∈ [HttpClient5.requestBuilder, HttpClient5.socketBuilder], s.owner = ⟨name⟩ := by
    simp [setters, setter, HttpClient5.requestBuilder, HttpClient5.socketBuilder]
  intro s hs
  obtain ⟨name, hname, heq⟩ := howner s hs
  obtain ⟨info, hinfo, hsame⟩ := hmem name hname
  rw [httpClient5_eq, TypeTable.contains, TypeTable.get?, List.find?_isSome]
  exact ⟨info, hinfo, by rw [hsame, heq, beq_self_eq_true]⟩

/-- What begins like a type of the table lies in the family or around it. -/
theorem Familiar.within_or_around {t found : TypeName} (h : Familiar t)
    (hfound : t.chars = found.chars ∨ ∃ rest, t.chars = found.chars ++ '.' :: rest) :
    TypePattern.within found.text family = true ∨ TypePattern.within family found.text = true := by
  obtain ⟨s, hs⟩ := h.below
  rcases hfound with heq | ⟨rest, heq⟩
  · exact .inl (TypePattern.within_iff.mpr (.inr ⟨s, heq.symm.trans hs⟩))
  · rcases dotted_cases (heq.symm.trans hs) with hin | ⟨s, haround, -⟩
    · exact .inl (TypePattern.within_iff.mpr hin)
    · exact .inr (TypePattern.within_iff.mpr (.inr ⟨s, haround⟩))

/-- A package that has a type of the table lies in the family. -/
theorem within_of_findInPackage? {package name : String} {t : TypeName}
    (hname : TypeName.Erased ⟨name⟩) (hdot : '.' ∉ name.toList)
    (h : TypeTable.httpClient5.findInPackage? package name = some t) :
    TypePattern.within (TypeName.ofWritten package).text family = true := by
  rw [TypeTable.findInPackage?, Option.ite_none_right_eq_some] at h
  obtain ⟨hcontains, ht⟩ := h
  obtain ⟨s, hs⟩ := (familiar_of_contains hcontains).below
  refine TypePattern.within_iff.mpr ?_
  rcases TypeName.chars_inPackage package hname with heq | heq
  · exact .inr ⟨s, heq.symm.trans hs⟩
  · rcases dotted_cases (heq.symm.trans hs) with hin | ⟨s, -, hrest⟩
    · exact hin
    · exact absurd (by rw [hrest]; simp) hdot

/-! ## Names that mean a type of the table -/

theorem exists_of_knows {table : TypeTable} {root : Tree} {written : String}
    (h : (Resolver.ofTree table root).knows written = true) :
    ∃ t, (Resolver.ofTree table root).resolve? written = some t ∧ table.contains t = true :=
  Option.any_eq_true _ _ |>.mp h

/-- A name that means a type of the table is no array, so it means what its first segment says. -/
theorem exists_meaning_of_knows {root : Tree} {written : String}
    (h : (Resolver.ofTree .httpClient5 root).knows written = true) :
    ∃ t, TypeTable.httpClient5.contains t = true ∧ (TypeName.ofWritten written).meaning?
      ((Resolver.ofTree .httpClient5 root).resolveHead? (TypeName.ofWritten written).head) =
        some t := by
  obtain ⟨t, hresolve, ht⟩ := exists_of_knows h
  refine ⟨t, ht, ?_⟩
  rw [Resolver.resolve?_def] at hresolve
  obtain ⟨element, helement, harray⟩ := Option.map_eq_some_iff.mp hresolve
  have hname := TypeName.erased_ofWritten written
  have hcount : (TypeName.ofWritten written).dimensions.1 = 0 := by
    by_contra hcount
    obtain ⟨count, hsucc⟩ := Nat.exists_eq_succ_of_ne_zero hcount
    have herased := Resolver.resolveElement?_erased hname.dimensions helement
    have hno := (familiar_of_contains ht).noArray
    rw [← harray, hsucc, TypeName.isArray, herased.chars_array_succ,
      List.isSuffixOf_iff_suffix.mpr (List.suffix_append _ _)] at hno
    cases hno
  have hsame : element = t := by
    rw [hcount] at harray
    exact harray
  subst hsame
  rw [TypeName.dimensions_of_count hcount] at helement
  by_cases hprimitive : (TypeName.ofWritten written).isPrimitive = true
  · rw [Resolver.resolveElement?, if_pos hprimitive] at helement
    cases helement
    rw [contains_primitive _ (List.contains_iff_mem.mp hprimitive)] at ht
    cases ht
  · by_cases hvar : ((TypeName.ofWritten written).text == "var") = true
    · rw [Resolver.resolveElement?, if_neg hprimitive, if_pos hvar] at helement
      cases helement
    · rw [← helement, Resolver.resolveElement?_eq _ (by simpa using hprimitive) (by simpa using hvar)]

/-! ## Names that the gate may miss -/

/-- The element with the name of a written type: of a generic type, what stands before its arguments. -/
def spelling (x : Site) : Site :=
  if kind x == .genericType then (significantChildren x).headD x else x

/-- The type is written as a chain of names, which erasure leaves alone. -/
def isChain (x : Site) : Bool :=
  (tree (spelling x)).isNode &&
    (kind (spelling x) == .scopedTypeIdentifier || kind (spelling x) == .fieldAccess) &&
    significantText (spelling x) == (TypeName.ofWritten (significantText x)).text

/-- A name of a type of the table that the gate may miss: its first segment is imported and lies around
the packages of the table, or it is not imported and a type of the unit's own package; or the name is
that of the type in full, and it is not written as a chain. -/
def isHidden (r : Resolver) (x : Site) : Bool :=
  let name := TypeName.ofWritten (significantText x)
  r.knows (significantText x) &&
    match imported? r.scope.imports name.head with
    | some found => TypePattern.within family found.text
    | none =>
      (r.scope.package?.any fun package => (r.table.findInPackage? package name.head).isSome) ||
        (r.table.contains name && !isChain x)

/-- The name of a mention stands in the unit, and no chain stands around it. -/
theorem spelling_of_mention {root : Tree} {x : Site} (hx : x ∈ mentions root)
    (hkind : kind (spelling x) = .scopedTypeIdentifier ∨ kind (spelling x) = .fieldAccess) :
    (spelling x).In root ∧ (spelling x).parentKind? ≠ some (kind (spelling x)) := by
  obtain ⟨e, he, hchild, hparent⟩ := exists_parent_of_mention hx
  have hin : x.In root := (Site.in_of_mem_nodes he).child hchild
  unfold spelling at hkind ⊢
  split
  next hgeneric =>
    rw [if_pos hgeneric] at hkind
    rw [beq_iff_eq] at hgeneric
    cases hparts : significantChildren x with
    | nil =>
      rw [hparts, List.headD_nil, hgeneric] at hkind
      rcases hkind with hkind | hkind <;> cases hkind
    | cons y ys =>
      rw [hparts, List.headD_cons] at hkind
      have hy : y ∈ significantChildren x := by
        rw [hparts]
        exact List.mem_cons_self
      refine ⟨hin.significantChild hy, ?_⟩
      rw [List.headD_cons, Site.parentKind?_of_child (List.mem_of_mem_filter hy), hgeneric]
      rcases hkind with hkind | hkind <;> rw [hkind] <;> decide
  next hplain =>
    rw [if_neg hplain] at hkind
    refine ⟨hin, ?_⟩
    rw [Site.parentKind?_of_child hchild]
    intro hsame
    rw [Option.some.inj hsame] at hparent
    rcases hkind with hkind | hkind <;> rw [hkind] at hparent <;> revert hparent <;> decide

theorem isPresent_ofTree (table : TypeTable) (root : Tree) :
    rule.gate.isPresent (Resolver.ofTree table root) =
      (root.imports.any rule.gate.matchesImport ||
        (Scope.collect root).qualifiedReferences.any rule.gate.pattern.matchesType ||
        rule.gate.matchesDeclaration (Scope.collect root) (Resolver.ofTree table root)) := rfl

/-- A type of the table that is written in full as a chain is one of those that the gate looks at. -/
theorem isPresent_of_isChain {root : Tree} {x : Site} (hx : x ∈ mentions root)
    (hchain : isChain x = true)
    (ht : TypeTable.httpClient5.contains (.ofWritten (significantText x)) = true) :
    rule.gate.isPresent (Resolver.ofTree .httpClient5 root) = true := by
  simp only [isChain, Bool.and_eq_true, Bool.or_eq_true, beq_iff_eq] at hchain
  obtain ⟨⟨hnode, hkind⟩, htext⟩ := hchain
  obtain ⟨hin, hparent⟩ := spelling_of_mention hx hkind
  obtain ⟨q, hq, hwithin⟩ := (familiar_of_contains ht).spelled
  have hreference : qualifiedReference? (spelling x) = some q := by
    rw [qualifiedReference?, if_pos, htext, hq]
    simp [hkind, hparent]
  have hmem : q ∈ (Scope.collect root).qualifiedReferences :=
    List.mem_eraseDups.mpr (List.mem_filterMap.mpr
      ⟨spelling x, hin.nodes_subset _ (Site.mem_nodes_self hnode), hreference⟩)
  have hany : (Scope.collect root).qualifiedReferences.any rule.gate.pattern.matchesType = true :=
    List.any_eq_true.mpr ⟨q, hmem, hwithin⟩
  rw [isPresent_ofTree, hany]
  simp

theorem isPresent_of_matchesImport {root : Tree} {i : ImportDecl} (hi : i ∈ root.imports)
    (h : rule.gate.matchesImport i = true) :
    rule.gate.isPresent (Resolver.ofTree .httpClient5 root) = true := by
  have hany : root.imports.any rule.gate.matchesImport = true := List.any_eq_true.mpr ⟨i, hi, h⟩
  rw [isPresent_ofTree, hany]
  simp

/-- An import of something in the family is one of those that the gate looks at. -/
theorem matchesImport_of_within {i : ImportDecl} (hstatic : i.isStatic = false)
    (h : TypePattern.within (TypeName.ofWritten i.path).text family = true) :
    rule.gate.matchesImport i = true := by
  have hnamed : rule.gate.pattern.matchesType (TypeName.ofWritten i.path) = true := h
  unfold Gate.matchesImport
  simp [hstatic, hnamed]

theorem isPresent_of_declaredType {root : Tree} {written : String}
    (hwritten : written ∈ (Scope.collect root).declaredTypes)
    (hknows : (Resolver.ofTree .httpClient5 root).knows written = true) :
    rule.gate.isPresent (Resolver.ofTree .httpClient5 root) = true := by
  obtain ⟨t, hresolve, ht⟩ := exists_of_knows hknows
  obtain ⟨s, hs⟩ := (familiar_of_contains ht).below
  have hmatches : rule.gate.pattern.matchesType t = true := TypePattern.within_iff.mpr (.inr ⟨s, hs⟩)
  have hdeclaration : rule.gate.matchesDeclaration (Scope.collect root)
      (Resolver.ofTree .httpClient5 root) = true :=
    List.any_eq_true.mpr ⟨t, List.mem_filterMap.mpr ⟨written, hwritten, hresolve⟩, hmatches⟩
  rw [isPresent_ofTree, hdeclaration]
  simp

/-- No type of the table is read as one of `java.lang`. -/
theorem Familiar.ne_javaLang {t : TypeName} (h : Familiar t) (n : TypeName) (name : String) :
    t ≠ n.inside (.ofWritten ("java.lang." ++ name)) := by
  rintro rfl
  obtain ⟨s, hs⟩ := h.below
  have hjava : ∃ rest, (TypeName.ofWritten ("java.lang." ++ name)).chars = 'j' :: rest := by
    rw [TypeName.chars_ofWritten, String.toList_append]
    exact ⟨_, rfl⟩
  obtain ⟨rest, hrest⟩ := hjava
  have hfirst : (family.toList ++ '.' :: s).head? = some 'j' := by
    rw [← hs]
    rcases n.chars_inside (.ofWritten ("java.lang." ++ name)) with heq | ⟨rest', heq⟩ <;>
      rw [heq, hrest] <;> rfl
  exact absurd hfirst (by simp [family])

section

variable {root : Tree} {name t : TypeName} (ht : Familiar t)

include ht

/-- A name that an import explains is seen, unless the import lies around the family. -/
theorem isPresent_or_around {found : TypeName}
    (himported : imported? root.imports name.head = some found) (h : name.inside found = t) :
    rule.gate.isPresent (Resolver.ofTree .httpClient5 root) = true ∨
      TypePattern.within family found.text = true := by
  obtain ⟨i, hi, rfl⟩ := Option.map_eq_some_iff.mp himported
  have hbinds := List.find?_some hi
  rw [Bool.and_eq_true, Bool.not_eq_true'] at hbinds
  subst h
  rcases ht.within_or_around (name.chars_inside _) with hin | haround
  · exact .inl (isPresent_of_matchesImport (List.mem_of_find?_eq_some hi)
      (matchesImport_of_within hbinds.1 hin))
  · exact .inr haround

/-- A name that neither an import nor the own package explains is seen, unless it stands for itself. -/
theorem isPresent_or_self (hname : name.Erased)
    (hown : (root.packageName?.bind fun package =>
      TypeTable.httpClient5.findInPackage? package name.head) = none)
    (h : name.meaning? (ambient? .httpClient5 root.packageName? root.imports name.head) = some t) :
    rule.gate.isPresent (Resolver.ofTree .httpClient5 root) = true ∨ t = name := by
  rw [ambient?, hown, Option.none_or] at h
  cases hwildcard : (root.imports.filter fun i => i.isWildcard && !i.isStatic).findSome? fun i =>
      TypeTable.httpClient5.findInPackage? i.path name.head with
  | some found =>
    left
    obtain ⟨i, hi, hfound⟩ := List.exists_of_findSome?_eq_some hwildcard
    obtain ⟨himport, hkind⟩ := List.mem_filter.mp hi
    rw [Bool.and_eq_true, Bool.not_eq_true'] at hkind
    exact isPresent_of_matchesImport himport (matchesImport_of_within hkind.2
      (within_of_findInPackage? hname.head name.dot_notMem_head hfound))
  | none =>
    right
    rw [hwildcard, Option.none_or] at h
    split at h
    next => exact absurd (Option.some.inj h).symm (ht.ne_javaLang name name.head)
    next =>
      rw [TypeName.meaning?, Option.ite_none_right_eq_some] at h
      exact (Option.some.inj h.2).symm

end

theorem isHidden_ofTree {table : TypeTable} {root : Tree} {x : Site}
    (hknows : (Resolver.ofTree table root).knows (significantText x) = true) :
    isHidden (Resolver.ofTree table root) x =
      match imported? root.imports (TypeName.ofWritten (significantText x)).head with
      | some found => TypePattern.within family found.text
      | none =>
        (root.packageName?.any fun package => (table.findInPackage? package
          (TypeName.ofWritten (significantText x)).head).isSome) ||
        (table.contains (.ofWritten (significantText x)) && !isChain x) := by
  unfold isHidden
  rw [hknows, Bool.true_and]
  rfl

/-- **The gate sees every name of a type of the table, but for hidden ones.** -/
theorem isPresent_or_isHidden {root : Tree} {x : Site} (hx : x ∈ mentions root)
    (hknows : (Resolver.ofTree .httpClient5 root).knows (significantText x) = true) :
    rule.gate.isPresent (Resolver.ofTree .httpClient5 root) = true ∨
      isHidden (Resolver.ofTree .httpClient5 root) x = true := by
  obtain ⟨t, ht, hmeaning⟩ := exists_meaning_of_knows hknows
  have hfamiliar := familiar_of_contains ht
  have hname := TypeName.erased_ofWritten (significantText x)
  rw [Resolver.resolveHead?_root] at hmeaning
  rw [isHidden_ofTree hknows]
  -- The first segment is looked up among the imports, then in the unit's package, then elsewhere.
  split
  next found himported =>
    rw [himported, Option.some_or] at hmeaning
    exact isPresent_or_around hfamiliar himported (Option.some.inj hmeaning)
  next himported =>
    rw [himported, Option.none_or] at hmeaning
    cases hown : root.packageName?.bind fun package =>
        TypeTable.httpClient5.findInPackage? package
          (TypeName.ofWritten (significantText x)).head with
    | some found =>
      right
      obtain ⟨package, hpackage, hfound⟩ := Option.bind_eq_some_iff.mp hown
      rw [hpackage, Option.any_some, hfound, Option.isSome_some, Bool.true_or]
    | none =>
      rcases isPresent_or_self hfamiliar hname hown hmeaning with hpresent | rfl
      · exact .inl hpresent
      · by_cases hchain : isChain x = true
        · exact .inl (isPresent_of_isChain hx hchain ht)
        · right
          simp [ht, hchain]

/-- **A unit with a match is present, or hides what the match goes back to.** The gate of the stock recipe
lets every unit pass in which a call matches, as long as no name of a type of the table is hidden from
it. -/
theorem match_present_or_hidden (u : JavaUnit) :
    ∃ recipe, useTimeout = .ok recipe ∧
      ∀ call ∈ (Site.root u.tree).nodes, Call.isCall call = true →
        (recipe.rule.matcher.find? (Resolver.ofTree recipe.table u.tree) call).isSome = true →
        recipe.rule.gate.isPresent (Resolver.ofTree recipe.table u.tree) = true ∨
          ∃ x ∈ mentions u.tree, isHidden (Resolver.ofTree recipe.table u.tree) x = true := by
  refine ⟨_, useTimeout_eq, ?_⟩
  intro call hcall hkind hmatch
  obtain ⟨s, hs⟩ := Option.isSome_iff_exists.mp hmatch
  obtain ⟨hmem, -, -, owner, howner, haccepts⟩ := Matcher.find?_eq_some hs
  have hsame : owner = s.owner := haccepts.resolve_right fun h => nomatch h.1
  rw [Call.isCall, Bool.and_eq_true, beq_iff_eq] at hkind
  subst hsame
  rcases Resolver.named_of_ownerOf? contains_basic hcall hkind.2 howner (contains_owner s hmem) with
    ⟨written, hwritten, hknows⟩ | ⟨x, hx, hknows⟩
  · exact .inl (isPresent_of_declaredType hwritten hknows)
  · rcases isPresent_or_isHidden hx hknows with hpresent | hhidden
    · exact .inl hpresent
    · exact .inr ⟨x, hx, hhidden⟩

def hasMatch (r : Resolver) (root : Tree) : Bool :=
  (Site.root root).nodes.any fun call => Call.isCall call && (rule.matcher.find? r call).isSome

/-- A source whose package is not one of the library's. -/
def outsideSource : String :=
  "package com.acme;\nimport org.apache.hc.client5.http.config.*;\n" ++
    "class A \x7b Object f = RequestConfig.custom().setConnectTimeout(5); \x7d\n"

/-- No name is hidden there, so the gate lets the match pass. -/
theorem match_present_or_hidden_outside :
    ∃ recipe u, useTimeout = .ok recipe ∧ JavaUnit.parse outsideSource = .ok u ∧
      hasMatch (Resolver.ofTree recipe.table u.tree) u.tree = true ∧
      (∀ x ∈ mentions u.tree, isHidden (Resolver.ofTree recipe.table u.tree) x = false) ∧
      recipe.rule.gate.isPresent (Resolver.ofTree recipe.table u.tree) = true := by
  have hcheck : (JavaUnit.parse outsideSource).toOption.any (fun u : JavaUnit =>
      decide (hasMatch (Resolver.ofTree HttpClient5.table u.tree) u.tree = true ∧
        ∀ x ∈ mentions u.tree, isHidden (Resolver.ofTree HttpClient5.table u.tree) x = false)) = true := by
    rw [JavaUnit.parse_eq]
    decide +kernel
  obtain ⟨u, hparse, hfacts⟩ := exists_ok_of_any hcheck
  obtain ⟨hmatch, hnone⟩ := of_decide_eq_true hfacts
  rw [← httpClient5_eq] at hmatch hnone
  obtain ⟨recipe, hrecipe, hpresent⟩ := match_present_or_hidden u
  have hsame : recipe = UseTimeout.recipe .httpClient5 :=
    Except.ok.inj (hrecipe.symm.trans useTimeout_eq)
  subst hsame
  refine ⟨_, u, hrecipe, hparse, hmatch, hnone, ?_⟩
  obtain ⟨call, hcall, hfound⟩ := List.any_eq_true.mp hmatch
  rw [Bool.and_eq_true] at hfound
  rcases hpresent call hcall hfound.1 hfound.2 with hpresent | ⟨x, hx, hhidden⟩
  · exact hpresent
  · exact absurd hhidden (Bool.eq_false_iff.mp (hnone x hx))

/-- A sound source with a match that the gate does not let pass. -/
def IsTurnedAway (source : String) : Prop :=
  ∃ recipe u, useTimeout = .ok recipe ∧ JavaUnit.parse source = .ok u ∧ u.hasErrors = false ∧
    hasMatch (Resolver.ofTree recipe.table u.tree) u.tree = true ∧
    recipe.rule.gate.isPresent (Resolver.ofTree recipe.table u.tree) = false

def turnsAway (source : String) : Bool :=
  (JavaUnit.parse source).toOption.any fun u : JavaUnit =>
    decide (u.hasErrors = false ∧ hasMatch (Resolver.ofTree HttpClient5.table u.tree) u.tree = true ∧
      rule.gate.isPresent (Resolver.ofTree HttpClient5.table u.tree) = false)

theorem isTurnedAway_of_turnsAway {source : String} (h : turnsAway source = true) :
    IsTurnedAway source := by
  obtain ⟨u, hparse, hfacts⟩ := exists_ok_of_any h
  obtain ⟨hsound, hmatch, hpresent⟩ := of_decide_eq_true hfacts
  rw [← httpClient5_eq] at hmatch hpresent
  exact ⟨_, u, useTimeout_eq, hparse, hsound, hmatch, hpresent⟩

/-- A source in one of the library's packages. -/
def insideSource : String :=
  "package org.apache.hc.client5.http.config;\n" ++
    "class A \x7b Object f = RequestConfig.custom().setConnectTimeout(5); \x7d\n"

/-- A source that spells the full name of the type in one identifier. -/
def joinedSource : String :=
  "class A \x7b Object f = " ++
    "org$apache$hc$client5$http$config$RequestConfig.custom().setConnectTimeout(5); \x7d\n"

/-- A source with an import of something around the library's packages. -/
def aroundSource : String :=
  "import org.apache;\nclass A \x7b Object f = " ++
    "apache.hc.client5.http.config.RequestConfig.custom().setConnectTimeout(5); \x7d\n"

/-- Each way of hiding a name makes the gate turn a match away. -/
theorem matches_hidden :
    IsTurnedAway insideSource ∧ IsTurnedAway joinedSource ∧ IsTurnedAway aroundSource := by
  have hall : ([insideSource, joinedSource, aroundSource].all turnsAway) = true := by
    unfold turnsAway
    simp only [JavaUnit.parse_eq]
    decide +kernel
  simp only [List.all_cons, List.all_nil, Bool.and_eq_true] at hall
  obtain ⟨hinside, hjoined, haround, -⟩ := hall
  exact ⟨isTurnedAway_of_turnsAway hinside, isTurnedAway_of_turnsAway hjoined,
    isTurnedAway_of_turnsAway haround⟩

end UseTimeout

end CallMigration
