import CallMigration.Proofs.Imports

/-!
# What a written type depends on

Only the first segment of a written type is looked up; the rest is put behind what is found. So two
resolvers that agree on the first segment agree on the type.

* `TypeName.head`, `TypeName.inside` : the first segment, and the name with another type for it.
* `lookedUp?` : the first segment of a written type, if it is looked up at all.
* `Resolver.resolve?_eq_iff` : when two resolvers agree on a written type.
* `SimpleName`, `SimpleName.resolve?_eq` : a simple name means what is found for it.
-/

namespace CallMigration

/-! ## The first segment of a written type -/

namespace TypeName

/-- The first segment. -/
def head (n : TypeName) : String :=
  match Text.splitFirst (· == '.') n.chars with
  | some (head, _) => String.ofList head
  | none => n.text

def inside (n found : TypeName) : TypeName :=
  match Text.splitFirst (· == '.') n.chars with
  | some (_, rest) => found.member (String.ofList rest)
  | none => found

theorem Erased.inside {n found : TypeName} (hn : n.Erased) (hfound : found.Erased) :
    (n.inside found).Erased := by
  unfold TypeName.inside
  split
  next head rest hsplit =>
    obtain ⟨c, -, heq⟩ := splitFirst_eq_some hsplit
    intro d hd
    rw [member, chars, String.toList_append, String.toList_append, List.mem_append,
      List.mem_append] at hd
    rcases hd with (hd | hd) | hd
    · exact hfound d hd
    · rw [show d = '.' by simpa using hd]
      decide
    · rw [String.toList_ofList] at hd
      exact hn d (by rw [heq]; simp [hd])
  next => exact hfound

theorem inside_injective {n a b : TypeName} (h : n.inside a = n.inside b) : a = b := by
  unfold inside at h
  split at h
  next =>
    rw [member, member, TypeName.mk.injEq, ← String.toList_inj] at h
    simp only [String.toList_append, List.append_assoc] at h
    exact congrArg TypeName.mk (String.toList_inj.mp (List.append_cancel_right h))
  next => exact h

/-- A name is its own first segment, followed by the rest. -/
theorem inside_head (n : TypeName) : n.inside ⟨n.head⟩ = n := by
  unfold inside head
  split
  next head rest hsplit =>
    obtain ⟨c, hc, heq⟩ := splitFirst_eq_some hsplit
    rw [beq_iff_eq] at hc
    subst hc
    have htext : n.text.toList = head ++ '.' :: rest := heq
    refine congrArg TypeName.mk (String.toList_inj.mp ?_)
    rw [htext]
    simp
  next => rfl

/-- What the name means if its first segment means `found?`. Without a meaning of its first segment, a
name with a package stands for itself. -/
def meaning? (n : TypeName) (found? : Option TypeName) : Option TypeName :=
  match found? with
  | some found => some (n.inside found)
  | none => if n.isQualified then some n else none

theorem Erased.array {n : TypeName} (h : n.Erased) (count : Nat) : (n.array count).Erased := by
  cases count with
  | zero => exact h
  | succ count => exact erased_ofWritten _

theorem Erased.chars_array_succ {n : TypeName} (h : n.Erased) (count : Nat) :
    (n.array (count + 1)).chars = (n.array count).chars ++ "[]".toList := by
  rw [TypeName.array, chars_ofWritten, String.toList_append]
  refine eraseFrom_of_isErased fun c hc => ?_
  rcases List.mem_append.mp hc with hc | hc
  · exact h.array count c hc
  · have hbrackets : "[]".toList.all isErased = true := by decide +kernel
    exact List.all_eq_true.mp hbrackets c hc

theorem array_injective {a b : TypeName} (ha : a.Erased) (hb : b.Erased) {count : Nat}
    (h : a.array count = b.array count) : a = b := by
  induction count with
  | zero => exact h
  | succ count ih =>
    refine ih ?_
    have hchars := congrArg chars h
    rw [ha.chars_array_succ, hb.chars_array_succ, List.append_left_inj] at hchars
    exact congrArg TypeName.mk (String.toList_inj.mp hchars)

theorem Erased.dimensions {n : TypeName} (h : n.Erased) : n.dimensions.2.Erased := by
  intro c hc
  rw [TypeName.dimensions, chars, String.toList_ofList, List.mem_reverse] at hc
  exact h c (List.mem_reverse.mp (takePairs_subset _ hc))

theorem Importable.text_ne_simpleName {n : TypeName} (h : n.Importable) : n.text ≠ n.simpleName := by
  obtain ⟨q, hq⟩ := h.exists_qualifier
  intro heq
  have hlength := congrArg String.length (text_of_qualifier? hq)
  rw [heq] at hlength
  simp only [String.length_append] at hlength
  have hdot : ".".length = 1 := rfl
  omega

theorem meaning?_eq_iff {n symbol : TypeName} {found? : Option TypeName} (hn : n.Erased)
    (hsymbol : symbol.Importable) (hname : symbol.simpleName = n.head)
    (hfound : ∀ found, found? = some found → found.Erased) (count : Nat) :
    ((n.meaning? found?).map fun t => t.array count) =
      ((n.meaning? (some symbol)).map fun t => t.array count) ↔ found? = some symbol := by
  constructor
  · intro hsame
    cases found? with
    | some found =>
      have hinside := array_injective (hn.inside (hfound found rfl)) (hn.inside hsymbol.erased)
        (Option.some.inj hsame)
      rw [inside_injective hinside]
    | none =>
      -- The name would stand for itself, so the type would be its own simple name.
      obtain ⟨t, ht, harray⟩ := Option.map_eq_some_iff.mp hsame
      rw [meaning?, Option.ite_none_right_eq_some] at ht
      rw [← Option.some.inj ht.2] at harray
      have hself := array_injective hn (hn.inside hsymbol.erased) harray
      have hhead := inside_injective (n.inside_head.trans hself)
      exact absurd ((congrArg text hhead).symm.trans hname.symm) hsymbol.text_ne_simpleName
  · rintro rfl
    rfl

end TypeName

/-- The first segment of a written type, which is looked up; primitive types and `var` are not. -/
def lookedUp? (written : String) : Option String :=
  let name := (TypeName.ofWritten written).dimensions.2
  if name.isPrimitive || name.text == "var" then none else some name.head

namespace Resolver

variable {r r' : Resolver}

theorem resolve?_def (r : Resolver) (written : String) :
    r.resolve? written = (r.resolveElement? (TypeName.ofWritten written).dimensions.2).map
      fun t => t.array (TypeName.ofWritten written).dimensions.1 := by
  unfold resolve?
  generalize (TypeName.ofWritten written).dimensions = parts
  rfl

theorem resolveElement?_eq (r : Resolver) {name : TypeName} (hprimitive : name.isPrimitive = false)
    (hvar : (name.text == "var") = false) :
    r.resolveElement? name = name.meaning? (r.resolveHead? name.head) := by
  unfold resolveElement? TypeName.meaning? TypeName.head TypeName.inside
  simp only [hprimitive, hvar, Bool.false_eq_true, if_false]
  cases Text.splitFirst (· == '.') name.chars with
  | none => rfl
  | some pair => rfl

theorem resolve?_eq (r : Resolver) {written head : String} (h : lookedUp? written = some head) :
    r.resolve? written = ((TypeName.ofWritten written).dimensions.2.meaning?
      (r.resolveHead? head)).map fun t => t.array (TypeName.ofWritten written).dimensions.1 := by
  rw [lookedUp?, Option.ite_none_left_eq_some, Bool.or_eq_true, not_or, Bool.not_eq_true,
    Bool.not_eq_true] at h
  obtain ⟨⟨hprimitive, hvar⟩, hhead⟩ := h
  rw [resolve?_def, resolveElement?_eq r hprimitive hvar, Option.some.inj hhead]

theorem resolve?_of_lookedUp?_eq_none {written : String} (h : lookedUp? written = none) :
    r'.resolve? written = r.resolve? written := by
  rw [lookedUp?, ite_eq_left_iff] at h
  have hfixed : ((TypeName.ofWritten written).dimensions.2.isPrimitive ||
      (TypeName.ofWritten written).dimensions.2.text == "var") = true := by
    by_contra hno
    cases h hno
  rw [resolve?_def, resolve?_def]
  unfold resolveElement?
  rcases Bool.or_eq_true_iff.mp hfixed with hprimitive | hvar
  · rw [if_pos hprimitive, if_pos hprimitive]
  · rw [if_pos hvar, if_pos hvar]

theorem findInPackage?_erased {table : TypeTable} {package head : String} {found : TypeName}
    (h : table.findInPackage? package head = some found) : found.Erased := by
  rw [TypeTable.findInPackage?, Option.ite_none_right_eq_some] at h
  cases h.2
  exact TypeName.erased_ofWritten _

theorem resolveHead?_erased {head : String} {found : TypeName}
    (h : r.resolveHead? head = some found) : found.Erased := by
  simp only [resolveHead?_eq, imported?, ambient?, Option.or_eq_some_iff, Option.map_eq_some_iff,
    Option.bind_eq_some_iff, Option.ite_none_right_eq_some] at h
  rcases h with ⟨i, -, rfl⟩ | ⟨-, ⟨p, -, hfound⟩ | ⟨-, hfound | ⟨-, -, hfound⟩⟩⟩
  · exact TypeName.erased_ofWritten _
  · exact findInPackage?_erased hfound
  · obtain ⟨i, -, hfound⟩ := List.exists_of_findSome?_eq_some hfound
    exact findInPackage?_erased hfound
  · cases hfound
    exact TypeName.erased_ofWritten _

/-- A written type means the same for two resolvers exactly if its first segment does, once that means
a type with a package for one of them. -/
theorem resolve?_eq_iff {written head : String} (h : lookedUp? written = some head)
    {symbol : TypeName} (hsymbol : symbol.Importable) (hname : symbol.simpleName = head)
    (hhead : r'.resolveHead? head = some symbol) :
    r'.resolve? written = r.resolve? written ↔ r.resolveHead? head = some symbol := by
  have hlooked : (TypeName.ofWritten written).dimensions.2.head = head := by
    rw [lookedUp?, Option.ite_none_left_eq_some] at h
    exact Option.some.inj h.2
  have herased := (TypeName.erased_ofWritten written).dimensions
  rw [r.resolve?_eq h, r'.resolve?_eq h, hhead, eq_comm]
  exact TypeName.meaning?_eq_iff herased hsymbol (hname.trans hlooked.symm)
    (fun found hfound => resolveHead?_erased hfound) _

end Resolver

/-! ## Simple names -/

theorem isIdentifierPart_of_mem {s : List Char} (h : Text.isIdentifier s = true) :
    ∀ c ∈ s, Text.isIdentifierPart c = true := by
  cases s with
  | nil => simp
  | cons d s =>
    rw [Text.isIdentifier, Bool.and_eq_true, List.all_eq_true] at h
    intro c hc
    rcases List.mem_cons.mp hc with rfl | hc
    · have hstart := h.1
      simp only [Text.isIdentifierStart, Bool.or_eq_true] at hstart
      simp only [Text.isIdentifierPart, Text.isAlphanumeric, Bool.or_eq_true]
      tauto
    · exact h.2 c hc

theorem not_mem_of_isIdentifier {s : List Char} (h : Text.isIdentifier s = true) {c : Char}
    (hpart : Text.isIdentifierPart c = false) : c ∉ s := by
  intro hc
  rw [isIdentifierPart_of_mem h c hc] at hpart
  cases hpart

/-- An identifier that erasure leaves alone. -/
structure SimpleName (name : String) : Prop where
  identifier : Text.isIdentifier name.toList = true
  erased : TypeName.Erased ⟨name⟩

namespace SimpleName

variable {name : String} (h : SimpleName name)

include h

theorem ofWritten_eq : TypeName.ofWritten name = ⟨name⟩ :=
  TypeName.ofWritten_text h.erased

theorem dimensions_eq : (TypeName.ofWritten name).dimensions = (0, ⟨name⟩) := by
  rw [h.ofWritten_eq]
  refine TypeName.dimensions_of_isArray ?_
  by_contra harray
  rw [Bool.not_eq_false, TypeName.isArray, List.isSuffixOf_iff_suffix] at harray
  have hbracket : ']' ∈ name.toList := harray.subset (by decide)
  exact not_mem_of_isIdentifier h.identifier (by decide) hbracket

theorem splitFirst_eq : Text.splitFirst (· == '.') name.toList = none := by
  cases hsplit : Text.splitFirst (· == '.') name.toList with
  | none => rfl
  | some pair =>
    obtain ⟨c, hc, heq⟩ := splitFirst_eq_some hsplit
    rw [beq_iff_eq] at hc
    have hdot : '.' ∈ name.toList := by
      rw [heq, hc]
      simp
    exact absurd hdot (not_mem_of_isIdentifier h.identifier (by decide))

theorem isQualified_eq : TypeName.isQualified ⟨name⟩ = false := by
  have hsegments : Text.segments name.toList = [name.toList] :=
    List.splitOnP_eq_singleton (splitFirst_eq_none h.splitFirst_eq)
  rw [TypeName.isQualified, TypeName.package?, TypeName.chars, hsegments]
  cases hupper : Text.startsUppercase name.toList <;> simp [hupper]

theorem lookedUp?_eq (hlooked : (lookedUp? name).isSome = true) : lookedUp? name = some name := by
  unfold lookedUp? at hlooked ⊢
  rw [h.dimensions_eq] at hlooked ⊢
  simp only at hlooked ⊢
  split at hlooked
  next => cases hlooked
  next hplain => rw [if_neg hplain, TypeName.head, TypeName.chars, h.splitFirst_eq]

/-- A simple name that is looked up means what is found there. -/
theorem resolve?_eq (r : Resolver) (hlooked : (lookedUp? name).isSome = true) :
    r.resolve? name = r.resolveHead? name := by
  rw [r.resolve?_eq (h.lookedUp?_eq hlooked), h.dimensions_eq]
  cases r.resolveHead? name with
  | some found =>
    rw [TypeName.meaning?, TypeName.inside, TypeName.chars, h.splitFirst_eq]
    rfl
  | none =>
    rw [TypeName.meaning?, h.isQualified_eq]
    rfl

end SimpleName

namespace TypeName.Importable

variable {symbol : TypeName} (h : symbol.Importable)

include h

theorem simpleName_suffix : symbol.simpleName.toList <:+ symbol.chars := by
  obtain ⟨q, hq⟩ := h.exists_qualifier
  rw [chars, text_of_qualifier? hq, String.toList_append]
  exact List.suffix_append _ _

theorem simple : SimpleName symbol.simpleName :=
  ⟨h.isIdentifier_simpleName, fun c hc => h.erased c (h.simpleName_suffix.subset hc)⟩

/-- A primitive type and `var` are never read as a type with a package. -/
theorem resolve?_ne_of_lookedUp? (r : Resolver) (hlooked : lookedUp? symbol.simpleName = none) :
    r.resolve? symbol.simpleName ≠ some symbol := by
  intro hresolve
  rw [lookedUp?, h.simple.dimensions_eq, ite_eq_left_iff] at hlooked
  rw [Resolver.resolve?_def, h.simple.dimensions_eq] at hresolve
  unfold Resolver.resolveElement? at hresolve
  simp only at hlooked hresolve
  split at hresolve
  next =>
    exact h.text_ne_simpleName (congrArg text (Option.some.inj hresolve)).symm
  next hprimitive =>
    split at hresolve
    next => cases hresolve
    next hvar => cases hlooked (by simp [hprimitive, hvar])

end TypeName.Importable

end CallMigration
