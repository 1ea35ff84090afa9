import CallMigration.Proofs.Registry
import CallMigration.Rule.Recipe

/-!
# What a built recipe has been checked for

`RecipeParts.build` stops at the first mistake, so a recipe that it gives has passed all checks.

* `Template.Compiled`, `Template.readBody_eq_ok_iff` : what is known of a compiled template and its body.
* `TypeName.Importable` : the types that a template may import.
* `RecipeParts.Built` : what is known of a built recipe.
* `RecipeParts.Built.selected_lt` : every selected argument exists in every signature.
-/

namespace CallMigration

/-! ## Steps that may fail -/

theorem forall_of_mapM_eq_ok {ε α β : Type} {f : α → Except ε β} {xs : List α} {ys : List β}
    (h : xs.mapM f = .ok ys) : ∀ y ∈ ys, ∃ x ∈ xs, f x = .ok y := by
  induction xs generalizing ys with
  | nil =>
    cases h
    simp
  | cons x xs ih =>
    rw [List.mapM_cons] at h
    obtain ⟨y, hy, h⟩ := exists_of_bind_eq_ok h
    obtain ⟨zs, hzs, h⟩ := exists_of_bind_eq_ok h
    cases h
    intro z hz
    rcases List.mem_cons.mp hz with rfl | hz
    · exact ⟨x, List.mem_cons_self, hy⟩
    · obtain ⟨w, hw, hwz⟩ := ih hzs z hz
      exact ⟨w, List.mem_cons_of_mem _ hw, hwz⟩

theorem forall_of_forM_eq_ok {ε α : Type} {f : α → Except ε Unit} {xs : List α}
    (h : xs.forM f = .ok ()) : ∀ x ∈ xs, f x = .ok () := by
  induction xs with
  | nil => simp
  | cons x xs ih =>
    obtain ⟨u, hu, h⟩ := exists_of_bind_eq_ok h
    intro y hy
    rcases List.mem_cons.mp hy with rfl | hy
    · exact hu
    · exact ih h y hy

/-! ## Templates -/

/-- A type that a template may import. -/
structure TypeName.Importable (n : TypeName) : Prop where
  written : ∃ name, n = .ofWritten name
  wellFormed : n.isWellFormed = true
  qualified : n.isQualified = true
  noArray : n.isArray = false

namespace Template

/-- The part of a unit that stands for a fragment. -/
def found? (root : Tree) (filled : String) : Target → Option (List Tree)
  | .invocation => expressionOf? root filled
  | .arguments => argumentsOf? root filled

variable {parser : Parser} {fragment : String} {placeholders : List Placeholder}
  {imports : List String} {target : Target} {t : Template}

/-- The body of a fragment is found in a sound unit around it. -/
theorem readBody_eq_ok_iff {body : List Tree} :
    readBody (JavaUnit.parseWith parser) fragment target = .ok body ↔
      ∃ u, JavaUnit.parseWith parser (host target (.ofList (fillSlots 0 (pieces fragment.toList)))) =
          .ok u ∧ u.hasErrors = false ∧
        found? u.tree (.ofList (fillSlots 0 (pieces fragment.toList))) target = some body := by
  unfold readBody
  dsimp only
  generalize String.ofList (fillSlots 0 (pieces fragment.toList)) = filled
  cases JavaUnit.parseWith parser (host target filled) with
  | error e => simp
  | ok u =>
    cases hread : u.hasErrors with
    | true => simp [hread]
    | false =>
      cases target with
      | invocation => cases hfound : expressionOf? u.tree filled <;> simp [hread, found?, hfound]
      | arguments => cases hfound : argumentsOf? u.tree filled <;> simp [hread, found?, hfound]

/-- What has been checked of a compiled template. -/
structure Compiled (parser : Parser) (fragment : String) (placeholders : List Placeholder)
    (imports : List String) (target : Target) (t : Template) : Prop where
  nonempty : (Text.trim fragment.toList).isEmpty = false
  declared : checkPlaceholders fragment placeholders = .ok ()
  checked : imports.mapM (checkImport fragment) = .ok t.imports
  read : readBody (JavaUnit.parseWith parser) fragment target = .ok t.body
  known : unknownName? t.imports t.body = none
  fragment_eq : t.fragment = fragment
  placeholders_eq : t.placeholders = placeholders
  target_eq : t.target = target

theorem compileWith_eq_ok_iff :
    compileWith parser fragment placeholders imports target = .ok t ↔
      t.Compiled parser fragment placeholders imports target := by
  unfold compileWith compileBy
  simp only [bind]
  constructor
  · intro h
    split at h
    next => cases h
    next hnonempty =>
      obtain ⟨_, hdeclared, h⟩ := exists_of_bind_eq_ok h
      obtain ⟨names, hnames, h⟩ := exists_of_bind_eq_ok h
      obtain ⟨body, hbody, h⟩ := exists_of_bind_eq_ok h
      split at h
      next => cases h
      next hknown =>
        cases h
        exact ⟨Bool.not_eq_true _ ▸ hnonempty, hdeclared, hnames, hbody, hknown, rfl, rfl, rfl⟩
  · rintro ⟨hnonempty, hdeclared, hnames, hbody, hknown, rfl, rfl, rfl⟩
    rw [hnonempty, hdeclared, hnames, hbody]
    simp only [Except.bind, hknown]
    rfl

theorem exists_compile_of_ofFragment (h : ofFragment fragment imports target = .ok t) :
    ∃ placeholders, compile fragment placeholders imports target = .ok t := by
  obtain ⟨placeholders, -, h⟩ := exists_of_bind_eq_ok h
  exact ⟨placeholders, h⟩

/-- The body of a fragment does not depend on its imports. -/
theorem ofFragment_withImports {others : List String}
    (h : ofFragment fragment imports target = .ok t) {names : List TypeName}
    (hnames : others.mapM (checkImport fragment) = .ok names)
    (hknown : unknownName? names t.body = none) :
    ofFragment fragment others target = .ok { t with imports := names } := by
  obtain ⟨placeholders, hscan, h⟩ := exists_of_bind_eq_ok h
  have hcompiled := compileWith_eq_ok_iff.mp h
  rw [ofFragment, hscan]
  exact compileWith_eq_ok_iff.mpr { hcompiled with checked := hnames, known := hknown }

theorem importable_of_checkImport {fragment name : String} {t : TypeName}
    (h : checkImport fragment name = .ok t) : t.Importable := by
  unfold checkImport TypeName.parse? at h
  split at h
  next found hfound =>
    split at h
    next hchecks =>
      cases h
      rw [Option.ite_none_right_eq_some] at hfound
      obtain ⟨hformed, heq⟩ := hfound
      cases heq
      rw [Bool.and_eq_true, Bool.not_eq_true'] at hchecks
      exact ⟨⟨name, rfl⟩, hformed, hchecks.1, hchecks.2⟩
    next => cases h
  next => cases h

end Template

/-! ## Recipes -/

namespace RecipeParts

/-- What is known of the recipe that parts make. -/
structure Built (parts : RecipeParts) (recipe : Recipe) : Prop where
  table : recipe.table = parts.table
  template : ∃ fragment placeholders,
    Template.compile fragment placeholders parts.imports parts.target = .ok recipe.rule.template
  selection : checkSelection recipe.rule.template recipe.rule.matcher.signatures
    recipe.rule.selected = .ok ()

theorem built_of_build {parts : RecipeParts} {recipe : Recipe} (h : parts.build = .ok recipe) :
    parts.Built recipe := by
  unfold build at h
  simp only [bind] at h
  split at h
  next =>
    split at h
    next =>
      split at h
      next => cases h
      next =>
        obtain ⟨gate, -, h⟩ := exists_of_bind_eq_ok h
        obtain ⟨signatures, -, h⟩ := exists_of_bind_eq_ok h
        obtain ⟨matcher, hmatcher, h⟩ := exists_of_bind_eq_ok h
        obtain ⟨-, rfl⟩ := Matcher.build_eq_ok_iff.mp hmatcher
        split at h
        next fragment _ =>
          split at h
          next placeholders _ =>
            obtain ⟨template, htemplate, h⟩ := exists_of_bind_eq_ok h
            obtain ⟨_, hselection, h⟩ := exists_of_bind_eq_ok h
            cases h
            exact ⟨rfl, ⟨fragment, placeholders, htemplate⟩, hselection⟩
          next =>
            obtain ⟨template, htemplate, h⟩ := exists_of_bind_eq_ok h
            obtain ⟨_, hselection, h⟩ := exists_of_bind_eq_ok h
            cases h
            exact ⟨rfl, ⟨fragment, Template.exists_compile_of_ofFragment htemplate⟩, hselection⟩
        next => cases h
    next => cases h
  next => cases h

theorem lt_of_checkSignature {s : Signature} {slots : List (Placeholder × Nat)}
    (h : checkSignature s slots = .ok ()) : ∀ slot ∈ slots, slot.2 < s.params.length := by
  induction slots with
  | nil => simp
  | cons slot slots ih =>
    obtain ⟨p, index⟩ := slot
    unfold checkSignature at h
    split at h
    next => cases h
    next param hparam =>
      split at h
      next => cases h
      next =>
        intro other hother
        rcases List.mem_cons.mp hother with rfl | hother
        · exact (List.getElem?_eq_some_iff.mp hparam).1
        · exact ih h other hother

theorem of_checkSelection {t : Template} {signatures : List Signature} {selected : List Nat}
    (h : checkSelection t signatures selected = .ok ()) :
    selected.length = t.placeholders.length ∧
      ∀ s ∈ signatures, ∀ index ∈ selected, index < s.params.length := by
  unfold checkSelection at h
  split at h
  next => cases h
  next hlength =>
    rw [ne_eq, not_not] at hlength
    refine ⟨hlength, fun s hs index hindex => ?_⟩
    have hslots := lt_of_checkSignature (forall_of_forM_eq_ok h s hs)
    have hzip : ((t.placeholders.zip selected).unzip).2 = selected :=
      List.unzip_zip_right (by omega)
    rw [← hzip, List.unzip_snd] at hindex
    obtain ⟨slot, hslot, rfl⟩ := List.mem_map.mp hindex
    exact hslots slot hslot

namespace Built

variable {parts : RecipeParts} {recipe : Recipe} (h : parts.Built recipe)

include h

theorem length_selected :
    recipe.rule.selected.length = recipe.rule.template.placeholders.length :=
  (of_checkSelection h.selection).1

theorem selected_lt {s : Signature} (hs : s ∈ recipe.rule.matcher.signatures) {index : Nat}
    (hindex : index ∈ recipe.rule.selected) : index < s.params.length :=
  (of_checkSelection h.selection).2 s hs index hindex

theorem importable {symbol : TypeName} (hsymbol : symbol ∈ recipe.rule.template.imports) :
    symbol.Importable := by
  obtain ⟨fragment, placeholders, hcompile⟩ := h.template
  obtain ⟨name, -, hname⟩ := forall_of_mapM_eq_ok (Template.compileWith_eq_ok_iff.mp hcompile).checked symbol hsymbol
  exact Template.importable_of_checkImport hname

end Built

end RecipeParts

end CallMigration
