import CallMigration.Resolve.Scope

/-!
# The declarations of a node

* `Declaration.MadeBy` : a declaration of a node, by what the node is.
* `Declaration.madeBy_of_mem` : a node makes no other declarations.
-/

namespace CallMigration

open Element

namespace Declaration

/-- The kinds of parameters, and how far above a parameter the node stands that it belongs to. -/
def parameterOwners : List (Kind × Nat) :=
  [(.formalParameter, 2), (.resource, 2), (.catchFormalParameter, 1), (.enhancedForStatement, 0)]

/-- A declaration that a node makes. -/
inductive MadeBy (x : Site) : Declaration → Prop
  | declarator {isField : Bool} {owner : Span} {type declarator name : Site} {parts : List Site} :
      kind x = (if isField then .fieldDeclaration else .localVariableDeclaration) →
      x.around[0]? = some owner → declaredType? x = some type →
      declarator ∈ children x → kind declarator = .variableDeclarator →
      significantChildren declarator = name :: parts → kind name = .identifier →
      MadeBy x ⟨owner, significantText name, ofDeclarator (significantText type) parts,
        if isField then none else some declarator.start, isField⟩
  | parameter {above : Nat} {owner : Span} {type name : Site} {rest : List Site} :
      (kind x, above) ∈ parameterOwners → (x.span :: x.around)[above]? = some owner →
      fromType x = type :: rest → (rest.find? fun part => kind part == .identifier) = some name →
      MadeBy x ⟨owner, significantText name,
        if significantText type == "var" then .ambiguous else .written (significantText type), none,
        owner.kind == .recordDeclaration⟩
  | lambda {name : String} : kind x = .lambdaExpression → name ∈ lambdaNames x →
      MadeBy x ⟨x.span, name, .ambiguous, none, false⟩
  | pattern {owner : Span} {name : Site} : kind x = .instanceofExpression →
      ((fromType x).drop 1).find? (fun part => kind part == .identifier) = some name →
      (x.span :: x.around).find? (fun s => ownsPatterns s.kind) = some owner →
      MadeBy x ⟨owner, significantText name, .ambiguous, some x.start, false⟩

variable {x : Site} {d : Declaration}

theorem madeBy_of_variablesOf (isField : Bool)
    (hkind : kind x = if isField then .fieldDeclaration else .localVariableDeclaration)
    (h : d ∈ variablesOf isField x) : MadeBy x d := by
  unfold variablesOf at h
  split at h
  next owner _ type haround htype =>
    obtain ⟨declarator, hdeclarator, hmade⟩ := List.mem_filterMap.mp h
    rw [List.mem_filter, Bool.and_eq_true, beq_iff_eq] at hdeclarator
    split at hmade
    next name parts hparts =>
      rw [Option.ite_none_right_eq_some, beq_iff_eq] at hmade
      cases hmade.2
      exact .declarator hkind (by rw [haround]; rfl) htype hdeclarator.1 hdeclarator.2.2 hparts hmade.1
    next => cases hmade
  next => cases h

theorem madeBy_of_parameter (above : Nat) (hkind : (kind x, above) ∈ parameterOwners)
    (h : d ∈ parameter (x.span :: x.around)[above]? x) : MadeBy x d := by
  unfold parameter at h
  split at h
  next owner type rest howner hparts =>
    split at h
    next name hname =>
      rw [List.mem_singleton.mp h]
      exact .parameter hkind howner hparts hname
    next => cases h
  next => cases h

theorem madeBy_of_mem (h : d ∈ ofNode x) : MadeBy x d := by
  unfold ofNode at h
  split at h
  next hkind => exact madeBy_of_variablesOf true hkind h
  next hkind => exact madeBy_of_variablesOf false hkind h
  next hkind => exact madeBy_of_parameter 2 (by simp [hkind, parameterOwners]) h
  next hkind => exact madeBy_of_parameter 2 (by simp [hkind, parameterOwners]) h
  next hkind => exact madeBy_of_parameter 1 (by simp [hkind, parameterOwners]) h
  next hkind => exact madeBy_of_parameter 0 (by simp [hkind, parameterOwners]) h
  next hkind =>
    obtain ⟨name, hname, rfl⟩ := List.mem_map.mp h
    exact .lambda hkind hname
  next hkind =>
    unfold pattern at h
    split at h
    next name owner hname howner =>
      rw [List.mem_singleton.mp h]
      exact .pattern hkind hname howner
    next => cases h
  next => cases h

end Declaration

end CallMigration
