import CallMigration.Resolve.Scope
import Mathlib.Data.List.Basic

/-!
# Introductions

Every construct of a unit introduces variables into itself or into a construct around it: a block its
local variables, a method its parameters, a `catch` clause its parameter, and so on. `Introduction`
has all of them, whether a `Scope` records them or not.

* `Introduction`, `Tree.introductions` : the variables that the constructs of a unit introduce.
* `Tree.PlainDeclarations` : no brackets behind the names of parameters, at most one pair behind those
  of other variables, and no parameter without a name.
* `Scope.collect_declarations` : a scope holds the introductions but those of `catch` parameters and of
  parameters of variable arity.
-/

namespace CallMigration

open Element

/-! ## What constructs introduce -/

/-- The ways in which a variable is introduced. -/
inductive Form where
  | localVariable | field | formalParameter | variadicParameter | catchParameter | resource
  | loopVariable | lambdaParameter | pattern
deriving DecidableEq, Repr

/-- A variable that a construct introduces. -/
structure Introduction where
  form : Form
  /-- The construct that the variable belongs to. -/
  construct : Span
  name : String
  /-- The type that is written for it, or the initial value that it takes its type from. -/
  type : Declared
  /-- The byte offset from which it is visible; everywhere in the construct if there is none. -/
  visibleFrom : Option Nat
deriving DecidableEq, Repr

namespace Introduction

def isVisible (offset : Nat) (i : Introduction) : Bool :=
  i.visibleFrom.all (· ≤ offset)

def brackets : List Site → String
  | [] => ""
  | part :: _ => if (tree part).isNode && kind part == .node then significantText part else ""

/-- The type of a variable, by the type in front of its name and the parts behind it. -/
def typeBetween (type : Site) (behind : List Site) : Declared :=
  if significantText type = "var" then
    match behind with
    | [_, init] | [_, _, init] => .inferred init
    | _ => .ambiguous
  else .written (significantText type ++ brackets behind)

/-- The variable of a declarator; a field is visible in its whole construct. -/
def ofDeclarator? (form : Form) (construct : Span) (type declarator : Site) : Option Introduction :=
  match significantChildren declarator with
  | name :: behind =>
    if kind name = .identifier then
      some ⟨form, construct, significantText name, typeBetween type behind,
        if form = .field then none else some declarator.start⟩
    else none
  | [] => none

def isDeclarator (x : Site) : Bool :=
  (tree x).isNode && kind x == .variableDeclarator

/-- The variables of a declaration of fields or local variables. -/
def declarators (form : Form) (x : Site) : List Introduction :=
  match x.around, declaredType? x with
  | construct :: _, some type =>
    ((children x).filter isDeclarator).filterMap (ofDeclarator? form construct type)
  | _, _ => []

/-- The variable whose name stands directly behind a type. -/
def typed (form : Form) (construct? : Option Span) (visibleFrom : Option Nat) (x : Site) :
    List Introduction :=
  match construct?, Declaration.fromType x with
  | some construct, type :: name :: behind =>
    if kind name = .identifier then
      [⟨form, construct, significantText name, typeBetween type behind, visibleFrom⟩]
    else []
  | _, _ => []

/-- The parameter of a `catch` clause: a name behind a node with the types. -/
def caught (x : Site) : List Introduction :=
  match x.around, (significantChildren x).span fun part => kind part != .identifier with
  | construct :: _, (before, name :: _) =>
    match before.getLast? with
    | some types =>
      [⟨.catchParameter, construct, significantText name, .written (significantText types), none⟩]
    | none => []
  | _, _ => []

/-- A parameter of variable arity: a type, three dots and a declarator. -/
def variadic (x : Site) : List Introduction :=
  match x.around, Declaration.fromType x with
  | _ :: construct :: _, [type, dots, declarator] =>
    match significantChildren declarator with
    | name :: _ =>
      if isTokenText "..." dots && kind name == .identifier then
        [⟨.variadicParameter, construct, significantText name,
          .written (significantText type ++ "[]"), none⟩]
      else []
    | [] => []
  | _, _ => []

def ofNode (x : Site) : List Introduction :=
  match kind x with
  | .fieldDeclaration => declarators .field x
  | .localVariableDeclaration => declarators .localVariable x
  | .formalParameter => typed .formalParameter x.around[1]? none x
  | .node => variadic x
  | .catchFormalParameter => caught x
  | .resource => typed .resource x.around[1]? none x
  | .enhancedForStatement => typed .loopVariable (some x.span) none x
  | .lambdaExpression =>
    (Declaration.lambdaNames x).map fun name => ⟨.lambdaParameter, x.span, name, .ambiguous, none⟩
  | .instanceofExpression =>
    typed .pattern (x.around.find? fun s => Declaration.ownsPatterns s.kind) (some x.start) x
  | _ => []

end Introduction

/-- The variables that the constructs of a unit introduce, in document order. -/
def Tree.introductions (t : Tree) : List Introduction :=
  (Site.root t).nodes.flatMap Introduction.ofNode

/-! ## Plain declarations -/

def isBracketPair (x : Site) : Bool :=
  (tree x).isNode && kind x == .node && significantText x == "[]"

/-- The parts behind the name of a declarator: brackets and an initial value, or one of them. -/
def isPlainTail : List Site → Bool
  | [] => true
  | [part] => isBracketPair part
  | [equals, _] => isTokenText "=" equals
  | [part, equals, _] => isBracketPair part && isTokenText "=" equals
  | _ => false

def isPlainDeclarator (declarator : Site) : Bool :=
  match significantChildren declarator with
  | name :: behind => kind name != .identifier || isPlainTail behind
  | [] => true

/-- What stands directly behind a type is a name, with no brackets behind it. -/
def isPlainTyped (x : Site) : Bool :=
  match Declaration.fromType x with
  | _ :: name :: behind => kind name == .identifier && Introduction.brackets behind == ""
  | _ => true

/-- A node whose declarations are plain: at most one pair of brackets stands behind the name of a
variable, none behind that of a parameter, and a parameter has a name. -/
def isPlainNode (x : Site) : Bool :=
  match kind x with
  | .fieldDeclaration | .localVariableDeclaration =>
    ((children x).filter Introduction.isDeclarator).all isPlainDeclarator
  | .formalParameter | .resource | .enhancedForStatement | .instanceofExpression => isPlainTyped x
  | .catchFormalParameter => (Declaration.fromType x).isEmpty
  | _ => true

def Tree.PlainDeclarations (t : Tree) : Prop :=
  ∀ x ∈ (Site.root t).nodes, isPlainNode x = true

instance (t : Tree) : Decidable t.PlainDeclarations :=
  inferInstanceAs (Decidable (∀ x ∈ (Site.root t).nodes, isPlainNode x = true))

/-! ## What a scope records of them -/

namespace Introduction

def isRecorded (i : Introduction) : Bool :=
  i.form != .catchParameter && i.form != .variadicParameter

/-- What a scope knows of the type: nothing of that of a pattern, and initial values are kept for
declarators only. -/
def recordedType (i : Introduction) : Declared :=
  match i.form, i.type with
  | .localVariable, type | .field, type => type
  | .pattern, _ => .ambiguous
  | _, .written type => .written type
  | _, _ => .ambiguous

theorem recordedType_cases (i : Introduction) :
    i.recordedType = i.type ∨ i.recordedType = .ambiguous := by
  unfold recordedType
  split <;> simp_all

def declaration (i : Introduction) : Declaration where
  owner := i.construct
  name := i.name
  declared := i.recordedType
  visibleFrom := i.visibleFrom
  isField :=
    match i.form with
    | .field => true
    | .formalParameter | .resource | .loopVariable => i.construct.kind == .recordDeclaration
    | _ => false

theorem isVisible_declaration (offset : Nat) (i : Introduction) (declared : Declared) :
    Scope.isVisible offset { i.declaration with declared := declared } = i.isVisible offset := by
  unfold Scope.isVisible isVisible declaration
  cases i.visibleFrom <;> simp

end Introduction

section Recording

open Introduction

theorem isTokenText_of_isNode {x : Site} (h : (tree x).isNode = true) (text : String) :
    isTokenText text x = false := by
  unfold isTokenText
  cases htree : tree x with
  | token k s =>
    rw [htree] at h
    cases h
  | node k cs => rfl

theorem ofDeclarator_eq {type : Site} {behind : List Site} (h : isPlainTail behind = true) :
    Declaration.ofDeclarator (significantText type) behind = typeBetween type behind := by
  simp only [Declaration.ofDeclarator, Declaration.initializer?, Declaration.beforeEquals,
    typeBetween, beq_iff_eq]
  unfold isPlainTail at h
  split at h
  next => simp [brackets]
  next part =>
    simp only [isBracketPair, Bool.and_eq_true, beq_iff_eq] at h
    simp [brackets, h, isTokenText_of_isNode h.1.1]
  next equals init =>
    have hnode : (tree equals).isNode = false := by
      cases hnode : (tree equals).isNode with
      | false => rfl
      | true =>
        rw [isTokenText_of_isNode hnode] at h
        cases h
    simp [brackets, h, hnode]
  next part equals init =>
    simp only [isBracketPair, Bool.and_eq_true, beq_iff_eq] at h
    simp [brackets, h, isTokenText_of_isNode h.1.1.1]
  next => cases h

theorem ofDeclarator?_declaration {construct : Span} {type declarator : Site} (isField : Bool)
    (h : isPlainDeclarator declarator = true) :
    (match significantChildren declarator with
      | name :: parts =>
        if kind name == .identifier then
          some (⟨construct, significantText name,
            Declaration.ofDeclarator (significantText type) parts,
            if isField then none else some declarator.start, isField⟩ : Declaration)
        else none
      | [] => none) =
      (ofDeclarator? (if isField then .field else .localVariable) construct type declarator).map
        declaration := by
  unfold isPlainDeclarator at h
  unfold ofDeclarator?
  split
  next name behind hparts =>
    rw [hparts] at h
    by_cases hname : kind name = .identifier
    · have hplain : isPlainTail behind = true := by simpa [hname] using h
      rw [if_pos (beq_iff_eq.mpr hname), if_pos hname, ofDeclarator_eq hplain]
      cases isField <;> rfl
    · rw [if_neg (by simpa using hname), if_neg hname]
      rfl
  next => rfl

theorem form_of_mem_declarators {form : Form} {x : Site} {i : Introduction}
    (hi : i ∈ declarators form x) : i.form = form := by
  unfold declarators at hi
  split at hi
  next =>
    obtain ⟨declarator, -, hdeclarator⟩ := List.mem_filterMap.mp hi
    unfold ofDeclarator? at hdeclarator
    split at hdeclarator
    next =>
      split at hdeclarator
      next =>
        cases hdeclarator
        rfl
      next => cases hdeclarator
    next => cases hdeclarator
  next => cases hi

theorem variablesOf_eq {x : Site} (isField : Bool)
    (h : ((children x).filter isDeclarator).all isPlainDeclarator = true) :
    Declaration.variablesOf isField x =
      (declarators (if isField then .field else .localVariable) x).map declaration := by
  unfold Declaration.variablesOf declarators
  rcases haround : x.around with _ | ⟨construct, outer⟩
  · rfl
  · rcases htype : declaredType? x with _ | type
    · rfl
    · simp only [List.map_filterMap]
      exact List.filterMap_congr fun declarator hmem =>
        ofDeclarator?_declaration isField (List.all_eq_true.mp h declarator hmem)

theorem form_of_mem_typed {form : Form} {construct? : Option Span} {visibleFrom : Option Nat}
    {x : Site} {i : Introduction} (hi : i ∈ typed form construct? visibleFrom x) : i.form = form := by
  unfold typed at hi
  split at hi
  next =>
    split at hi
    next =>
      rw [List.mem_singleton.mp hi]
    next => cases hi
  next => cases hi

/-- The type of a parameter without brackets, as a scope records it. -/
theorem recordedType_parameter {i : Introduction} {type : Site} {behind : List Site}
    (hform : i.form = .formalParameter ∨ i.form = .resource ∨ i.form = .loopVariable)
    (htype : i.type = typeBetween type behind) (hbrackets : brackets behind = "") :
    i.recordedType =
      if significantText type == "var" then .ambiguous else .written (significantText type) := by
  by_cases hvar : significantText type = "var"
  · rw [if_pos (beq_iff_eq.mpr hvar)]
    have hinferred : i.type = .ambiguous ∨ ∃ init, i.type = .inferred init := by
      rw [htype]
      unfold typeBetween
      rw [if_pos hvar]
      split
      · exact .inr ⟨_, rfl⟩
      · exact .inr ⟨_, rfl⟩
      · exact .inl rfl
    unfold recordedType
    rcases hform with hform | hform | hform <;> rcases hinferred with htype | ⟨init, htype⟩ <;>
      simp only [hform, htype]
  · rw [if_neg (by simpa using hvar)]
    unfold typeBetween at htype
    rw [if_neg hvar, hbrackets, String.append_empty] at htype
    unfold recordedType
    rcases hform with hform | hform | hform <;> simp only [hform, htype]

theorem parameter_eq {form : Form} {x : Site} (construct? : Option Span)
    (hform : form = .formalParameter ∨ form = .resource ∨ form = .loopVariable)
    (h : isPlainTyped x = true) :
    Declaration.parameter construct? x = (typed form construct? none x).map declaration := by
  unfold isPlainTyped at h
  unfold Declaration.parameter typed
  cases construct? with
  | none => rfl
  | some construct =>
    rcases hfrom : Declaration.fromType x with _ | ⟨type, _ | ⟨name, behind⟩⟩
    · rfl
    · rfl
    · rw [hfrom] at h
      simp only [Bool.and_eq_true, beq_iff_eq] at h
      have hfind : (name :: behind).find? (fun part => kind part == .identifier) = some name := by
        simp [h.1]
      have hrecorded := recordedType_parameter
        (i := ⟨form, construct, significantText name, typeBetween type behind, none⟩) hform rfl h.2
      simp only [hfind, if_pos h.1, List.map_cons, List.map_nil, declaration, hrecorded]
      rcases hform with rfl | rfl | rfl <;> rfl

theorem pattern_eq {x : Site} (hkind : kind x = .instanceofExpression) (h : isPlainTyped x = true) :
    Declaration.pattern x =
      (typed .pattern (x.around.find? fun s => Declaration.ownsPatterns s.kind) (some x.start) x).map
        declaration := by
  have howner : (x.span :: x.around).find? (fun s => Declaration.ownsPatterns s.kind) =
      x.around.find? fun s => Declaration.ownsPatterns s.kind := by
    have hspan : x.span.kind = .instanceofExpression := hkind
    rw [List.find?_cons_of_neg]
    simp [hspan, Declaration.ownsPatterns]
  unfold isPlainTyped at h
  unfold Declaration.pattern typed
  rw [howner]
  cases x.around.find? fun s => Declaration.ownsPatterns s.kind with
  | none => cases (Declaration.fromType x).drop 1 |>.find? fun part => kind part == .identifier <;> rfl
  | some construct =>
    rcases hfrom : Declaration.fromType x with _ | ⟨type, _ | ⟨name, behind⟩⟩
    · rfl
    · rfl
    · rw [hfrom] at h
      simp only [Bool.and_eq_true, beq_iff_eq] at h
      have hfind : (name :: behind).find? (fun part => kind part == .identifier) = some name := by
        simp [h.1]
      simp only [List.drop_succ_cons, List.drop_zero, hfind, if_pos h.1]
      rfl

theorem filter_isRecorded {is : List Introduction} {form : Form} (h : ∀ i ∈ is, i.form = form)
    (hform : form ≠ .catchParameter ∧ form ≠ .variadicParameter) : is.filter isRecorded = is := by
  refine List.filter_eq_self.mpr fun i hi => ?_
  simp [isRecorded, h i hi, hform]

theorem filter_isRecorded_of_unrecorded {is : List Introduction}
    (h : ∀ i ∈ is, i.form = .catchParameter ∨ i.form = .variadicParameter) :
    is.filter isRecorded = [] := by
  refine List.filter_eq_nil_iff.mpr fun i hi => ?_
  rcases h i hi with hform | hform <;> simp [isRecorded, hform]

theorem form_of_mem_caught {x : Site} {i : Introduction} (hi : i ∈ caught x) :
    i.form = .catchParameter := by
  unfold caught at hi
  split at hi
  next =>
    split at hi
    next => rw [List.mem_singleton.mp hi]
    next => cases hi
  next => cases hi

theorem form_of_mem_variadic {x : Site} {i : Introduction} (hi : i ∈ variadic x) :
    i.form = .variadicParameter := by
  unfold variadic at hi
  split at hi
  next =>
    split at hi
    next =>
      split at hi
      next => rw [List.mem_singleton.mp hi]
      next => cases hi
    next => cases hi
  next => cases hi

/-- A plain node declares what it introduces in the forms that are recorded. -/
theorem ofNode_eq {x : Site} (h : isPlainNode x = true) :
    Declaration.ofNode x = ((Introduction.ofNode x).filter isRecorded).map declaration := by
  unfold isPlainNode at h
  unfold Introduction.ofNode
  split
  next hkind =>
    simp only [hkind] at h
    rw [filter_isRecorded (fun i => form_of_mem_declarators) (by decide), Declaration.ofNode, hkind]
    exact variablesOf_eq true h
  next hkind =>
    simp only [hkind] at h
    rw [filter_isRecorded (fun i => form_of_mem_declarators) (by decide), Declaration.ofNode, hkind]
    exact variablesOf_eq false h
  next hkind =>
    simp only [hkind] at h
    rw [filter_isRecorded (fun i => form_of_mem_typed) (by decide), Declaration.ofNode, hkind]
    exact parameter_eq _ (by simp) h
  next hkind =>
    rw [filter_isRecorded_of_unrecorded fun i hi => .inr (form_of_mem_variadic hi),
      Declaration.ofNode, hkind]
    rfl
  next hkind =>
    simp only [hkind, List.isEmpty_iff] at h
    rw [filter_isRecorded_of_unrecorded fun i hi => .inl (form_of_mem_caught hi),
      Declaration.ofNode, hkind]
    simp only [Declaration.parameter, h, List.map_nil]
    cases x.around[0]? <;> rfl
  next hkind =>
    simp only [hkind] at h
    rw [filter_isRecorded (fun i => form_of_mem_typed) (by decide), Declaration.ofNode, hkind]
    exact parameter_eq _ (by simp) h
  next hkind =>
    simp only [hkind] at h
    rw [filter_isRecorded (fun i => form_of_mem_typed) (by decide), Declaration.ofNode, hkind]
    exact parameter_eq _ (by simp) h
  next hkind =>
    have hform : ∀ i ∈ (Declaration.lambdaNames x).map fun name =>
        (⟨.lambdaParameter, x.span, name, .ambiguous, none⟩ : Introduction),
        i.form = .lambdaParameter := by
      intro i hi
      obtain ⟨name, -, rfl⟩ := List.mem_map.mp hi
      rfl
    rw [filter_isRecorded hform (by decide), Declaration.ofNode, hkind, List.map_map]
    rfl
  next hkind =>
    simp only [hkind] at h
    rw [filter_isRecorded (fun i => form_of_mem_typed) (by decide), Declaration.ofNode, hkind]
    exact pattern_eq hkind h
  next hfield hlocal hformal _ hcatch hresource hloop hlambda hpattern =>
    unfold Declaration.ofNode
    split <;> first | contradiction | rfl

end Recording

/-- A scope holds what the constructs introduce in the forms that are recorded. -/
theorem Scope.collect_declarations {t : Tree} (h : t.PlainDeclarations) :
    (Scope.collect t).declarations =
      (t.introductions.filter Introduction.isRecorded).map Introduction.declaration := by
  unfold Scope.collect Tree.introductions
  simp only [List.filter_flatMap, List.map_flatMap]
  exact List.flatMap_congr fun x hx => ofNode_eq (h x hx)

end CallMigration
