import CallMigration.Proofs.Erasure
import CallMigration.Proofs.Evaluation
import CallMigration.Proofs.Presence
import CallMigration.Proofs.Shadowing

/-!
# Brackets behind names

A type may have its brackets split: some stand in front of the name, the rest behind it. A resolver counts
brackets behind a written type as further dimensions, however many there are, so nothing is lost where
they are all recorded. But a scope records at most one pair of those behind the name of a field or a
local variable, and none of those behind the name of a parameter.

* `TypedName` : a name with the type in front of it and what stands behind it.
* `HasBrackets` : how many pairs of brackets stand behind a name.
* `keptPairs` : how many of them are recorded.
* `Resolver.resolve?_withPairs` : further dimensions of a written type.
* `Scope.collect_dimensions` : the type that is recorded, and when it is the type that is written.
-/

namespace CallMigration

open Element

/-! ## Names with a type -/

/-- A name with a type in front of it. -/
structure TypedName where
  /-- The node that the name belongs to. -/
  owner : Span
  name : String
  /-- The type in front of the name. -/
  type : String
  /-- The parts behind the name. -/
  behind : List Site
deriving DecidableEq, Repr

namespace TypedName

def ofDeclarator? (owner : Span) (type declarator : Site) : Option TypedName :=
  match significantChildren declarator with
  | name :: behind =>
    if kind name == .identifier then
      some ⟨owner, significantText name, significantText type, behind⟩
    else none
  | [] => none

/-- The names that a declaration of fields or local variables declares. -/
def ofVariables (x : Site) : List TypedName :=
  match x.around, declaredType? x with
  | owner :: _, some type =>
    ((children x).filter Introduction.isDeclarator).filterMap (ofDeclarator? owner type)
  | _, _ => []

def ofParameter (x : Site) : List TypedName :=
  match x.around[1]?, Declaration.fromType x with
  | some owner, type :: rest =>
    match rest.dropWhile fun part => kind part != .identifier with
    | name :: behind => [⟨owner, significantText name, significantText type, behind⟩]
    | [] => []
  | _, _ => []

/-- The names that a node declares as fields, local variables or a formal parameter. -/
def ofNode (x : Site) : List TypedName :=
  match kind x with
  | .fieldDeclaration | .localVariableDeclaration => ofVariables x
  | .formalParameter => ofParameter x
  | _ => []

def declared (k : Kind) (t : TypedName) : Declared :=
  if k = .formalParameter then (if t.type == "var" then .ambiguous else .written t.type)
  else Declaration.ofDeclarator t.type t.behind

end TypedName

/-- What stands behind a name, in front of any equals sign, has `count` pairs of brackets in it. -/
def HasBrackets (behind : List Site) (count : Nat) : Prop :=
  match (Declaration.beforeEquals behind).filter fun part => kind part == .node with
  | [] => count = 0
  | part :: _ => 0 < count ∧ significantText part = String.ofList (TypeName.pairs count)

instance (behind : List Site) (count : Nat) : Decidable (HasBrackets behind count) := by
  unfold HasBrackets
  split <;> infer_instance

/-- The number of pairs of brackets behind a name that are recorded. -/
def keptPairs (k : Kind) (count : Nat) : Nat :=
  if k = .formalParameter then 0 else min count 1

def withPairs (type : String) (count : Nat) : String :=
  type ++ String.ofList (TypeName.pairs count)

/-! ## What is recorded -/

namespace TypedName

def typing (d : Declaration) : Span × String × Declared :=
  (d.owner, d.name, d.declared)

theorem typing_variablesOf (isField : Bool) (x : Site) {k : Kind} (hk : k ≠ .formalParameter) :
    (Declaration.variablesOf isField x).map typing =
      (ofVariables x).map fun t => (t.owner, t.name, t.declared k) := by
  unfold Declaration.variablesOf ofVariables
  cases x.around with
  | nil => rfl
  | cons owner outer =>
    cases declaredType? x with
    | none => rfl
    | some type =>
      simp only [List.map_filterMap]
      refine List.filterMap_congr fun declarator _ => ?_
      unfold ofDeclarator?
      cases significantChildren declarator with
      | nil => rfl
      | cons name behind =>
        simp only
        split
        next => simp [typing, declared, hk]
        next => rfl

theorem typing_parameter (x : Site) :
    (Declaration.parameter x.around[1]? x).map typing =
      (ofParameter x).map fun t => (t.owner, t.name, t.declared .formalParameter) := by
  unfold Declaration.parameter ofParameter
  cases x.around[1]? with
  | none => rfl
  | some owner =>
    cases Declaration.fromType x with
    | nil => rfl
    | cons type rest =>
      have hname : (rest.find? fun part => kind part == .identifier) =
          (rest.dropWhile fun part => kind part != .identifier).head? :=
        List.find?_eq_head?_dropWhile_not _ _
      simp only [hname]
      cases rest.dropWhile fun part => kind part != .identifier with
      | nil => rfl
      | cons name behind => rfl

theorem typing_ofNode {x : Site} {t : TypedName} (ht : t ∈ ofNode x) :
    (Declaration.ofNode x).map typing =
      (ofNode x).map fun t => (t.owner, t.name, t.declared (kind x)) := by
  unfold ofNode at ht ⊢
  unfold Declaration.ofNode
  split at ht
  next hkind => rw [hkind]; exact typing_variablesOf true x (by decide)
  next hkind => rw [hkind]; exact typing_variablesOf false x (by decide)
  next hkind => rw [hkind]; exact typing_parameter x
  next => cases ht

/-- The name at some position has the declaration at that position. -/
theorem exists_declaration {x : Site} {i : Nat} {t : TypedName} (ht : (ofNode x)[i]? = some t) :
    ∃ d, (Declaration.ofNode x)[i]? = some d ∧ d.owner = t.owner ∧ d.name = t.name ∧
      d.declared = t.declared (kind x) := by
  have hsame := congrArg (·[i]?) (typing_ofNode (List.mem_of_getElem? ht))
  simp only [List.getElem?_map, ht, Option.map_some, Option.map_eq_some_iff] at hsame
  obtain ⟨d, hd, htyping⟩ := hsame
  rw [typing, Prod.mk.injEq, Prod.mk.injEq] at htyping
  exact ⟨d, hd, htyping⟩

/-- Of the brackets behind a name, at most one pair is recorded, and none behind that of a parameter. -/
theorem declared_eq {k : Kind} {t : TypedName} (hvar : t.type ≠ "var") {count : Nat}
    (hcount : HasBrackets t.behind count) :
    t.declared k = .written (withPairs t.type (keptPairs k count)) := by
  have hplain : (t.type == "var") = false := beq_eq_false_iff_ne.mpr hvar
  unfold declared keptPairs
  split
  next => simp [hplain, withPairs, TypeName.pairs]
  next =>
    unfold HasBrackets at hcount
    unfold Declaration.ofDeclarator
    rw [hplain, if_neg (by decide)]
    split at hcount
    next hnone =>
      have hany : ((Declaration.beforeEquals t.behind).any fun part => kind part == .node) = false := by
        rwa [List.any_eq_false, ← List.filter_eq_nil_iff]
      rw [hany, hcount]
      simp [withPairs, TypeName.pairs]
    next part rest hsome =>
      have hany : ((Declaration.beforeEquals t.behind).any fun part => kind part == .node) = true := by
        have hmem : part ∈ (Declaration.beforeEquals t.behind).filter fun part => kind part == .node := by
          rw [hsome]
          exact List.mem_cons_self
        rw [List.any_eq_true]
        exact ⟨part, (List.mem_filter.mp hmem).1, (List.mem_filter.mp hmem).2⟩
      have hone : min count 1 = 1 := by omega
      rw [hany, hone]
      rfl

end TypedName

/-! ## Further dimensions -/

theorem length_pairs (count : Nat) : (TypeName.pairs count).length = 2 * count := by
  induction count with
  | zero => rfl
  | succ count ih =>
    rw [TypeName.pairs, List.length_append, ih]
    rfl

theorem withPairs_injective {type : String} {a b : Nat} (h : withPairs type a = withPairs type b) :
    a = b := by
  have hlength := congrArg String.length h
  simp only [withPairs, String.length_append, String.length_ofList, length_pairs] at hlength
  omega

namespace TypeName

theorem array_count_injective {n : TypeName} (hn : n.Erased) {a b : Nat} (h : n.array a = n.array b) :
    a = b := by
  have hlength := congrArg (fun m => m.chars.length) h
  simp only [chars_array hn, List.length_append, length_pairs] at hlength
  omega

/-- Brackets behind a written type are brackets behind its name, unless it ends inside of type
arguments. -/
theorem chars_withPairs (type : String) (count : Nat) :
    (ofWritten (withPairs type count)).chars =
      (ofWritten type).chars ++ if IsClosed type.toList then pairs count else [] := by
  have herased := isErased_pairs count
  rw [chars_ofWritten, chars_ofWritten, withPairs, String.toList_append, String.toList_ofList,
    eraseFrom_append]
  split
  next hclosed => rw [depthAfter_eq_zero_iff.mpr hclosed, eraseFrom_of_isErased herased]
  next hopen =>
    obtain ⟨depth, hdepth⟩ := Nat.exists_eq_succ_of_ne_zero (mt depthAfter_eq_zero_iff.mp hopen)
    rw [hdepth, eraseFrom_succ_of_plain (fun hc => absurd (herased _ hc) (by decide))
      (fun hc => absurd (herased _ hc) (by decide))]

end TypeName

namespace Resolver

theorem resolve?_erased {r : Resolver} {written : String} {t : TypeName}
    (h : r.resolve? written = some t) : t.Erased := by
  rw [resolve?_def, Option.map_eq_some_iff] at h
  obtain ⟨element, helement, rfl⟩ := h
  exact (resolveElement?_erased (TypeName.erased_ofWritten written).dimensions helement).array _

/-- **Brackets behind a written type are further dimensions** of what it means. -/
theorem resolve?_withPairs (r : Resolver) (type : String) (count : Nat) :
    r.resolve? (withPairs type count) =
      if IsClosed type.toList then (r.resolve? type).map (·.array count) else r.resolve? type := by
  have hchars := TypeName.chars_withPairs type count
  split
  next hclosed =>
    rw [if_pos hclosed] at hchars
    rw [resolve?_def, resolve?_def, TypeName.dimensions_append hchars]
    generalize (TypeName.ofWritten type).dimensions = parts
    cases r.resolveElement? parts.2 with
    | none => rfl
    | some t => simp only [Option.map_some, TypeName.array_array]
  next hopen =>
    rw [if_neg hopen, List.append_nil] at hchars
    have hname : TypeName.ofWritten (withPairs type count) = TypeName.ofWritten type :=
      congrArg TypeName.mk (String.toList_inj.mp hchars)
    rw [resolve?_def, resolve?_def, hname]

/-- Two numbers of brackets behind a type mean the same only if they are the same, or if the type has no
meaning or ends inside of type arguments. -/
theorem resolve?_withPairs_eq_iff (r : Resolver) (type : String) (a b : Nat) :
    r.resolve? (withPairs type a) = r.resolve? (withPairs type b) ↔
      a = b ∨ r.resolve? type = none ∨ ¬IsClosed type.toList := by
  rw [resolve?_withPairs, resolve?_withPairs]
  by_cases hclosed : IsClosed type.toList
  · rw [if_pos hclosed, if_pos hclosed]
    cases hresolve : r.resolve? type with
    | none => simp
    | some t =>
      have herased := resolve?_erased hresolve
      simp only [Option.map_some, Option.some.injEq, reduceCtorEq, hclosed, not_true, or_false]
      exact ⟨TypeName.array_count_injective herased, fun h => by rw [h]⟩
  · rw [if_neg hclosed, if_neg hclosed]
    exact ⟨fun _ => .inr (.inr hclosed), fun _ => rfl⟩

end Resolver

/-! ## The recorded type -/

theorem Resolver.typeOf?_of_written (r : Resolver) {e : Site} {name type : String}
    (he : e.element = .token .identifier name)
    (hlookup : r.scope.lookup? name e false = some (.written type)) :
    r.typeOf? e = r.resolve? type := by
  rw [r.typeOf?_identifier he, hlookup, Option.bind_some, declaredType?]

namespace Scope

/-- **The type that a scope records** for a name whose type is written out, with `count` pairs of brackets
behind the name. It has all of them exactly if that many are kept, and otherwise it means the same as
with all of them only if it has no meaning at all. -/
theorem collect_dimensions {root : Tree} {x : Site} (hx : x ∈ (Site.root root).nodes) {i : Nat}
    {t : TypedName} (ht : (TypedName.ofNode x)[i]? = some t) (hvar : t.type ≠ "var") {count : Nat}
    (hcount : HasBrackets t.behind count) :
    ∃ d ∈ (collect root).declarations, (Declaration.ofNode x)[i]? = some d ∧
      d.owner = t.owner ∧ d.name = t.name ∧
      d.declared = .written (withPairs t.type (keptPairs (kind x) count)) ∧
      (d.declared = .written (withPairs t.type count) ↔ count = keptPairs (kind x) count) ∧
      ∀ table, let r := Resolver.ofTree table root
        (∀ e, e.element = .token .identifier t.name →
          (collect root).lookup? t.name e false = some d.declared →
          r.typeOf? e = r.resolve? (withPairs t.type (keptPairs (kind x) count))) ∧
        (r.resolve? (withPairs t.type (keptPairs (kind x) count)) =
            r.resolve? (withPairs t.type count) ↔
          count = keptPairs (kind x) count ∨ r.resolve? t.type = none ∨ ¬IsClosed t.type.toList) := by
  obtain ⟨d, hd, howner, hname, hdeclared⟩ := TypedName.exists_declaration ht
  have hrecorded := hdeclared.trans (TypedName.declared_eq (k := kind x) hvar hcount)
  generalize keptPairs (kind x) count = kept at hrecorded
  have hall : d.declared = .written (withPairs t.type count) ↔ count = kept := by
    rw [hrecorded, Declared.written.injEq]
    exact ⟨fun h => (withPairs_injective h).symm, fun h => by rw [h]⟩
  refine ⟨d, List.mem_flatMap.mpr ⟨x, hx, List.mem_of_getElem? hd⟩, hd, howner, hname, hrecorded, hall,
    fun table => ⟨fun e he hlookup => ?_, ?_⟩⟩
  · rw [hrecorded] at hlookup
    exact Resolver.typeOf?_of_written (Resolver.ofTree table root) he hlookup
  · rw [Resolver.resolve?_withPairs_eq_iff, eq_comm]

/-- A field with two pairs of brackets behind its name, a parameter with one, and a local variable with one
in front and one behind. -/
def splitSource : String :=
  "class A \x7b int x[][]; void f(int y[]) \x7b int[] z[] = w, v; \x7d \x7d"

/-- The first name of a node of some kind, its declaration, and that `count` pairs of brackets stand
behind it. -/
def FirstName (root : Tree) (k : Kind) (count : Nat) (t : TypedName) (d : Declaration) : Prop :=
  ∃ x ∈ (Site.root root).nodes, kind x = k ∧ (TypedName.ofNode x)[0]? = some t ∧
    (Declaration.ofNode x)[0]? = some d ∧ HasBrackets t.behind count

def anyFirstName (root : Tree) (k : Kind) (count : Nat) (p : TypedName → Declaration → Bool) : Bool :=
  (Site.root root).nodes.any fun x => kind x == k &&
    (TypedName.ofNode x)[0]?.any fun t => (Declaration.ofNode x)[0]?.any fun d =>
      decide (HasBrackets t.behind count) && p t d

theorem exists_firstName {root : Tree} {k : Kind} {count : Nat} {p : TypedName → Declaration → Bool}
    (h : anyFirstName root k count p = true) :
    ∃ t d, FirstName root k count t d ∧ p t d = true := by
  obtain ⟨x, hx, h⟩ := List.any_eq_true.mp h
  rw [Bool.and_eq_true, beq_iff_eq] at h
  obtain ⟨t, ht, hrest⟩ := Option.any_eq_true _ _ |>.mp h.2
  obtain ⟨d, hd, hrest⟩ := Option.any_eq_true _ _ |>.mp hrest
  rw [Bool.and_eq_true, decide_eq_true_eq] at hrest
  exact ⟨t, d, ⟨x, hx, h.1, ht, hd, hrest.1⟩, hrest.2⟩

theorem exists_splitUnit :
    ∃ u, JavaUnit.parse splitSource = .ok u ∧ u.hasErrors = false ∧
      anyFirstName u.tree .localVariableDeclaration 1 (fun t _ => t.type == "int[]") = true ∧
      anyFirstName u.tree .fieldDeclaration 2 (fun t d =>
        decide (t.type = "int" ∧ d.declared ≠ .written (withPairs t.type 2))) = true ∧
      anyFirstName u.tree .formalParameter 1 (fun t d =>
        decide (t.type = "int" ∧ d.declared ≠ .written (withPairs t.type 1))) = true ∧
      (collect u.tree).declaredTypes = ["int[]", "int", "int[][]", "int[]"] := by
  have hcheck : (JavaUnit.parse splitSource).toOption.any (fun u => decide (u.hasErrors = false ∧
      anyFirstName u.tree .localVariableDeclaration 1 (fun t _ => t.type == "int[]") = true ∧
      anyFirstName u.tree .fieldDeclaration 2 (fun t d =>
        decide (t.type = "int" ∧ d.declared ≠ .written (withPairs t.type 2))) = true ∧
      anyFirstName u.tree .formalParameter 1 (fun t d =>
        decide (t.type = "int" ∧ d.declared ≠ .written (withPairs t.type 1))) = true ∧
      (collect u.tree).declaredTypes = ["int[]", "int", "int[][]", "int[]"])) = true := by
    rw [JavaUnit.parse_eq]
    decide +kernel
  obtain ⟨u, hparse, hfacts⟩ := exists_ok_of_any hcheck
  exact ⟨u, hparse, of_decide_eq_true hfacts⟩

theorem collect_dimensions_local :
    ∃ u, JavaUnit.parse splitSource = .ok u ∧ u.hasErrors = false ∧
      ∃ t d, FirstName u.tree .localVariableDeclaration 1 t d ∧ t.type = "int[]" ∧
        d ∈ (collect u.tree).declarations ∧ d.declared = .written "int[][]" := by
  obtain ⟨u, hparse, herrors, hlocal, -⟩ := exists_splitUnit
  obtain ⟨t, d, hfirst, htype⟩ := exists_firstName hlocal
  rw [beq_iff_eq] at htype
  refine ⟨u, hparse, herrors, t, d, hfirst, htype, ?_⟩
  obtain ⟨x, hx, hkind, ht, hd, hcount⟩ := hfirst
  obtain ⟨d', hd', hsame, -, -, hrecorded, -⟩ :=
    collect_dimensions hx ht (by rw [htype]; decide) hcount
  cases hd.symm.trans hsame
  refine ⟨hd', ?_⟩
  rw [hrecorded, hkind, htype]
  decide +kernel

/-- Of the brackets of the field one pair is lost, and those of the parameter are lost altogether. -/
theorem collect_loses_dimensions :
    ∃ u, JavaUnit.parse splitSource = .ok u ∧ u.hasErrors = false ∧
      (∃ t d, FirstName u.tree .fieldDeclaration 2 t d ∧ t.type = "int" ∧
        d.declared ≠ .written (withPairs t.type 2)) ∧
      (∃ t d, FirstName u.tree .formalParameter 1 t d ∧ t.type = "int" ∧
        d.declared ≠ .written (withPairs t.type 1)) ∧
      (collect u.tree).declaredTypes = ["int[]", "int", "int[][]", "int[]"] := by
  obtain ⟨u, hparse, herrors, -, hfield, hparameter, htypes⟩ := exists_splitUnit
  refine ⟨u, hparse, herrors, ?_, ?_, htypes⟩
  · obtain ⟨t, d, hfirst, hrest⟩ := exists_firstName hfield
    exact ⟨t, d, hfirst, of_decide_eq_true hrest⟩
  · obtain ⟨t, d, hfirst, hrest⟩ := exists_firstName hparameter
    exact ⟨t, d, hfirst, of_decide_eq_true hrest⟩

end Scope

end CallMigration
