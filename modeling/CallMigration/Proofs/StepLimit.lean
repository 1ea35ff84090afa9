import CallMigration.Proofs.Evaluation
import CallMigration.Proofs.Headers
import CallMigration.Proofs.Mentions
import CallMigration.Proofs.Presence

/-!
# The limit on steps

A resolver follows a limited number of steps, since initial values may go round in a circle. With more
steps it knows more, and it should not know anything else. One answer is at risk: a call on a field access
takes its text for the name of a type if the field access has no type, and with more steps it may have one.
But only a field of `this` ever has a type, and no type is called `this`, so the text is the name of
nothing that a call returns a type for, if the header leaves no bracket open: a name that is put behind
such a bracket is cut off, and then `this` can stand for any type.

* `OwnNames` : `this` is not the name of a type.
* `TypeName.IsOwn`, `OwnNames.isOwn_of_resolve?` : the text of a field of `this` names no type of the table.
* `Refines` : one answer knows more than another.
* `Resolver.typeBy?_refines` : the parts of an expression knowing more, the expression does.
* `Resolver.typeWithin?_stable` : with more steps no answer is lost or changed.
* `Resolver.typeOf?_openHeader` : a header with an open bracket, and an answer that changes.
-/

namespace CallMigration

open Element Text

/-! ## Names that begin with `this` -/

namespace TypeName

def IsOwn (n : TypeName) : Prop :=
  ∃ rest, n.chars = "this".toList ++ '.' :: rest

theorem segments_this (rest : List Char) :
    segments ("this".toList ++ '.' :: rest) = "this".toList :: segments rest := by
  have hsplit : segments ("this".toList ++ '.' :: rest) =
      List.splitOnP (· == '.') "this".toList ++ segments rest :=
    List.splitOnP_append_cons _ _ rfl
  rw [hsplit]
  rfl

theorem IsOwn.mem_segments {n : TypeName} (h : n.IsOwn) : "this".toList ∈ segments n.chars := by
  obtain ⟨rest, hrest⟩ := h
  rw [hrest, segments_this]
  exact List.mem_cons_self

theorem IsOwn.head_eq {n : TypeName} (h : n.IsOwn) : n.head = "this" := by
  obtain ⟨rest, hrest⟩ := h
  have hsplit : splitFirst (· == '.') n.chars = some ("this".toList, rest) := by
    rw [hrest]
    rfl
  rw [head, hsplit]
  rfl

theorem IsOwn.dimensions {n : TypeName} (h : n.IsOwn) : n.dimensions.2.IsOwn := by
  obtain ⟨rest, hrest⟩ := h
  have hsplit : n.dimensions.2.chars ++ pairs n.dimensions.1 = ("this".toList ++ ['.']) ++ rest := by
    rw [dimensions_append_pairs, hrest, List.append_assoc, List.singleton_append]
  rcases List.append_eq_append_iff.mp hsplit with ⟨u, hthis, hpairs⟩ | ⟨u, hbase, -⟩
  · -- The dot is not among the brackets.
    cases u using List.reverseRecOn with
    | nil =>
      refine ⟨[], ?_⟩
      rw [List.append_nil] at hthis
      exact hthis.symm
    | append_singleton u c =>
      rw [← List.append_assoc] at hthis
      have hdot : '.' = c := by simpa using List.append_inj_right' hthis rfl
      have hmem : '.' ∈ pairs n.dimensions.1 := by
        rw [hpairs, hdot]
        simp
      rcases mem_pairs hmem with hbracket | hbracket <;> cases hbracket
  · refine ⟨u, ?_⟩
    rw [hbase, List.append_assoc, List.singleton_append]

theorem IsOwn.array {n : TypeName} (h : n.IsOwn) (herased : n.Erased) (count : Nat) :
    (n.array count).IsOwn := by
  obtain ⟨rest, hrest⟩ := h
  refine ⟨rest ++ pairs count, ?_⟩
  rw [chars_array herased, hrest, List.append_assoc, List.cons_append]

theorem IsOwn.not_basic {n : TypeName} (h : n.IsOwn) :
    n.isPrimitive = false ∧ (n.text == "var") = false := by
  obtain ⟨rest, hrest⟩ := h
  have hdot : '.' ∈ n.text.toList := by
    rw [show n.text.toList = n.chars from rfl, hrest]
    simp
  have hall : ∀ name ∈ "var" :: primitiveTypes, '.' ∉ name.toList := by decide
  constructor
  · rw [isPrimitive, ← Bool.not_eq_true, List.contains_iff_mem]
    exact fun hmem => hall _ (List.mem_cons_of_mem _ hmem) hdot
  · rw [beq_eq_false_iff_ne]
    intro hvar
    exact hall _ List.mem_cons_self (hvar ▸ hdot)

end TypeName

/-! ## The name of the own object -/

/-- A field access that begins with the tokens `this` and a dot. -/
def SpellsThis (x : Site) : Prop :=
  ["this", "."] <+: x.element.significantTokens.map (·.2)

instance (x : Site) : Decidable (SpellsThis x) :=
  inferInstanceAs (Decidable (_ <+: _))

def isOwnField (x : Site) : Bool :=
  (significantChildren x).head?.any fun object => kind object == .thisReference

/-- `this` is not the name of a type: neither an import nor a type of the table has such a segment, and
each access to a field of `this` spells it. -/
structure OwnNames (table : TypeTable) (root : Tree) : Prop where
  imports : ∀ i ∈ root.imports, "this".toList ∉ segments i.path.toList
  types : ∀ info ∈ table.types, "this".toList ∉ segments info.name.chars
  fields : ∀ x ∈ (Site.root root).nodes, kind x = .fieldAccess → isOwnField x = true → SpellsThis x

instance (table : TypeTable) (root : Tree) : Decidable (OwnNames table root) :=
  decidable_of_iff
    ((∀ i ∈ root.imports, "this".toList ∉ segments i.path.toList) ∧
      (∀ info ∈ table.types, "this".toList ∉ segments info.name.chars) ∧
      ∀ x ∈ (Site.root root).nodes, kind x = .fieldAccess → isOwnField x = true → SpellsThis x)
    ⟨fun ⟨himports, htypes, hfields⟩ => ⟨himports, htypes, hfields⟩,
      fun ⟨himports, htypes, hfields⟩ => ⟨himports, htypes, hfields⟩⟩

section

variable {table : TypeTable} {root : Tree} (hown : OwnNames table root)

include hown

theorem OwnNames.contains_eq {n : TypeName} (h : "this".toList ∈ segments n.chars) :
    table.contains n = false := by
  rw [TypeTable.contains, Option.isSome_eq_false_iff, Option.isNone_iff_eq_none, TypeTable.get?,
    List.find?_eq_none]
  intro info hinfo hname
  rw [beq_iff_eq] at hname
  exact hown.types info hinfo (hname ▸ h)

theorem OwnNames.findInPackage?_eq {package : String} (hclosed : IsClosed package.toList) :
    table.findInPackage? package "this" = none := by
  have hchars : (TypeName.ofWritten (package ++ "." ++ "this")).chars =
      erase package.toList ++ '.' :: "this".toList := by
    rw [TypeName.chars_ofWritten, String.toList_append, String.toList_append, List.append_assoc,
      ← erase, erase_append (depthAfter_eq_zero_iff.mpr hclosed)]
    rfl
  have hthis : "this".toList ∈ segments (TypeName.ofWritten (package ++ "." ++ "this")).chars := by
    have hsplit : segments (erase package.toList ++ '.' :: "this".toList) =
        List.splitOnP (· == '.') (erase package.toList) ++ segments "this".toList :=
      List.splitOnP_append_cons _ _ rfl
    rw [hchars, hsplit]
    exact List.mem_append_right _ (by decide)
  rw [TypeTable.findInPackage?, hown.contains_eq hthis]
  rfl

omit hown in
theorem mem_segments_of_simpleName? {i : ImportDecl} {name : String}
    (h : i.simpleName? = some name) : name.toList ∈ segments i.path.toList := by
  unfold ImportDecl.simpleName? at h
  split at h
  next => cases h
  next =>
    split at h
    next last hlast =>
      cases h
      rw [String.toList_ofList]
      exact List.mem_of_getLast? hlast
    next => cases h

theorem OwnNames.resolveHead?_eq (hclosed : ClosedHeader root) :
    (Resolver.ofTree table root).resolveHead? "this" = none := by
  have hsingle : imported? root.imports "this" = none := by
    rw [imported?, Option.map_eq_none_iff, List.find?_eq_none]
    intro i hi hmatch
    rw [Bool.and_eq_true, beq_iff_eq] at hmatch
    exact hown.imports i hi (mem_segments_of_simpleName? hmatch.2)
  have hpackage : (root.packageName?.bind fun p => table.findInPackage? p "this") = none := by
    rw [Option.bind_eq_none_iff]
    exact fun p hp => hown.findInPackage?_eq (hclosed.package p hp)
  have hwildcard : ((root.imports.filter fun i => i.isWildcard && !i.isStatic).findSome? fun i =>
      table.findInPackage? i.path "this") = none := by
    rw [List.findSome?_eq_none_iff]
    exact fun i hi => hown.findInPackage?_eq (hclosed.imports i (List.mem_filter.mp hi).1)
  have hlang : javaLangTypes.contains "this" = false := by decide
  rw [Resolver.resolveHead?_root, hsingle, ambient?, hpackage, hwildcard, hlang]
  rfl

/-- **A text that begins with `this` and a dot names no type but its own.** -/
theorem OwnNames.isOwn_of_resolve? (hclosed : ClosedHeader root) {text : String} {t : TypeName}
    (htext : (TypeName.ofWritten text).IsOwn)
    (h : (Resolver.ofTree table root).resolve? text = some t) : t.IsOwn := by
  have herased := (TypeName.erased_ofWritten text).dimensions
  have hbase := htext.dimensions
  obtain ⟨hprimitive, hvar⟩ := hbase.not_basic
  rw [Resolver.resolve?_def, Resolver.resolveElement?_eq _ hprimitive hvar, hbase.head_eq,
    hown.resolveHead?_eq hclosed, Option.map_eq_some_iff] at h
  obtain ⟨element, helement, harray⟩ := h
  rw [TypeName.meaning?, Option.ite_none_right_eq_some] at helement
  rw [← harray, ← Option.some.inj helement.2]
  exact hbase.array herased _

omit hown in
theorem SpellsThis.isOwn {x : Site} (h : SpellsThis x) (hnode : x.element.isNode = true) :
    (TypeName.ofWritten (significantText x)).IsOwn := by
  obtain ⟨rest, hrest⟩ := h
  have htext : (significantText x).toList = "this.".toList ++ rest.flatMap String.toList := by
    have hchars : (significantText x).toList =
        (x.element.significantTokens.map (·.2)).flatMap String.toList := by
      rw [List.flatMap_map]
      exact toList_significantText hnode
    rw [hchars, ← hrest]
    rfl
  refine ⟨erase (rest.flatMap String.toList), ?_⟩
  rw [TypeName.chars_ofWritten, htext, ← erase, erase_append (by decide)]
  rfl

/-- The text of a field of `this` names no type that a call returns something for. -/
theorem OwnNames.returnType?_eq (hclosed : ClosedHeader root) {x : Site}
    (hx : x ∈ (Site.root root).nodes) (hkind : kind x = .fieldAccess) (hfield : isOwnField x = true)
    (hnode : x.element.isNode = true) {owner : TypeName}
    (h : (Resolver.ofTree table root).resolve? (significantText x) = some owner) (name : String)
    (arity : Nat) : table.returnType? owner name arity = none := by
  have howner := hown.isOwn_of_resolve? hclosed ((hown.fields x hx hkind hfield).isOwn hnode) h
  refine TypeTable.returnType?_of_get?_eq_none ?_ name arity
  have hcontains := hown.contains_eq howner.mem_segments
  rwa [TypeTable.contains, Option.isSome_eq_false_iff, Option.isNone_iff_eq_none] at hcontains

end

/-! ## Answers that know more -/

/-- On elements of the unit, `infer'` gives every answer that `infer` gives. -/
def Refines (root : Tree) (infer infer' : Site → Option TypeName) : Prop :=
  ∀ e t, e.In root → infer e = some t → infer' e = some t

def OwnFieldsOnly (infer : Site → Option TypeName) : Prop :=
  ∀ x t, kind x = .fieldAccess → x.element.isNode = true → infer x = some t → isOwnField x = true

theorem Refines.of_none (root : Tree) (infer' : Site → Option TypeName) :
    Refines root (fun _ => none) infer' :=
  fun _ _ _ h => nomatch h

theorem Refines.refl (root : Tree) (infer : Site → Option TypeName) : Refines root infer infer :=
  fun _ _ _ h => h

theorem Refines.trans {root : Tree} {infer infer' infer'' : Site → Option TypeName}
    (h : Refines root infer infer') (h' : Refines root infer' infer'') : Refines root infer infer'' :=
  fun e t he hinfer => h' e t he (h e t he hinfer)

namespace Resolver

theorem ownFieldsOnly_typeBy? (r : Resolver) (infer inferInit : Site → Option TypeName) :
    OwnFieldsOnly (r.typeBy? infer inferInit) := by
  intro x t hkind hnode h
  obtain ⟨element, start, around⟩ := x
  cases element with
  | token k s => cases hnode
  | node k cs =>
    have hk : k = .fieldAccess := hkind
    subst hk
    simp only [typeBy?] at h
    split at h
    next object second field rest hparts =>
      split at h
      next hthis =>
        rw [isOwnField, hparts]
        exact hthis
      next => cases h
    next => cases h

theorem ownFieldsOnly_typeWithin? (r : Resolver) : ∀ steps, OwnFieldsOnly (r.typeWithin? steps)
  | 0 => fun _ _ _ _ h => nomatch h
  | 1 => r.ownFieldsOnly_typeBy? _ _
  | _ + 2 => r.ownFieldsOnly_typeBy? _ _

section

variable {table : TypeTable} {root : Tree} {infer inferInit infer' inferInit' : Site → Option TypeName}

theorem declaredType?_refines (hinfer : Refines root infer infer') {name : String} {place : Site}
    {fieldsOnly : Bool} {declared : Declared} {t : TypeName}
    (hlookup : (ofTree table root).scope.lookup? name place fieldsOnly = some declared)
    (h : (ofTree table root).declaredType? infer declared = some t) :
    (ofTree table root).declaredType? infer' declared = some t := by
  cases declared with
  | written type => exact h
  | inferred init => exact hinfer init t (Scope.in_of_lookup? hlookup) h
  | ambiguous => cases h

theorem lookup?_refines (hinfer : Refines root infer infer') {name : String} {place : Site}
    {fieldsOnly : Bool} {t : TypeName}
    (h : ((ofTree table root).scope.lookup? name place fieldsOnly).bind
      ((ofTree table root).declaredType? infer) = some t) :
    ((ofTree table root).scope.lookup? name place fieldsOnly).bind
      ((ofTree table root).declaredType? infer') = some t := by
  obtain ⟨declared, hlookup, h⟩ := Option.bind_eq_some_iff.mp h
  exact Option.bind_eq_some_iff.mpr ⟨declared, hlookup, declaredType?_refines hinfer hlookup h⟩

variable (hown : OwnNames table root) (hclosed : ClosedHeader root)

include hown hclosed

/-- **A call that returns something is made on the same type**, also if it is made on a field that has a
type only now. -/
theorem ownerBy?_refines (hinfer : Refines root infer infer') (hinit : Refines root inferInit inferInit')
    (hfields : OwnFieldsOnly infer') {call : Site} (hcall : call.In root) {owner : TypeName}
    (h : (ofTree table root).ownerBy? infer inferInit call = some owner) {name : String} {arity : Nat}
    (hreturns : table.returnType? owner name arity ≠ none) :
    (ofTree table root).ownerBy? infer' inferInit' call = some owner := by
  unfold ownerBy? at h ⊢
  cases hreceiver : Call.receiver? call with
  | none =>
    rw [hreceiver] at h
    cases h
  | some receiver =>
    rw [hreceiver] at h
    have hin := hcall.significantChild (Call.mem_of_receiver? hreceiver)
    simp only at h ⊢
    split at h
    next token helement =>
      split at h
      next declared hlookup => exact declaredType?_refines hinit hlookup h
      next => exact h
    next cs helement =>
      split at h
      next found hfound =>
        cases h
        simp only [hinfer receiver _ hin hfound]
      next hnothing =>
        have hkind : kind receiver = .fieldAccess := by
          rw [kind, show tree receiver = _ from helement]
          rfl
        have hnode : receiver.element.isNode = true := by
          rw [helement]
          rfl
        cases hfound : infer' receiver with
        | none => exact h
        | some found =>
          -- The field is one of `this`, so its text names no type with methods.
          have hmem : receiver ∈ (Site.root root).nodes :=
            hin.nodes_subset receiver (Site.mem_nodes_self hnode)
          exact absurd (hown.returnType?_eq hclosed hmem hkind (hfields _ _ hkind hnode hfound) hnode h
            name arity) hreturns
    next => exact hinfer receiver owner hin h

/-- **An expression knows more if its parts do.** -/
theorem typeBy?_refines (hinfer : Refines root infer infer') (hinit : Refines root inferInit inferInit')
    (hfields : OwnFieldsOnly infer') :
    Refines root ((ofTree table root).typeBy? infer inferInit)
      ((ofTree table root).typeBy? infer' inferInit') := by
  intro e t he h
  unfold typeBy? at h ⊢
  split at h
  next name => exact lookup?_refines hinfer h
  next => exact h
  next k cs helement =>
    split at h
    case h_7 =>
      obtain ⟨inner, hinner, h⟩ := Option.bind_eq_some_iff.mp h
      have hin := he.significantChild (List.mem_of_find?_eq_some hinner)
      exact Option.bind_eq_some_iff.mpr ⟨inner, hinner, hinfer inner t hin h⟩
    case h_10 =>
      split at h
      next owner name howner hname =>
        have hreturns : (ofTree table root).table.returnType? owner name (Call.arguments e).length ≠
            none := by
          rw [h]
          exact Option.some_ne_none t
        have howner' := ownerBy?_refines hown hclosed hinfer hinit hfields he howner hreturns
        simp only [howner', hname]
        exact h
      next => cases h
    case h_11 =>
      split at h
      next object second field rest hparts =>
        split at h
        next hthis =>
          rw [if_pos hthis]
          exact lookup?_refines hinfer h
        next => cases h
      next => cases h
    case h_12 =>
      split at h
      next left operator right rest hparts =>
        split at h
        next hcompares =>
          rw [if_pos hcompares]
          exact h
        next hcomputes =>
          rw [if_neg hcomputes]
          split at h
          next l l' hleft hright =>
            have hinl : left.In root := he.significantChild (hparts ▸ List.mem_cons_self)
            have hinr : right.In root := he.significantChild (hparts ▸ by simp)
            simp only [hinfer left l hinl hleft, hinfer right l' hinr hright]
            exact h
          next => cases h
      next => cases h
    case h_13 =>
      split at h
      next operator operand rest hparts =>
        obtain ⟨u, hu, h⟩ := Option.bind_eq_some_iff.mp h
        have hin : operand.In root := he.significantChild (hparts ▸ by simp)
        exact Option.bind_eq_some_iff.mpr ⟨u, hinfer operand u hin hu, h⟩
      next => cases h
    all_goals exact h

theorem typeWithin?_succ :
    ∀ steps, Refines root ((ofTree table root).typeWithin? steps)
      ((ofTree table root).typeWithin? (steps + 1))
  | 0 => .of_none root _
  | 1 => typeBy?_refines hown hclosed (.of_none root _) (.of_none root _)
      (ownFieldsOnly_typeWithin? _ 1)
  | steps + 2 => typeBy?_refines hown hclosed (typeWithin?_succ (steps + 1)) (typeWithin?_succ steps)
      (ownFieldsOnly_typeWithin? _ _)

/-- **With more steps nothing is lost, and nothing changes.** -/
theorem typeWithin?_refines {steps more : Nat} (h : steps ≤ more) :
    Refines root ((ofTree table root).typeWithin? steps) ((ofTree table root).typeWithin? more) := by
  induction more, h using Nat.le_induction with
  | base => exact .refl root _
  | succ more _ ih => exact ih.trans (typeWithin?_succ hown hclosed more)

end

/-- **The limit on steps loses answers and changes none**, in a unit whose header leaves no bracket open,
as in every unit without syntax errors that was read: what is known of an expression deep inside of others is known of it
further outside, and what is known within the fixed limit is known within every greater one, also if
initial values go round in a circle. -/
theorem typeWithin?_stable {table : TypeTable} {u : JavaUnit} (hown : OwnNames table u.tree) :
    (∀ source, JavaUnit.parse source = .ok u → u.hasErrors = false → ClosedHeader u.tree) ∧
      (ClosedHeader u.tree → ∀ e, e.In u.tree → ∀ t,
        (∀ limit depth deeper, depth ≤ deeper →
          (ofTree table u.tree).typeWithin? (limit - deeper) e = some t →
            (ofTree table u.tree).typeWithin? (limit - depth) e = some t) ∧
          ∀ limit, stepLimit ≤ limit → (ofTree table u.tree).typeOf? e = some t →
            (ofTree table u.tree).typeWithin? limit e = some t) := by
  refine ⟨fun source hparse _ => JavaUnit.closedHeader_parse hparse, fun hclosed e he t => ⟨?_, ?_⟩⟩
  · intro limit depth deeper hle h
    exact typeWithin?_refines hown hclosed (Nat.sub_le_sub_left hle limit) e t he h
  · intro limit hle h
    exact typeWithin?_refines hown hclosed hle e t he h

/-- A call on a field of `this`, below a variable that is its own initial value. -/
def circleSource : String :=
  "import lib.B; class A \x7b B f; void g() \x7b var p = p.m(); var i = this.f.m(); \x7d \x7d"

def circleTable : TypeTable :=
  .insertAll .empty [⟨⟨"lib.B"⟩, [], [⟨"m", [], ⟨"int"⟩, false⟩]⟩]

theorem typeWithin?_stable_circle :
    ∃ u, JavaUnit.parse circleSource = .ok u ∧ OwnNames circleTable u.tree ∧
      ∃ e, e.In u.tree ∧ kind e = .methodInvocation ∧ significantText e = "this.f.m()" ∧
        ∀ limit, stepLimit ≤ limit →
          (ofTree circleTable u.tree).typeWithin? limit e = some ⟨"int"⟩ := by
  have hcheck : (JavaUnit.parse circleSource).toOption.any (fun u =>
      decide (u.hasErrors = false ∧ OwnNames circleTable u.tree) && (Site.root u.tree).nodes.any fun e =>
        decide (kind e = .methodInvocation ∧ significantText e = "this.f.m()" ∧
          (ofTree circleTable u.tree).typeOf? e = some ⟨"int"⟩)) = true := by
    rw [JavaUnit.parse_eq]
    decide +kernel
  obtain ⟨u, hparse, hfacts⟩ := exists_ok_of_any hcheck
  rw [Bool.and_eq_true, decide_eq_true_eq] at hfacts
  obtain ⟨⟨hsound, hown⟩, hany⟩ := hfacts
  obtain ⟨e, he, hcall⟩ := List.any_eq_true.mp hany
  obtain ⟨hkind, htext, htype⟩ := of_decide_eq_true hcall
  have hin := Site.in_of_mem_nodes he
  obtain ⟨hheader, hstable⟩ := typeWithin?_stable hown
  exact ⟨u, hparse, hown, e, hin, hkind, htext, fun limit hle =>
    (hstable (hheader _ hparse hsound) e hin _).2 limit hle htype⟩

def inParens : Nat → Tree → Tree
  | 0, e => e
  | count + 1, e =>
    .node .parenthesizedExpression [.token .leftParen "(", inParens count e, .token .rightParen ")"]

def ownCall : Tree :=
  .node .methodInvocation [
    .node .fieldAccess [.token .thisReference "this", .token .dot ".", .token .identifier "f"],
    .token .dot ".", .token .identifier "m",
    .node .argumentList [.token .leftParen "(", .token .rightParen ")"]]

/-- The path of an import leaves a bracket open: `p<.*`. The field `f` is a `lib.B`, and the call on it
is the argument of another call, in 32 pairs of parentheses. -/
def openHeader : JavaUnit where
  tree := .node .program [
    .node .importDeclaration [.token .importKeyword "import", .token .whitespace " ",
      .token .identifier "lib.B", .token .semicolon ";"],
    .node .importDeclaration [.token .importKeyword "import", .token .whitespace " ",
      .token .identifier "p<", .token .dot ".", .token .asterisk "*", .token .semicolon ";"],
    .node .classDeclaration [.token .token "class", .token .whitespace " ", .token .identifier "A",
      .node .node [.token .token "\x7b",
        .node .fieldDeclaration [.token .typeIdentifier "B", .token .whitespace " ",
          .node .variableDeclarator [.token .identifier "f"], .token .semicolon ";"],
        .node .fieldDeclaration [.node .integralType [.token .token "int"], .token .whitespace " ",
          .node .variableDeclarator [.token .identifier "n", .token .token "=",
            .node .methodInvocation [.token .identifier "g",
              .node .argumentList [.token .leftParen "(", inParens 32 ownCall,
                .token .rightParen ")"]]], .token .semicolon ";"],
        .token .token "\x7d"]]]
  hasErrors := false

/-- A type of another package has the name of the field. -/
def homonyms : TypeTable :=
  .insertAll .empty [⟨⟨"lib.B"⟩, [], [⟨"m", [], ⟨"int"⟩, false⟩]⟩, ⟨⟨"p"⟩, [], []⟩,
    ⟨⟨"p.f"⟩, [], [⟨"m", [], ⟨"long"⟩, false⟩]⟩]

/-- **An open bracket lets an answer change**: the path with `this` behind it is cut at the bracket, so
that `this` stands for the type `p`, and the text of the field access for the type `p.f`. This is taken
for the owner of the call as long as the steps do not reach the field. -/
theorem typeOf?_openHeader :
    OwnNames homonyms openHeader.tree ∧
      (∃ call, call.In openHeader.tree ∧ call.element = ownCall ∧
        (ofTree homonyms openHeader.tree).typeWithin? (stepLimit - 32) call = some ⟨"long"⟩ ∧
        (ofTree homonyms openHeader.tree).typeWithin? (stepLimit - 31) call = some ⟨"int"⟩) ∧
      ∃ e, e.In openHeader.tree ∧ e.element = inParens 32 ownCall ∧
        (ofTree homonyms openHeader.tree).typeOf? e = some ⟨"long"⟩ ∧
        (ofTree homonyms openHeader.tree).typeWithin? (stepLimit + 1) e = some ⟨"int"⟩ := by
  have hcheck : ((Site.root openHeader.tree).nodes.any fun call =>
        decide (call.element = ownCall ∧
          (ofTree homonyms openHeader.tree).typeWithin? (stepLimit - 32) call = some ⟨"long"⟩ ∧
          (ofTree homonyms openHeader.tree).typeWithin? (stepLimit - 31) call = some ⟨"int"⟩)) = true ∧
      ((Site.root openHeader.tree).nodes.any fun e =>
        decide (e.element = inParens 32 ownCall ∧
          (ofTree homonyms openHeader.tree).typeOf? e = some ⟨"long"⟩ ∧
          (ofTree homonyms openHeader.tree).typeWithin? (stepLimit + 1) e = some ⟨"int"⟩)) = true := by
    decide +kernel
  obtain ⟨hcalls, hparens⟩ := hcheck
  obtain ⟨call, hcall, hfacts⟩ := List.any_eq_true.mp hcalls
  obtain ⟨e, he, hfacts'⟩ := List.any_eq_true.mp hparens
  exact ⟨by decide +kernel, ⟨call, Site.in_of_mem_nodes hcall, of_decide_eq_true hfacts⟩,
    ⟨e, Site.in_of_mem_nodes he, of_decide_eq_true hfacts'⟩⟩

end Resolver

end CallMigration
