import CallMigration.Proofs.Additive
import CallMigration.Proofs.Build
import CallMigration.Proofs.Rerun

/-!
# What added imports mean

The meaning of a name at the top of a unit depends on the unit's `header` alone: its package and its
imports, wherever they stand. A single import comes first; the `ambient` meaning is what is left
without one. An added import reads back as the type that it was made of, so it decides its own simple
name and leaves everything else as it was.

* `TypeName.Erased`, `TypeName.ofWritten_text` : names that erasure leaves alone.
* `ofTree_importDeclaration` : an added import reads back.
* `Resolver.resolveHead?_eq` : the two levels of a lookup.
* `Extends`, `addImports_extends` : the header of a unit with further imports.
-/

namespace CallMigration

/-! ## Erased names -/

/-- A character that erasure keeps as it is. -/
def isErased (c : Char) : Bool :=
  c != '<' && c != '>' && !Text.isBlank c && c != '$'

theorem isErased_of_mem_eraseFrom {depth : Nat} {s : List Char} :
    ∀ c ∈ eraseFrom depth s, isErased c = true := by
  induction s generalizing depth with
  | nil => simp [eraseFrom]
  | cons c s ih =>
    rw [eraseFrom]
    split
    next => exact ih
    next hopen =>
      split
      next => exact ih
      next hclose =>
        split
        next => exact ih
        next hkept =>
          rw [Bool.or_eq_true, not_or, Bool.not_eq_true] at hkept
          intro d hd
          rcases List.mem_cons.mp hd with rfl | hd
          · split
            · decide
            · next hdollar => simp [isErased, hopen, hclose, hkept.2, hdollar]
          · exact ih d hd

theorem eraseFrom_of_isErased {s : List Char} (h : ∀ c ∈ s, isErased c = true) :
    eraseFrom 0 s = s := by
  induction s with
  | nil => rfl
  | cons c s ih =>
    have hc := h c List.mem_cons_self
    simp only [isErased, Bool.and_eq_true, bne_iff_ne, Bool.not_eq_true'] at hc
    obtain ⟨⟨⟨hopen, hclose⟩, hblank⟩, hdollar⟩ := hc
    rw [eraseFrom, ih fun d hd => h d (List.mem_cons_of_mem _ hd)]
    simp [hopen, hclose, hblank, hdollar]

namespace TypeName

/-- Erasure leaves the name alone. -/
def Erased (n : TypeName) : Prop :=
  ∀ c ∈ n.chars, isErased c = true

theorem erased_ofWritten (s : String) : (ofWritten s).Erased := by
  rw [Erased, chars_ofWritten]
  exact isErased_of_mem_eraseFrom

theorem ofWritten_text {n : TypeName} (h : n.Erased) : ofWritten n.text = n := by
  have hchars : erase n.text.toList = n.text.toList := eraseFrom_of_isErased h
  rw [ofWritten, hchars, String.ofList_toList]

end TypeName

/-! ## Segments -/

theorem splitFirst_eq_none {p : Char → Bool} {s : List Char} (h : Text.splitFirst p s = none) :
    ∀ c ∈ s, p c = false := by
  induction s with
  | nil => simp
  | cons c s ih =>
    rw [Text.splitFirst] at h
    split at h
    next => cases h
    next hc =>
      rw [Option.map_eq_none_iff] at h
      intro d hd
      rcases List.mem_cons.mp hd with rfl | hd
      · simpa using hc
      · exact ih h d hd

theorem not_mem_splitFirst {p : Char → Bool} {s before after : List Char}
    (h : Text.splitFirst p s = some (before, after)) : ∀ c ∈ before, p c = false := by
  induction s generalizing before with
  | nil => cases h
  | cons c s ih =>
    rw [Text.splitFirst] at h
    split at h
    next =>
      cases h
      simp
    next hc =>
      obtain ⟨⟨rest, rest'⟩, hrest, hpair⟩ := Option.map_eq_some_iff.mp h
      cases hpair
      intro d hd
      rcases List.mem_cons.mp hd with rfl | hd
      · simpa using hc
      · exact ih hrest d hd

/-- The last segment of a dotted text, and what stands before it. -/
theorem splitLast_cases (s : List Char) :
    (Text.splitLast (· == '.') s = none ∧ Text.segments s = [s]) ∨
      ∃ before last, Text.splitLast (· == '.') s = some (before, last) ∧
        s = before ++ '.' :: last ∧ Text.segments s = Text.segments before ++ [last] := by
  unfold Text.splitLast
  cases h : Text.splitFirst (· == '.') s.reverse with
  | none =>
    left
    refine ⟨rfl, List.splitOnP_eq_singleton fun c hc => ?_⟩
    exact splitFirst_eq_none h c (List.mem_reverse.mpr hc)
  | some pair =>
    obtain ⟨after, before⟩ := pair
    right
    obtain ⟨c, hc, hsplit⟩ := splitFirst_eq_some h
    rw [beq_iff_eq] at hc
    subst hc
    have heq : s = before.reverse ++ '.' :: after.reverse := by
      rw [← List.reverse_reverse s, hsplit]
      simp
    refine ⟨before.reverse, after.reverse, rfl, heq, ?_⟩
    have hlast : List.splitOnP (· == '.') after.reverse = [after.reverse] :=
      List.splitOnP_eq_singleton fun d hd => not_mem_splitFirst h d (List.mem_reverse.mp hd)
    rw [heq, Text.segments, List.splitOn_eq_splitOnP, List.splitOnP_append_cons _ _ rfl, hlast,
      Text.segments, List.splitOn_eq_splitOnP]

namespace TypeName

theorem getLast?_segments (n : TypeName) :
    (Text.segments n.chars).getLast? = some n.simpleName.toList := by
  rw [simpleName]
  rcases splitLast_cases n.chars with ⟨hnone, hsegments⟩ | ⟨before, last, hsome, -, hsegments⟩
  · rw [hnone, hsegments]
    rfl
  · rw [hsome, hsegments, List.getLast?_concat, String.toList_ofList]

/-- A name with a qualifier is the qualifier and the simple name. -/
theorem text_of_qualifier? {n : TypeName} {q : String} (h : n.qualifier? = some q) :
    n.text = q ++ "." ++ n.simpleName := by
  rw [qualifier?] at h
  rw [simpleName]
  rcases splitLast_cases n.chars with ⟨hnone, -⟩ | ⟨before, last, hsome, heq, -⟩
  · rw [hnone] at h
    cases h
  · rw [hsome] at h ⊢
    cases h
    have hchars : n.text.toList = before ++ '.' :: last := heq
    rw [← String.toList_inj, hchars]
    simp

/-- Without brackets at the end, there are none to take off. -/
theorem dimensions_of_isArray {n : TypeName} (h : n.isArray = false) : n.dimensions = (0, n) := by
  have hpairs : takePairs n.chars.reverse = (0, n.chars.reverse) := by
    unfold takePairs
    split
    next s heq =>
      have hsuffix : "[]".toList <:+ n.chars := ⟨s.reverse, by
        rw [← List.reverse_reverse n.chars, heq]
        simp⟩
      rw [isArray, List.isSuffixOf_iff_suffix.mpr hsuffix] at h
      cases h
    next => rfl
  rw [dimensions, hpairs]
  simp [chars]

namespace Importable

variable {n : TypeName} (h : n.Importable)

include h

theorem erased : n.Erased := by
  obtain ⟨name, rfl⟩ := h.written
  exact erased_ofWritten name

theorem exists_qualifier : ∃ q, n.qualifier? = some q := by
  rcases splitLast_cases n.chars with ⟨-, hsegments⟩ | ⟨before, last, hsome, -⟩
  · have hqualified := h.qualified
    simp only [isQualified, package?, hsegments] at hqualified
    cases hupper : Text.startsUppercase n.chars <;> simp [hupper] at hqualified
  · exact ⟨_, by rw [qualifier?, hsome, Option.map_some]⟩

theorem isIdentifier_segment {s : List Char} (hs : s ∈ Text.segments n.chars) :
    Text.isIdentifier s = true := by
  have hformed := h.wellFormed
  rw [isWellFormed, dimensions_of_isArray h.noArray, List.all_eq_true] at hformed
  exact hformed s hs

theorem isIdentifier_simpleName : Text.isIdentifier n.simpleName.toList = true :=
  h.isIdentifier_segment (List.mem_of_getLast? n.getLast?_segments)

end Importable

end TypeName

/-! ## Import declarations -/

theorem joinDots_concat {ss : List (List Char)} (hss : ss ≠ []) (s : List Char) :
    Text.joinDots (ss ++ [s]) = Text.joinDots ss ++ '.' :: s := by
  unfold Text.joinDots
  induction ss with
  | nil => exact absurd rfl hss
  | cons a ss ih =>
    cases ss with
    | nil => simp
    | cons b ss =>
      rw [List.cons_append, List.cons_append, List.intercalate_cons_cons,
        List.intercalate_cons_cons, ← List.cons_append, ih (List.cons_ne_nil _ _)]
      simp

theorem scopedIdentifier_chars (segments : List (List Char)) :
    (scopedIdentifier segments).tokens.flatMap (·.2.toList) = Text.joinDots segments.reverse := by
  fun_induction scopedIdentifier segments with
  | case1 => rfl
  | case2 last => simp [Tree.tokens, Text.joinDots]
  | case3 last rest hrest ih =>
    rw [List.reverse_cons, joinDots_concat (by simpa using hrest), ← ih]
    simp [Tree.tokens, Tree.tokensOf]

theorem filter_scopedIdentifier (segments : List (List Char)) {p : Kind × String → Bool}
    (hidentifier : ∀ s, p (.identifier, s) = true) (hdot : ∀ s, p (.dot, s) = true) :
    (scopedIdentifier segments).tokens.filter p = (scopedIdentifier segments).tokens := by
  fun_induction scopedIdentifier segments with
  | case1 => simp [Tree.tokens, hidentifier]
  | case2 => simp [Tree.tokens, hidentifier]
  | case3 last rest _ ih => simp [Tree.tokens, Tree.tokensOf, ih, hidentifier, hdot]

/-- The tokens of an import declaration, but for the blank in it. -/
theorem significantTokens_importDeclaration (n : TypeName) :
    (importDeclaration n).significantTokens = (.importKeyword, "import") ::
      ((scopedIdentifier (Text.segments n.chars).reverse).tokens ++ [(.semicolon, ";")]) := by
  simp only [importDeclaration, Tree.significantTokens, Tree.tokens, Tree.tokensOf,
    List.filter_append]
  rw [filter_scopedIdentifier _ (fun _ => rfl) fun _ => rfl]
  rfl

/-- An import declaration spells the name that it was made of. -/
theorem writtenPath_importDeclaration (n : TypeName) :
    ImportDecl.writtenPath (importDeclaration n).significantTokens = n.text := by
  rw [ImportDecl.writtenPath, significantTokens_importDeclaration,
    List.filter_cons_of_neg (by decide), List.filter_append,
    filter_scopedIdentifier _ (fun _ => rfl) fun _ => rfl,
    List.filter_cons_of_neg (by decide), List.filter_nil, List.append_nil, ← String.toList_inj,
    Tree.joinTokens_toList, scopedIdentifier_chars, List.reverse_reverse]
  exact List.intercalate_splitOn '.'

theorem any_static_importDeclaration (n : TypeName) :
    ((importDeclaration n).significantTokens.any fun (k, _) => k == .staticKeyword) = false := by
  have hkeep := filter_scopedIdentifier (Text.segments n.chars).reverse
    (p := fun token => token.1 != .staticKeyword) (fun _ => rfl) fun _ => rfl
  rw [significantTokens_importDeclaration, List.any_cons, List.any_append, ← hkeep]
  simp

/-- The name ends like a wildcard import. -/
def TypeName.endsInStar (n : TypeName) : Bool :=
  ".*".toList.isSuffixOf n.chars

theorem TypeName.Importable.endsInStar_eq {n : TypeName} (h : n.Importable) :
    n.endsInStar = false := by
  rw [TypeName.endsInStar, Bool.eq_false_iff, ne_eq, List.isSuffixOf_iff_suffix]
  rintro ⟨base, hbase⟩
  have hsegments : ['*'] ∈ Text.segments n.chars := by
    rw [← hbase, Text.segments, List.splitOn_eq_splitOnP]
    change ['*'] ∈ List.splitOnP (· == '.') (base ++ '.' :: ['*'])
    rw [List.splitOnP_append_cons _ _ rfl]
    exact List.mem_append_right _ (by decide)
  have hstar := h.isIdentifier_segment hsegments
  exact absurd hstar (by decide)

/-- An added import reads back as a single import of the type. -/
theorem ofTree_importDeclaration {n : TypeName} (h : n.endsInStar = false) (position : Nat) :
    ImportDecl.ofTree position (importDeclaration n) = ⟨n.text, false, false, position⟩ := by
  have hsingle : ".*".toList.isSuffixOf? n.text.toList = none := by
    rw [Option.eq_none_iff_forall_ne_some]
    intro base hbase
    rw [List.isSuffixOf?_eq_some_iff_append_eq] at hbase
    rw [TypeName.endsInStar, TypeName.chars, List.isSuffixOf_iff_suffix.mpr ⟨base, hbase⟩] at h
    cases h
  unfold ImportDecl.ofTree
  simp only [writtenPath_importDeclaration, any_static_importDeclaration, hsingle]

theorem simpleName?_single (n : TypeName) (isStatic : Bool) (position : Nat) :
    ImportDecl.simpleName? ⟨n.text, isStatic, false, position⟩ = some n.simpleName := by
  have hlast : (n.text.toList.splitOn '.').getLast? = some n.simpleName.toList := n.getLast?_segments
  simp [ImportDecl.simpleName?, hlast]

/-! ## Headers -/

def ImportDecl.unplaced (i : ImportDecl) : ImportDecl :=
  { i with position := 0 }

/-- The imports among elements, without their positions. -/
def importNames (ts : List Tree) : List ImportDecl :=
  (ts.filter Tree.isImport).map (ImportDecl.ofTree 0)

theorem importNames_append (as bs : List Tree) :
    importNames (as ++ bs) = importNames as ++ importNames bs := by
  rw [importNames, List.filter_append, List.map_append]
  rfl

/-- What the names at the top of a unit depend on: its package and its imports. -/
def Tree.header (t : Tree) : Option String × List ImportDecl :=
  (t.packageName?, importNames t.children)

theorem importsFrom_unplaced (position : Nat) (ts : List Tree) :
    (Tree.importsFrom position ts).map ImportDecl.unplaced = importNames ts := by
  induction ts generalizing position with
  | nil => rfl
  | cons t ts ih =>
    rw [Tree.importsFrom, importNames]
    split
    next ht =>
      rw [List.map_cons, ih, List.filter_cons_of_pos ht, List.map_cons,
        ImportDecl.ofTree_position position 0]
      congr 1
      exact (ImportDecl.ofTree_position 0 0 t).symm
    next ht =>
      rw [ih, List.filter_cons_of_neg ht]
      rfl

theorem header_imports (t : Tree) : t.header.2 = t.imports.map ImportDecl.unplaced :=
  (importsFrom_unplaced 0 t.children).symm

/-- Conditions that do not look at positions hold of an import of the header. -/
theorem any_imports {p : ImportDecl → Bool} (hp : ∀ i, p i.unplaced = p i) (t : Tree) :
    t.imports.any p = t.header.2.any p := by
  rw [header_imports, List.any_map]
  exact congrArg _ (funext fun i => (hp i).symm)

/-- The type that a single import gives a name. -/
def imported? (imports : List ImportDecl) (head : String) : Option TypeName :=
  (imports.find? fun i => !i.isStatic && i.simpleName? == some head).map fun i => .ofWritten i.path

/-- The type that a name has without a single import: in the unit's package, by a wildcard import,
or in `java.lang`. -/
def ambient? (table : TypeTable) (package? : Option String) (imports : List ImportDecl)
    (head : String) : Option TypeName :=
  (package?.bind fun p => table.findInPackage? p head).or <|
    ((imports.filter fun i => i.isWildcard && !i.isStatic).findSome? fun i =>
      table.findInPackage? i.path head).or <|
      if javaLangTypes.contains head then some (.ofWritten ("java.lang." ++ head)) else none

theorem Resolver.resolveHead?_eq (r : Resolver) (head : String) :
    r.resolveHead? head = (imported? r.scope.imports head).or
      (ambient? r.table r.scope.package? r.scope.imports head) := by
  unfold resolveHead? imported? ambient?
  cases r.scope.imports.find? fun i => !i.isStatic && i.simpleName? == some head with
  | some i => rfl
  | none =>
    cases r.scope.package?.bind fun p => r.table.findInPackage? p head with
    | some found => rfl
    | none =>
      cases (r.scope.imports.filter fun i => i.isWildcard && !i.isStatic).findSome? fun i =>
          r.table.findInPackage? i.path head with
      | some found => rfl
      | none => rfl

theorem Resolver.resolveHead?_root (table : TypeTable) (t : Tree) (head : String) :
    (ofTree table t).resolveHead? head =
      (imported? t.imports head).or (ambient? table t.packageName? t.imports head) :=
  resolveHead?_eq _ _

theorem imported?_unplaced (imports : List ImportDecl) (head : String) :
    imported? (imports.map ImportDecl.unplaced) head = imported? imports head := by
  rw [imported?, imported?, List.find?_map, Option.map_map]
  rfl

theorem ambient?_unplaced (table : TypeTable) (package? : Option String)
    (imports : List ImportDecl) (head : String) :
    ambient? table package? (imports.map ImportDecl.unplaced) head =
      ambient? table package? imports head := by
  rw [ambient?, ambient?, List.filter_map, List.findSome?_map]
  rfl

/-- The type is visible to a unit with the header. -/
def coveredBy (header : Option String × List ImportDecl) (symbol : TypeName) : Bool :=
  symbol.qualifier? == some "java.lang" ||
    (symbol.qualifier?.isSome && header.1 == symbol.qualifier?) ||
    (header.2.filter fun i => !i.isStatic).any fun i =>
      if i.isWildcard then some i.path == symbol.qualifier? else i.path == symbol.text

theorem isCovered_eq (t : Tree) (symbol : TypeName) :
    isCovered t symbol = coveredBy t.header symbol := by
  rw [isCovered, coveredBy, Tree.header, ← importsFrom_unplaced 0, List.filter_map, List.any_map]
  rfl

theorem Resolver.resolveHead?_ofTree (table : TypeTable) (t : Tree) (head : String) :
    (ofTree table t).resolveHead? head =
      (imported? t.header.2 head).or (ambient? table t.header.1 t.header.2 head) := by
  rw [resolveHead?_root, Tree.header, ← importsFrom_unplaced 0, imported?_unplaced,
    ambient?_unplaced]
  rfl

/-! ## Adding imports -/

/-- The header `h'` is `h` with single imports of further types, wherever they stand. -/
structure Extends (h h' : Option String × List ImportDecl) (added : List TypeName) : Prop where
  package : h'.1 = h.1
  wildcards : h'.2.filter (·.isWildcard) = h.2.filter (·.isWildcard)
  /-- A name keeps its single import, or gets one of the added ones. -/
  single (head : String) : imported? h'.2 head = imported? h.2 head ∨
    ∃ symbol ∈ added, symbol.simpleName = head ∧ imported? h'.2 head = some symbol
  /-- An added import leaves its simple name with a meaning. -/
  decided : ∀ symbol ∈ added, (imported? h'.2 symbol.simpleName).isSome = true

namespace Extends

variable {h h' h'' : Option String × List ImportDecl} {added others : List TypeName}

theorem refl (h : Option String × List ImportDecl) : Extends h h [] :=
  ⟨rfl, rfl, fun _ => .inl rfl, by simp⟩

theorem trans (first : Extends h h' added) (second : Extends h' h'' others) :
    Extends h h'' (added ++ others) where
  package := second.package.trans first.package
  wildcards := second.wildcards.trans first.wildcards
  single head := by
    rcases second.single head with hsame | ⟨symbol, hsymbol, hname, hmeans⟩
    · rw [hsame]
      refine (first.single head).imp_right fun ⟨symbol, hsymbol, hname, hmeans⟩ => ?_
      exact ⟨symbol, List.mem_append_left _ hsymbol, hname, hmeans⟩
    · exact .inr ⟨symbol, List.mem_append_right _ hsymbol, hname, hmeans⟩
  decided symbol hsymbol := by
    rcases List.mem_append.mp hsymbol with hsymbol | hsymbol
    · rcases second.single symbol.simpleName with hsame | ⟨other, -, -, hmeans⟩
      · rw [hsame]
        exact first.decided symbol hsymbol
      · rw [hmeans]
        rfl
    · exact second.decided symbol hsymbol

/-- The meaning that a name has without a single import stays. -/
theorem ambient?_eq (hext : Extends h h' added) (table : TypeTable) (head : String) :
    ambient? table h'.1 h'.2 head = ambient? table h.1 h.2 head := by
  have hfilter (imports : List ImportDecl) :
      (imports.filter fun i => i.isWildcard && !i.isStatic) =
        (imports.filter (·.isWildcard)).filter (!·.isStatic) := by
    rw [List.filter_filter]
    simp only [Bool.and_comm]
  rw [ambient?, ambient?, hext.package, hfilter, hfilter, hext.wildcards]

theorem insert (package : Option String) (pre post : List ImportDecl) {symbol : TypeName}
    (herased : symbol.Erased) :
    Extends (package, pre ++ post) (package, pre ++ ⟨symbol.text, false, false, 0⟩ :: post)
      [symbol] where
  package := rfl
  wildcards := by simp
  single head := by
    unfold imported?
    rw [List.find?_append, List.find?_append, List.find?_cons]
    simp only [simpleName?_single, Bool.not_false, Bool.true_and]
    cases pre.find? fun i => !i.isStatic && i.simpleName? == some head with
    | some i => exact .inl rfl
    | none =>
      by_cases hname : symbol.simpleName = head
      · refine .inr ⟨symbol, List.mem_singleton_self symbol, hname, ?_⟩
        simp [hname, TypeName.ofWritten_text herased]
      · rw [beq_eq_false_iff_ne.mpr fun heq => hname (Option.some.inj heq)]
        exact .inl rfl
  decided other hother := by
    rw [List.mem_singleton.mp hother, imported?, Option.isSome_map, List.find?_isSome]
    refine ⟨⟨symbol.text, false, false, 0⟩, by simp, ?_⟩
    simp [simpleName?_single]

end Extends

theorem coveredBy_insert (package : Option String) (pre post : List ImportDecl)
    (symbol other : TypeName) :
    coveredBy (package, pre ++ ⟨symbol.text, false, false, 0⟩ :: post) other =
      (coveredBy (package, pre ++ post) other || symbol.text == other.text) := by
  unfold coveredBy
  simp only [List.filter_append, List.any_append, List.filter_cons, Bool.not_false, if_true,
    List.any_cons, Bool.false_eq_true, if_false]
  ac_rfl

theorem exists_header_insertImport (t : Tree) {symbol : TypeName} (h : symbol.endsInStar = false) :
    ∃ package pre post, t.header = (package, pre ++ post) ∧
      (insertImport t symbol).header = (package, pre ++ ⟨symbol.text, false, false, 0⟩ :: post) := by
  have hinsert : insertImport t symbol = insertImport (.node t.kind t.children) symbol := by
    cases t <;> rfl
  obtain ⟨pre, new, post, text, hcs, heq, hnew⟩ := insertImport_eq t.kind t.children symbol
  have hpackage : (pre ++ new ++ post).find? Tree.isPackage = (pre ++ post).find? Tree.isPackage := by
    have hnone : new.find? Tree.isPackage = none := by
      rcases hnew with rfl | rfl <;> rfl
    rw [List.find?_append, List.find?_append, List.find?_append, hnone, Option.or_none]
  have himports : importNames new = [⟨symbol.text, false, false, 0⟩] := by
    have hone : importNames new = [ImportDecl.ofTree 0 (importDeclaration symbol)] := by
      rcases hnew with rfl | rfl <;> rfl
    rw [hone, ofTree_importDeclaration h]
  refine ⟨t.packageName?, importNames pre, importNames post, ?_, ?_⟩
  · rw [Tree.header, hcs, importNames_append]
  · rw [hinsert, heq, Tree.header, Tree.children, importNames_append, importNames_append, himports,
      Tree.packageName?, Tree.packageName?, Tree.children, hcs, hpackage]
    simp

/-- One import more covers the type that it names, and no other. -/
theorem isCovered_insertImport (t : Tree) {symbol : TypeName} (h : symbol.endsInStar = false)
    (other : TypeName) :
    isCovered (insertImport t symbol) other = (isCovered t other || symbol.text == other.text) := by
  obtain ⟨package, pre, post, hheader, hheader'⟩ := exists_header_insertImport t h
  rw [isCovered_eq, isCovered_eq, hheader, hheader', coveredBy_insert]

theorem addImports_extends {symbols : List TypeName} (hsymbols : ∀ s ∈ symbols, s.Importable)
    (t : Tree) : Extends t.header (addImports t symbols).1.header (addImports t symbols).2 := by
  induction symbols generalizing t with
  | nil => exact .refl _
  | cons symbol symbols ih =>
    have hrest : ∀ s ∈ symbols, s.Importable := fun s hs => hsymbols s (List.mem_cons_of_mem _ hs)
    rw [addImports]
    split
    next => exact ih hrest t
    next =>
      have hsymbol := hsymbols symbol List.mem_cons_self
      obtain ⟨package, pre, post, hheader, hheader'⟩ :=
        exists_header_insertImport t hsymbol.endsInStar_eq
      have hstep := Extends.insert package pre post hsymbol.erased
      rw [← hheader, ← hheader'] at hstep
      exact hstep.trans (ih hrest _)

theorem mem_addImports_iff {symbols : List TypeName}
    (hsymbols : ∀ s ∈ symbols, s.endsInStar = false) (t : Tree) (other : TypeName) :
    other ∈ (addImports t symbols).2 ↔ other ∈ symbols ∧ isCovered t other = false := by
  induction symbols generalizing t with
  | nil => simp [addImports]
  | cons symbol symbols ih =>
    have hrest : ∀ s ∈ symbols, s.endsInStar = false :=
      fun s hs => hsymbols s (List.mem_cons_of_mem _ hs)
    rw [addImports]
    split
    next hcovered =>
      rw [ih hrest t, List.mem_cons, or_and_right]
      constructor
      · exact .inr
      · rintro (⟨rfl, hopen⟩ | hboth)
        · rw [hcovered] at hopen
          cases hopen
        · exact hboth
    next hcovered =>
      simp only
      rw [List.mem_cons, List.mem_cons, ih hrest,
        isCovered_insertImport t (hsymbols symbol List.mem_cons_self), Bool.or_eq_false_iff,
        beq_eq_false_iff_ne]
      constructor
      · rintro (rfl | ⟨hmem, hopen, -⟩)
        · exact ⟨.inl rfl, by simpa using hcovered⟩
        · exact ⟨.inr hmem, hopen⟩
      · rintro ⟨rfl | hmem, hopen⟩
        · exact .inl rfl
        · by_cases htext : symbol.text = other.text
          · exact .inl (congrArg TypeName.mk htext).symm
          · exact .inr ⟨hmem, hopen, htext⟩

end CallMigration
