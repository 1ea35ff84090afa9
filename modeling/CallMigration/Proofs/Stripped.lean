import CallMigration.Proofs.Imports

/-!
# Trees without whitespace and comments

What a tree says about a unit is in its significant tokens and in the nodes around them. Deleting the
tokens of whitespace and comments leaves kinds and significant texts as they are, and with them the
package, the imports and the types that a unit declares.

* `Tree.stripped` : a tree without its tokens of whitespace and comments.
* `Tree.Tidy` : whitespace and comments are tokens, and no other token is empty.
* `Tree.Tidy.header_stripped`, `Tree.Tidy.conflicts_stripped` : what stays for a whole unit.
-/

namespace CallMigration

open Element

namespace Tree

mutual
def stripped : Tree → Tree
  | token k s => token k s
  | node k cs => node k (strippedAll cs)
/-- The elements that are no tokens of whitespace or comments, without those in them. -/
def strippedAll : List Tree → List Tree
  | [] => []
  | t :: ts => if isTriviaToken t then strippedAll ts else t.stripped :: strippedAll ts
end

theorem strippedAll_eq (ts : List Tree) :
    strippedAll ts = (ts.filter fun t => !isTriviaToken t).map stripped := by
  induction ts with
  | nil => rfl
  | cons t ts ih =>
    rw [strippedAll, List.filter_cons, ih]
    cases isTriviaToken t <;> rfl

theorem filter_strippedAll {p : Tree → Bool} (hnode : ∀ t, p t = true → t.isNode = true)
    (hp : ∀ t, p t.stripped = p t) (ts : List Tree) :
    (strippedAll ts).filter p = (ts.filter p).map stripped := by
  have hcomp : p ∘ stripped = p := funext hp
  rw [strippedAll_eq, List.filter_map, hcomp, List.filter_filter]
  congr 1
  refine List.filter_congr fun t _ => ?_
  cases t with
  | token k s =>
    have hfalse : p (token k s) = false := by
      by_contra htrue
      have htoken := hnode (token k s) (by simpa using htrue)
      cases htoken
    rw [hfalse, Bool.false_and]
  | node k cs => exact Bool.and_true _

/-! ## Single elements -/

@[simp]
theorem kind_stripped (t : Tree) : t.stripped.kind = t.kind := by
  cases t <;> rfl

@[simp]
theorem isNode_stripped (t : Tree) : t.stripped.isNode = t.isNode := by
  cases t <;> rfl

@[simp]
theorem tokenText?_stripped (t : Tree) : t.stripped.tokenText? = t.tokenText? := by
  cases t <;> rfl

theorem children_stripped (t : Tree) : t.stripped.children = strippedAll t.children := by
  cases t <;> rfl

mutual
theorem tokens_stripped : ∀ t : Tree, isTriviaToken t = false → t.stripped.tokens = t.significantTokens
  | token k s, h => by
    have hk : k.isTrivia = false := h
    simp [stripped, tokens, significantTokens, hk]
  | node k cs, _ => tokensOf_strippedAll cs
theorem tokensOf_strippedAll :
    ∀ ts : List Tree, tokensOf (strippedAll ts) = (tokensOf ts).filter fun (k, _) => !k.isTrivia
  | [] => rfl
  | t :: ts => by
    rw [strippedAll, tokensOf, List.filter_append, ← tokensOf_strippedAll ts]
    split
    next h =>
      cases t with
      | token k s =>
        have hk : k.isTrivia = true := h
        simp [tokens, hk]
      | node k cs => cases h
    next h =>
      rw [tokensOf, tokens_stripped t (by simpa using h)]
      rfl
end

@[simp]
theorem significantTokens_stripped (t : Tree) : t.stripped.significantTokens = t.significantTokens := by
  cases t with
  | token k s => rfl
  | node k cs =>
    rw [significantTokens, tokens_stripped _ rfl, significantTokens, List.filter_filter]
    simp only [Bool.and_self]

@[simp]
theorem significantText_stripped (t : Tree) : t.stripped.significantText = t.significantText := by
  cases t with
  | token k s => rfl
  | node k cs => exact congrArg joinTokens (significantTokens_stripped (node k cs))

mutual
theorem nodes_stripped : ∀ t : Tree, t.stripped.nodes = t.nodes.map stripped
  | token k s => rfl
  | node k cs => by
    rw [stripped, nodes, nodes, List.map_cons, nodesOf_strippedAll cs, stripped]
theorem nodesOf_strippedAll : ∀ ts : List Tree, nodesOf (strippedAll ts) = (nodesOf ts).map stripped
  | [] => rfl
  | t :: ts => by
    rw [strippedAll, nodesOf, List.map_append, ← nodesOf_strippedAll ts]
    split
    next h =>
      cases t with
      | token k s => rfl
      | node k cs => cases h
    next => rw [nodesOf, nodes_stripped t]
end

/-! ## Tidy trees -/

/-- Whitespace and comments are tokens, and no other token is empty. -/
structure Tidy (t : Tree) : Prop where
  nodes : ∀ n ∈ t.nodes, n.kind.isTrivia = false
  tokens : ∀ token ∈ t.tokens, token.1.isTrivia = false → token.2 ≠ ""

instance (t : Tree) : Decidable t.Tidy :=
  decidable_of_iff ((∀ n ∈ t.nodes, n.kind.isTrivia = false) ∧
    ∀ token ∈ t.tokens, token.1.isTrivia = false → token.2 ≠ "")
    ⟨fun h => ⟨h.1, h.2⟩, fun h => ⟨h.nodes, h.tokens⟩⟩

theorem mem_tokensOf_of_mem {t : Tree} {ts : List Tree} (ht : t ∈ ts) {token : Kind × String}
    (h : token ∈ t.tokens) : token ∈ tokensOf ts := by
  induction ts with
  | nil => cases ht
  | cons u ts ih =>
    rw [tokensOf, List.mem_append]
    rcases List.mem_cons.mp ht with rfl | ht
    · exact .inl h
    · exact .inr (ih ht)

namespace Tidy

theorem child {t c : Tree} (h : t.Tidy) (hc : c ∈ t.children) : c.Tidy := by
  cases t with
  | token k s => cases hc
  | node k cs =>
    refine ⟨fun n hn => h.nodes n ?_, fun token htoken => h.tokens token ?_⟩
    · exact List.mem_cons_of_mem _ (mem_nodesOf_of_mem hc hn)
    · exact mem_tokensOf_of_mem hc htoken

mutual
theorem of_mem_nodes : ∀ {t : Tree}, t.Tidy → ∀ n ∈ t.nodes, n.Tidy
  | token k s, _, n, hn => by cases hn
  | node k cs, h, n, hn => by
    rcases List.mem_cons.mp hn with rfl | hn
    · exact h
    · exact of_mem_nodesOf (fun c hc => h.child hc) n hn
theorem of_mem_nodesOf : ∀ {ts : List Tree}, (∀ t ∈ ts, t.Tidy) → ∀ n ∈ nodesOf ts, n.Tidy
  | [], _, n, hn => by cases hn
  | t :: ts, h, n, hn => by
    rw [nodesOf, List.mem_append] at hn
    rcases hn with hn | hn
    · exact of_mem_nodes (h t List.mem_cons_self) n hn
    · exact of_mem_nodesOf (fun u hu => h u (List.mem_cons_of_mem _ hu)) n hn
end

variable {t : Tree} (h : t.Tidy)

include h

theorem map_stripped_significant :
    (significantChildren t).map stripped = strippedAll t.children := by
  rw [strippedAll_eq, significantChildren]
  congr 1
  refine List.filter_congr fun c hc => ?_
  cases c with
  | token k s => rfl
  | node k cs =>
    have hk : k.isTrivia = false := (h.child hc).nodes (.node k cs) List.mem_cons_self
    show (!k.isTrivia) = true
    rw [hk]
    rfl

theorem significantChildren_stripped :
    significantChildren t.stripped = (significantChildren t).map stripped := by
  have hall : ∀ c ∈ t.stripped.children, isSignificant c = true := by
    rw [children_stripped, ← h.map_stripped_significant]
    intro c hc
    obtain ⟨d, hd, rfl⟩ := List.mem_map.mp hc
    have hsignificant : (!d.kind.isTrivia) = true := (List.mem_filter.mp hd).2
    show (!d.stripped.kind.isTrivia) = true
    rw [kind_stripped, hsignificant]
  rw [h.map_stripped_significant, ← children_stripped]
  exact List.filter_eq_self.mpr hall

/-- The first part with a kind of some sort, and its text. -/
theorem find?_text_stripped (p : Kind → Bool) :
    ((significantChildren t.stripped).find? fun x => p x.kind).map significantText =
      ((significantChildren t).find? fun x => p x.kind).map significantText := by
  rw [h.significantChildren_stripped, List.find?_map, Option.map_map]
  have hkind : (fun x : Tree => p x.kind) ∘ stripped = fun x => p x.kind := by
    funext x
    rw [Function.comp, kind_stripped]
  rw [hkind]
  congr 1
  funext x
  exact significantText_stripped x

/-! ## Units -/

theorem declaredName?_stripped : declaredName? t.stripped = declaredName? t := by
  unfold declaredName?
  rw [kind_stripped]
  split
  · exact h.find?_text_stripped fun k => k == .identifier || k == .typeIdentifier
  · rfl

theorem packageName?_stripped : t.stripped.packageName? = t.packageName? := by
  have hfilter := filter_strippedAll (p := isPackage) (fun u hu => (Bool.and_eq_true _ _ ▸ hu).1)
    (fun u => by rw [isPackage, isPackage, kind_stripped, isNode_stripped]) t.children
  have hfind : t.stripped.children.find? isPackage = (t.children.find? isPackage).map stripped := by
    rw [children_stripped, ← List.head?_filter, ← List.head?_filter, hfilter, List.head?_map]
  unfold packageName?
  rw [hfind]
  cases hdeclaration : t.children.find? isPackage with
  | none => rfl
  | some declaration =>
    have htidy := h.child (List.mem_of_find?_eq_some hdeclaration)
    have htext := htidy.find?_text_stripped fun k => k == .scopedIdentifier || k == .identifier
    rw [Option.map_eq_bind, Option.map_eq_bind] at htext
    exact htext

theorem header_stripped : t.stripped.header = t.header := by
  have hfilter := filter_strippedAll (p := isImport) (fun u hu => (Bool.and_eq_true _ _ ▸ hu).1)
    (fun u => by rw [isImport, isImport, kind_stripped, isNode_stripped]) t.children
  rw [header, header, h.packageName?_stripped, children_stripped, importNames, importNames, hfilter,
    List.map_map]
  have hread : ImportDecl.ofTree 0 ∘ stripped = ImportDecl.ofTree 0 := by
    funext u
    simp only [Function.comp, ImportDecl.ofTree, significantTokens_stripped]
  rw [hread]

theorem conflicts_stripped (symbol : TypeName) : conflicts t.stripped symbol = conflicts t symbol := by
  have hnames : t.stripped.nodes.filterMap declaredName? = t.nodes.filterMap declaredName? := by
    rw [nodes_stripped, List.filterMap_map]
    exact List.filterMap_congr fun n hn => (h.of_mem_nodes n hn).declaredName?_stripped
  rw [conflicts, conflicts, any_imports (fun _ => rfl), any_imports (fun _ => rfl), h.header_stripped,
    hnames]

end Tidy

end Tree

end CallMigration
