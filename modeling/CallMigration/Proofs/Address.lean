import CallMigration.Proofs.Mentions
import CallMigration.Proofs.Stripped
import Mathlib.Data.List.Flatten
import Mathlib.Data.List.Lex

/-!
# Addresses

An address leads from an element to a part of it: at each step it names a position among the significant
children. Unlike an offset, an address does not depend on whitespace and comments; but the order of
addresses is the order of offsets, as far as a name can be looked up.

* `Site.at?` : the element at an address.
* `Site.start_le_iff` : an element starts before a token iff its address does not come after.
* `Site.pair_sublist_nodes` : nodes at different addresses are different entries of the list of nodes.
-/

namespace CallMigration

open Element

namespace Site

/-- The element at an address. -/
def at? : List Nat → Site → Option Site
  | [], x => some x
  | i :: p, x => (significantChildren x)[i]?.bind (at? p)

theorem at?_cons {i : Nat} {p : List Nat} {x z : Site} (h : at? (i :: p) z = some x) :
    ∃ y, (significantChildren z)[i]? = some y ∧ at? p y = some x :=
  Option.bind_eq_some_iff.mp h

theorem at?_concat (p : List Nat) (i : Nat) (z : Site) :
    at? (p ++ [i]) z = (at? p z).bind fun y => (significantChildren y)[i]? := by
  induction p generalizing z with
  | nil =>
    show (significantChildren z)[i]?.bind some = _
    rw [Option.bind_fun_some]
    rfl
  | cons j p ih =>
    show (significantChildren z)[j]?.bind (at? (p ++ [i])) = _
    rw [at?, Option.bind_assoc]
    congr 1
    funext y
    exact ih y

variable {x y z : Site}

theorem element_mem_of_child (h : y ∈ children x) : y.element ∈ x.element.children := by
  rw [← map_element_children]
  exact List.mem_map_of_mem h

theorem sizeOf_lt_of_child (h : y ∈ children x) : sizeOf y.element < sizeOf x.element := by
  have hmem := element_mem_of_child h
  obtain ⟨t, start, around⟩ := x
  cases t with
  | token k s => cases h
  | node k cs =>
    have hlt := List.sizeOf_lt_of_mem (show y.element ∈ cs from hmem)
    simp only [Tree.node.sizeOf_spec]
    omega

theorem tidy_of_significant (htidy : x.element.Tidy) (h : y ∈ significantChildren x) :
    y.element.Tidy :=
  htidy.child (element_mem_of_child (List.mem_of_mem_filter h))

theorem tidy_of_at? {p : List Nat} (htidy : z.element.Tidy) (h : at? p z = some x) :
    x.element.Tidy := by
  induction p generalizing z with
  | nil =>
    cases h
    exact htidy
  | cons i p ih =>
    obtain ⟨y, hy, h⟩ := at?_cons h
    exact ih (tidy_of_significant htidy (List.mem_of_getElem? hy)) h

/-! ## Offsets -/

theorem bounds_of_mem_place {around : List Span} {ts : List Tree} {start : Nat}
    (h : x ∈ place around start ts) :
    start ≤ x.start ∧ x.span.stop ≤ start + Tree.byteLengthOf ts := by
  induction ts generalizing start with
  | nil => cases h
  | cons t ts ih =>
    rw [place, List.mem_cons] at h
    rw [Tree.byteLengthOf]
    rcases h with rfl | h
    · simp only [span]
      omega
    · have hrest := ih h
      omega

theorem pairwise_place (around : List Span) (ts : List Tree) (start : Nat) :
    (place around start ts).Pairwise fun a b => a.span.stop ≤ b.start := by
  induction ts generalizing start with
  | nil => exact .nil
  | cons t ts ih =>
    rw [place]
    refine .cons (fun b hb => ?_) (ih _)
    exact (bounds_of_mem_place hb).1

theorem bounds_of_child (h : y ∈ children x) : x.start ≤ y.start ∧ y.span.stop ≤ x.span.stop := by
  have hbounds := bounds_of_mem_place h
  obtain ⟨t, start, around⟩ := x
  cases t with
  | token k s => cases h
  | node k cs => exact hbounds

theorem bounds_of_at? {p : List Nat} (h : at? p z = some x) :
    z.start ≤ x.start ∧ x.span.stop ≤ z.span.stop := by
  induction p generalizing z with
  | nil =>
    cases h
    exact ⟨le_rfl, le_rfl⟩
  | cons i p ih =>
    obtain ⟨y, hy, h⟩ := at?_cons h
    have houter := bounds_of_child (List.mem_of_mem_filter (List.mem_of_getElem? hy))
    have hinner := ih h
    omega

theorem stop_le_of_lt {i j : Nat} (hi : (significantChildren z)[i]? = some x)
    (hj : (significantChildren z)[j]? = some y) (hij : i < j) : x.span.stop ≤ y.start := by
  have hpairs : (significantChildren z).Pairwise fun a b => a.span.stop ≤ b.start :=
    (pairwise_place _ _ _).filter _
  obtain ⟨hi', rfl⟩ := List.getElem?_eq_some_iff.mp hi
  obtain ⟨hj', rfl⟩ := List.getElem?_eq_some_iff.mp hj
  exact List.pairwise_iff_getElem.mp hpairs i j hi' hj' hij

theorem start_lt_stop_of_token {i : Nat} {p : List Nat} (htidy : z.element.Tidy)
    (h : at? (i :: p) z = some x) (htoken : x.element.isNode = false) : x.start < x.span.stop := by
  induction p generalizing z i with
  | nil =>
    obtain ⟨y, hy, h⟩ := at?_cons h
    cases h
    have hmem := List.mem_of_getElem? hy
    have htidy := tidy_of_significant htidy hmem
    have hsignificant : (!x.element.kind.isTrivia) = true := (List.mem_filter.mp hmem).2
    obtain ⟨t, start, around⟩ := x
    cases t with
    | token k s =>
      have hk : k.isTrivia = false := by
        rw [Bool.not_eq_true'] at hsignificant
        exact hsignificant
      have hne : s ≠ "" := htidy.tokens (k, s) List.mem_cons_self hk
      have hpos : 0 < s.utf8ByteSize := by
        rw [Nat.pos_iff_ne_zero]
        intro hzero
        exact hne (String.utf8ByteSize_eq_zero_iff.mp hzero)
      simp only [span, Tree.byteLength]
      omega
    | node k cs => cases htoken
  | cons j p ih =>
    obtain ⟨y, hy, h⟩ := at?_cons h
    exact ih (tidy_of_significant htidy (List.mem_of_getElem? hy)) h

theorem isNode_of_at? {i : Nat} {p : List Nat} (h : at? (i :: p) z = some x) :
    z.element.isNode = true := by
  obtain ⟨y, hy, -⟩ := at?_cons h
  exact isNode_of_child (List.mem_of_mem_filter (List.mem_of_getElem? hy))

/-- An element starts before a token iff its address does not come after. A node may start with
whitespace, so the addresses of two nodes say less. -/
theorem start_le_iff {p q : List Nat} (htidy : z.element.Tidy) (hx : at? p z = some x)
    (hy : at? q z = some y) (htoken : y.element.isNode = false) :
    x.start ≤ y.start ↔ ¬ List.Lex (· < ·) q p := by
  induction p generalizing z q with
  | nil =>
    cases hx
    exact iff_of_true (bounds_of_at? hy).1 List.not_lex_nil
  | cons i p ih =>
    cases q with
    | nil =>
      cases hy
      rw [isNode_of_at? hx] at htoken
      cases htoken
    | cons j q =>
      have hfull := start_lt_stop_of_token htidy hy htoken
      obtain ⟨a, ha, hx⟩ := at?_cons hx
      obtain ⟨b, hb, hy⟩ := at?_cons hy
      have hxa := bounds_of_at? hx
      have hyb := bounds_of_at? hy
      have hstop : x.start ≤ x.span.stop := Nat.le_add_right _ _
      rw [List.cons_lex_cons_iff]
      rcases Nat.lt_trichotomy i j with hij | rfl | hij
      · have horder := stop_le_of_lt ha hb hij
        refine iff_of_true ?_ ?_
        · omega
        · rintro (hji | ⟨rfl, -⟩) <;> omega
      · rw [ha] at hb
        cases hb
        have hinner := ih (tidy_of_significant htidy (List.mem_of_getElem? ha)) hx hy
        simpa using hinner
      · have horder := stop_le_of_lt hb ha hij
        refine iff_of_false ?_ (not_not.mpr (.inl hij))
        omega

/-! ## Nodes -/

theorem nodesAtAll_eq_flatMap (around : List Span) (ts : List Tree) (start : Nat) :
    nodesAtAll around start ts = (place around start ts).flatMap nodes := by
  induction ts generalizing start with
  | nil => rfl
  | cons t ts ih =>
    rw [nodesAtAll, place, List.flatMap_cons, ih]
    rfl

theorem nodes_of_token (h : x.element.isNode = false) : x.nodes = [] := by
  obtain ⟨t, start, around⟩ := x
  cases t with
  | token k s => rfl
  | node k cs => cases h

/-- The nodes of a node: itself, and those of its significant children. -/
theorem nodes_eq (htidy : x.element.Tidy) (hnode : x.element.isNode = true) :
    x.nodes = x :: (significantChildren x).flatMap nodes := by
  have hall (ys : List Site) (hys : ∀ y ∈ ys, isSignificant y = false → y.nodes = []) :
      (ys.filter isSignificant).flatMap nodes = ys.flatMap nodes := by
    induction ys with
    | nil => rfl
    | cons y ys ih =>
      have hrest := ih fun u hu => hys u (List.mem_cons_of_mem _ hu)
      cases hy : isSignificant y with
      | true => rw [List.filter_cons_of_pos hy, List.flatMap_cons, List.flatMap_cons, hrest]
      | false =>
        rw [List.filter_cons_of_neg (by simp [hy]), List.flatMap_cons, hrest,
          hys y List.mem_cons_self hy, List.nil_append]
  rw [Overlay.nodes_of_isNode hnode, nodesAtAll_eq_flatMap, significantChildren, hall]
  · rfl
  · intro y hy hinsignificant
    -- Whitespace and comments are tokens.
    refine nodes_of_token ?_
    by_contra hinner
    have htrivia := (htidy.child (element_mem_of_child hy)).nodes y.element
      (by
        have hself := List.mem_map_of_mem (f := element) (mem_nodes_self (by simpa using hinner))
        rwa [nodes, map_element_nodesAt] at hself)
    rw [isSignificant, show kind y = y.element.kind from rfl, htrivia] at hinsignificant
    cases hinsignificant

theorem nodes_sublist_of_significant (h : y ∈ significantChildren x) :
    y.nodes.Sublist ((significantChildren x).flatMap nodes) := by
  have hflat := (List.singleton_sublist.mpr h).flatMap nodes
  simpa using hflat

theorem nodes_sublist_of_at? {p : List Nat} (htidy : z.element.Tidy) (h : at? p z = some x) :
    x.nodes.Sublist z.nodes := by
  induction p generalizing z with
  | nil =>
    cases h
    exact List.Sublist.refl _
  | cons i p ih =>
    have hnode := isNode_of_at? h
    obtain ⟨y, hy, h⟩ := at?_cons h
    have hmem := List.mem_of_getElem? hy
    rw [nodes_eq htidy hnode]
    exact ((ih (tidy_of_significant htidy hmem) h).trans (nodes_sublist_of_significant hmem)).cons _

theorem pair_sublist_of_lt {α : Type} {l : List α} {a b : α} {i j : Nat} (ha : l[i]? = some a)
    (hb : l[j]? = some b) (hij : i < j) : [a, b].Sublist l := by
  have hbefore : a ∈ l.take j := by
    refine List.mem_of_getElem? (i := i) ?_
    rw [List.getElem?_take_of_lt hij, ha]
  have hbehind : b ∈ l.drop j := by
    refine List.mem_of_getElem? (i := 0) ?_
    rw [List.getElem?_drop, Nat.add_zero, hb]
  have hpair := (List.singleton_sublist.mpr hbefore).append (List.singleton_sublist.mpr hbehind)
  rwa [List.take_append_drop] at hpair

/-- Nodes at different addresses are different entries of the list of nodes, in the order of the
addresses. -/
theorem pair_sublist_nodes {p q : List Nat} (htidy : z.element.Tidy) (hx : at? p z = some x)
    (hy : at? q z = some y) (hxnode : x.element.isNode = true) (hynode : y.element.isNode = true)
    (hlt : List.Lex (· < ·) p q) : [x, y].Sublist z.nodes := by
  induction p generalizing z q with
  | nil =>
    cases hx
    cases q with
    | nil => cases hlt
    | cons j q =>
      obtain ⟨b, hb, hy⟩ := at?_cons hy
      have hmem := List.mem_of_getElem? hb
      have hsub := (nodes_sublist_of_at? (tidy_of_significant htidy hmem) hy).trans
        (nodes_sublist_of_significant hmem)
      rw [nodes_eq htidy hxnode]
      exact .cons_cons _ (List.singleton_sublist.mpr (hsub.subset (mem_nodes_self hynode)))
  | cons i p ih =>
    have hnode := isNode_of_at? hx
    obtain ⟨a, ha, hx⟩ := at?_cons hx
    have htidya := tidy_of_significant htidy (List.mem_of_getElem? ha)
    rw [nodes_eq htidy hnode]
    refine .cons _ ?_
    cases q with
    | nil => cases hlt
    | cons j q =>
      obtain ⟨b, hb, hy⟩ := at?_cons hy
      rcases List.cons_lex_cons_iff.mp hlt with hij | ⟨rfl, hrest⟩
      · have htidyb := tidy_of_significant htidy (List.mem_of_getElem? hb)
        have hxa := (nodes_sublist_of_at? htidya hx).subset (mem_nodes_self hxnode)
        have hyb := (nodes_sublist_of_at? htidyb hy).subset (mem_nodes_self hynode)
        have hboth : (a.nodes ++ b.nodes).Sublist ((significantChildren z).flatMap nodes) := by
          have hflat := (pair_sublist_of_lt ha hb hij).flatMap nodes
          simpa using hflat
        exact ((List.singleton_sublist.mpr hxa).append (List.singleton_sublist.mpr hyb)).trans hboth
      · rw [ha] at hb
        cases hb
        exact (ih htidya hx hy hrest).trans (nodes_sublist_of_significant (List.mem_of_getElem? ha))

/-- A span that only one node has belongs to one address. -/
theorem eq_of_span_eq {p q : List Nat} (htidy : z.element.Tidy) (hx : at? p z = some x)
    (hy : at? q z = some y) (hxnode : x.element.isNode = true) (hynode : y.element.isNode = true)
    (hspan : y.span = x.span) (hone : (z.nodes.map span).count x.span ≤ 1) : p = q := by
  have htwice {u v : Site} (huv : [u, v].Sublist z.nodes) (hu : u.span = x.span)
      (hv : v.span = x.span) : False := by
    have htwo : 2 ≤ (z.nodes.map span).count x.span := by
      simpa [hu, hv] using (huv.map span).count_le x.span
    omega
  rcases trichotomous_of (List.Lex (· < ·)) p q with hpq | hpq | hqp
  · exact (htwice (pair_sublist_nodes htidy hx hy hxnode hynode hpq) rfl hspan).elim
  · exact hpq
  · exact (htwice (pair_sublist_nodes htidy hy hx hynode hxnode hqp) hspan rfl).elim

end Site

end CallMigration
