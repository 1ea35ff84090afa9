import CallMigration.Proofs.Address
import Mathlib.Data.List.Infix

/-!
# Paths

A path leads from a unit to an element of it through all children, whitespace and comments included.
Unlike a span it tells any two nodes apart, and the nodes around an element stand at the ends of its
path.

* `Site.descend?` : the element that a path leads to.
* `Site.located` : the nodes of a unit in pre-order, each with its path.
* `Site.path_eq_of_span_eq` : a span that only one node has belongs to one path.
-/

namespace CallMigration

open Element

namespace Site

/-! ## Elements at paths -/

/-- The element that a path leads to: `i :: p` is the child at position `i` of what is at `p`. So the
nodes around an element are at the ends of its path. -/
def descend? (root : Site) : List Nat → Option Site
  | [] => some root
  | i :: p => (descend? root p).bind fun x => (children x)[i]?

theorem descend?_cons {root x : Site} {i : Nat} {p : List Nat}
    (h : descend? root (i :: p) = some x) :
    ∃ y, descend? root p = some y ∧ (children y)[i]? = some x :=
  Option.bind_eq_some_iff.mp h

theorem descend?_concat (root : Site) (p : List Nat) (i : Nat) :
    descend? root (p ++ [i]) = (children root)[i]?.bind fun x => descend? x p := by
  induction p with
  | nil => cases h : (children root)[i]? <;> simp [descend?, h]
  | cons j p ih =>
    rw [List.cons_append, descend?, ih, Option.bind_assoc]
    rfl

theorem around_of_child {x y : Site} (h : y ∈ children x) : y.around = x.span :: x.around :=
  around_of_mem_place h

/-- What is above an element is at an end of its path. -/
theorem exists_above {root x : Site} (hroot : root.around = []) {p : List Nat}
    (h : descend? root p = some x) (hnode : x.element.isNode = true) {height : Nat} {s : Span}
    (hs : (x.span :: x.around)[height]? = some s) :
    ∃ y, descend? root (p.drop height) = some y ∧ y.element.isNode = true ∧ y.span = s := by
  induction height generalizing p x with
  | zero =>
    cases hs
    exact ⟨x, h, hnode, rfl⟩
  | succ height ih =>
    cases p with
    | nil =>
      cases h
      rw [hroot] at hs
      cases hs
    | cons i p =>
      obtain ⟨y, hy, hchild⟩ := descend?_cons h
      have hmem := List.mem_of_getElem? hchild
      rw [List.getElem?_cons_succ, around_of_child hmem] at hs
      exact ih hy (isNode_of_child hmem) hs

/-- Around an element stand the nodes between it and a node around it, then that node, then what is
around that node. -/
theorem exists_around {root e : Site} {i : Nat} {inner outer : List Nat}
    (h : descend? root (i :: (inner ++ outer)) = some e) :
    ∃ between y, descend? root outer = some y ∧ y.element.isNode = true ∧
      e.around = between ++ y.span :: y.around ∧
      ∀ s ∈ between, ∃ b z, b <:+ inner ++ outer ∧ outer.length < b.length ∧
        descend? root b = some z ∧ z.element.isNode = true ∧ z.span = s := by
  induction inner generalizing i e with
  | nil =>
    obtain ⟨y, hy, hchild⟩ := descend?_cons h
    have hmem := List.mem_of_getElem? hchild
    exact ⟨[], y, hy, isNode_of_child hmem, around_of_child hmem, by simp⟩
  | cons j inner ih =>
    obtain ⟨x, hx, hchild⟩ := descend?_cons h
    have hmem := List.mem_of_getElem? hchild
    obtain ⟨between, y, hy, hnode, haround, hbetween⟩ := ih hx
    refine ⟨x.span :: between, y, hy, hnode, ?_, fun s hs => ?_⟩
    · rw [around_of_child hmem, haround, List.cons_append]
    · rcases List.mem_cons.mp hs with rfl | hs
      · refine ⟨j :: inner ++ outer, x, List.suffix_refl _, ?_, hx, isNode_of_child hmem, rfl⟩
        rw [List.length_append, List.length_cons]
        omega
      · obtain ⟨b, z, hb, hlength, hz⟩ := hbetween s hs
        exact ⟨b, z, hb.trans (List.suffix_cons j _), hlength, hz⟩

/-! ## Nodes and their paths -/

mutual
/-- The nodes of an element in pre-order, each with its path. -/
def locatedAt (path : List Nat) (around : List Span) (start : Nat) :
    Tree → List (List Nat × Site)
  | .token _ _ => []
  | .node k cs =>
    (path, ⟨.node k cs, start, around⟩)
      :: locatedAtAll path 0 (⟨k, start, start + Tree.byteLengthOf cs⟩ :: around) start cs
/-- The nodes of siblings from a position on, in pre-order, each with its path. -/
def locatedAtAll (path : List Nat) (position : Nat) (around : List Span) (start : Nat) :
    List Tree → List (List Nat × Site)
  | [] => []
  | t :: ts =>
    locatedAt (position :: path) around start t
      ++ locatedAtAll path (position + 1) around (start + t.byteLength) ts
end

/-- The nodes of a unit in pre-order, each with its path. -/
def located (root : Tree) : List (List Nat × Site) :=
  locatedAt [] [] 0 root

mutual
theorem map_snd_locatedAt (path : List Nat) (around : List Span) (start : Nat) :
    ∀ t : Tree, (locatedAt path around start t).map Prod.snd = nodesAt around start t
  | .token _ _ => rfl
  | .node k cs => by
    rw [locatedAt, nodesAt, List.map_cons, map_snd_locatedAtAll]
theorem map_snd_locatedAtAll (path : List Nat) (position : Nat) (around : List Span)
    (start : Nat) : ∀ ts : List Tree,
    (locatedAtAll path position around start ts).map Prod.snd = nodesAtAll around start ts
  | [] => rfl
  | t :: ts => by
    rw [locatedAtAll, nodesAtAll, List.map_append, map_snd_locatedAt, map_snd_locatedAtAll]
end

mutual
theorem isNode_of_mem_locatedAt {path q : List Nat} {around : List Span} {start : Nat} {x : Site} :
    ∀ {t : Tree}, (q, x) ∈ locatedAt path around start t → x.element.isNode = true
  | .token _ _, h => by cases h
  | .node k cs, h => by
    rw [locatedAt, List.mem_cons] at h
    rcases h with h | h
    · cases h
      rfl
    · exact isNode_of_mem_locatedAtAll h
theorem isNode_of_mem_locatedAtAll {path q : List Nat} {position : Nat} {around : List Span}
    {start : Nat} {x : Site} :
    ∀ {ts : List Tree}, (q, x) ∈ locatedAtAll path position around start ts →
      x.element.isNode = true
  | [], h => by cases h
  | t :: ts, h => by
    rw [locatedAtAll, List.mem_append] at h
    rcases h with h | h
    · exact isNode_of_mem_locatedAt h
    · exact isNode_of_mem_locatedAtAll h
end

mutual
theorem exists_of_mem_locatedAt {path q : List Nat} {around : List Span} {start : Nat} {x : Site} :
    ∀ {t : Tree}, (q, x) ∈ locatedAt path around start t →
      ∃ r, q = r ++ path ∧ descend? ⟨t, start, around⟩ r = some x
  | .token _ _, h => by cases h
  | .node k cs, h => by
    rw [locatedAt, List.mem_cons] at h
    rcases h with h | h
    · cases h
      exact ⟨[], rfl, rfl⟩
    · obtain ⟨j, y, r, hy, rfl, hdescend⟩ := exists_of_mem_locatedAtAll h
      refine ⟨r ++ [j], by rw [List.append_assoc, List.singleton_append, Nat.zero_add], ?_⟩
      rw [descend?_concat, Option.bind_eq_some_iff]
      exact ⟨y, hy, hdescend⟩
theorem exists_of_mem_locatedAtAll {path q : List Nat} {position : Nat} {around : List Span}
    {start : Nat} {x : Site} :
    ∀ {ts : List Tree}, (q, x) ∈ locatedAtAll path position around start ts →
      ∃ j y r, (place around start ts)[j]? = some y ∧ q = r ++ (position + j) :: path ∧
        descend? y r = some x
  | [], h => by cases h
  | t :: ts, h => by
    rw [locatedAtAll, List.mem_append] at h
    rcases h with h | h
    · obtain ⟨r, rfl, hdescend⟩ := exists_of_mem_locatedAt h
      exact ⟨0, _, r, rfl, rfl, hdescend⟩
    · obtain ⟨j, y, r, hy, rfl, hdescend⟩ := exists_of_mem_locatedAtAll h
      exact ⟨j + 1, y, r, hy, by rw [Nat.add_right_comm, Nat.add_assoc], hdescend⟩
end

mutual
theorem mem_locatedAt_of_descend? (path : List Nat) {r : List Nat} {around : List Span} {start : Nat}
    {x : Site} (hnode : x.element.isNode = true) :
    ∀ {t : Tree}, descend? ⟨t, start, around⟩ r = some x →
      (r ++ path, x) ∈ locatedAt path around start t
  | .token k s, h => by
    rcases List.eq_nil_or_concat' r with rfl | ⟨r, j, rfl⟩
    · cases h
      cases hnode
    · rw [descend?_concat] at h
      cases h
  | .node k cs, h => by
    rw [locatedAt]
    rcases List.eq_nil_or_concat' r with rfl | ⟨r, j, rfl⟩
    · cases h
      exact List.mem_cons_self
    · rw [descend?_concat, Option.bind_eq_some_iff] at h
      obtain ⟨y, hy, hdescend⟩ := h
      have hmem := mem_locatedAtAll_of_descend? path 0 hnode hy hdescend
      rw [Nat.zero_add] at hmem
      rw [List.append_assoc, List.singleton_append]
      exact List.mem_cons_of_mem _ hmem
theorem mem_locatedAtAll_of_descend? (path : List Nat) (position : Nat) {r : List Nat} {j : Nat}
    {around : List Span} {start : Nat} {x y : Site} (hnode : x.element.isNode = true) :
    ∀ {ts : List Tree}, (place around start ts)[j]? = some y → descend? y r = some x →
      (r ++ (position + j) :: path, x) ∈ locatedAtAll path position around start ts
  | [], hy, _ => by cases hy
  | t :: ts, hy, h => by
    rw [locatedAtAll, List.mem_append]
    cases j with
    | zero =>
      cases hy
      have hmem := mem_locatedAt_of_descend? (position :: path) hnode h
      exact .inl hmem
    | succ j =>
      have hrest : (place around (start + t.byteLength) ts)[j]? = some y := hy
      have hmem := mem_locatedAtAll_of_descend? path (position + 1) hnode hrest h
      rw [Nat.add_right_comm, Nat.add_assoc] at hmem
      exact .inr hmem
end

theorem map_snd_located (root : Tree) :
    (located root).map Prod.snd = (Site.root root).nodes :=
  map_snd_locatedAt [] [] 0 root

theorem mem_located_iff {root : Tree} {p : List Nat} {x : Site} :
    (p, x) ∈ located root ↔ descend? (.root root) p = some x ∧ x.element.isNode = true := by
  constructor
  · intro h
    obtain ⟨r, rfl, hdescend⟩ := exists_of_mem_locatedAt h
    rw [List.append_nil]
    exact ⟨hdescend, isNode_of_mem_locatedAt h⟩
  · rintro ⟨h, hnode⟩
    have hmem := mem_locatedAt_of_descend? [] hnode h
    rwa [List.append_nil] at hmem

theorem two_le_count_of_ne {α β : Type} [DecidableEq β] {f : α → β} {l : List α} {a b : α}
    (ha : a ∈ l) (hb : b ∈ l) (hne : a ≠ b) (hsame : f b = f a) : 2 ≤ (l.map f).count (f a) := by
  induction l with
  | nil => cases ha
  | cons c l ih =>
    rw [List.map_cons, List.count_cons]
    rcases List.mem_cons.mp ha with rfl | hal
    · rcases List.mem_cons.mp hb with rfl | hbl
      · exact absurd rfl hne
      · have hcount : 0 < (l.map f).count (f a) :=
          List.count_pos_iff.mpr (hsame ▸ List.mem_map_of_mem hbl)
        rw [beq_self_eq_true, if_pos rfl]
        omega
    · rcases List.mem_cons.mp hb with rfl | hbl
      · have hcount : 0 < (l.map f).count (f a) :=
          List.count_pos_iff.mpr (List.mem_map_of_mem hal)
        rw [hsame, beq_self_eq_true, if_pos rfl]
        omega
      · exact (ih hal hbl).trans (Nat.le_add_right _ _)

/-- A span that only one node of the unit has belongs to one path. -/
theorem path_eq_of_span_eq {root : Tree} {p q : List Nat} {x y : Site} (hx : (p, x) ∈ located root)
    (hy : (q, y) ∈ located root) (hspan : y.span = x.span)
    (hone : ((Site.root root).nodes.map span).count x.span ≤ 1) : p = q := by
  by_contra hne
  have hpair : (p, x) ≠ (q, y) := fun h => hne (congrArg Prod.fst h)
  have htwo := two_le_count_of_ne (f := fun o : List Nat × Site => o.2.span) hx hy hpair hspan
  have hmap : (located root).map (fun o => o.2.span) = (Site.root root).nodes.map span := by
    rw [← map_snd_located, List.map_map]
    rfl
  rw [hmap] at htwo
  exact absurd hone (Nat.not_le_of_lt htwo)

end Site

end CallMigration
