import CallMigration.Proofs.Arrangement
import CallMigration.Proofs.Evaluation

/-!
# Imports in order

The imports of a unit are compared as texts, while an added import is placed by the segments that it
shares with others. If no character comes before the dot, texts compare as the lists of their segments,
so whatever shares less with a name compares with it as with everything that shares more. Therefore it is
enough that an added import stands in order among the nearest ones.

* `lt_iff_segments_lt` : texts compare by segments.
* `compare_of_shared_lt` : a text that shares less with a name compares uniformly.
* `Placed.between` : an added import stands between those that come earlier and those that come later.
* `ImportRequests.flush_sorted` : imports in order stay in order.
-/

namespace CallMigration

/-! ## The order of dotted texts -/

/-- Only dots and characters that come after the dot. -/
def DottedText (s : List Char) : Prop :=
  ∀ c ∈ s, '.' ≤ c

instance (s : List Char) : Decidable (DottedText s) :=
  decidable_of_iff (s.all fun c => '.' ≤ c) (by simp [DottedText])

theorem DottedText.cons {c : Char} {s : List Char} (h : DottedText (c :: s)) :
    (c = '.' ∨ c ≠ '.' ∧ '.' < c) ∧ DottedText s := by
  obtain ⟨hc, hs⟩ := List.forall_mem_cons.mp h
  refine ⟨?_, hs⟩
  by_cases hdot : c = '.'
  · exact .inl hdot
  · exact .inr ⟨hdot, Std.lt_of_le_of_ne hc (Ne.symm hdot)⟩

theorem segments_dot (s : List Char) : Text.segments ('.' :: s) = [] :: Text.segments s := by
  rw [Text.segments, Text.segments, List.splitOn_eq_splitOnP, List.splitOn_eq_splitOnP,
    List.splitOnP_cons_eq_if_modifyHead, if_pos (beq_self_eq_true _)]

theorem exists_segments (s : List Char) : ∃ first rest, Text.segments s = first :: rest :=
  List.exists_cons_of_ne_nil (List.splitOn_ne_nil '.' s)

theorem segments_cons {c : Char} {s first : List Char} {rest : List (List Char)} (hc : c ≠ '.')
    (h : Text.segments s = first :: rest) : Text.segments (c :: s) = (c :: first) :: rest := by
  rw [Text.segments, List.splitOn_eq_splitOnP] at h ⊢
  rw [List.splitOnP_cons_eq_if_modifyHead, if_neg (by simpa using hc), h]
  rfl

/-- **Texts in which no character comes before the dot compare by segments.** -/
theorem lt_iff_segments_lt {a b : List Char} (ha : DottedText a) (hb : DottedText b) :
    a < b ↔ Text.segments a < Text.segments b := by
  induction a generalizing b with
  | nil =>
    cases b with
    | nil => exact iff_of_false (List.not_lt_nil _) (by decide)
    | cons d b =>
      refine iff_of_true (List.nil_lt_cons d b) ?_
      obtain ⟨first, rest, hfirst⟩ := exists_segments b
      rcases hb.cons.1 with rfl | ⟨hd, -⟩
      · rw [segments_dot, hfirst]
        exact List.cons_lt_cons_iff.mpr (.inr ⟨rfl, List.nil_lt_cons _ _⟩)
      · rw [segments_cons hd hfirst]
        exact List.cons_lt_cons_iff.mpr (.inl (List.nil_lt_cons _ _))
  | cons c a ih =>
    obtain ⟨hc, ha⟩ := ha.cons
    obtain ⟨first, rest, hfirst⟩ := exists_segments a
    cases b with
    | nil =>
      refine iff_of_false (List.not_lt_nil _) ?_
      show ¬ Text.segments (c :: a) < [[]]
      rcases hc with rfl | ⟨hc, -⟩
      · rw [segments_dot, List.cons_lt_cons_iff]
        simp
      · rw [segments_cons hc hfirst, List.cons_lt_cons_iff]
        simp
    | cons d b =>
      obtain ⟨hd, hb⟩ := hb.cons
      obtain ⟨first', rest', hfirst'⟩ := exists_segments b
      have htail := ih ha hb
      rw [List.cons_lt_cons_iff, htail]
      -- A dot ends a segment, and comes before whatever goes on with one.
      rcases hc with rfl | ⟨hc, hafter⟩ <;> rcases hd with rfl | ⟨hd, hafter'⟩
      · rw [segments_dot, segments_dot, List.cons_lt_cons_iff (a := [])]
        simp
      · rw [segments_dot, segments_cons hd hfirst']
        exact iff_of_true (.inl hafter') (List.cons_lt_cons_iff.mpr (.inl (List.nil_lt_cons _ _)))
      · rw [segments_cons hc hfirst, segments_dot, List.cons_lt_cons_iff]
        simp [hc, Char.lt_asymm hafter]
      · rw [hfirst, hfirst', segments_cons hc hfirst, segments_cons hd hfirst',
          List.cons_lt_cons_iff, List.cons_lt_cons_iff, List.cons_lt_cons_iff]
        simp only [List.cons.injEq]
        tauto

/-! ## Shared beginnings -/

/-- The length of what two lists of segments have in common at their beginnings. -/
def sharedLength (as bs : List (List Char)) : Nat :=
  ((as.zip bs).takeWhile fun (x, y) => x == y).length

theorem sharedLength_cons (a b : List Char) (as bs : List (List Char)) :
    sharedLength (a :: as) (b :: bs) = if a = b then sharedLength as bs + 1 else 0 := by
  unfold sharedLength
  rw [List.zip_cons_cons, List.takeWhile_cons]
  by_cases h : a = b <;> simp [h]

/-- What shares less with a list compares with it as with whatever shares more. -/
theorem compare_of_sharedLength_lt {far near goal : List (List Char)}
    (h : sharedLength far goal < sharedLength near goal) :
    (far < near ↔ far < goal) ∧ (near < far ↔ goal < far) := by
  induction near generalizing far goal with
  | nil => cases h
  | cons y near ih =>
    cases goal with
    | nil => simp [sharedLength] at h
    | cons z goal =>
      rw [sharedLength_cons y z] at h
      split at h
      next hyz =>
        subst hyz
        cases far with
        | nil => exact ⟨iff_of_true (List.nil_lt_cons _ _) (List.nil_lt_cons _ _),
            iff_of_false (List.not_lt_nil _) (List.not_lt_nil _)⟩
        | cons x far =>
          rw [sharedLength_cons] at h
          rw [List.cons_lt_cons_iff, List.cons_lt_cons_iff, List.cons_lt_cons_iff,
            List.cons_lt_cons_iff]
          split at h
          next hxy =>
            obtain ⟨hfar, hnear⟩ := ih (Nat.lt_of_succ_lt_succ h)
            rw [hfar, hnear]
            exact ⟨.rfl, .rfl⟩
          next hxy => simp [hxy, Ne.symm hxy]
      next => exact absurd h (Nat.not_lt_zero _)

/-- **A text that shares fewer segments with a name compares with it as with a text that shares
more.** -/
theorem compare_of_shared_lt {far near goal : String} (hfar : DottedText far.toList)
    (hnear : DottedText near.toList) (hgoal : DottedText goal.toList)
    (h : sharedSegments far goal < sharedSegments near goal) :
    (far < near ↔ far < goal) ∧ (near < far ↔ goal < far) := by
  obtain ⟨hfirst, hsecond⟩ := compare_of_sharedLength_lt h
  exact ⟨(lt_iff_segments_lt hfar hnear).trans (hfirst.trans (lt_iff_segments_lt hfar hgoal).symm),
    (lt_iff_segments_lt hnear hfar).trans (hsecond.trans (lt_iff_segments_lt hgoal hfar).symm)⟩

/-! ## One import more -/

namespace Tree

/-- The imports that are not static stand in non-decreasing order of their paths. -/
def SortedImports (t : Tree) : Prop :=
  t.regularImports.Pairwise fun i j => i.path ≤ j.path

/-- The imports that are not static name nothing with a character that comes before the dot. -/
def DottedImports (t : Tree) : Prop :=
  ∀ i ∈ t.regularImports, DottedText i.path.toList

instance (t : Tree) : Decidable t.SortedImports :=
  inferInstanceAs (Decidable (t.regularImports.Pairwise fun i j => i.path ≤ j.path))

instance (t : Tree) : Decidable t.DottedImports :=
  inferInstanceAs (Decidable (∀ i ∈ t.regularImports, DottedText i.path.toList))

/-- The imports among elements from a position on that are not static. -/
def regularFrom (position : Nat) (ts : List Tree) : List ImportDecl :=
  (importsFrom position ts).filter fun i => !i.isStatic

theorem regularImports_of_split {t : Tree} {pre post : List Tree} (h : t.children = pre ++ post) :
    t.regularImports = regularFrom 0 pre ++ regularFrom pre.length post := by
  rw [regularImports, imports, h, importsFrom_append, List.filter_append, Nat.zero_add]
  rfl

theorem regularFrom_cons {position : Nat} {declaration : Tree} (rest : List Tree)
    (himport : declaration.isImport = true)
    (hregular : (ImportDecl.ofTree position declaration).isStatic = false) :
    regularFrom position (declaration :: rest) =
      ImportDecl.ofTree position declaration :: regularFrom (position + 1) rest := by
  rw [regularFrom, importsFrom, if_pos himport, List.filter_cons_of_pos (by simp [hregular])]
  rfl

end Tree

theorem isSorted_of_pairwise {imports : List ImportDecl}
    (h : imports.Pairwise fun i j => i.path ≤ j.path) : isSorted imports = true := by
  fun_induction isSorted imports with
  | case1 a b rest ih =>
    obtain ⟨hfirst, hrest⟩ := List.pairwise_cons.mp h
    rw [ih hrest, Bool.and_true, Bool.not_eq_true', decide_eq_false_iff_not, String.not_lt]
    exact hfirst b List.mem_cons_self
  | case2 => rfl

/-- **An added import stands between those that come earlier and those that come later**, if the
imports are in order. -/
theorem Placed.between {t : Tree} {symbol : TypeName} {pre new post : List Tree}
    (hchildren : t.children = pre ++ post) (h : Placed t symbol pre new post)
    (hsorted : t.SortedImports) (hdotted : t.DottedImports) (hsymbol : DottedText symbol.chars) :
    (∀ i ∈ Tree.regularFrom 0 pre, i.path ≤ symbol.text) ∧
      ∀ i ∈ Tree.regularFrom pre.length post, symbol.text ≤ i.path := by
  have hregular {i : ImportDecl} (hi : i ∈ nearestImports t.regularImports symbol) :
      i ∈ t.regularImports := (List.mem_filter.mp hi).1
  have hstatic {i : ImportDecl} (hi : i ∈ nearestImports t.regularImports symbol) :
      i.isStatic = false := by
    simpa using (List.mem_filter.mp (hregular hi)).2
  have hcompare {i j : ImportDecl} (hi : i ∈ t.regularImports)
      (hj : j ∈ nearestImports t.regularImports symbol)
      (hfar : i ∉ nearestImports t.regularImports symbol) :=
    compare_of_shared_lt (hdotted i hi) (hdotted j (hregular hj)) hsymbol
      (sharedSegments_lt_of_notMem hj hi hfar)
  have hnone (hnil : t.regularImports = []) :
      (∀ i ∈ Tree.regularFrom 0 pre, i.path ≤ symbol.text) ∧
        ∀ i ∈ Tree.regularFrom pre.length post, symbol.text ≤ i.path := by
    rw [Tree.regularImports_of_split hchildren, List.append_eq_nil_iff] at hnil
    rw [hnil.1, hnil.2]
    exact ⟨nofun, nofun⟩
  cases h with
  | @above _ next rest isImport nearest later first =>
    have hparts := Tree.regularImports_of_split hchildren
    rw [Tree.regularFrom_cons rest isImport (hstatic nearest)] at hparts ⊢
    rw [Tree.SortedImports, hparts, List.pairwise_append, List.pairwise_cons] at hsorted
    obtain ⟨-, ⟨hbelow, -⟩, habove⟩ := hsorted
    refine ⟨fun i hi => ?_, fun i hi => ?_⟩
    · have hmem : i ∈ t.regularImports := hparts ▸ List.mem_append_left _ hi
      rw [← String.not_lt]
      by_cases hnear : i ∈ nearestImports t.regularImports symbol
      · exact first i (List.mem_filter.mp hi).1 hnear
      · rw [← (hcompare hmem nearest hnear).2, String.not_lt]
        exact habove i hi _ List.mem_cons_self
    · have hnext := Std.le_of_lt later
      rcases List.mem_cons.mp hi with rfl | hi
      · exact hnext
      · exact String.le_trans hnext (hbelow i hi)
  | @below pre last post isImport nearest isLast earlier =>
    have hchildren' : t.children = pre ++ last :: post := by simpa using hchildren
    have hparts := Tree.regularImports_of_split hchildren'
    rw [Tree.regularFrom_cons post isImport (hstatic nearest)] at hparts
    have hnearest : isSorted (nearestImports t.regularImports symbol) = true :=
      isSorted_of_pairwise (hsorted.sublist List.filter_sublist)
    have hlast := String.not_lt.mp (earlier hnearest _ nearest)
    rw [Tree.SortedImports, hparts, List.pairwise_append, List.pairwise_cons] at hsorted
    obtain ⟨-, ⟨hbelow, -⟩, habove⟩ := hsorted
    refine ⟨fun i hi => ?_, fun i hi => ?_⟩
    · rw [Tree.regularFrom, Tree.importsFrom_append, List.filter_append] at hi
      rcases List.mem_append.mp hi with hi | hi
      · exact String.le_trans (habove i hi _ List.mem_cons_self) hlast
      · have hone := Tree.regularFrom_cons [] isImport (hstatic nearest)
        rw [Nat.zero_add, ← Tree.regularFrom, hone] at hi
        rw [List.mem_singleton.mp hi]
        exact hlast
    · rw [List.length_append, List.length_singleton] at hi
      have hmem : i ∈ t.regularImports := by
        rw [hparts]
        exact List.mem_append_right _ (List.mem_cons_of_mem _ hi)
      have hfar := isLast i (List.mem_filter.mp hi).1
      rw [← String.not_lt, ← (hcompare hmem nearest hfar).1, String.not_lt]
      exact hbelow i hi
  | aboveStatic _ noRegular => exact hnone noRegular
  | belowPackage _ noImports => exact hnone (by rw [Tree.regularImports, noImports]; rfl)
  | onTop _ _ _ _ noImports => exact hnone (by rw [Tree.regularImports, noImports]; rfl)
  | atEnd _ noImports => exact hnone (by rw [Tree.regularImports, noImports]; rfl)

theorem DottedText.endsInStar_eq {n : TypeName} (h : DottedText n.chars) : n.endsInStar = false := by
  rw [TypeName.endsInStar, Bool.eq_false_iff, ne_eq, List.isSuffixOf_iff_suffix]
  intro hsuffix
  exact absurd (h '*' (hsuffix.subset (by decide))) (by decide)

theorem paths_regularFrom (position : Nat) (ts : List Tree) :
    (Tree.regularFrom position ts).map (·.path) =
      ((importNames ts).filter fun i => !i.isStatic).map (·.path) := by
  rw [← importsFrom_unplaced position, List.filter_map, List.map_map]
  rfl

/-- The path of an added import stands between those in front of it and those behind it. -/
theorem paths_insertImport {t : Tree} {symbol : TypeName} {pre new post : List Tree}
    (hinsert : insertImport t symbol = .node t.kind (pre ++ new ++ post))
    (h : Placed t symbol pre new post) (hsymbol : DottedText symbol.chars) :
    (insertImport t symbol).regularImports.map (·.path) =
      (Tree.regularFrom 0 pre).map (·.path) ++
        symbol.text :: (Tree.regularFrom pre.length post).map (·.path) := by
  have hnew : ((importNames new).filter fun i => !i.isStatic).map (·.path) = [symbol.text] := by
    have hone : importNames new = [ImportDecl.ofTree 0 (importDeclaration symbol)] := by
      obtain ⟨blank, -, rfl | rfl⟩ := h.new_eq <;> rfl
    rw [hone, ofTree_importDeclaration hsymbol.endsInStar_eq]
    rfl
  rw [hinsert, Tree.regularImports, Tree.imports, Tree.children, ← Tree.regularFrom,
    paths_regularFrom, paths_regularFrom, paths_regularFrom, importNames_append,
    importNames_append, List.filter_append, List.filter_append, List.map_append, List.map_append,
    hnew, List.append_assoc, List.singleton_append]

/-- **One more import keeps imports in order.** -/
theorem sorted_insertImport {t : Tree} {symbol : TypeName} (hsymbol : DottedText symbol.chars)
    (hsorted : t.SortedImports) (hdotted : t.DottedImports) :
    (insertImport t symbol).SortedImports ∧ (insertImport t symbol).DottedImports := by
  obtain ⟨pre, new, post, hchildren, hinsert, hplaced⟩ := insertImport_placed t symbol
  obtain ⟨hearlier, hlater⟩ := hplaced.between hchildren hsorted hdotted hsymbol
  have hpaths := paths_insertImport hinsert hplaced hsymbol
  have hparts := Tree.regularImports_of_split hchildren
  rw [Tree.SortedImports, hparts, List.pairwise_append] at hsorted
  obtain ⟨hpre, hpost, hacross⟩ := hsorted
  constructor
  · rw [Tree.SortedImports, ← List.pairwise_map, hpaths, List.pairwise_append, List.pairwise_cons,
      List.forall_mem_map, List.forall_mem_map, List.pairwise_map, List.pairwise_map]
    refine ⟨hpre, ⟨hlater, hpost⟩, fun i hi => List.forall_mem_cons.mpr ⟨hearlier i hi, ?_⟩⟩
    rw [List.forall_mem_map]
    exact hacross i hi
  · have hall : ∀ path ∈ (insertImport t symbol).regularImports.map (·.path),
        DottedText path.toList := by
      rw [hpaths, List.forall_mem_append, List.forall_mem_cons, List.forall_mem_map,
        List.forall_mem_map]
      refine ⟨fun i hi => hdotted i ?_, hsymbol, fun i hi => hdotted i ?_⟩
      · rw [hparts]
        exact List.mem_append_left _ hi
      · rw [hparts]
        exact List.mem_append_right _ hi
    exact fun i hi => hall _ (List.mem_map_of_mem hi)

/-! ## Flushing requests -/

/-- **A flush keeps imports in order.** If the imports that are not static stand in non-decreasing order
of their paths, and neither these nor the requested names have a character that comes before the dot,
the imports stand in this order afterwards. -/
theorem ImportRequests.flush_sorted {u : JavaUnit} {names : List TypeName}
    (hsorted : u.tree.SortedImports) (hdotted : u.tree.DottedImports)
    (hnames : ∀ name ∈ names, DottedText name.chars) :
    ((names.foldl request .empty).flush u).1.tree.SortedImports := by
  have hrun := @addImports_preserves (fun t => t.SortedImports ∧ t.DottedImports)
    (names.foldl request .empty).pending (fun t symbol hsymbol h => ?_) u.tree ⟨hsorted, hdotted⟩
  · exact hrun.1
  · have hname : symbol ∈ names := by simpa [mem_requested, empty] using hsymbol
    exact sorted_insertImport (hnames symbol hname) h.1 h.2

/-- Imports in order, with a wildcard and with a static import between the others. -/
def sortedSource : String :=
  "package a;\nimport b.*;\nimport b.c.D;\nimport static p.Q.r;\nimport c.d.E;\nclass A \x7b \x7d\n"

/-- Requests that belong in front of these imports, between them and behind them. -/
def sortedRequests : List TypeName :=
  ["z.Y", "c.d.F", "b.c.C", "b.c.d.E", "b.X"].map .ofWritten

theorem ImportRequests.flush_sorted_wildcard :
    ∃ u, JavaUnit.parse sortedSource = .ok u ∧
      ((sortedRequests.foldl request .empty).flush u).1.tree.regularImports.map (·.path) =
        ["b", "b.c.C", "b.c.D", "b.c.d.E", "c.d.E", "c.d.F", "z.Y"] ∧
      ((sortedRequests.foldl request .empty).flush u).1.tree.SortedImports := by
  have hcheck : (JavaUnit.parse sortedSource).toOption.any (fun u =>
      decide (((sortedRequests.foldl request .empty).flush u).1.tree.regularImports.map (·.path) =
          ["b", "b.c.C", "b.c.D", "b.c.d.E", "c.d.E", "c.d.F", "z.Y"] ∧
        u.tree.SortedImports ∧ u.tree.DottedImports)) = true := by
    rw [JavaUnit.parse_eq]
    decide +kernel
  obtain ⟨u, hparse, hfacts⟩ := exists_ok_of_any hcheck
  obtain ⟨hpaths, hsorted, hdotted⟩ := of_decide_eq_true hfacts
  have hnames : ∀ name ∈ sortedRequests, DottedText name.chars := by decide +kernel
  exact ⟨u, hparse, hpaths, flush_sorted hsorted hdotted hnames⟩

end CallMigration
