import CallMigration.Proofs.Imports

/-!
# The place of an added import

An added import stands beside an import of the unit, below its package, on top of its first
declaration, or at the end of a unit that has nothing but whitespace and comments. What is said
here about each of these places is all that the statements about added imports need.

* `Tree.importsFrom_append`, `Tree.exists_split_of_mem_imports` : imports and their positions.
* `exists_longest` : the imports that share the longest beginning with a name.
* `Placed` : what stands in front of an added import and behind it, place by place.
* `insertImport_placed` : every import is added at such a place.
-/

namespace CallMigration

/-! ## Imports and their positions -/

namespace Tree

theorem importsFrom_append (position : Nat) (as bs : List Tree) :
    importsFrom position (as ++ bs) =
      importsFrom position as ++ importsFrom (position + as.length) bs := by
  induction as generalizing position with
  | nil => rfl
  | cons a as ih =>
    have hlength : position + 1 + as.length = position + (a :: as).length := by
      rw [List.length_cons]
      omega
    rw [List.cons_append, importsFrom, importsFrom, ih, hlength]
    split <;> rfl

theorem exists_split_of_mem_importsFrom {i : ImportDecl} {position : Nat} {ts : List Tree}
    (h : i ∈ importsFrom position ts) :
    ∃ pre declaration post, ts = pre ++ declaration :: post ∧ declaration.isImport = true ∧
      i = ImportDecl.ofTree (position + pre.length) declaration := by
  induction ts generalizing position with
  | nil => cases h
  | cons t ts ih =>
    have hrest (h : i ∈ importsFrom (position + 1) ts) : ∃ pre declaration post,
        t :: ts = pre ++ declaration :: post ∧ declaration.isImport = true ∧
          i = ImportDecl.ofTree (position + pre.length) declaration := by
      obtain ⟨pre, declaration, post, rfl, himport, rfl⟩ := ih h
      refine ⟨t :: pre, declaration, post, rfl, himport, ?_⟩
      rw [List.length_cons, Nat.add_right_comm, Nat.add_assoc]
    rw [importsFrom] at h
    split at h
    next ht =>
      rcases List.mem_cons.mp h with rfl | h
      · exact ⟨[], t, ts, rfl, ht, rfl⟩
      · exact hrest h
    next => exact hrest h

theorem position_ofTree (position : Nat) (t : Tree) :
    (ImportDecl.ofTree position t).position = position := by
  simp only [ImportDecl.ofTree]
  split <;> rfl

theorem position_of_mem_importsFrom {i : ImportDecl} {position : Nat} {ts : List Tree}
    (h : i ∈ importsFrom position ts) :
    position ≤ i.position ∧ i.position < position + ts.length := by
  obtain ⟨pre, declaration, post, rfl, -, rfl⟩ := exists_split_of_mem_importsFrom h
  rw [position_ofTree, List.length_append, List.length_cons]
  omega

theorem pairwise_importsFrom (position : Nat) (ts : List Tree) :
    (importsFrom position ts).Pairwise (·.position < ·.position) := by
  induction ts generalizing position with
  | nil => exact .nil
  | cons t ts ih =>
    rw [importsFrom]
    split
    next =>
      refine List.pairwise_cons.mpr ⟨fun i hi => ?_, ih (position + 1)⟩
      rw [position_ofTree]
      exact (position_of_mem_importsFrom hi).1
    next => exact ih (position + 1)

/-- An import of a unit stands among its elements, at its position. -/
theorem exists_split_of_mem_imports {t : Tree} {i : ImportDecl} (h : i ∈ t.imports) :
    ∃ pre declaration post, t.children = pre ++ declaration :: post ∧
      declaration.isImport = true ∧ i = ImportDecl.ofTree pre.length declaration ∧
      i.position = pre.length := by
  obtain ⟨pre, declaration, post, hsplit, himport, rfl⟩ := exists_split_of_mem_importsFrom h
  rw [Nat.zero_add]
  exact ⟨pre, declaration, post, hsplit, himport, rfl, position_ofTree _ _⟩

def regularImports (t : Tree) : List ImportDecl :=
  t.imports.filter fun i => !i.isStatic

theorem mem_imports_of_regular {t : Tree} {i : ImportDecl} (h : i ∈ t.regularImports) :
    i ∈ t.imports :=
  (List.mem_filter.mp h).1

end Tree

/-! ## The nearest imports -/

section Nearest

variable {imports : List ImportDecl} {symbol : TypeName} {i j : ImportDecl}

/-- The longest beginning that an import shares with a name is shared by some import. -/
theorem exists_longest (symbol : TypeName) (hi : i ∈ imports) :
    ∃ longest ∈ imports, (∀ j ∈ imports,
        sharedSegments j.path symbol.text ≤ sharedSegments longest.path symbol.text) ∧
      nearestImports imports symbol = imports.filter fun j =>
        sharedSegments j.path symbol.text == sharedSegments longest.path symbol.text := by
  let lengths := imports.map fun j => sharedSegments j.path symbol.text
  have hlengths : lengths ≠ [] := List.ne_nil_of_mem (List.mem_map_of_mem hi)
  cases hmax : lengths.max? with
  | none => exact absurd (List.max?_eq_none_iff.mp hmax) hlengths
  | some length =>
    obtain ⟨hmem, hle⟩ := List.max?_eq_some_iff.mp hmax
    obtain ⟨longest, hlongest, hshared⟩ := List.mem_map.mp hmem
    have hfold : lengths.foldl max 0 = sharedSegments longest.path symbol.text := by
      rw [List.foldl_max, hmax, Option.getD_some, Nat.zero_max, ← hshared]
    refine ⟨longest, hlongest, fun j hj => ?_, ?_⟩
    · rw [hshared]
      exact hle _ (List.mem_map_of_mem hj)
    · rw [← hfold]
      rfl

/-- An import that is not among the nearest shares less with the name than those. -/
theorem sharedSegments_lt_of_notMem (hi : i ∈ nearestImports imports symbol) (hj : j ∈ imports)
    (hfar : j ∉ nearestImports imports symbol) :
    sharedSegments j.path symbol.text < sharedSegments i.path symbol.text := by
  obtain ⟨longest, -, hle, heq⟩ := exists_longest symbol hj
  rw [heq] at hi hfar
  rw [beq_iff_eq.mp (List.mem_filter.mp hi).2]
  refine Nat.lt_of_le_of_ne (hle j hj) fun hsame => hfar ?_
  exact List.mem_filter.mpr ⟨hj, beq_iff_eq.mpr hsame⟩

theorem nearestImports_eq_nil (h : nearestImports imports symbol = []) : imports = [] := by
  rw [List.eq_nil_iff_forall_not_mem]
  intro i hi
  obtain ⟨longest, hlongest, -, heq⟩ := exists_longest symbol hi
  have hmem : longest ∈ nearestImports imports symbol := by
    rw [heq, List.mem_filter, beq_iff_eq]
    exact ⟨hlongest, rfl⟩
  rw [h] at hmem
  cases hmem

theorem pairwise_nearestImports (t : Tree) (symbol : TypeName) :
    (nearestImports t.regularImports symbol).Pairwise (·.position < ·.position) :=
  (Tree.pairwise_importsFrom 0 t.children).sublist
    (List.filter_sublist.trans List.filter_sublist)

end Nearest

/-! ## Documentation comments -/

/-- The place above the documentation comments of a declaration is that of one of the comments, or that
of the declaration itself. -/
theorem aboveComments_cases (position : Nat) (above : List Tree) :
    aboveComments position above.length above = position ∨
      ∃ k text, (k = .blockComment ∨ k = .lineComment) ∧
        above.reverse[aboveComments position above.length above]? = some (.token k text) := by
  induction above generalizing position with
  | nil => exact .inl rfl
  | cons t above ih =>
    -- What is found further up is found among fewer elements.
    have hup (position : Nat) : aboveComments position above.length above = position ∨
        ∃ k text, (k = .blockComment ∨ k = .lineComment) ∧
          (t :: above).reverse[aboveComments position above.length above]? = some (.token k text) := by
      refine (ih position).imp_right ?_
      rintro ⟨k, text, hkind, hfound⟩
      refine ⟨k, text, hkind, ?_⟩
      obtain ⟨hlt, -⟩ := List.getElem?_eq_some_iff.mp hfound
      rw [List.reverse_cons, List.getElem?_append_left hlt, hfound]
    unfold aboveComments
    split
    next k text =>
      split
      next => exact hup position
      next =>
        split
        next hcomment =>
          right
          rw [List.length_cons, Nat.add_sub_cancel]
          rcases hup above.length with heq | hfound
          · refine ⟨k, text, ?_, ?_⟩
            · simpa using (Bool.and_eq_true_iff.mp hcomment).1
            · rw [heq, List.reverse_cons, ← List.length_reverse, List.getElem?_concat_length]
          · exact hfound
        next => exact .inl rfl
    next =>
      split
      next => exact hup position
      next => exact .inl rfl

/-- So an import that is added there stands in front of one of the comments or of the declaration. -/
theorem exists_split_aboveComments (above : List Tree) (first : Tree) (rest : List Tree) :
    ∃ pre top post, above ++ first :: rest = pre ++ top :: post ∧
      aboveComments above.length above.length above.reverse = pre.length ∧ pre ⊆ above ∧
      (top = first ∨ ∃ k text, (k = .blockComment ∨ k = .lineComment) ∧ top = .token k text) := by
  have hcases := aboveComments_cases above.length above.reverse
  rw [List.length_reverse, List.reverse_reverse] at hcases
  rcases hcases with heq | ⟨k, text, hkind, hfound⟩
  · exact ⟨above, first, rest, rfl, heq, List.Subset.refl _, .inl rfl⟩
  · generalize aboveComments above.length above.length above.reverse = place at hfound ⊢
    obtain ⟨hlt, hget⟩ := List.getElem?_eq_some_iff.mp hfound
    refine ⟨above.take place, .token k text, above.drop (place + 1) ++ first :: rest, ?_, ?_,
      List.take_subset _ _, .inr ⟨k, text, hkind, rfl⟩⟩
    · rw [← hget, ← List.cons_append, List.getElem_cons_drop, ← List.append_assoc,
        List.take_append_drop]
    · rw [List.length_take]
      omega

/-! ## Places -/

/-- What is added for the import of `symbol` to a unit `t`, between what stands in front of it and what
stands behind it. -/
inductive Placed (t : Tree) (symbol : TypeName) : (pre new post : List Tree) → Prop
  /-- Above the first of the nearest imports that comes later. -/
  | above {pre : List Tree} {next : Tree} {post : List Tree}
      (isImport : next.isImport = true)
      (nearest : ImportDecl.ofTree pre.length next ∈ nearestImports t.regularImports symbol)
      (later : symbol.text < (ImportDecl.ofTree pre.length next).path)
      (first : ∀ i ∈ Tree.importsFrom 0 pre, i ∈ nearestImports t.regularImports symbol →
        ¬ symbol.text < i.path) :
      Placed t symbol pre [importDeclaration symbol, space "\n"] (next :: post)
  /-- Below the last of the nearest imports, if none of them comes later or they are in disorder. -/
  | below {pre : List Tree} {last : Tree} {post : List Tree}
      (isImport : last.isImport = true)
      (nearest : ImportDecl.ofTree pre.length last ∈ nearestImports t.regularImports symbol)
      (isLast : ∀ i ∈ Tree.importsFrom (pre.length + 1) post,
        i ∉ nearestImports t.regularImports symbol)
      (earlier : isSorted (nearestImports t.regularImports symbol) = true →
        ∀ i ∈ nearestImports t.regularImports symbol, ¬ symbol.text < i.path) :
      Placed t symbol (pre ++ [last]) [space "\n", importDeclaration symbol] post
  /-- Above the static imports, if there are no others. -/
  | aboveStatic {pre : List Tree} {first : Tree} {post : List Tree}
      (isImport : first.isImport = true) (noRegular : t.regularImports = []) :
      Placed t symbol pre [importDeclaration symbol, space "\n\n"] (first :: post)
  /-- Below the package, if there are no imports. -/
  | belowPackage {pre : List Tree} {package : Tree} {post : List Tree}
      (isPackage : package.isPackage = true) (noImports : t.imports = []) :
      Placed t symbol (pre ++ [package]) [space "\n\n", importDeclaration symbol] post
  /-- On top of the first declaration and its comments, if there is neither package nor import. -/
  | onTop {pre : List Tree} {top : Tree} {post : List Tree}
      (above : ∀ c ∈ pre, c.kind.isTrivia = true)
      (isTop : top.kind.isTrivia = false ∨
        ∃ k text, (k = .blockComment ∨ k = .lineComment) ∧ top = .token k text)
      (declared : ∃ c ∈ t.children, c.kind.isTrivia = false)
      (noPackage : ∀ c ∈ t.children, c.isPackage = false) (noImports : t.imports = []) :
      Placed t symbol pre [importDeclaration symbol, space "\n\n"] (top :: post)
  /-- At the end, if there are whitespace and comments only. -/
  | atEnd (trivia : ∀ c ∈ t.children, c.kind.isTrivia = true) (noImports : t.imports = []) :
      Placed t symbol t.children [importDeclaration symbol, space "\n"] []

theorem exists_split_of_findIdx? {p : Tree → Bool} {ts : List Tree} {position : Nat}
    (h : ts.findIdx? p = some position) :
    ∃ pre x post, ts = pre ++ x :: post ∧ pre.length = position ∧ p x = true ∧
      ∀ y ∈ pre, p y = false := by
  obtain ⟨hlt, hx, hbefore⟩ := List.findIdx?_eq_some_iff_getElem.mp h
  refine ⟨ts.take position, ts[position], ts.drop (position + 1), ?_, ?_, hx, fun y hy => ?_⟩
  · rw [List.getElem_cons_drop, List.take_append_drop]
  · rw [List.length_take]
    omega
  · obtain ⟨j, hj, rfl⟩ := List.mem_take_iff_getElem.mp hy
    exact Bool.eq_false_iff.mpr (hbefore j (by omega))

variable {t : Tree} {symbol : TypeName}

theorem insertAt_split {pre post : List Tree} (new : List Tree) (h : t.children = pre ++ post) :
    insertAt pre.length new t.children = pre ++ new ++ post := by
  rw [h, insertAt, List.take_left, List.drop_left]

/-- The first of some imports that comes later than a name, if they are in order. -/
def laterImport? (imports : List ImportDecl) (symbol : TypeName) : Option ImportDecl :=
  if isSorted imports then imports.find? fun i => symbol.text < i.path else none

theorem importPlace_beside {last : ImportDecl}
    (hlast : (nearestImports t.regularImports symbol).getLast? = some last) :
    importPlace t symbol =
      match laterImport? (nearestImports t.regularImports symbol) symbol with
      | some next => (next.position, [importDeclaration symbol, space "\n"])
      | none => (last.position + 1, [space "\n", importDeclaration symbol]) := by
  have hsome : (nearestImports (t.imports.filter fun i => !i.isStatic) symbol).getLast? =
      some last := hlast
  simp only [importPlace, hsome]
  rfl

theorem placed_beside {last : ImportDecl}
    (hlast : (nearestImports t.regularImports symbol).getLast? = some last) :
    ∃ pre new post, t.children = pre ++ post ∧ importPlace t symbol = (pre.length, new) ∧
      Placed t symbol pre new post := by
  have hpairwise := pairwise_nearestImports t symbol
  have hsplit {i : ImportDecl} (hi : i ∈ nearestImports t.regularImports symbol) :=
    Tree.exists_split_of_mem_imports (Tree.mem_imports_of_regular (List.mem_filter.mp hi).1)
  cases hnext : laterImport? (nearestImports t.regularImports symbol) symbol with
  | some next =>
    have hfind := (Option.ite_none_right_eq_some.mp hnext).2
    obtain ⟨hlater, before, after, hparts, hbefore⟩ := List.find?_eq_some_iff_append.mp hfind
    have hmem : next ∈ nearestImports t.regularImports symbol := List.mem_of_find?_eq_some hfind
    obtain ⟨pre, declaration, post, hchildren, himport, rfl, hposition⟩ := hsplit hmem
    refine ⟨pre, _, declaration :: post, hchildren, ?_,
      .above himport hmem (of_decide_eq_true hlater) fun i hi hnear => ?_⟩
    · rw [importPlace_beside hlast, hnext]
      exact congrArg (·, _) hposition
    · -- What stands in front of the first later import comes before it in the list.
      rw [hparts] at hnear hpairwise
      have hlt := (Tree.position_of_mem_importsFrom hi).2
      rcases List.mem_append.mp hnear with hi | hi
      · simpa using hbefore i hi
      · rcases List.mem_cons.mp hi with rfl | hi
        · omega
        · have horder := (List.pairwise_cons.mp (List.pairwise_append.mp hpairwise).2.1).1 i hi
          omega
  | none =>
    have hmem := List.mem_of_getLast? hlast
    obtain ⟨pre, declaration, post, hchildren, himport, rfl, hposition⟩ := hsplit hmem
    refine ⟨pre ++ [declaration], _, post, by simpa using hchildren, ?_,
      .below himport hmem (fun i hi hnear => ?_) fun hsorted => ?_⟩
    · rw [importPlace_beside hlast, hnext, List.length_append, List.length_singleton]
      exact congrArg (· + 1, _) hposition
    · obtain ⟨before, hparts⟩ := List.getLast?_eq_some_iff.mp hlast
      rw [hparts] at hnear hpairwise
      have hlt := (Tree.position_of_mem_importsFrom hi).1
      rcases List.mem_append.mp hnear with hi | hi
      · have horder := (List.pairwise_append.mp hpairwise).2.2 i hi _ List.mem_cons_self
        omega
      · rw [List.mem_singleton.mp hi] at hlt
        omega
    · rw [laterImport?, if_pos hsorted, List.find?_eq_none] at hnext
      simpa using hnext

/-- The place in a unit that has static imports only, or none. -/
theorem placed_apart (hregular : t.regularImports = []) :
    ∃ pre new post, t.children = pre ++ post ∧ importPlace t symbol = (pre.length, new) ∧
      Placed t symbol pre new post := by
  have hnearest : (nearestImports (t.imports.filter fun i => !i.isStatic) symbol).getLast? = none :=
    congrArg (fun imports => (nearestImports imports symbol).getLast?) hregular
  cases hstatics : t.imports.filter fun i => i.isStatic with
  | cons first statics =>
    have hmem : first ∈ t.imports.filter fun i => i.isStatic := by
      rw [hstatics]
      exact List.mem_cons_self
    obtain ⟨pre, declaration, post, hchildren, himport, -, hposition⟩ :=
      Tree.exists_split_of_mem_imports (List.mem_filter.mp hmem).1
    refine ⟨pre, _, declaration :: post, hchildren, ?_, .aboveStatic himport hregular⟩
    simp only [importPlace, hnearest, hstatics, hposition]
  | nil =>
    have himports : t.imports = [] := by
      rw [List.eq_nil_iff_forall_not_mem]
      intro i hi
      cases hstatic : i.isStatic with
      | true =>
        have hmem : i ∈ t.imports.filter fun i => i.isStatic := List.mem_filter.mpr ⟨hi, hstatic⟩
        rw [hstatics] at hmem
        cases hmem
      | false =>
        have hmem : i ∈ t.regularImports := List.mem_filter.mpr ⟨hi, by rw [hstatic]; rfl⟩
        rw [hregular] at hmem
        cases hmem
    cases hpackage : t.children.findIdx? Tree.isPackage with
    | some position =>
      obtain ⟨pre, package, post, hchildren, rfl, hisPackage, -⟩ := exists_split_of_findIdx? hpackage
      refine ⟨pre ++ [package], _, post, by simpa using hchildren, ?_,
        .belowPackage hisPackage himports⟩
      simp only [importPlace, hnearest, hstatics, hpackage, List.length_append,
        List.length_singleton]
    | none =>
      have hnoPackage := List.findIdx?_eq_none_iff.mp hpackage
      cases hfirst : t.children.findIdx? fun c => !c.kind.isTrivia with
      | none =>
        have htrivia := List.findIdx?_eq_none_iff.mp hfirst
        refine ⟨t.children, _, [], (List.append_nil _).symm, ?_,
          .atEnd (fun c hc => by simpa using htrivia c hc) himports⟩
        simp only [importPlace, hnearest, hstatics, hpackage, hfirst]
      | some position =>
        obtain ⟨above, first, rest, hchildren, rfl, hsignificant, habove⟩ :=
          exists_split_of_findIdx? hfirst
        have hplace : importPlace t symbol = (aboveComments above.length above.length above.reverse,
            [importDeclaration symbol, space "\n\n"]) := by
          simp only [importPlace, hnearest, hstatics, hpackage, hfirst]
          rw [hchildren, List.take_left]
        obtain ⟨pre, top, post, hsplit, hpre, hisTop⟩ := exists_split_aboveComments above first rest
        refine ⟨pre, _, top :: post, hchildren.trans hsplit, hplace.trans ?_,
          .onTop (fun c hc => ?_) ?_ ⟨first, ?_, by simpa using hsignificant⟩ hnoPackage himports⟩
        · rw [hpre]
        · simpa using habove c (hisTop.1 hc)
        · exact hisTop.2.imp_left fun heq => by simpa [heq] using hsignificant
        · rw [hchildren]
          exact List.mem_append_right _ List.mem_cons_self

/-- **Every import is added at one of the places.** -/
theorem insertImport_placed (t : Tree) (symbol : TypeName) :
    ∃ pre new post, t.children = pre ++ post ∧
      insertImport t symbol = .node t.kind (pre ++ new ++ post) ∧ Placed t symbol pre new post := by
  have hplaced : ∃ pre new post, t.children = pre ++ post ∧
      importPlace t symbol = (pre.length, new) ∧ Placed t symbol pre new post := by
    cases hlast : (nearestImports t.regularImports symbol).getLast? with
    | some last => exact placed_beside hlast
    | none => exact placed_apart (nearestImports_eq_nil (List.getLast?_eq_none_iff.mp hlast))
  obtain ⟨pre, new, post, hchildren, hplace, hplaced⟩ := hplaced
  refine ⟨pre, new, post, hchildren, ?_, hplaced⟩
  rw [insertImport, hplace]
  exact congrArg _ (insertAt_split new hchildren)

end CallMigration
