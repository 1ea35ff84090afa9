import CallMigration.Proofs.Additive
import CallMigration.Proofs.Overlay

/-!
# References with calls in them

The text of a field access is also tried as the name of a type. If there are calls in it, wrapping
their arguments changes the text. Either all of the change is erased with the type arguments that
surround it, or a parenthesis is left before and after; and a name with a parenthesis is nowhere
declared.

* `WrapText` : a text before and after arguments in it are wrapped.
* `WrapText.erase_cases` : what erasure leaves of the two.
* `HasParen`, `Resolver.hasParen_of_resolve?` : a name with a parenthesis keeps it.
* `Overlay.reference_alike` : field accesses that stand over each other name alike types.
-/

namespace CallMigration

open Element

/-! ## Texts with wrapped arguments -/

/-- A text, and the text in which arguments are wrapped. -/
inductive WrapText : List Char → List Char → Prop
  | nil : WrapText [] []
  | keep (c : Char) {s s' : List Char} : WrapText s s' → WrapText (c :: s) (c :: s')
  | opening {s s' : List Char} : WrapText s s' →
      WrapText ('(' :: s) ('(' :: ("Timeout.ofMilliseconds(".toList ++ s'))
  | closing {s s' : List Char} : WrapText s s' → WrapText (')' :: s) (')' :: ')' :: s')

theorem WrapText.append {s s' t t' : List Char} (h : WrapText s s') (h' : WrapText t t') :
    WrapText (s ++ t) (s' ++ t') := by
  induction h with
  | nil => exact h'
  | keep c _ ih => exact .keep c ih
  | opening _ ih =>
    rw [List.cons_append, List.cons_append, List.append_assoc]
    exact .opening ih
  | closing _ ih => exact .closing ih

theorem WrapText.refl : ∀ s : List Char, WrapText s s
  | [] => .nil
  | c :: s => .keep c (refl s)

/-- A parenthesis is left in the text. -/
def HasParen (s : List Char) : Prop :=
  '(' ∈ s ∨ ')' ∈ s

theorem HasParen.cons {s : List Char} (h : HasParen s) (c : Char) : HasParen (c :: s) :=
  h.imp (List.mem_cons_of_mem c) (List.mem_cons_of_mem c)

theorem eraseFrom_cons_of_plain {c : Char} (hopen : c ≠ '<') (hclose : c ≠ '>') (depth : Nat)
    (s : List Char) :
    eraseFrom depth (c :: s) = if depth > 0 || Text.isBlank c then eraseFrom depth s
      else (if c = '$' then '.' else c) :: eraseFrom depth s := by
  rw [eraseFrom, if_neg hopen, if_neg hclose]

theorem eraseFrom_append_of_plain {s : List Char} (hopen : '<' ∉ s) (hclose : '>' ∉ s)
    (depth : Nat) (t : List Char) : eraseFrom (depth + 1) (s ++ t) = eraseFrom (depth + 1) t := by
  induction s with
  | nil => rfl
  | cons c s ih =>
    rw [List.mem_cons, not_or] at hopen hclose
    rw [List.cons_append, eraseFrom_cons_of_plain (Ne.symm hopen.1) (Ne.symm hclose.1),
      if_pos (by simp), ih hopen.2 hclose.2]

theorem hasParen_eraseFrom_cons {c : Char} (hc : c = '(' ∨ c = ')') (s : List Char) :
    HasParen (eraseFrom 0 (c :: s)) := by
  rcases hc with rfl | rfl
  · rw [eraseFrom_cons_of_plain (by decide) (by decide), if_neg (by decide), if_neg (by decide)]
    exact .inl List.mem_cons_self
  · rw [eraseFrom_cons_of_plain (by decide) (by decide), if_neg (by decide), if_neg (by decide)]
    exact .inr List.mem_cons_self

/-- What erasure leaves of two texts that differ by wrapped arguments. -/
theorem WrapText.erase_cases {s s' : List Char} (h : WrapText s s') (depth : Nat) :
    eraseFrom depth s' = eraseFrom depth s ∨
      HasParen (eraseFrom depth s) ∧ HasParen (eraseFrom depth s') := by
  induction h generalizing depth with
  | nil => exact .inl rfl
  | keep c _ ih =>
    rw [eraseFrom, eraseFrom]
    split
    · exact ih _
    · split
      · exact ih _
      · split
        · exact ih _
        · rcases ih depth with heq | ⟨hs, hs'⟩
          · exact .inl (by rw [heq])
          · exact .inr ⟨hs.cons _, hs'.cons _⟩
  | @opening s s' _ ih =>
    cases depth with
    | zero =>
      exact .inr ⟨hasParen_eraseFrom_cons (.inl rfl) _, hasParen_eraseFrom_cons (.inl rfl) _⟩
    | succ depth =>
      have hdrop (t : List Char) : eraseFrom (depth + 1) ('(' :: t) = eraseFrom (depth + 1) t :=
        eraseFrom_append_of_plain (s := ['(']) (by decide) (by decide) depth t
      rw [hdrop, hdrop, eraseFrom_append_of_plain (by decide) (by decide)]
      exact ih _
  | @closing s s' _ ih =>
    cases depth with
    | zero =>
      exact .inr ⟨hasParen_eraseFrom_cons (.inr rfl) _, hasParen_eraseFrom_cons (.inr rfl) _⟩
    | succ depth =>
      have hdrop (t : List Char) : eraseFrom (depth + 1) (')' :: t) = eraseFrom (depth + 1) t :=
        eraseFrom_append_of_plain (s := [')']) (by decide) (by decide) depth t
      rw [hdrop, hdrop, hdrop]
      exact ih _

/-! ## Names with a parenthesis -/

theorem not_mem_eraseFrom (depth : Nat) (s : List Char) : '<' ∉ eraseFrom depth s := by
  induction s generalizing depth with
  | nil => simp [eraseFrom]
  | cons c s ih =>
    rw [eraseFrom]
    split
    · exact ih _
    · split
      · exact ih _
      · split
        · exact ih _
        · next hopen _ _ =>
          rw [List.mem_cons, not_or]
          refine ⟨?_, ih _⟩
          split
          · decide
          · exact Ne.symm hopen

theorem mem_eraseFrom {s : List Char} (hs : '<' ∉ s) {c : Char} (hc : c ∈ s)
    (hparen : c = '(' ∨ c = ')') : c ∈ eraseFrom 0 s := by
  have hplain : c ≠ '<' ∧ c ≠ '>' ∧ Text.isBlank c = false ∧ c ≠ '$' := by
    rcases hparen with rfl | rfl <;> decide
  obtain ⟨hopen, hclose, hblank, hdollar⟩ := hplain
  induction s with
  | nil => cases hc
  | cons d s ih =>
    rw [List.mem_cons, not_or] at hs
    rcases List.mem_cons.mp hc with rfl | hc
    · rw [eraseFrom_cons_of_plain hopen hclose, hblank, if_neg (by simp), if_neg hdollar]
      exact List.mem_cons_self
    · have hrest := ih hs.2 hc
      rw [eraseFrom, if_neg (Ne.symm hs.1)]
      split
      · exact hrest
      · split
        · exact hrest
        · exact List.mem_cons_of_mem _ hrest

theorem HasParen.erase {s : List Char} (hs : '<' ∉ s) (h : HasParen s) : HasParen (eraseFrom 0 s) :=
  h.imp (fun hc => mem_eraseFrom hs hc (.inl rfl)) fun hc => mem_eraseFrom hs hc (.inr rfl)

theorem mem_takePairs {s : List Char} {c : Char} (hc : c ∈ s) (hopen : c ≠ '[') (hclose : c ≠ ']') :
    c ∈ (takePairs s).2 := by
  fun_induction takePairs s with
  | case1 s count rest heq ih =>
    rw [List.mem_cons, List.mem_cons] at hc
    rcases hc with hc | hc | hc
    · exact absurd hc hclose
    · exact absurd hc hopen
    · rw [heq] at ih
      exact ih hc
  | case2 s => exact hc

theorem takePairs_subset (s : List Char) : (takePairs s).2 ⊆ s := by
  fun_induction takePairs s with
  | case1 s count rest heq ih =>
    rw [heq] at ih
    exact fun c hc => List.mem_cons_of_mem _ (List.mem_cons_of_mem _ (ih hc))
  | case2 s => exact fun c hc => hc

namespace TypeName

/-- A name with a parenthesis, as erasure leaves it. -/
structure Odd (t : TypeName) : Prop where
  paren : HasParen t.chars
  erased : '<' ∉ t.chars

theorem chars_ofWritten (s : String) : (ofWritten s).chars = eraseFrom 0 s.toList := by
  rw [ofWritten, chars, String.toList_ofList, erase]

theorem Odd.ofWritten {s : String} (h : HasParen (eraseFrom 0 s.toList)) : (ofWritten s).Odd := by
  constructor
  · rw [chars_ofWritten]
    exact h
  · rw [chars_ofWritten]
    exact not_mem_eraseFrom _ _

theorem Odd.dimensions {t : TypeName} (h : t.Odd) : t.dimensions.2.Odd := by
  have hchars : t.dimensions.2.chars = (takePairs t.chars.reverse).2.reverse := by
    rw [TypeName.dimensions, chars, String.toList_ofList]
  constructor
  · rw [hchars]
    have hkeep (c : Char) (hopen : c ≠ '[') (hclose : c ≠ ']') (hc : c ∈ t.chars) :
        c ∈ (takePairs t.chars.reverse).2.reverse :=
      List.mem_reverse.mpr (mem_takePairs (List.mem_reverse.mpr hc) hopen hclose)
    exact h.paren.imp (hkeep _ (by decide) (by decide)) (hkeep _ (by decide) (by decide))
  · rw [hchars, List.mem_reverse]
    intro hmem
    exact h.erased (List.mem_reverse.mp (takePairs_subset _ hmem))

theorem Odd.array {t : TypeName} (h : t.Odd) (count : Nat) : (t.array count).Odd := by
  induction count with
  | zero => exact h
  | succ count ih =>
    refine Odd.ofWritten ?_
    rw [String.toList_append]
    refine HasParen.erase ?_ ?_
    · rw [List.mem_append, not_or]
      exact ⟨ih.erased, by decide⟩
    · exact ih.paren.imp (List.mem_append_left _) (List.mem_append_left _)

end TypeName

theorem subset_intercalate {α : Type} (sep : List α) {ls : List (List α)} {l : List α}
    (hl : l ∈ ls) : l ⊆ sep.intercalate ls := by
  induction ls with
  | nil => cases hl
  | cons first ls ih =>
    cases ls with
    | nil =>
      rw [List.mem_singleton.mp hl, List.intercalate_singleton]
      exact fun _ hc => hc
    | cons second ls =>
      rw [List.intercalate_cons_cons]
      rcases List.mem_cons.mp hl with rfl | hl
      · exact fun _ hc => List.mem_append_left _ (List.mem_append_left _ hc)
      · exact fun _ hc => List.mem_append_right _ (ih hl hc)

theorem splitFirst_eq_some {p : Char → Bool} {s before after : List Char}
    (h : Text.splitFirst p s = some (before, after)) : ∃ c, p c = true ∧ s = before ++ c :: after := by
  induction s generalizing before with
  | nil => cases h
  | cons c s ih =>
    rw [Text.splitFirst] at h
    split at h
    next hc =>
      cases h
      exact ⟨c, hc, rfl⟩
    next =>
      obtain ⟨⟨rest, rest'⟩, hrest, hpair⟩ := Option.map_eq_some_iff.mp h
      cases hpair
      obtain ⟨d, hd, rfl⟩ := ih hrest
      exact ⟨d, hd, rfl⟩

theorem not_mem_of_isPath {s : String} (h : isPath s = true) :
    '<' ∉ s.toList ∧ ¬ HasParen s.toList := by
  rw [isPath, List.all_eq_true] at h
  constructor
  · intro hmem
    exact absurd (h _ hmem) (by decide)
  · rintro (hmem | hmem)
    · exact absurd (h _ hmem) (by decide)
    · exact absurd (h _ hmem) (by decide)

/-- No name of the unit's imports, of its package or of the table has a parenthesis. -/
structure Resolver.Plain (r : Resolver) : Prop where
  imports : ∀ i ∈ r.scope.imports, isPath i.path = true
  package : ∀ p ∈ r.scope.package?, isPath p = true
  table : ∀ info ∈ r.table.types, ¬ HasParen info.name.chars

namespace Resolver

variable {r : Resolver} (hr : r.Plain)

include hr

theorem get?_of_hasParen {t : TypeName} (h : HasParen t.chars) : r.table.get? t = none := by
  rw [TypeTable.get?, List.find?_eq_none]
  intro info hinfo heq
  rw [beq_iff_eq] at heq
  exact hr.table info hinfo (heq ▸ h)

theorem findInPackage?_of_hasParen {package head : String} (hpackage : '<' ∉ package.toList)
    (hhead : '<' ∉ head.toList) (h : HasParen head.toList) :
    r.table.findInPackage? package head = none := by
  have hcandidate : HasParen (TypeName.ofWritten (package ++ "." ++ head)).chars := by
    rw [TypeName.chars_ofWritten, String.toList_append, String.toList_append]
    refine HasParen.erase ?_ ?_
    · rw [List.mem_append, List.mem_append, not_or, not_or]
      exact ⟨⟨hpackage, by decide⟩, hhead⟩
    · exact h.imp (List.mem_append_right _) (List.mem_append_right _)
  rw [TypeTable.findInPackage?, TypeTable.contains, get?_of_hasParen hr hcandidate]
  rfl

omit hr in
theorem mem_of_simpleName? {i : ImportDecl} {head : String} (h : i.simpleName? = some head) :
    head.toList ⊆ i.path.toList := by
  unfold ImportDecl.simpleName? at h
  split at h
  next => cases h
  next =>
    split at h
    next last hlast =>
      cases h
      rw [String.toList_ofList]
      have hmem := subset_intercalate ['.'] (List.mem_of_getLast? hlast)
      rwa [List.intercalate_splitOn] at hmem
    next => cases h

theorem resolveHead?_of_hasParen {head : String} (hhead : '<' ∉ head.toList)
    (h : HasParen head.toList) : r.resolveHead? head = none := by
  have hsingle : (r.scope.imports.find? fun i => !i.isStatic && i.simpleName? == some head) =
      none := by
    rw [List.find?_eq_none]
    intro i hi hmatch
    rw [Bool.and_eq_true, beq_iff_eq] at hmatch
    have hsubset := mem_of_simpleName? hmatch.2
    exact (not_mem_of_isPath (hr.imports i hi)).2 (h.imp (hsubset ·) (hsubset ·))
  have hpackage : (r.scope.package?.bind fun p => r.table.findInPackage? p head) = none := by
    rw [Option.bind_eq_none_iff]
    intro p hp
    exact findInPackage?_of_hasParen hr (not_mem_of_isPath (hr.package p hp)).1 hhead h
  have hwildcard : ((r.scope.imports.filter fun i => i.isWildcard && !i.isStatic).findSome? fun i =>
      r.table.findInPackage? i.path head) = none := by
    rw [List.findSome?_eq_none_iff]
    intro i hi
    have hpath := hr.imports i (List.mem_filter.mp hi).1
    exact findInPackage?_of_hasParen hr (not_mem_of_isPath hpath).1 hhead h
  have hlang : javaLangTypes.contains head = false := by
    have hall : ∀ s ∈ javaLangTypes, '(' ∉ s.toList ∧ ')' ∉ s.toList := by decide
    rw [← Bool.not_eq_true, List.contains_iff_mem]
    intro hmem
    exact h.elim (hall head hmem).1 (hall head hmem).2
  rw [resolveHead?, hsingle, hpackage, hwildcard, hlang]
  rfl

omit hr in
theorem erased_of_findInPackage? {table : TypeTable} {package head : String} {found : TypeName}
    (h : table.findInPackage? package head = some found) : '<' ∉ found.chars := by
  rw [TypeTable.findInPackage?, Option.ite_none_right_eq_some] at h
  cases h.2
  rw [TypeName.chars_ofWritten]
  exact not_mem_eraseFrom _ _

omit hr in
theorem erased_of_resolveHead? {head : String} {found : TypeName}
    (h : r.resolveHead? head = some found) : '<' ∉ found.chars := by
  unfold resolveHead? at h
  split at h
  next =>
    cases h
    rw [TypeName.chars_ofWritten]
    exact not_mem_eraseFrom _ _
  next =>
    split at h
    next hpackage =>
      cases h
      obtain ⟨p, -, hfound⟩ := Option.bind_eq_some_iff.mp hpackage
      exact erased_of_findInPackage? hfound
    next =>
      split at h
      next hwildcard =>
        cases h
        obtain ⟨i, -, hfound⟩ := List.exists_of_findSome?_eq_some hwildcard
        exact erased_of_findInPackage? hfound
      next =>
        rw [Option.ite_none_right_eq_some] at h
        cases h.2
        rw [TypeName.chars_ofWritten]
        exact not_mem_eraseFrom _ _

/-- A nested type: the parenthesis is not in the first segment, which means something. -/
theorem odd_member {name found : TypeName} (h : name.Odd) {head rest : List Char}
    (hsplit : Text.splitFirst (· == '.') name.chars = some (head, rest))
    (hfound : r.resolveHead? (String.ofList head) = some found) :
    (found.member (String.ofList rest)).Odd := by
  obtain ⟨c, hc, hname⟩ := splitFirst_eq_some hsplit
  -- With a parenthesis in it, the first segment would mean nothing.
  have hhead : ¬ HasParen head := by
    intro hparen
    have herased : '<' ∉ head := by
      intro hmem
      exact h.erased (hname ▸ List.mem_append_left _ hmem)
    have hnone : r.resolveHead? (String.ofList head) = none :=
      resolveHead?_of_hasParen hr (by rwa [String.toList_ofList]) (by rwa [String.toList_ofList])
    rw [hfound] at hnone
    cases hnone
  have hdot : c = '.' := by simpa using hc
  have hrest : HasParen rest := by
    have hsides (d : Char) (hd : d ∈ name.chars) (hne : d ≠ '.') : d ∈ head ∨ d ∈ rest := by
      rw [hname, hdot, List.mem_append, List.mem_cons] at hd
      rcases hd with hd | hd | hd
      · exact .inl hd
      · exact absurd hd hne
      · exact .inr hd
    rcases h.paren with hmem | hmem
    · rcases hsides _ hmem (by decide) with hd | hd
      · exact absurd (.inl hd) hhead
      · exact .inl hd
    · rcases hsides _ hmem (by decide) with hd | hd
      · exact absurd (.inr hd) hhead
      · exact .inr hd
  have hchars : (found.member (String.ofList rest)).chars = found.chars ++ ".".toList ++ rest := by
    simp [TypeName.member, TypeName.chars]
  constructor
  · rw [hchars]
    exact hrest.imp (List.mem_append_right _) (List.mem_append_right _)
  · rw [hchars, List.mem_append, List.mem_append, not_or, not_or]
    refine ⟨⟨erased_of_resolveHead? hfound, by decide⟩, fun hmem => ?_⟩
    exact h.erased (hname ▸ List.mem_append_right _ (List.mem_cons_of_mem _ hmem))

theorem odd_of_resolveElement? {name t : TypeName} (h : name.Odd)
    (ht : r.resolveElement? name = some t) : t.Odd := by
  unfold resolveElement? at ht
  split at ht
  next =>
    cases ht
    exact h
  next =>
    split at ht
    next => cases ht
    next =>
      cases hsplit : Text.splitFirst (· == '.') name.chars with
      | none =>
        simp only [hsplit, resolveHead?_of_hasParen hr h.erased h.paren] at ht
        rw [Option.ite_none_right_eq_some] at ht
        cases ht.2
        exact h
      | some pair =>
        obtain ⟨head, rest⟩ := pair
        simp only [hsplit] at ht
        cases hfound : r.resolveHead? (String.ofList head) with
        | none =>
          simp only [hfound] at ht
          rw [Option.ite_none_right_eq_some] at ht
          cases ht.2
          exact h
        | some found =>
          simp only [hfound] at ht
          cases ht
          exact odd_member hr h hsplit hfound

theorem hasParen_of_resolve? {written : String} (h : HasParen (eraseFrom 0 written.toList)) :
    ∀ t ∈ r.resolve? written, HasParen t.chars := by
  intro t ht
  have hwritten := (TypeName.Odd.ofWritten h).dimensions
  unfold resolve? at ht
  generalize (TypeName.ofWritten written).dimensions = pair at ht hwritten
  obtain ⟨element, helement, rfl⟩ := Option.map_eq_some_iff.mp ht
  have hodd := odd_of_resolveElement? hr hwritten helement
  exact (hodd.array _).paren

end Resolver

/-! ## The text of a growth -/

/-- The characters of tokens that are neither whitespace nor comments. -/
def significantChars (tokens : List (Kind × String)) : List Char :=
  (tokens.filter fun (k, _) => !k.isTrivia).flatMap (·.2.toList)

theorem significantChars_append (as bs : List (Kind × String)) :
    significantChars (as ++ bs) = significantChars as ++ significantChars bs := by
  rw [significantChars, List.filter_append, List.flatMap_append, significantChars, significantChars]

theorem significantChars_of_allTrivia {tokens : List (Kind × String)} (h : AllTrivia tokens) :
    significantChars tokens = [] := by
  have hnone : (tokens.filter fun (k, _) => !k.isTrivia) = [] := by
    rw [List.filter_eq_nil_iff]
    intro token htoken
    simp [h token htoken]
  rw [significantChars, hnone]
  rfl

namespace Growth

theorem significantChars_framed {left right : String} {lead trail : List (Kind × String)}
    (hlead : AllTrivia lead) (htrail : AllTrivia trail) (t : Tree) :
    significantChars (Tree.tokensOf (framed left lead t trail right)) =
      left.toList ++ (significantChars t.tokens ++ right.toList) := by
  have hone (k : Kind) (s : String) (hk : k.isTrivia = false) : significantChars [(k, s)] = s.toList := by
    simp [significantChars, hk]
  rw [tokensOf_framed, ← List.singleton_append, significantChars_append, significantChars_append,
    significantChars_append, significantChars_append, significantChars_of_allTrivia hlead,
    significantChars_of_allTrivia htrail, hone _ _ rfl, hone _ _ rfl, List.nil_append,
    List.nil_append]

mutual
/-- The text of a growth changes by its wrapped arguments only. -/
theorem wrapText {r : Resolver} : ∀ {g : Growth} {around : List Span} {start : Nat},
    g.before.Regular → g.Placed r around start →
      WrapText (significantChars g.before.tokens) (significantChars g.after.tokens)
  | .token _ _, _, _, _, _ => .refl _
  | .node _ parts, _, _, hregular, hplaced => by
    refine wrapTextOf (fun g hg => ?_) hplaced.2.2
    exact hregular.child (before_mem_befores hg)
  | .wrapped left lead argument trail right, _, _, hregular, hplaced => by
    obtain ⟨rfl, rfl⟩ := wrapped_parens hregular hplaced
    obtain ⟨hlead, htrail, -, -, hinner⟩ := hplaced
    have hargument := wrapText (hregular.child (mem_framed _ _ _ _ _)) hinner
    have hwrap : significantChars (UseTimeout.wrap argument.after).tokens =
        "Timeout.ofMilliseconds(".toList ++ (significantChars argument.after.tokens ++ [')']) := by
      rw [tokens_wrap, significantChars_append, significantChars_append, List.append_assoc]
      rfl
    rw [before, after, Tree.tokens, Tree.tokens, significantChars_framed hlead htrail,
      significantChars_framed hlead htrail, hwrap]
    have hclosed := hargument.append (.closing .nil)
    have hopened := WrapText.opening hclosed
    simpa using hopened
theorem wrapTextOf {r : Resolver} : ∀ {gs : List Growth} {around : List Span} {start : Nat},
    (∀ g ∈ gs, g.before.Regular) → PlacedAll r around start gs →
      WrapText (significantChars (Tree.tokensOf (befores gs)))
        (significantChars (Tree.tokensOf (afters gs)))
  | [], _, _, _, _ => .nil
  | g :: gs, _, _, hregular, hplaced => by
    rw [befores, afters, Tree.tokensOf, Tree.tokensOf, significantChars_append,
      significantChars_append]
    exact (wrapText (hregular g List.mem_cons_self) hplaced.1).append
      (wrapTextOf (fun h hh => hregular h (List.mem_cons_of_mem _ hh)) hplaced.2)
end

end Growth

theorem toList_significantText {t : Tree} (h : t.isNode = true) :
    t.significantText.toList = significantChars t.tokens := by
  cases t with
  | token k s => cases h
  | node k cs => exact Tree.joinTokens_toList _

theorem Resolver.resolve?_congr (r : Resolver) {a b : String}
    (h : eraseFrom 0 a.toList = eraseFrom 0 b.toList) : r.resolve? a = r.resolve? b := by
  have hname : TypeName.ofWritten a = TypeName.ofWritten b := by
    rw [TypeName.ofWritten, TypeName.ofWritten, erase, erase, h]
  rw [Resolver.resolve?, Resolver.resolve?, hname]

theorem Overlay.reference_alike {o : Overlay} {r : Resolver} (hr : r.Plain) {x x' : Site}
    (h : o.Counterpart x x') :
    Alike (fun t => HasParen t.chars) (r.resolve? (significantText x))
      (r.resolve? (significantText x')) := by
  obtain ⟨-, g, hg⟩ := h
  show Alike _ (r.resolve? x.element.significantText) (r.resolve? x'.element.significantText)
  rw [hg.before, hg.after]
  cases hnode : g.before.isNode with
  | false =>
    have heq : g.after = g.before := by
      cases g with
      | token k s => rfl
      | node k parts => cases hnode
      | wrapped left lead argument trail right => cases hnode
    rw [heq]
    exact .inl rfl
  | true =>
    have hnode' : g.after.isNode = true := by
      rw [Growth.isNode_after, hnode]
    have htext := Growth.wrapText hg.regular hg.placed
    rw [← toList_significantText hnode, ← toList_significantText hnode'] at htext
    rcases htext.erase_cases 0 with heq | ⟨hbefore, hafter⟩
    · exact .inl (r.resolve?_congr heq)
    · exact .inr ⟨r.hasParen_of_resolve? hr hbefore, r.hasParen_of_resolve? hr hafter⟩

end CallMigration
