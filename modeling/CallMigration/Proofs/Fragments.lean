import CallMigration.Proofs.LineEnds
import CallMigration.Proofs.Spacing

/-!
# A body is the whole fragment

A fragment is pasted into a class as text, and found again in the tree of the class by kind and name.
It may hold anything that makes the class readable, also what ends the call or the statement around it
and begins another one. But what is found has to spell the fragment, so a body that is accepted has
lost nothing of it but the spaces at its ends.

* `Text.trim_append` : blanks at the ends of a text.
* `Template.StandsAlone` : a body is all there is in its place.
* `Template.compile_whole` : the body of a template spells its fragment.
-/

namespace CallMigration

open CallMigration.Tree

/-! ## Blanks at the ends -/

namespace Text

theorem isBlank_of_isSpace {c : Char} (h : Grammar.isSpace c = true) : isBlank c = true := by
  simp only [Grammar.isSpace, Bool.or_eq_true, beq_iff_eq, Bool.and_eq_true, decide_eq_true_eq] at h
  rcases h with rfl | h
  · decide
  · simp only [isBlank, blankRanges, inRanges]
    rw [if_neg (by omega), if_pos (by omega)]

theorem trimEnd_append {s blank : List Char} (h : ∀ c ∈ blank, isBlank c = true) :
    trimEnd (s ++ blank) = trimEnd s := by
  rw [trimEnd, trimEnd, List.reverse_append,
    List.dropWhile_append_of_pos fun c hc => h c (List.mem_reverse.mp hc)]

theorem trim_append {before s after : List Char} (hbefore : ∀ c ∈ before, isBlank c = true)
    (hafter : ∀ c ∈ after, isBlank c = true) : trim (before ++ (s ++ after)) = trim s := by
  rw [trim, trim, trimStart, trimStart, List.dropWhile_append_of_pos hbefore, List.dropWhile_append]
  split
  next hall =>
    rw [List.dropWhile_eq_nil_iff.mpr hafter, List.isEmpty_iff.mp hall]
  next => exact trimEnd_append hafter

theorem trim_trim (s : List Char) : trim (trim s) = trim s := by
  obtain ⟨before, after, hsplit, hbefore, hafter⟩ := Template.exists_dropWhile_both isBlank s
  change s = before ++ (trim s ++ after) at hsplit
  calc trim (trim s) = trim (before ++ (trim s ++ after)) := (trim_append hbefore hafter).symm
    _ = trim s := by rw [← hsplit]

end Text

namespace Template

/-! ## What is found of a fragment -/

theorem blank_textOf {ts : List Tree}
    (h : ∀ t ∈ ts, ∀ c ∈ t.text.toList, Text.isBlank c = true) :
    ∀ c ∈ (textOf ts).toList, Text.isBlank c = true := by
  induction ts with
  | nil => exact nofun
  | cons t ts ih =>
    obtain ⟨ht, hts⟩ := List.forall_mem_cons.mp h
    rw [← List.singleton_append, textOf_append, String.toList_append]
    refine List.forall_mem_append.mpr ⟨?_, ih hts⟩
    rw [textOf, tokensOf_singleton]
    exact ht

/-- A body is all there is in its place: the only expression of a `return` statement, or all that
stands between the parentheses of an argument list, but for whitespace at both ends. -/
inductive StandsAlone (space : Char → Bool) (root : Tree) : Target → List Tree → Prop
  | invocation {statement keyword expression semicolon : Tree} : statement ∈ root.nodes →
      statement.kind = .returnStatement →
      Element.significantChildren statement = [keyword, expression, semicolon] →
      StandsAlone space root .invocation [expression]
  | arguments {front body back : List Tree} :
      .node .argumentList (.token .leftParen "(" ::
        (front ++ (body ++ back) ++ [.token .rightParen ")"])) ∈ root.nodes →
      (∀ t ∈ front ++ back, t.kind = .whitespace ∧ ∀ c ∈ t.text.toList, space c = true) →
      StandsAlone space root .arguments body

variable {space : Char → Bool}

theorem standsAlone_expressionOf? {root : Tree} {fragment : String} {body : List Tree}
    (h : expressionOf? root fragment = some body) :
    (textOf body).toList = Text.trim fragment.toList ∧ StandsAlone space root .invocation body := by
  obtain ⟨expression, rfl, htext⟩ := text_of_expressionOf? h
  unfold expressionOf? at h
  split at h
  next => cases h
  next statement hfound =>
    split at h
    next hparts =>
      rw [Option.ite_none_right_eq_some] at h
      cases h.2
      refine ⟨?_, .invocation (List.mem_of_find?_eq_some hfound)
        (by simpa using List.find?_some hfound) hparts⟩
      rw [textOf, tokensOf_singleton]
      exact htext
    next => cases h

/-- What stands between the parentheses spells the fragment, up to blanks at the ends. -/
theorem standsAlone_argumentsOf? (hblank : ∀ c, space c = true → Text.isBlank c = true) {root : Tree}
    {body : List Tree} {fragment : String} (h : argumentsOf? root fragment = some body)
    (hlists : PlainLists space root) :
    Text.trim (textOf body).toList = Text.trim fragment.toList ∧
      StandsAlone space root .arguments body := by
  obtain ⟨call, contents, inside, hcall, -, hchild, htext, hinside, rfl⟩ := argumentsOf?_cases h
  obtain ⟨opening, closing, rfl, hopening, hclosing⟩ := insideParens?_eq_some_iff.mp hinside
  have hlist : Tree.node .argumentList (opening :: (inside ++ [closing])) ∈ root.nodes := by
    apply (infix_of_mem_nodes hcall).1.subset
    cases call with
    | token k s => cases hchild
    | node k cs => exact List.mem_cons_of_mem _ (mem_nodesOf_of_mem hchild List.mem_cons_self)
  have hspaced := hlists _ hlist rfl
  have hspelled := hspaced.opening opening List.mem_cons_self hopening
  have hspelled' := hspaced.closing closing (by simp [Tree.children]) hclosing
  subst hspelled hspelled'
  obtain ⟨front, back, hsplit, hfront, hback⟩ :=
    exists_dropWhile_both (·.kind == .whitespace) inside
  change inside = front ++ (dropOuterSpace inside ++ back) at hsplit
  have hspace : ∀ t ∈ front ++ back, t.kind = .whitespace ∧
      ∀ c ∈ t.text.toList, space c = true := by
    intro t ht
    have hwhite : t.kind = .whitespace := by
      rcases List.mem_append.mp ht with ht | ht
      · exact beq_iff_eq.mp (hfront t ht)
      · exact beq_iff_eq.mp (hback t ht)
    have hmem : t ∈ inside := by
      rw [hsplit]
      grind
    exact ⟨hwhite, hspaced.blank rfl t (by simp [Tree.children, hmem]) hwhite⟩
  have hfragment : fragment.toList = (textOf inside).toList := by
    rw [← textOf, ← List.singleton_append, textOf_append, textOf_append, textOf_token,
      textOf_token] at htext
    simpa using htext.symm
  have hends : ∀ t ∈ front ++ back, ∀ c ∈ t.text.toList, Text.isBlank c = true :=
    fun t ht c hc => hblank c ((hspace t ht).2 c hc)
  rw [hsplit] at hlist
  refine ⟨?_, .arguments hlist hspace⟩
  calc Text.trim (textOf (dropOuterSpace inside)).toList
      = Text.trim ((textOf front).toList ++
          ((textOf (dropOuterSpace inside)).toList ++ (textOf back).toList)) :=
        (Text.trim_append (blank_textOf fun t ht => hends t (List.mem_append_left _ ht))
          (blank_textOf fun t ht => hends t (List.mem_append_right _ ht))).symm
    _ = Text.trim (textOf inside).toList := by
        rw [← String.toList_append, ← String.toList_append, ← textOf_append, ← textOf_append,
          ← hsplit]
    _ = Text.trim fragment.toList := by rw [hfragment]

/-- **A body is the whole fragment.** The body of a template spells its fragment with the names of the
slots in it, up to blanks at the ends, and is all there is in its place. So a fragment that ends the
call or the statement around it and begins another one is no template, and neither are several
expressions in the place of a call. Of the parser it is only asked that the parentheses and the
whitespace in argument lists are what they are called. -/
theorem compile_whole (hblank : ∀ c, space c = true → Text.isBlank c = true) {parser : Parser}
    (hparser : parser.Ensures (PlainLists space)) {fragment : String}
    {placeholders : List Placeholder} {imports : List String} {target : Target} {t : Template}
    (h : compileWith parser fragment placeholders imports target = .ok t) :
    Text.trim (textOf t.body).toList = Text.trim (fillSlots 0 (pieces fragment.toList)) ∧
      ∃ u, JavaUnit.parseWith parser
          (host target (String.ofList (fillSlots 0 (pieces fragment.toList)))) = .ok u ∧
        u.hasErrors = false ∧ StandsAlone space u.tree target t.body := by
  obtain ⟨u, hu, hread, hfound⟩ := readBody_eq_ok_iff.mp (compileWith_eq_ok_iff.mp h).read
  cases target with
  | invocation =>
    obtain ⟨htext, hplace⟩ := standsAlone_expressionOf? hfound
    refine ⟨?_, u, hu, hread, hplace⟩
    rw [htext, String.toList_ofList, Text.trim_trim]
  | arguments =>
    obtain ⟨htext, hplace⟩ := standsAlone_argumentsOf? hblank hfound (hparser _ u hu hread)
    rw [String.toList_ofList] at htext
    exact ⟨htext, u, hu, hread, hplace⟩

theorem compile_whole_spaced :
    ∃ t, compile " Math.max(#\x7b\x7d, 1),\n #\x7b\x7d " [.any, .any] [] .arguments = .ok t ∧
      textOf t.body = "Math.max(__hcrewrite_slot0__, 1),\n __hcrewrite_slot1__" ∧
      Text.trim (textOf t.body).toList =
        Text.trim (fillSlots 0 (pieces " Math.max(#\x7b\x7d, 1),\n #\x7b\x7d ".toList)) ∧
      ∃ u, JavaUnit.parse (host .arguments (String.ofList
          (fillSlots 0 (pieces " Math.max(#\x7b\x7d, 1),\n #\x7b\x7d ".toList)))) = .ok u ∧
        u.hasErrors = false ∧ StandsAlone Grammar.isSpace u.tree .arguments t.body := by
  have hcheck : (compile " Math.max(#\x7b\x7d, 1),\n #\x7b\x7d " [.any, .any] []
      .arguments).toOption.any (fun t =>
        textOf t.body == "Math.max(__hcrewrite_slot0__, 1),\n __hcrewrite_slot1__") = true := by
    rw [compile_eq]
    decide +kernel
  obtain ⟨t, ht, htext⟩ := exists_ok_of_any hcheck
  exact ⟨t, ht, beq_iff_eq.mp htext,
    compile_whole (fun _ => Text.isBlank_of_isSpace) Grammar.ensures_plainLists ht⟩

-- The call around the fragment is ended, and another one begun.
example : (compile "1); __hcrewrite_template(2" [] [] .arguments).toOption.isNone = true := by
  rw [compile_eq]
  decide +kernel

end Template

end CallMigration
