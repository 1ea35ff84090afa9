import CallMigration.Proofs.Growth
import Mathlib.Algebra.GroupWithZero.Nat
import Mathlib.Data.List.Perm.Basic

/-!
# Nothing of the source is lost

The stock recipe only adds tokens: those of one wrapping call for every migrated call, and an import
with a blank for every added import. The tokens of the source stay, in their order.

* `UseTimeout.wrapTokens`, `importTokens` : what is added.
* `Growth.tokens_sublist`, `Growth.tokens_perm` : the tokens of a growth.
* `addImports_tokens` : the tokens of a unit with further imports.
* `UseTimeout.keeps_tokens` : both together, for a run of the recipe.
-/

namespace CallMigration

/-- The tokens of a wrapping call without its argument. -/
def UseTimeout.wrapTokens : List (Kind × String) :=
  [(.identifier, "Timeout"), (.dot, "."), (.identifier, "ofMilliseconds"), (.leftParen, "("),
    (.rightParen, ")")]

/-- The tokens that come with an added import: its declaration and a blank. -/
def importTokens (symbol : TypeName) (space : String) : List (Kind × String) :=
  (importDeclaration symbol).tokens ++ [(.whitespace, space)]

/-! ## Wrapped arguments -/

namespace Growth

open UseTimeout (wrapTokens)

theorem tokensOf_leaves (ts : List (Kind × String)) : Tree.tokensOf (leaves ts) = ts := by
  induction ts with
  | nil => rfl
  | cons t ts ih =>
    change [t] ++ Tree.tokensOf (leaves ts) = t :: ts
    rw [ih, List.singleton_append]

theorem tokensOf_framed (left : String) (lead : List (Kind × String)) (t : Tree)
    (trail : List (Kind × String)) (right : String) :
    Tree.tokensOf (framed left lead t trail right) =
      (.leftParen, left) :: (lead ++ (t.tokens ++ (trail ++ [(.rightParen, right)]))) := by
  simp [framed, Tree.tokensOf, Tree.tokens, tokensOf_leaves]

theorem tokens_wrap (t : Tree) :
    (UseTimeout.wrap t).tokens =
      [(.identifier, "Timeout"), (.dot, "."), (.identifier, "ofMilliseconds"), (.leftParen, "(")] ++
        t.tokens ++ [(.rightParen, ")")] := by
  simp [UseTimeout.wrap, Tree.tokens, Tree.tokensOf]

mutual
theorem tokens_sublist : ∀ g : Growth, g.before.tokens.Sublist g.after.tokens
  | .token _ _ => List.Sublist.refl _
  | .node _ parts => tokensOf_sublist parts
  | .wrapped left lead argument trail right => by
    have hwrap : argument.after.tokens.Sublist (UseTimeout.wrap argument.after).tokens := by
      rw [tokens_wrap, List.append_assoc]
      exact (List.sublist_append_left _ _).trans (List.sublist_append_right _ _)
    rw [before, after, Tree.tokens, Tree.tokens, tokensOf_framed, tokensOf_framed]
    exact ((((tokens_sublist argument).trans hwrap).append_right _).append_left _).cons_cons _
theorem tokensOf_sublist : ∀ gs : List Growth,
    (Tree.tokensOf (befores gs)).Sublist (Tree.tokensOf (afters gs))
  | [] => List.Sublist.refl _
  | g :: gs => (tokens_sublist g).append (tokensOf_sublist gs)
end

/-- The tokens of a number of wrapping calls. -/
def wrapTokensOf (count : Nat) : List (Kind × String) :=
  (List.replicate count wrapTokens).flatten

theorem count_wrapTokensOf (token : Kind × String) (count : Nat) :
    (wrapTokensOf count).count token = count * wrapTokens.count token := by
  simp [wrapTokensOf, List.count_flatten]

mutual
theorem count_tokens (token : Kind × String) : ∀ g : Growth,
    g.after.tokens.count token = g.before.tokens.count token + g.wraps * wrapTokens.count token
  | .token _ _ => by simp [after, before, wraps]
  | .node _ parts => count_tokensOf token parts
  | .wrapped left lead argument trail right => by
    have hargument := count_tokens token argument
    have hsplit : wrapTokens.count token =
        List.count token [(.identifier, "Timeout"), (.dot, "."), (.identifier, "ofMilliseconds"),
          (.leftParen, "(")] + List.count token [(.rightParen, ")")] := by
      rw [← List.count_append]
      rfl
    rw [before, after, Tree.tokens, Tree.tokens, tokensOf_framed, tokensOf_framed, tokens_wrap,
      wraps, Nat.add_mul, Nat.one_mul, hsplit]
    simp only [List.count_cons, List.count_append, hargument, hsplit]
    omega
theorem count_tokensOf (token : Kind × String) : ∀ gs : List Growth,
    (Tree.tokensOf (afters gs)).count token =
      (Tree.tokensOf (befores gs)).count token + wrapsOf gs * wrapTokens.count token
  | [] => by simp [afters, befores, wrapsOf, Tree.tokensOf]
  | g :: gs => by
    rw [afters, befores, wrapsOf, Tree.tokensOf, Tree.tokensOf, List.count_append,
      List.count_append, count_tokens token g, count_tokensOf token gs, Nat.add_mul]
    omega
end

theorem tokens_perm (g : Growth) :
    g.after.tokens.Perm (g.before.tokens ++ wrapTokensOf g.wraps) := by
  rw [List.perm_iff_count]
  intro token
  rw [List.count_append, count_wrapTokensOf, count_tokens]

end Growth

/-! ## Added imports -/

/-- An import is inserted with one token of whitespace, in front of it or behind it. -/
theorem importPlace_new (root : Tree) (symbol : TypeName) :
    ∃ text, (importPlace root symbol).2 = [importDeclaration symbol, space text] ∨
      (importPlace root symbol).2 = [space text, importDeclaration symbol] := by
  unfold importPlace
  simp only
  split
  next =>
    split
    next => exact ⟨_, .inl rfl⟩
    next => exact ⟨_, .inr rfl⟩
  next =>
    split
    next => exact ⟨_, .inl rfl⟩
    next =>
      split
      next => exact ⟨_, .inr rfl⟩
      next =>
        split
        next => exact ⟨_, .inl rfl⟩
        next => exact ⟨_, .inl rfl⟩

theorem insertImport_eq (k : Kind) (cs : List Tree) (symbol : TypeName) :
    ∃ pre new post text, cs = pre ++ post ∧
      insertImport (.node k cs) symbol = .node k (pre ++ new ++ post) ∧
      (new = [importDeclaration symbol, space text] ∨ new = [space text, importDeclaration symbol]) := by
  obtain ⟨text, hnew⟩ := importPlace_new (.node k cs) symbol
  exact ⟨_, _, _, text, (List.take_append_drop (importPlace (.node k cs) symbol).1 cs).symm, rfl, hnew⟩

theorem insertImport_tokens (k : Kind) (cs : List Tree) (symbol : TypeName) :
    ∃ text, (Tree.tokensOf cs).Sublist (insertImport (.node k cs) symbol).tokens ∧
      (insertImport (.node k cs) symbol).tokens.Perm
        (Tree.tokensOf cs ++ importTokens symbol text) := by
  obtain ⟨pre, new, post, text, rfl, heq, hnew⟩ := insertImport_eq k cs symbol
  have hadded : (Tree.tokensOf new).Perm (importTokens symbol text) := by
    rcases hnew with rfl | rfl
    · simp [importTokens, Tree.tokensOf, Tree.tokens, space]
    · simpa [importTokens, Tree.tokensOf, Tree.tokens, space] using
        (List.perm_append_singleton _ _).symm
  refine ⟨text, ?_, ?_⟩ <;> rw [heq, Tree.tokens]
  · apply Tree.tokensOf_sublist
    rw [List.append_assoc]
    exact (List.sublist_append_right new post).append_left pre
  · simp only [Tree.tokensOf_append]
    calc Tree.tokensOf pre ++ Tree.tokensOf new ++ Tree.tokensOf post
      _ |>.Perm (Tree.tokensOf pre ++ (importTokens symbol text ++ Tree.tokensOf post)) := by
        rw [List.append_assoc]
        exact (hadded.append_right _).append_left _
      _ |>.Perm (Tree.tokensOf pre ++ (Tree.tokensOf post ++ importTokens symbol text)) :=
        List.perm_append_comm.append_left _
      _ = Tree.tokensOf pre ++ Tree.tokensOf post ++ importTokens symbol text := by
        rw [List.append_assoc]

theorem addImports_tokens (symbols : List TypeName) (k : Kind) (cs : List Tree) :
    ∃ spaces : List String, spaces.length = (addImports (.node k cs) symbols).2.length ∧
      (Tree.tokensOf cs).Sublist (addImports (.node k cs) symbols).1.tokens ∧
      (addImports (.node k cs) symbols).1.tokens.Perm (Tree.tokensOf cs ++
        (List.zipWith importTokens (addImports (.node k cs) symbols).2 spaces).flatten) := by
  induction symbols generalizing cs with
  | nil =>
    refine ⟨[], rfl, List.Sublist.refl _, ?_⟩
    simp [addImports, Tree.tokens]
  | cons symbol symbols ih =>
    rw [addImports]
    split
    next => exact ih cs
    next =>
      obtain ⟨text, hsublist, hperm⟩ := insertImport_tokens k cs symbol
      obtain ⟨spaces, hlength, hsublists, hperms⟩ :=
        ih (insertAt (importPlace (.node k cs) symbol).1 (importPlace (.node k cs) symbol).2 cs)
      refine ⟨text :: spaces, ?_, hsublist.trans hsublists, ?_⟩
      · exact congrArg (· + 1) hlength
      · refine hperms.trans ((hperm.append_right _).trans ?_)
        rw [List.append_assoc]
        exact List.Perm.refl _

/-! ## A run of the recipe -/

namespace UseTimeout

theorem tokens_grown {table : TypeTable} {u : JavaUnit} {out : Outcome} {g : Growth}
    (h : Grown table u out g) :
    ∃ spaces : List String, spaces.length = out.importsAdded.length ∧
      u.tree.tokens.Sublist out.unit.tree.tokens ∧
      out.unit.tree.tokens.Perm (u.tree.tokens ++ Growth.wrapTokensOf out.stats.callsMigrated ++
        (List.zipWith importTokens out.importsAdded spaces).flatten) := by
  rw [h.migrated, h.added, h.unit, ← h.before]
  by_cases hnone : g.wraps = 0
  · refine ⟨[], ?_, ?_, ?_⟩
    · simp [hnone]
    · simp [hnone, JavaUnit.withTree]
    · simp [hnone, JavaUnit.withTree, Growth.wrapTokensOf]
  · obtain ⟨k, cs, hafter⟩ := g.exists_node_of_wraps hnone
    have hsublist := g.tokens_sublist
    have hperm := g.tokens_perm
    rw [hafter] at hsublist hperm
    obtain ⟨spaces, hlength, hsublists, hperms⟩ := addImports_tokens [timeout] k cs
    refine ⟨spaces, ?_, ?_, ?_⟩ <;> simp only [if_neg hnone, hafter, JavaUnit.withTree]
    · exact hlength
    · exact hsublist.trans hsublists
    · exact hperms.trans (hperm.append_right _)

theorem text_length_wrapTokensOf (count : Nat) :
    ((Growth.wrapTokensOf count).flatMap (·.2.toList)).length = 24 * count := by
  induction count with
  | zero => rfl
  | succ count ih =>
    have hsucc : Growth.wrapTokensOf (count + 1) = wrapTokens ++ Growth.wrapTokensOf count := by
      rw [Growth.wrapTokensOf, List.replicate_succ, List.flatten_cons]
      rfl
    have hone : (wrapTokens.flatMap (·.2.toList)).length = 24 := by decide
    rw [hsucc, List.flatMap_append, List.length_append, ih, hone]
    omega

theorem length_wrapTokensOf (count : Nat) : (Growth.wrapTokensOf count).length = 5 * count := by
  have hone : wrapTokens.length = 5 := rfl
  simp [Growth.wrapTokensOf, hone, Nat.mul_comm]

theorem length_importTokens {symbols : List TypeName} {spaces : List String}
    (h : spaces.length = symbols.length) :
    (List.zipWith importTokens symbols spaces).flatten.length =
      (symbols.map fun s => (importDeclaration s).tokens.length + 1).sum := by
  induction symbols generalizing spaces with
  | nil => simp
  | cons symbol symbols ih =>
    cases spaces with
    | nil => cases h
    | cons text spaces =>
      rw [List.zipWith_cons_cons, List.flatten_cons, List.length_append, ih (by simpa using h),
        List.map_cons, List.sum_cons]
      simp [importTokens]

theorem text_length_of_perm {as bs : List (Kind × String)} (h : as.Perm bs) :
    (as.flatMap (·.2.toList)).length = (bs.flatMap (·.2.toList)).length :=
  (h.flatMap_right _).length_eq

theorem text_ne_of_perm {t t' : Tree} {count : Nat} {rest : List (Kind × String)}
    (h : t'.tokens.Perm (t.tokens ++ Growth.wrapTokensOf count ++ rest)) (hcount : 0 < count) :
    t'.text ≠ t.text := by
  intro htext
  have hlength := text_length_of_perm h
  have hsame := congrArg (fun s : String => s.toList.length) htext
  simp only [Tree.text, Tree.joinTokens_toList] at hsame
  simp only [List.flatMap_append, List.length_append, text_length_wrapTokensOf] at hlength
  omega

/-- **Nothing of the source is lost**: the tokens of a unit stay in their order, and a run adds the
five tokens of a wrapping call for every migrated call, and a declaration with a blank for every
added import. So a unit is changed exactly if a call was migrated, and exactly if its text is
another one. -/
theorem keeps_tokens {u : JavaUnit} (h : u.tree.FramedLists) :
    ∃ recipe, useTimeout = .ok recipe ∧
      u.tree.tokens.Sublist (recipe.run u).unit.tree.tokens ∧
      (∃ spaces : List String, spaces.length = (recipe.run u).importsAdded.length ∧
        (recipe.run u).unit.tree.tokens.Perm (u.tree.tokens ++
          (List.replicate (recipe.run u).stats.callsMigrated wrapTokens).flatten ++
          (List.zipWith importTokens (recipe.run u).importsAdded spaces).flatten)) ∧
      (recipe.run u).unit.tree.tokens.length = u.tree.tokens.length +
        5 * (recipe.run u).stats.callsMigrated +
        ((recipe.run u).importsAdded.map fun s => (importDeclaration s).tokens.length + 1).sum ∧
      ((recipe.run u).changed = true ↔ 0 < (recipe.run u).stats.callsMigrated) ∧
      (0 < (recipe.run u).stats.callsMigrated ↔ (recipe.run u).unit.text ≠ u.text) := by
  refine ⟨_, useTimeout_eq, ?_⟩
  have hrun : (recipe .httpClient5).run u = rule.run .httpClient5 u := rfl
  rw [hrun]
  rcases run_growth .httpClient5 h with ⟨reason, hskip⟩ | ⟨g, hgrown⟩
  · rw [hskip]
    simp [Outcome.skip, Stats.zero]
  · obtain ⟨spaces, hlength, hsublist, hperm⟩ := tokens_grown hgrown
    refine ⟨hsublist, ⟨spaces, hlength, hperm⟩, ?_, ?_, ?_⟩
    · rw [hperm.length_eq, List.length_append, List.length_append, length_wrapTokensOf,
        length_importTokens hlength]
    · rw [hgrown.changed, decide_eq_true_eq]
      constructor
      · intro hchanged
        by_contra hzero
        rw [hgrown.migrated, Nat.not_lt, Nat.le_zero] at hzero
        rw [hgrown.unit, if_pos hzero] at hchanged
        exact hchanged rfl
      · intro hpos hsame
        exact text_ne_of_perm hperm hpos (by rw [hsame])
    · constructor
      · exact text_ne_of_perm hperm
      · intro htext
        by_contra hzero
        rw [hgrown.migrated, Nat.not_lt, Nat.le_zero] at hzero
        rw [hgrown.unit, if_pos hzero] at htext
        exact htext rfl

/-- A unit with an import of the request configuration and nothing but a call in it. -/
def requestUnit : JavaUnit :=
  ⟨.node .program
    [importDeclaration ⟨"org.apache.hc.client5.http.config.RequestConfig"⟩, .token .whitespace "\n",
      .node .methodInvocation
        [.node .methodInvocation
          [.token .identifier "RequestConfig", .token .dot ".", .token .identifier "custom",
            .node .argumentList [.token .leftParen "(", .token .rightParen ")"]],
          .token .dot ".", .token .identifier "setConnectTimeout",
          .node .argumentList [.token .leftParen "(", .token .blockComment "/* ms */",
            .token .integerLiteral "5", .token .rightParen ")"]]], false⟩

theorem migrated_requestUnit :
    ((recipe HttpClient5.table).run requestUnit).stats.callsMigrated = 1 := by
  decide +kernel

theorem keeps_tokens_request :
    requestUnit.tree.FramedLists ∧
      ∃ recipe, useTimeout = .ok recipe ∧ (recipe.run requestUnit).stats.callsMigrated = 1 ∧
        (recipe.run requestUnit).changed = true ∧
        requestUnit.tree.tokens.Sublist (recipe.run requestUnit).unit.tree.tokens := by
  have hframed : requestUnit.tree.FramedLists := by decide +kernel
  obtain ⟨found, hfound, hsublist, -, -, hchanged, -⟩ := keeps_tokens hframed
  have hrecipe : found = recipe HttpClient5.table := by
    rw [← Except.ok.inj (useTimeout_eq.symm.trans hfound), httpClient5_eq]
  have hone : (found.run requestUnit).stats.callsMigrated = 1 := by
    rw [hrecipe]
    exact migrated_requestUnit
  exact ⟨hframed, found, hfound, hone, hchanged.mpr (by rw [hone]; decide), hsublist⟩

end UseTimeout

end CallMigration
