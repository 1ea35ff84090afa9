import CallMigration.Proofs.Completeness
import Mathlib.Logic.Function.Iterate

/-!
# Repeated runs come to an end

A call is pending if it has the name of a setter and its arguments are something else than one call of
`ofMilliseconds`. A matched call is pending, because such a call is never a number, and it is no longer
pending once its argument is wrapped. Nothing else that a walk does makes a call pending: the names and
the numbers of arguments stay. So every run that migrates calls leaves fewer pending ones.

* `UseTimeout.isPending`, `UseTimeout.pending` : the pending calls of a tree.
* `UseTimeout.Alike` : what a tree and what a walk makes of it have in common.
* `UseTimeout.visit_pending` : a walk trades pending calls for migrated ones.
* `UseTimeout.converges` : repeated runs reach a unit that stays.
-/

namespace CallMigration

theorem exists_fixed_iterate {α : Type} {f : α → α} {size : α → Nat}
    (h : ∀ a, f a = a ∨ size (f a) < size a) (a : α) : ∃ n ≤ size a, f (f^[n] a) = f^[n] a := by
  induction hn : size a using Nat.strong_induction_on generalizing a with
  | _ n ih =>
    rcases h a with hfixed | hless
    · exact ⟨0, Nat.zero_le _, hfixed⟩
    · obtain ⟨m, hm, hfixed⟩ := ih (size (f a)) (by omega) (f a) rfl
      refine ⟨m + 1, by omega, ?_⟩
      rw [Function.iterate_succ_apply]
      exact hfixed

theorem Rule.idle_of_migrated {rule : Rule} {table : TypeTable} {u : JavaUnit}
    (h : (rule.run table u).stats.callsMigrated = 0) : Rule.Idle (rule.run table u) u := by
  rcases rule.run_cases table u with ⟨-, reason, hskip⟩ | ⟨-, hrun⟩
  · rw [hskip]
    exact ⟨rfl, rfl, rfl, rfl⟩
  · have hstart : (Walk.start true).stats.callsMigrated = 0 := rfl
    have hsome := rule.visit_isSome_iff (Resolver.ofTree table u.tree) u.tree [] 0 (.start true)
    rw [hrun, (Outcome.stats_ofWalk u _ _).2] at h
    rw [hstart, h, ne_self_iff_false, iff_false, Bool.not_eq_true, Option.isSome_eq_false_iff,
      Option.isNone_iff_eq_none] at hsome
    rw [hrun, hsome]
    exact ⟨h, rfl, rfl, rfl⟩

namespace Recipe

/-- What is left of a unit after a number of runs, each over the unit that the one before returned. -/
def repeated (recipe : Recipe) (runs : Nat) (u : JavaUnit) : JavaUnit :=
  (fun v => (recipe.run v).unit)^[runs] u

/-- Runs that trade something for the calls that they migrate reach a unit that stays, as soon as there
is nothing left to trade. -/
theorem repeated_converges (recipe : Recipe) (size : JavaUnit → Nat)
    (h : ∀ v, size (recipe.run v).unit + (recipe.run v).stats.callsMigrated ≤ size v) (u : JavaUnit) :
    ∃ runs ≤ size u, ∀ n ≥ runs, recipe.repeated n u = recipe.repeated runs u ∧
      Rule.Idle (recipe.run (recipe.repeated n u)) (recipe.repeated n u) := by
  have hstep (v : JavaUnit) : (recipe.run v).unit = v ∨ size (recipe.run v).unit < size v := by
    have htrade := h v
    by_cases hzero : (recipe.run v).stats.callsMigrated = 0
    · exact .inl (Rule.idle_of_migrated hzero).unit
    · exact .inr (by omega)
  obtain ⟨runs, hruns, hfixed⟩ := exists_fixed_iterate hstep u
  refine ⟨runs, hruns, ?_⟩
  intro n hn
  obtain ⟨further, rfl⟩ := Nat.exists_eq_add_of_le hn
  have hsame : recipe.repeated (runs + further) u = recipe.repeated runs u := by
    rw [repeated, Nat.add_comm, Function.iterate_add_apply]
    exact Function.iterate_fixed hfixed further
  -- The unit stays, so the run over it has nothing to trade.
  have htrade := h (recipe.repeated runs u)
  have hunit : (recipe.run (recipe.repeated runs u)).unit = recipe.repeated runs u := hfixed
  rw [hunit] at htrade
  rw [hsame]
  exact ⟨rfl, Rule.idle_of_migrated (show (recipe.run _).stats.callsMigrated = 0 by omega)⟩

end Recipe

namespace UseTimeout

/-! ## Pending calls -/

/-- A call of `ofMilliseconds` with one argument. -/
def isConversion (t : Tree) : Bool :=
  Call.isCall t && Call.name? t == some "ofMilliseconds" && (Call.arguments t).length == 1

/-- Nothing but such a call. -/
def isConverted : List Tree → Bool
  | [argument] => isConversion argument
  | _ => false

/-- A call with the name of a setter whose arguments are something else. -/
def isPending (t : Tree) : Bool :=
  Call.isCall t && setters.any (fun s => Call.name? t == some s.name) &&
    !isConverted (Call.arguments t)

def pending (t : Tree) : Nat :=
  t.nodes.countP isPending

/-- The number of pending calls in elements that follow each other. -/
def pendingOf (ts : List Tree) : Nat :=
  (Tree.nodesOf ts).countP isPending

theorem pending_token (k : Kind) (s : String) : pending (.token k s) = 0 := rfl

theorem pending_node (k : Kind) (cs : List Tree) :
    pending (.node k cs) = pendingOf cs + if isPending (.node k cs) then 1 else 0 := by
  rw [pending, Tree.nodes, List.countP_cons]
  rfl

theorem pendingOf_nil : pendingOf [] = 0 := rfl

theorem pendingOf_cons (t : Tree) (ts : List Tree) : pendingOf (t :: ts) = pending t + pendingOf ts := by
  rw [pendingOf, Tree.nodesOf, List.countP_append]
  rfl

theorem pendingOf_append (as bs : List Tree) : pendingOf (as ++ bs) = pendingOf as + pendingOf bs := by
  rw [pendingOf, Tree.nodesOf_append, List.countP_append]
  rfl

theorem pendingOf_le_of_sublist {as bs : List Tree} (h : as.Sublist bs) :
    pendingOf as ≤ pendingOf bs :=
  (Tree.nodesOf_sublist h).countP_le

theorem isPending_of_kind {k : Kind} (hk : k ≠ .methodInvocation) (cs : List Tree) :
    isPending (.node k cs) = false := by
  have hcall : Call.isCall (Tree.node k cs) = false := by
    simpa [Call.isCall, Element.kind, Element.tree, Tree.kind] using fun _ => hk
  rw [isPending, hcall]
  rfl

theorem pending_of_kind {k : Kind} (hk : k ≠ .methodInvocation) (cs : List Tree) :
    pending (.node k cs) = pendingOf cs := by
  rw [pending_node, isPending_of_kind hk]
  rfl

/-! ## Wrapped arguments -/

theorem arguments_wrap {argument : Tree} (h : Call.isArgument argument = true) :
    Call.arguments (wrap argument) = [argument] := by
  have hlist : Call.argumentList? (wrap argument) = some (.node .argumentList
      [.token .leftParen "(", argument, .token .rightParen ")"]) := rfl
  have hfilter : [Tree.token .leftParen "(", argument, .token .rightParen ")"].filter
      Call.isArgument = [argument] := by
    rw [List.filter_cons_of_neg (by decide), List.filter_cons_of_pos h,
      List.filter_cons_of_neg (by decide), List.filter_nil]
  rw [Call.arguments, hlist]
  exact hfilter

theorem isConversion_wrap {argument : Tree} (h : Call.isArgument argument = true) :
    isConversion (wrap argument) = true := by
  have hname : Call.name? (wrap argument) = some "ofMilliseconds" := rfl
  rw [isConversion, hname, arguments_wrap h]
  rfl

theorem pending_wrap (argument : Tree) : pending (wrap argument) = pending argument := by
  have hname : Call.name? (wrap argument) = some "ofMilliseconds" := rfl
  have hself : isPending (wrap argument) = false := by
    rw [isPending, hname]
    have hsetters : (setters.any fun s => some "ofMilliseconds" == some s.name) = false := by decide
    rw [hsetters]
    rfl
  rw [wrap] at hself ⊢
  rw [pending_node, hself]
  simp [pendingOf_cons, pendingOf_nil, pending_token, pending_of_kind]

/-! ## What a walk keeps of an element -/

/-- What a tree and what a walk makes of it have in common. The last two say it of an argument list. -/
structure Alike (t t' : Tree) : Prop where
  kind : t'.kind = t.kind
  text : t'.tokenText? = t.tokenText?
  conversion : isConversion t = true → isConversion t' = true
  count : (Call.argumentsOf t').length = (Call.argumentsOf t).length
  converted : isConverted (Call.argumentsOf t) = true → isConverted (Call.argumentsOf t') = true

theorem Alike.refl (t : Tree) : Alike t t :=
  ⟨rfl, rfl, id, rfl, id⟩

theorem isConverted_of_alike {as as' : List Tree} (h : List.Forall₂ Alike as as')
    (has : isConverted as = true) : isConverted as' = true := by
  cases h with
  | nil => cases has
  | cons hfirst hrest =>
    cases hrest with
    | nil => exact hfirst.conversion has
    | cons => cases has

section Parts

variable {cs cs' : List Tree} (h : List.Forall₂ Alike cs cs')

include h

theorem alike_arguments (k : Kind) : List.Forall₂ Alike (Call.argumentsOf (Tree.node k cs))
    (Call.argumentsOf (Tree.node k cs')) := by
  refine forall₂_filter (fun t t' ht => ?_) h
  have hkind : Element.kind t' = Element.kind t := ht.kind
  rw [Call.isArgument, Call.isArgument, Element.isSignificant, Element.isSignificant, hkind]

theorem name?_alike (k : Kind) : Call.name? (Tree.node k cs') = Call.name? (Tree.node k cs) := by
  have hkind (t t' : Tree) (ht : Alike t t') : Element.kind t = Element.kind t' := ht.kind.symm
  have hsignificant : List.Forall₂ Alike (Element.significantChildren (Tree.node k cs))
      (Element.significantChildren (Tree.node k cs')) := by
    refine forall₂_filter (fun t t' ht => ?_) h
    rw [Element.isSignificant, Element.isSignificant, hkind t t' ht]
  have hbefore := forall₂_takeWhile (p := fun x => Element.kind x != .argumentList)
    (q := fun x => Element.kind x != .argumentList) (fun t t' ht => by rw [hkind t t' ht]) hsignificant
  rw [Call.name?, Call.name?]
  refine congrArg List.getLast? (filterMap_eq_of_forall₂ (fun t t' ht => ?_) hbefore).symm
  have htext : (Element.tree t').tokenText? = (Element.tree t).tokenText? := ht.text
  rw [hkind t t' ht, htext]

/-- The arguments of a call are as many, and still a conversion if they were one. -/
theorem arguments_alike (k : Kind) :
    (Call.arguments (Tree.node k cs')).length = (Call.arguments (Tree.node k cs)).length ∧
      (isConverted (Call.arguments (Tree.node k cs)) = true →
        isConverted (Call.arguments (Tree.node k cs')) = true) := by
  have hlists := rel_getLast? (forall₂_filter (p := isArgumentList) (q := isArgumentList)
    (fun t t' ht => by
      rw [isArgumentList, isArgumentList, isNode_eq_isNone_tokenText?,
        isNode_eq_isNone_tokenText?, ht.kind, ht.text]) h)
  have hlist (cs : List Tree) : Call.argumentList? (Tree.node k cs) =
      (cs.filter isArgumentList).getLast? := rfl
  rw [Call.arguments, Call.arguments, hlist, hlist]
  rcases Rel.cases hlists with ⟨hnone, hnone'⟩ | ⟨list, list', hsome, hsome', hlist⟩
  · rw [hnone, hnone']
    exact ⟨rfl, id⟩
  · rw [hsome, hsome']
    exact ⟨hlist.count, hlist.converted⟩

theorem alike_node (k : Kind) : Alike (.node k cs) (.node k cs') := by
  obtain ⟨hcount, -⟩ := arguments_alike h k
  refine ⟨rfl, rfl, fun hconversion => ?_, ?_, fun hconverted => ?_⟩
  · rw [isConversion, name?_alike h, hcount]
    exact hconversion
  · exact (alike_arguments h k).length_eq.symm
  · exact isConverted_of_alike (alike_arguments h k) hconverted

/-- A walk over its parts does not make a node pending. -/
theorem isPending_of_alike {k : Kind} (hpending : isPending (.node k cs') = true) :
    isPending (.node k cs) = true := by
  obtain ⟨-, hconverted⟩ := arguments_alike h k
  have hcall : Call.isCall (Tree.node k cs') = Call.isCall (Tree.node k cs) := rfl
  simp only [isPending, hcall, name?_alike h, Bool.and_eq_true, Bool.not_eq_true'] at hpending ⊢
  refine ⟨hpending.1, ?_⟩
  by_contra hyes
  rw [Bool.not_eq_false] at hyes
  rw [hconverted hyes] at hpending
  cases hpending.2

end Parts

/-! ## A matched call -/

theorem name_of_find? {r : Resolver} {site : Site}
    (h : (rule.matcher.find? r site).isSome = true) :
    (setters.any fun s => Call.name? site.element == some s.name) = true := by
  obtain ⟨s, hs⟩ := Option.isSome_iff_exists.mp h
  obtain ⟨hmem, hname, -, -⟩ := Matcher.find?_eq_some hs
  rw [List.any_eq_true]
  exact ⟨s, hmem, by rw [← Site.name?_element, hname, beq_self_eq_true]⟩

/-- The argument of a matched call is a number, and a conversion is none. -/
theorem isConverted_of_find? {r : Resolver} (hr : r.table = .httpClient5) {site : Site}
    (h : (rule.matcher.find? r site).isSome = true) :
    isConverted (Call.arguments site.element) = false := by
  obtain ⟨s, hs⟩ := Option.isSome_iff_exists.mp h
  obtain ⟨hmem, -, htypes, -⟩ := Matcher.find?_eq_some hs
  have hparams : ∀ s ∈ setters, s.params = [int] := by decide
  have helements := Site.arguments_element site
  by_contra hyes
  rw [Bool.not_eq_false] at hyes
  unfold isConverted at hyes
  split at hyes
  next argument heq =>
    rw [heq] at helements
    obtain ⟨x, hx, rfl⟩ := List.map_eq_singleton_iff.mp helements
    rw [hx, hparams s hmem] at htypes
    have htype : r.typeOf? x = some int := by
      cases htype : r.typeOf? x with
      | none => simp [htype] at htypes
      | some t => simpa [htype] using htypes
    simp only [isConversion, Call.isCall, Bool.and_eq_true, beq_iff_eq] at hyes
    obtain ⟨⟨⟨hnode, hkind⟩, hname⟩, -⟩ := hyes
    cases helement : x.element with
    | token k s =>
      rw [helement] at hnode
      cases hnode
    | node k cs =>
      rw [helement] at hkind
      cases (hkind : k = .methodInvocation)
      exact typeOf?_conversion hr helement (by rw [Site.name?_element, hname]) htype
  next => cases hyes

theorem isPending_of_find? {r : Resolver} (hr : r.table = .httpClient5) {around : List Span}
    {start : Nat} {cs : List Tree}
    (h : (rule.matcher.find? r ⟨.node .methodInvocation cs, start, around⟩).isSome = true) :
    isPending (.node .methodInvocation cs) = true := by
  rw [isPending, name_of_find? h, isConverted_of_find? hr h]
  rfl

/-- A replaced call, taken apart: the last list of its arguments keeps its parentheses and the trivia
next to them, and the first argument is wrapped. -/
theorem exists_of_replacement? {cs : List Tree} {parent : Option Kind} {new : Tree}
    (h : template.replacement? (.node .methodInvocation cs) [0] parent = some new) :
    ∃ before first inner last after argument,
      cs = before ++ .node .argumentList (first :: (inner ++ [last])) :: after ∧
      (∀ t ∈ after, isArgumentList t = false) ∧ first.kind = .leftParen ∧ last.kind = .rightParen ∧
      (inner.filter Call.isArgument).head? = some argument ∧
      new = .node .methodInvocation (before ++ .node .argumentList
        (first :: (leadingTrivia inner ++ [wrap argument] ++ trailingTrivia inner ++ [last])) ::
          after) := by
  obtain ⟨captured, hcaptured, -, hnew⟩ := Template.replacement?_cases h
  rcases hnew with ⟨htarget, -⟩ |
    ⟨-, before, first, inner, last, after, hcs, hafter, hfirst, hlast, rfl⟩
  · cases htarget
  · cases hcs
    rw [List.mapM_cons, List.mapM_nil] at hcaptured
    obtain ⟨argument, hargument, hcaptured⟩ := Option.bind_eq_some_iff.mp hcaptured
    cases hcaptured
    refine ⟨before, first, inner, last, after, argument, rfl, hafter, hfirst, hlast, ?_, ?_⟩
    · rw [Call.arguments_append hafter, Call.filter_isArgument_between hfirst hlast,
        ← List.head?_eq_getElem?] at hargument
      exact hargument
    · rw [Growth.substitute_template]

/-- What is kept around an argument is less than what stands around it. -/
theorem trivia_sublist {inner : List Tree} {argument : Tree}
    (h : (inner.filter Call.isArgument).head? = some argument) :
    (leadingTrivia inner ++ [argument] ++ trailingTrivia inner).Sublist inner := by
  have hmem : argument ∈ inner.filter Call.isArgument := List.mem_of_mem_head? h
  obtain ⟨hmem, hargument⟩ := List.mem_filter.mp hmem
  have htrivia : argument.kind.isTrivia = false := Growth.not_isTrivia_of_isArgument hargument
  obtain ⟨pre, post, rfl⟩ := List.append_of_mem hmem
  have hstop (ts us : List Tree) : (ts ++ argument :: us).takeWhile (fun t => t.kind.isTrivia) =
      ts.takeWhile fun t => t.kind.isTrivia := by
    rw [List.takeWhile_append, List.takeWhile_cons_of_neg (by rw [htrivia]; decide), List.append_nil]
    split
    next hall =>
      exact ((List.takeWhile_prefix _).eq_of_length hall).symm
    next => rfl
  have hleading : leadingTrivia (pre ++ argument :: post) = leadingTrivia pre := hstop pre post
  have htrailing : trailingTrivia (pre ++ argument :: post) = trailingTrivia post := by
    rw [trailingTrivia, trailingTrivia, List.reverse_append, List.reverse_cons, List.append_assoc,
      List.singleton_append, hstop]
  rw [hleading, htrailing, List.append_assoc, List.singleton_append]
  exact (Template.leadingTrivia_sublist pre).append ((Template.trailingTrivia_sublist post).cons_cons _)

/-- The list of a replaced call has one argument, which is a conversion. -/
theorem filter_isArgument_replaced {first last : Tree} (inner : List Tree) (argument : Tree)
    (hfirst : first.kind = .leftParen) (hlast : last.kind = .rightParen) :
    (first :: (leadingTrivia inner ++ [wrap argument] ++ trailingTrivia inner ++ [last])).filter
      Call.isArgument = [wrap argument] := by
  have htrivia (ts : List Tree) (hts : ∀ t ∈ ts, t.kind.isTrivia = true) :
      ts.filter Call.isArgument = [] := by
    rw [List.filter_eq_nil_iff]
    intro t ht hargument
    have hnone := hts t ht
    rw [Growth.not_isTrivia_of_isArgument hargument] at hnone
    cases hnone
  rw [Call.filter_isArgument_between hfirst hlast, List.filter_append, List.filter_append,
    htrivia _ fun _ => Template.isTrivia_of_mem_leadingTrivia,
    htrivia _ fun _ => Template.isTrivia_of_mem_trailingTrivia, List.append_nil]
  rfl

/-- A replaced call is like the call that was matched, and is no longer pending. -/
theorem replaced_call {r : Resolver} {around : List Span} {start : Nat} {cs cs' : List Tree}
    {parent : Option Kind} {new : Tree}
    (hfind : (rule.matcher.find? r ⟨.node .methodInvocation cs, start, around⟩).isSome = true)
    (hparts : List.Forall₂ Alike cs cs')
    (hnew : template.replacement? (.node .methodInvocation cs') [0] parent = some new) :
    Alike (.node .methodInvocation cs) new ∧ pending new ≤ pendingOf cs' := by
  obtain ⟨before, first, inner, last, after, argument, rfl, hafter, hfirst, hlast, hargument, rfl⟩ :=
    exists_of_replacement? hnew
  have hwrap : isConversion (wrap argument) = true :=
    isConversion_wrap (List.mem_filter.mp (List.mem_of_mem_head? hargument)).2
  have hfilter := filter_isArgument_replaced inner argument hfirst hlast
  generalize hlist : first :: (leadingTrivia inner ++ [wrap argument] ++ trailingTrivia inner ++
    [last]) = list at hfilter
  have harguments : Call.arguments (Tree.node .methodInvocation
      (before ++ .node .argumentList list :: after)) = [wrap argument] := by
    rw [Call.arguments_eq (lastArguments?_eq_some_iff.mpr ⟨before, after, rfl, rfl, hafter⟩), hfilter]
  constructor
  · -- Of the parts, only the list differs, and it has one argument as it had before.
    have hone : (Call.argumentsOf (Tree.node .argumentList (first :: (inner ++ [last])))).length = 1 := by
      have hcount := (arguments_alike hparts .methodInvocation).1
      rw [arguments_of_find? hfind, Call.arguments_eq
        (lastArguments?_eq_some_iff.mpr ⟨before, after, rfl, rfl, hafter⟩)] at hcount
      exact hcount
    have hpre := List.forall₂_take_append _ _ _ hparts
    obtain ⟨old, post, hold, hpost, hdrop⟩ :=
      List.forall₂_cons_right_iff.mp (List.forall₂_drop_append _ _ _ hparts)
    have hlistArguments : Call.argumentsOf (Tree.node .argumentList list) = [wrap argument] := hfilter
    have hreplaced : Alike old (.node .argumentList list) := by
      refine ⟨hold.kind, hold.text, fun hconversion => ?_, ?_, fun _ => ?_⟩
      · have hkind : old.kind = .argumentList := hold.kind.symm
        simp [isConversion, Call.isCall, Element.kind, Element.tree, hkind] at hconversion
      · rw [hlistArguments, ← hold.count, hone]
        rfl
      · rw [hlistArguments]
        exact hwrap
    rw [← List.take_append_drop before.length cs, hdrop]
    exact alike_node (List.rel_append hpre (.cons hreplaced hpost)) _
  · have hself : isPending (.node .methodInvocation (before ++ .node .argumentList list :: after)) =
        false := by
      rw [isPending, harguments, isConverted, hwrap, Bool.not_true, Bool.and_false]
    rw [pending_node, hself, if_neg Bool.false_ne_true, Nat.add_zero, pendingOf_append, pendingOf_append,
      pendingOf_cons, pendingOf_cons, pending_of_kind (by decide), pending_of_kind (by decide), ← hlist]
    have hless := pendingOf_le_of_sublist (trivia_sublist hargument)
    simp only [pendingOf_append, pendingOf_cons, pendingOf_nil, pending_wrap] at hless ⊢
    omega

/-! ## The walk -/

/-- From `w` to `w'`, at least as many pending calls have gone as calls were migrated. -/
def Trades (before after : Nat) (w w' : Walk) : Prop :=
  after + w'.stats.callsMigrated ≤ before + w.stats.callsMigrated

theorem Trades.append {a a' b b' : Nat} {w w' w'' : Walk} (h : Trades a a' w w')
    (h' : Trades b b' w' w'') : Trades (a + b) (a' + b') w w'' := by
  unfold Trades at h h' ⊢
  omega

theorem trades_node {k : Kind} {cs cs' : List Tree} {w w' : Walk} (halike : List.Forall₂ Alike cs cs')
    (h : Trades (pendingOf cs) (pendingOf cs') w w') :
    Trades (pending (.node k cs)) (pending (.node k cs')) w w' := by
  unfold Trades at h ⊢
  rw [pending_node, pending_node]
  by_cases hpending : isPending (.node k cs') = true
  · rw [if_pos hpending, if_pos (isPending_of_alike halike hpending)]
    omega
  · rw [if_neg hpending]
    omega

/-- A call that was replaced after its parts were walked over. -/
theorem trades_replaced {r : Resolver} (hr : r.table = .httpClient5) {around : List Span}
    {start : Nat} {cs cs' : List Tree} {new : Tree} {w w' : Walk} (range : Nat × Nat)
    (hfind : (rule.matcher.find? r ⟨.node .methodInvocation cs, start, around⟩).isSome = true)
    (hnew : pending new ≤ pendingOf cs') (h : Trades (pendingOf cs) (pendingOf cs') w w') :
    Trades (pending (.node .methodInvocation cs)) (pending new) w
      (w'.replace range template.imports) := by
  have hmigrated : (w'.replace range template.imports).stats.callsMigrated =
      w'.stats.callsMigrated + 1 := rfl
  unfold Trades at h ⊢
  rw [pending_node, isPending_of_find? hr hfind, if_pos rfl, hmigrated]
  omega

mutual
/-- A walk keeps what an element is, and every call that it migrates was pending and is no more. -/
theorem visit_pending {r : Resolver} (hr : r.table = .httpClient5) :
    ∀ (t : Tree) (around : List Span) (start : Nat) (w : Walk),
      Alike t ((rule.visit r around start t w).1.getD t) ∧
        Trades (pending t) (pending ((rule.visit r around start t w).1.getD t)) w
          (rule.visit r around start t w).2
  | .token k s, around, start, w => by
    rw [Rule.visit]
    exact ⟨.refl _, Nat.le_refl _⟩
  | .node k cs, around, start, w => by
    by_cases hk : k = .methodInvocation
    · subst hk
      obtain ⟨halike, htrades⟩ := visitAll_pending hr cs
        (⟨.methodInvocation, start, start + Tree.byteLengthOf cs⟩ :: around) start
        (w.enter (start, start + Tree.byteLengthOf cs))
      rcases rule.visit_call r around start cs w rfl with ⟨new, hfind, hnew, heq⟩ | heq
      · obtain ⟨hlike, hless⟩ := replaced_call hfind halike hnew
        rw [heq]
        exact ⟨hlike, trades_replaced hr _ hfind hless htrades⟩
      · rw [heq]
        simp only [Rule.getD_rebuilt]
        exact ⟨alike_node halike _, trades_node halike htrades⟩
    · obtain ⟨halike, htrades⟩ := visitAll_pending hr cs
        (⟨k, start, start + Tree.byteLengthOf cs⟩ :: around) start w
      rw [Rule.visit_node hk]
      simp only [Rule.getD_rebuilt]
      exact ⟨alike_node halike _, trades_node halike htrades⟩
theorem visitAll_pending {r : Resolver} (hr : r.table = .httpClient5) :
    ∀ (ts : List Tree) (around : List Span) (start : Nat) (w : Walk),
      List.Forall₂ Alike ts (rule.visitAll r around start ts w).1 ∧
        Trades (pendingOf ts) (pendingOf (rule.visitAll r around start ts w).1) w
          (rule.visitAll r around start ts w).2.2
  | [], around, start, w => by
    rw [Rule.visitAll]
    exact ⟨.nil, Nat.le_refl _⟩
  | t :: ts, around, start, w => by
    obtain ⟨halike, htrades⟩ := visit_pending hr t around start w
    obtain ⟨halikes, htradess⟩ := visitAll_pending hr ts around (start + t.byteLength)
      (rule.visit r around start t w).2
    rw [Rule.visitAll]
    refine ⟨.cons halike halikes, ?_⟩
    rw [pendingOf_cons, pendingOf_cons]
    exact htrades.append htradess
end

/-! ## Added imports -/

theorem pending_scopedIdentifier (segments : List (List Char)) :
    pending (scopedIdentifier segments) = 0 := by
  fun_induction scopedIdentifier segments with
  | case1 => rfl
  | case2 => rfl
  | case3 last rest _ ih =>
    simp [pending_of_kind, pendingOf_cons, pendingOf_nil, pending_token, ih]

theorem pending_importDeclaration (symbol : TypeName) : pending (importDeclaration symbol) = 0 := by
  simp [importDeclaration, pending_of_kind, pendingOf_cons, pendingOf_nil, pending_token,
    pending_scopedIdentifier]

/-- Whether a call is pending does not depend on parts that are neither names nor argument lists. -/
theorem isPending_insert (k : Kind) (pre post : List Tree) {new : List Tree}
    (hnew : ∀ t ∈ new, t.kind ≠ .identifier ∧ t.kind ≠ .argumentList) :
    isPending (.node k (pre ++ new ++ post)) = isPending (.node k (pre ++ post)) := by
  have hname : Call.name? (Tree.node k (pre ++ new ++ post)) = Call.name? (Tree.node k (pre ++ post)) := by
    have hskip : ∀ t ∈ new.filter Element.isSignificant, t.kind ≠ .identifier ∧ t.kind ≠ .argumentList :=
      fun t ht => hnew t (List.mem_of_mem_filter ht)
    have hnone : ((new.filter Element.isSignificant).filterMap fun x =>
        if Element.kind x == .identifier then (Element.tree x).tokenText? else none) = [] := by
      rw [List.filterMap_eq_nil_iff]
      intro t ht
      have hkind : Element.kind t ≠ .identifier := (hskip t ht).1
      rw [if_neg (by simpa using hkind)]
    have hpass : ∀ t ∈ new.filter Element.isSignificant,
        (Element.kind t != .argumentList) = true := by
      intro t ht
      have hkind : Element.kind t ≠ .argumentList := (hskip t ht).2
      simpa using hkind
    have hparts (ts : List Tree) : Element.significantChildren (Tree.node k ts) =
        ts.filter Element.isSignificant := rfl
    simp only [Call.name?, hparts, List.filter_append, List.append_assoc, List.takeWhile_append,
      List.takeWhile_append_of_pos hpass]
    split
    next => simp only [List.filterMap_append, hnone, List.nil_append]
    next => rfl
  have harguments : Call.arguments (Tree.node k (pre ++ new ++ post)) =
      Call.arguments (Tree.node k (pre ++ post)) := by
    have hnone : new.filter isArgumentList = [] := by
      rw [List.filter_eq_nil_iff]
      intro t ht hlist
      obtain ⟨list, rfl⟩ := isArgumentList_iff.mp hlist
      exact (hnew _ ht).2 rfl
    have hlist (ts : List Tree) : Call.argumentList? (Tree.node k ts) =
        (ts.filter isArgumentList).getLast? := rfl
    simp only [Call.arguments, hlist, List.filter_append, hnone, List.append_nil]
  have hcall : Call.isCall (Tree.node k (pre ++ new ++ post)) =
      Call.isCall (Tree.node k (pre ++ post)) := rfl
  rw [isPending, isPending, hcall, hname, harguments]

theorem pending_insertImport (k : Kind) (cs : List Tree) (symbol : TypeName) :
    ∃ cs', insertImport (.node k cs) symbol = .node k cs' ∧
      pending (.node k cs') = pending (.node k cs) := by
  obtain ⟨pre, new, post, text, rfl, heq, hnew⟩ := insertImport_eq k cs symbol
  refine ⟨_, heq, ?_⟩
  have hzero : pendingOf new = 0 := by
    rcases hnew with rfl | rfl <;>
      simp [pendingOf_cons, pendingOf_nil, pending_importDeclaration, space, pending_token]
  have hkinds : ∀ t ∈ new, t.kind ≠ .identifier ∧ t.kind ≠ .argumentList := by
    have hdeclaration : (importDeclaration symbol).kind = .importDeclaration := rfl
    have hspace : (space text).kind = .whitespace := rfl
    rcases hnew with rfl | rfl <;> simp [hdeclaration, hspace]
  rw [pending_node, pending_node, isPending_insert k pre post hkinds, pendingOf_append,
    pendingOf_append, pendingOf_append, hzero, Nat.add_zero]

theorem pending_addImports (k : Kind) (cs : List Tree) (symbols : List TypeName) :
    pending (addImports (.node k cs) symbols).1 = pending (.node k cs) := by
  induction symbols generalizing cs with
  | nil => rfl
  | cons symbol symbols ih =>
    rw [addImports]
    split
    next => exact ih cs
    next =>
      obtain ⟨cs', heq, hsame⟩ := pending_insertImport k cs symbol
      rw [heq]
      exact (ih cs').trans hsame

/-! ## Runs -/

theorem run_pending (u : JavaUnit) :
    pending (rule.run .httpClient5 u).unit.tree + (rule.run .httpClient5 u).stats.callsMigrated ≤
      pending u.tree := by
  rcases rule.run_cases .httpClient5 u with ⟨-, reason, hskip⟩ | ⟨-, hrun⟩
  · rw [hskip]
    exact Nat.le_refl _
  · obtain ⟨halike, htrades⟩ := visit_pending (r := Resolver.ofTree .httpClient5 u.tree) rfl u.tree [] 0
      (.start true)
    have hstart : (Walk.start true).stats.callsMigrated = 0 := rfl
    rw [hrun]
    rcases hvisit : rule.visit (Resolver.ofTree .httpClient5 u.tree) [] 0 u.tree (.start true) with ⟨new, w⟩
    rw [hvisit] at halike htrades
    unfold Trades at htrades
    rw [hstart, Nat.add_zero] at htrades
    cases new with
    | none => exact htrades
    | some t =>
      cases t with
      | token k s =>
        -- A walk gives no new token, because the tree is a token then, too, and stays.
        cases htree : u.tree with
        | token k' s' =>
          rw [htree] at hvisit
          cases hvisit
        | node k' cs =>
          have htext := halike.text
          rw [htree] at htext
          cases htext
      | node k cs =>
        rw [Outcome.ofWalk, ImportRequests.flush]
        simp only [JavaUnit.withTree, pending_addImports]
        exact htrades

/-- **Repeated runs of the stock recipe come to an end.** Every run leaves fewer pending calls, at least
by the number of calls that it migrates. So after no more runs than there are pending calls at the
beginning, there is a unit that every further run leaves alone. -/
theorem converges (u : JavaUnit) :
    ∃ recipe, useTimeout = .ok recipe ∧
      pending (recipe.run u).unit.tree + (recipe.run u).stats.callsMigrated ≤ pending u.tree ∧
      ∃ runs ≤ pending u.tree, ∀ n ≥ runs,
        recipe.repeated n u = recipe.repeated runs u ∧
          Rule.Idle (recipe.run (recipe.repeated n u)) (recipe.repeated n u) := by
  have htrades (v : JavaUnit) : pending ((recipe .httpClient5).run v).unit.tree +
      ((recipe .httpClient5).run v).stats.callsMigrated ≤ pending v.tree := run_pending v
  exact ⟨recipe .httpClient5, useTimeout_eq, htrades u,
    Recipe.repeated_converges (recipe .httpClient5) (fun v => pending v.tree) htrades u⟩

end UseTimeout

end CallMigration
