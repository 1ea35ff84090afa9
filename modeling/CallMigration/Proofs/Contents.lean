import CallMigration.Proofs.LineEnds
import Mathlib.Data.List.Forall2

/-!
# What a replaced call is made of

A template that replaces arguments leaves a frame of the call: what is around the argument list, its
parentheses, and the trivia next to them. The two runs of trivia are cut out from both ends of the
list, and they meet if nothing else stands in it; then the same trivia is in both. Where an argument
is selected they cannot meet, and the body with its slots filled takes the place of exactly what is
between them.

* `BeginsWithTrivia`, `EndsWithTrivia` : the trivia at the ends of a list of elements.
* `CallFrame` : what is left of a call.
* `Template.replacement?_trivia_iff` : when no trivia of the call is doubled.
* `TakesPlace` : what stands where a token of the body stood.
* `Template.replacement?_substitutes` : the tokens of a replaced call.
-/

namespace CallMigration

open CallMigration.Tree

/-! ## Trivia at the ends -/

/-- The elements begin with `run`, which is trivia, and go on with none. -/
def BeginsWithTrivia (run ts : List Tree) : Prop :=
  ∃ rest, ts = run ++ rest ∧ (∀ x ∈ run, x.kind.isTrivia = true) ∧
    ∀ x ∈ rest.head?, x.kind.isTrivia = false

/-- The elements end with `run`, which is trivia, and have none in front of it. -/
def EndsWithTrivia (run ts : List Tree) : Prop :=
  ∃ rest, ts = rest ++ run ∧ (∀ x ∈ run, x.kind.isTrivia = true) ∧
    ∀ x ∈ rest.getLast?, x.kind.isTrivia = false

theorem beginsWithTrivia_leadingTrivia (ts : List Tree) :
    BeginsWithTrivia (leadingTrivia ts) ts := by
  have htrivia : ∀ x ∈ leadingTrivia ts, x.kind.isTrivia = true :=
    fun _ => Template.isTrivia_of_mem_leadingTrivia
  rcases leadingTrivia_cases ts with hall | ⟨x, rest, hsplit, hkind⟩
  · exact ⟨[], by rw [hall, List.append_nil], htrivia, nofun⟩
  · refine ⟨x :: rest, hsplit, htrivia, ?_⟩
    rintro y ⟨⟩
    exact hkind

theorem endsWithTrivia_trailingTrivia (ts : List Tree) :
    EndsWithTrivia (trailingTrivia ts) ts := by
  have htrivia : ∀ x ∈ trailingTrivia ts, x.kind.isTrivia = true :=
    fun _ => Template.isTrivia_of_mem_trailingTrivia
  rcases trailingTrivia_cases ts with hall | ⟨rest, x, hsplit, hkind⟩
  · exact ⟨[], by rw [hall, List.nil_append], htrivia, nofun⟩
  · refine ⟨rest ++ [x], by rw [List.append_assoc]; exact hsplit, htrivia, ?_⟩
    intro y hy
    rw [List.getLast?_concat] at hy
    cases hy
    exact hkind

/-- All of it is trivia if nothing in it is anything else. -/
theorem BeginsWithTrivia.eq_of_all {run ts : List Tree} (h : BeginsWithTrivia run ts)
    (hall : ∀ x ∈ ts, x.kind.isTrivia = true) : run = ts := by
  obtain ⟨rest, rfl, -, hhead⟩ := h
  cases rest with
  | nil => exact (List.append_nil run).symm
  | cons x rest =>
    have hkind := hall x (List.mem_append_right _ List.mem_cons_self)
    rw [hhead x rfl] at hkind
    cases hkind

theorem EndsWithTrivia.eq_of_all {run ts : List Tree} (h : EndsWithTrivia run ts)
    (hall : ∀ x ∈ ts, x.kind.isTrivia = true) : run = ts := by
  obtain ⟨rest, rfl, -, hlast⟩ := h
  rcases List.eq_nil_or_concat rest with rfl | ⟨rest, x, rfl⟩
  · exact (List.nil_append run).symm
  · rw [List.concat_eq_append] at hall hlast
    have hkind := hall x (by simp)
    rw [hlast x List.getLast?_concat] at hkind
    cases hkind

/-- Trivia at both ends of elements that are not all trivia does not overlap: something begins behind
the one and ends in front of the other, and neither of its ends is trivia. -/
theorem exists_between_trivia {leading trailing ts : List Tree} (hbegin : BeginsWithTrivia leading ts)
    (hend : EndsWithTrivia trailing ts) (h : ∃ x ∈ ts, x.kind.isTrivia = false) :
    ∃ middle, ts = leading ++ middle ++ trailing ∧
      middle.head?.any (fun x => !x.kind.isTrivia) = true ∧
      middle.getLast?.any (fun x => !x.kind.isTrivia) = true := by
  obtain ⟨rest, rfl, hleading, hhead⟩ := hbegin
  obtain ⟨front, hsplit, htrailing, hlast⟩ := hend
  obtain ⟨x, hx, hkind⟩ := h
  have hrest : x ∈ rest := by
    rcases List.mem_append.mp hx with hx | hx
    · rw [hleading x hx] at hkind
      cases hkind
    · exact hx
  have hfront : x ∈ front := by
    rw [hsplit] at hx
    rcases List.mem_append.mp hx with hx | hx
    · exact hx
    · rw [htrailing x hx] at hkind
      cases hkind
  -- The element cannot lie in an overlap, so one of the two cuts is in front of the other.
  rcases List.append_eq_append_iff.mp hsplit with ⟨middle, rfl, rfl⟩ | ⟨overlap, rfl, rfl⟩
  · refine ⟨middle, (List.append_assoc _ _ _).symm, ?_, ?_⟩
    · cases middle with
      | nil =>
        rw [htrailing x hrest] at hkind
        cases hkind
      | cons y middle =>
        have hy := hhead y rfl
        simpa using hy
    · rcases List.eq_nil_or_concat middle with rfl | ⟨middle, y, rfl⟩
      · rw [htrailing x hrest] at hkind
        cases hkind
      · have hy := hlast y (by simp)
        simpa using hy
  · rw [hleading x (List.mem_append_left _ hfront)] at hkind
    cases hkind

/-- Trivia at both ends is as often there as in the whole, unless all of it is trivia. -/
theorem count_ends_le_iff {leading trailing ts : List Tree} (hbegin : BeginsWithTrivia leading ts)
    (hend : EndsWithTrivia trailing ts) :
    (∀ x, x.kind.isTrivia = true → (leading ++ trailing).count x ≤ ts.count x) ↔
      ts = [] ∨ ∃ x ∈ ts, x.kind.isTrivia = false := by
  constructor
  · intro hcount
    by_contra hnot
    rw [not_or] at hnot
    obtain ⟨hne, hnone⟩ := hnot
    have hall : ∀ x ∈ ts, x.kind.isTrivia = true := by
      intro x hx
      by_contra hkind
      exact hnone ⟨x, hx, Bool.not_eq_true _ ▸ hkind⟩
    obtain ⟨x, hx⟩ := List.exists_mem_of_ne_nil ts hne
    have hdouble := hcount x (hall x hx)
    rw [hbegin.eq_of_all hall, hend.eq_of_all hall, List.count_append] at hdouble
    have hpos := List.count_pos_iff.mpr hx
    omega
  · rintro (rfl | hother) x -
    · obtain ⟨rest, hnil, -, -⟩ := hbegin
      obtain ⟨front, hnil', -, -⟩ := hend
      obtain ⟨rfl, -⟩ := List.append_eq_nil_iff.mp hnil.symm
      obtain ⟨-, rfl⟩ := List.append_eq_nil_iff.mp hnil'.symm
      exact Nat.le_refl _
    · obtain ⟨middle, rfl, -, -⟩ := exists_between_trivia hbegin hend hother
      apply List.Sublist.count_le
      exact (List.sublist_append_left leading middle).append (List.Sublist.refl trailing)

/-! ## What is left of a call -/

/-- What a template leaves of a call when it replaces arguments. -/
structure CallFrame where
  /-- The children in front of the argument list. -/
  before : List Tree
  opening : Tree
  /-- The trivia behind the opening parenthesis. -/
  leading : List Tree
  /-- The trivia in front of the closing parenthesis. -/
  trailing : List Tree
  closing : Tree
  /-- The children behind the argument list, none of which is another one. -/
  after : List Tree
  kind_opening : opening.kind = .leftParen
  kind_closing : closing.kind = .rightParen
  last : ∀ x ∈ after, isArgumentList x = false

namespace CallFrame

/-- The argument list with all that stands between its parentheses. -/
def list (f : CallFrame) (inner : List Tree) : List Tree :=
  f.opening :: (inner ++ [f.closing])

def call (f : CallFrame) (inner : List Tree) : Tree :=
  .node .methodInvocation (f.before ++ .node .argumentList (f.list inner) :: f.after)

/-- What stands between the parentheses, with the trivia of the frame around it. -/
def pad (f : CallFrame) (contents : List Tree) : List Tree :=
  f.leading ++ contents ++ f.trailing

/-- The tokens of the frame in front of the contents. -/
def ahead (f : CallFrame) : List (Kind × String) :=
  tokensOf f.before ++ f.opening.tokens ++ tokensOf f.leading

def behind (f : CallFrame) : List (Kind × String) :=
  tokensOf f.trailing ++ f.closing.tokens ++ tokensOf f.after

theorem tokens_call_pad (f : CallFrame) (contents : List Tree) :
    (f.call (f.pad contents)).tokens = f.ahead ++ tokensOf contents ++ f.behind := by
  rw [call, list, Template.tokens_call]
  simp [pad, ahead, behind]

theorem count_list (f : CallFrame) (inner : List Tree) {x : Tree} (hx : x.kind.isTrivia = true) :
    (f.list inner).count x = inner.count x := by
  have hopening : f.opening ≠ x := by
    rintro rfl
    rw [f.kind_opening] at hx
    cases hx
  have hclosing : f.closing ≠ x := by
    rintro rfl
    rw [f.kind_closing] at hx
    cases hx
  rw [list, List.count_cons_of_ne hopening, List.count_append, List.count_singleton, if_neg,
    Nat.add_zero]
  simpa using hclosing

end CallFrame

namespace Template

theorem exists_frame_of_replacement? {t : Template} {call new : Tree} {selected : List Nat}
    {parent : Option Kind} (htarget : t.target = .arguments)
    (h : t.replacement? call selected parent = some new) :
    ∃ (f : CallFrame) (inner captured : List Tree),
      (selected.mapM fun index => (Call.arguments call)[index]?) = some captured ∧
      call = f.call inner ∧ BeginsWithTrivia f.leading inner ∧ EndsWithTrivia f.trailing inner ∧
      new = f.call (f.pad (substituteAll captured (some .argumentList) t.body)) := by
  obtain ⟨captured, hcaptured, -, hnew⟩ := replacement?_cases h
  rcases hnew with ⟨hinvocation, -⟩ |
    ⟨-, before, opening, inner, closing, after, rfl, hafter, hopening, hclosing, rfl⟩
  · rw [htarget] at hinvocation
    cases hinvocation
  · exact ⟨⟨before, opening, leadingTrivia inner, trailingTrivia inner, closing, after, hopening,
        hclosing, hafter⟩, inner, captured, hcaptured, rfl, beginsWithTrivia_leadingTrivia inner,
      endsWithTrivia_trailingTrivia inner, rfl⟩

/-- **Where the trivia inside the parentheses is kept exactly once.** When a template replaces the
arguments of a call, the new list is the opening parenthesis, the trivia that stood behind it, the body
with its slots filled, the trivia that stood in front of the closing parenthesis, and that parenthesis.
No trivia is there more often than before exactly if the old list was empty or had something else in
it. -/
theorem replacement?_trivia_iff {t : Template} {call new : Tree} {selected : List Nat}
    {parent : Option Kind} (htarget : t.target = .arguments)
    (h : t.replacement? call selected parent = some new) :
    ∃ (f : CallFrame) (inner captured : List Tree),
      (selected.mapM fun index => (Call.arguments call)[index]?) = some captured ∧
      call = f.call inner ∧ BeginsWithTrivia f.leading inner ∧ EndsWithTrivia f.trailing inner ∧
      new = f.call (f.pad (substituteAll captured (some .argumentList) t.body)) ∧
      ((∀ x, x.kind.isTrivia = true →
          (f.leading ++ f.trailing).count x ≤ (f.list inner).count x) ↔
        inner = [] ∨ ∃ x ∈ inner, x.kind.isTrivia = false) := by
  obtain ⟨f, inner, captured, hcaptured, hcall, hbegin, hend, hnew⟩ :=
    exists_frame_of_replacement? htarget h
  refine ⟨f, inner, captured, hcaptured, hcall, hbegin, hend, hnew, ?_⟩
  rw [← count_ends_le_iff hbegin hend]
  refine forall₂_congr fun x hx => ?_
  rw [f.count_list inner hx]

def one : Template :=
  ⟨"1", .arguments, [], [], [.token .integerLiteral "1"]⟩

theorem compile_one : compile "1" [] [] .arguments = .ok one :=
  eq_ok_of_toOption (by
    rw [compile_eq]
    decide +kernel)

theorem replacement?_trivia_iff_argument :
    ∃ t new, compile "1" [] [] .arguments = .ok t ∧
      t.replacement? (callOf [.token .whitespace " ", .token .integerLiteral "5",
        .token .blockComment "/* c */"]) [] none = some new ∧
      new.text = "f( 1/* c */)" ∧
      ∃ (f : CallFrame) (inner captured : List Tree),
        ([].mapM fun index : Nat => (Call.arguments (callOf [.token .whitespace " ",
          .token .integerLiteral "5", .token .blockComment "/* c */"]))[index]?) = some captured ∧
        callOf [.token .whitespace " ", .token .integerLiteral "5",
          .token .blockComment "/* c */"] = f.call inner ∧
        BeginsWithTrivia f.leading inner ∧ EndsWithTrivia f.trailing inner ∧
        new = f.call (f.pad (substituteAll captured (some .argumentList) t.body)) ∧
        ((∀ x, x.kind.isTrivia = true →
            (f.leading ++ f.trailing).count x ≤ (f.list inner).count x) ↔
          inner = [] ∨ ∃ x ∈ inner, x.kind.isTrivia = false) := by
  have hanswer : (one.replacement? (callOf [.token .whitespace " ", .token .integerLiteral "5",
      .token .blockComment "/* c */"]) [] none).any (·.text == "f( 1/* c */)") = true := by
    decide +kernel
  obtain ⟨new, hnew, htext⟩ := (Option.any_eq_true _ _).mp hanswer
  exact ⟨one, new, compile_one, hnew, beq_iff_eq.mp htext, replacement?_trivia_iff rfl hnew⟩

theorem callOf_injective : Function.Injective callOf := by
  intro a b h
  simpa [callOf] using h

/-- A list of nothing but a comment is all leading and all trailing trivia: behind the replacement
there are two comments, and none of the ways to take the new list apart has only the one that was
there. -/
theorem replacement?_doubles_comment :
    ∃ t new, compile "1" [] [] .arguments = .ok t ∧
      t.replacement? (callOf [.token .blockComment "/* c */"]) [] none = some new ∧
      new.text = "f(/* c */1/* c */)" ∧
      ¬ ∃ leading trailing, new = callOf (leading ++ t.body ++ trailing) ∧
        ∀ x, x.kind.isTrivia = true →
          (leading ++ trailing).count x ≤ [Tree.token .blockComment "/* c */"].count x := by
  have hnew : one.replacement? (callOf [.token .blockComment "/* c */"]) [] none =
      some (callOf [.token .blockComment "/* c */", .token .integerLiteral "1",
        .token .blockComment "/* c */"]) := by
    decide +kernel
  refine ⟨one, _, compile_one, hnew, by decide, ?_⟩
  rintro ⟨leading, trailing, hsplit, hcount⟩
  have hlist : [Tree.token .blockComment "/* c */", .token .integerLiteral "1",
      .token .blockComment "/* c */"] = leading ++ one.body ++ trailing := callOf_injective hsplit
  have htwo := congrArg (List.count (Tree.token .blockComment "/* c */")) hlist
  have hone := hcount (.token .blockComment "/* c */") rfl
  rw [List.count_append, List.count_append] at htwo
  rw [List.count_append] at hone
  simp [one] at htwo hone
  omega

end Template

/-! ## The tokens of the new call -/

theorem getElem?_of_mapM {args captured : List Tree} {selected : List Nat}
    (h : (selected.mapM fun index => args[index]?) = some captured) (i : Nat) :
    captured[i]? = selected[i]?.bind (args[·]?) := by
  induction selected generalizing captured i with
  | nil =>
    cases h
    rfl
  | cons index selected ih =>
    rw [List.mapM_cons] at h
    obtain ⟨a, ha, h⟩ := Option.bind_eq_some_iff.mp h
    obtain ⟨rest, hrest, h⟩ := Option.bind_eq_some_iff.mp h
    cases h
    cases i with
    | zero => exact ha.symm
    | succ i => exact ih hrest i

/-- What stands where a token of a body stood: for the slot `i`, the argument at the `i`-th selected
position; for every other token, the token itself. The name of a slot that nothing is selected for is
no slot. -/
inductive TakesPlace (arguments : List Tree) (selected : List Nat) :
    Kind × String → List (Kind × String) → Prop
  | slot {text : String} {i position : Nat} {argument : Tree} {fill : List (Kind × String)} :
      slotIndex? text = some i → selected[i]? = some position →
      arguments[position]? = some argument → Template.Grouped argument fill →
      TakesPlace arguments selected (.identifier, text) fill
  | kept {token : Kind × String} :
      (∀ i < selected.length, ¬ (token.1 = .identifier ∧ slotIndex? token.2 = some i)) →
      TakesPlace arguments selected token [token]

theorem exists_takesPlace_of_filled {arguments captured : List Tree} {selected : List Nat}
    {tokens out : List (Kind × String)}
    (hcaptured : (selected.mapM fun index => arguments[index]?) = some captured)
    (h : Template.Filled captured tokens out) :
    ∃ fills, List.Forall₂ (TakesPlace arguments selected) tokens fills ∧ out = fills.flatten := by
  have hlength := length_of_mapM_eq_some hcaptured
  induction h with
  | nil => exact ⟨[], .nil, rfl⟩
  | @keep token tokens out hnone _ ih =>
    obtain ⟨fills, hfills, rfl⟩ := ih
    refine ⟨[token] :: fills, .cons (.kept ?_) hfills, rfl⟩
    rintro i hi ⟨hkind, hindex⟩
    have hsome := Template.capturedAt?_eq_some_iff.mpr
      ⟨hkind, i, hindex, List.getElem?_eq_getElem (hlength ▸ hi)⟩
    rw [hnone] at hsome
    cases hsome
  | @slot token tokens out argument fill hsome hgroup _ ih =>
    obtain ⟨fills, hfills, rfl⟩ := ih
    obtain ⟨hkind, i, hindex, hargument⟩ := Template.capturedAt?_eq_some_iff.mp hsome
    rw [getElem?_of_mapM hcaptured, Option.bind_eq_some_iff] at hargument
    obtain ⟨position, hposition, hargument⟩ := hargument
    obtain ⟨kind, text⟩ := token
    cases hkind
    exact ⟨fill :: fills, .cons (.slot hindex hposition hargument hgroup) hfills, rfl⟩

namespace Template

/-- Where an argument is captured, something other than trivia stands between the parentheses. -/
theorem exists_solid_of_captured {f : CallFrame} {inner captured : List Tree} {selected : List Nat}
    (hcaptured : (selected.mapM fun index => (Call.arguments (f.call inner))[index]?) =
      some captured) (hne : captured ≠ []) : ∃ x ∈ inner, x.kind.isTrivia = false := by
  obtain ⟨x, hx⟩ := List.exists_mem_of_ne_nil captured hne
  have hargument := mem_of_mapM_getElem? hcaptured hx
  rw [CallFrame.call, Call.arguments_append f.last, CallFrame.list,
    Call.filter_isArgument_between f.kind_opening f.kind_closing] at hargument
  obtain ⟨hmem, hkind⟩ := List.mem_filter.mp hargument
  refine ⟨x, hmem, ?_⟩
  simp only [Call.isArgument, Element.isSignificant, Bool.and_eq_true, Bool.not_eq_true'] at hkind
  exact hkind.1.1.1

/-- **Substitution is exact and happens once.** A replaced call has the tokens of the body, with each
identifier of a slot replaced by the argument selected for it and with every other token in its place.
The tokens of an argument are copied as they are, also those that look like slots. A template that
replaces the call adds at most a pair of parentheses; one that replaces the arguments puts all this
where everything between the leading and the trailing trivia of the argument list stood, and keeps
the rest of the call. -/
theorem replacement?_substitutes {t : Template} {call new : Tree} {selected : List Nat}
    {parent : Option Kind} (hslots : t.placeholders ≠ [])
    (h : t.replacement? call selected parent = some new) :
    ∃ fills, List.Forall₂ (TakesPlace (Call.arguments call) selected) (tokensOf t.body) fills ∧
      (t.target = .invocation → new.tokens = fills.flatten ∨
        new.tokens = (.leftParen, "(") :: (fills.flatten ++ [(.rightParen, ")")])) ∧
      (t.target = .arguments → ∃ (f : CallFrame) (middle : List Tree),
        call = f.call (f.pad middle) ∧ (∀ x ∈ f.leading ++ f.trailing, x.kind.isTrivia = true) ∧
        middle.head?.any (fun x => !x.kind.isTrivia) = true ∧
        middle.getLast?.any (fun x => !x.kind.isTrivia) = true ∧
        call.tokens = f.ahead ++ tokensOf middle ++ f.behind ∧
        new.tokens = f.ahead ++ fills.flatten ++ f.behind) := by
  cases htarget : t.target with
  | invocation =>
    obtain ⟨captured, hcaptured, -, hnew⟩ := replacement?_cases h
    rcases hnew with ⟨-, body, hbody, rfl⟩ | ⟨harguments, -⟩
    · obtain ⟨fills, hfills, hflat⟩ :=
        exists_takesPlace_of_filled hcaptured (filled_substitute captured none body)
      rw [hbody, tokensOf_singleton]
      refine ⟨fills, hfills, fun _ => ?_, nofun⟩
      rw [← hflat]
      exact grouped_group parent _
    · rw [htarget] at harguments
      cases harguments
  | arguments =>
    obtain ⟨f, inner, captured, hcaptured, rfl, hbegin, hend, rfl⟩ :=
      exists_frame_of_replacement? htarget h
    obtain ⟨fills, hfills, hflat⟩ := exists_takesPlace_of_filled hcaptured
      (filled_substituteAll captured (some .argumentList) t.body)
    have hne : captured ≠ [] := by
      obtain ⟨captured', hcaptured', hcount, -⟩ := replacement?_cases h
      rw [hcaptured, Option.some.injEq] at hcaptured'
      rw [← List.length_pos_iff, hcaptured', hcount, List.length_pos_iff]
      exact hslots
    obtain ⟨middle, rfl, hhead, hlast⟩ :=
      exists_between_trivia hbegin hend (exists_solid_of_captured hcaptured hne)
    refine ⟨fills, hfills, nofun, fun _ => ⟨f, middle, rfl, ?_, hhead, hlast,
      f.tokens_call_pad middle, ?_⟩⟩
    · obtain ⟨-, -, hleading, -⟩ := hbegin
      obtain ⟨-, -, htrailing, -⟩ := hend
      exact List.forall_mem_append.mpr ⟨hleading, htrailing⟩
    · rw [f.tokens_call_pad, hflat]

/-- The first argument is called like a slot. It is put in place of the second slot, and stays. -/
theorem replacement?_substitutes_slot_name :
    ∃ t new, compile "Math.abs(#\x7b\x7d), #\x7b\x7d" [.any, .any] [] .arguments = .ok t ∧
      t.replacement? (callOf [.token .identifier "__hcrewrite_slot1__", .token .comma ",",
        .token .whitespace " ", .token .identifier "b"]) [1, 0] none = some new ∧
      new.text = "f(Math.abs(b), __hcrewrite_slot1__)" ∧
      ∃ fills, List.Forall₂ (TakesPlace (Call.arguments (callOf [
          .token .identifier "__hcrewrite_slot1__", .token .comma ",", .token .whitespace " ",
          .token .identifier "b"])) [1, 0]) (tokensOf t.body) fills ∧
        (t.target = .invocation → new.tokens = fills.flatten ∨
          new.tokens = (.leftParen, "(") :: (fills.flatten ++ [(.rightParen, ")")])) ∧
        (t.target = .arguments → ∃ (f : CallFrame) (middle : List Tree),
          callOf [.token .identifier "__hcrewrite_slot1__", .token .comma ",",
            .token .whitespace " ", .token .identifier "b"] = f.call (f.pad middle) ∧
          (∀ x ∈ f.leading ++ f.trailing, x.kind.isTrivia = true) ∧
          middle.head?.any (fun x => !x.kind.isTrivia) = true ∧
          middle.getLast?.any (fun x => !x.kind.isTrivia) = true ∧
          (callOf [.token .identifier "__hcrewrite_slot1__", .token .comma ",",
            .token .whitespace " ", .token .identifier "b"]).tokens =
              f.ahead ++ tokensOf middle ++ f.behind ∧
          new.tokens = f.ahead ++ fills.flatten ++ f.behind) := by
  have hcheck : (compile "Math.abs(#\x7b\x7d), #\x7b\x7d" [.any, .any] []
      .arguments).toOption.any (fun t => !t.placeholders.isEmpty &&
        (t.replacement? (callOf [.token .identifier "__hcrewrite_slot1__", .token .comma ",",
          .token .whitespace " ", .token .identifier "b"]) [1, 0] none).any
            (·.text == "f(Math.abs(b), __hcrewrite_slot1__)")) = true := by
    rw [compile_eq]
    decide +kernel
  obtain ⟨t, ht, hanswer⟩ := exists_ok_of_any hcheck
  rw [Bool.and_eq_true, Option.any_eq_true] at hanswer
  obtain ⟨hslots, new, hnew, htext⟩ := hanswer
  have hslots : t.placeholders ≠ [] := by simpa using hslots
  exact ⟨t, new, ht, hnew, beq_iff_eq.mp htext, replacement?_substitutes hslots hnew⟩

end Template

end CallMigration
