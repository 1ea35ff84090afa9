import CallMigration.Proofs.Build
import CallMigration.Proofs.Evaluation
import Mathlib.Data.List.Basic
import Mathlib.Data.List.Forall2
import Mathlib.Data.List.TakeWhile
import Mathlib.Tactic.ByContra

/-!
# The slots of a compiled template

A placeholder is found in the text of a fragment, replaced there by the identifier of its slot, and
found again as a token of the read fragment. In a string, in a comment, in the place of a type or
next to other letters the identifier does not come back as a token of its own, and nothing in
`Template.compile` looks for that.

* `slotNamesIn` : the slot names that are spelled in a text.
* `Template.slotTexts` : the identifiers of a body that an argument is put in place of.
* `Template.RealSlots` : every placeholder is such an identifier, in order, and no other token spells
  the name of a slot.
* `Template.compile_realSlots_iff` : where the fragment spells no further slot name, this is a matter
  of counting identifiers.
-/

namespace CallMigration

/-! ## Slot names in a text -/

def leadingNumber : List Char → List Char
  | '+' :: s => '+' :: s.takeWhile Char.isDigit
  | s => s.takeWhile Char.isDigit

/-- The name of a slot at the beginning of a text. -/
def leadingSlot? (s : List Char) : Option (List Char) :=
  match slotHead.toList.isPrefixOf? s with
  | some rest =>
    let number := leadingNumber rest
    if number.any Char.isDigit && slotTail.toList.isPrefixOf (rest.drop number.length) then
      some (slotHead.toList ++ number ++ slotTail.toList)
    else none
  | none => none

/-- The slot names that are spelled in a text, wherever they stand. -/
def slotNamesIn : List Char → List (List Char)
  | [] => []
  | c :: s => (leadingSlot? (c :: s)).toList ++ slotNamesIn s

/-- What stands between the two parts of a slot name: digits, with a plus sign or without. -/
def IsNumber (s : List Char) : Prop :=
  ∃ digits : List Char, digits ≠ [] ∧ (∀ c ∈ digits, c.isDigit = true) ∧
    (s = digits ∨ s = '+' :: digits)

theorem slotHead_toList : slotHead.toList = "__hcrewrite_slot".toList := rfl

theorem slotTail_toList : slotTail.toList = ['_', '_'] := by decide

theorem takeWhile_digits {digits rest : List Char} (h : ∀ c ∈ digits, c.isDigit = true) :
    (digits ++ '_' :: rest).takeWhile Char.isDigit = digits := by
  rw [List.takeWhile_append_of_pos h, List.takeWhile_cons_of_neg (by decide), List.append_nil]

theorem leadingNumber_append {number rest : List Char} (h : IsNumber number) :
    leadingNumber (number ++ '_' :: rest) = number := by
  obtain ⟨digits, hne, hdigits, rfl | rfl⟩ := h
  · match number, hne, hdigits with
    | c :: digits, _, hdigits =>
      have hc : c ≠ '+' := by
        rintro rfl
        exact absurd (hdigits '+' (by simp)) (by decide)
      rw [leadingNumber]
      · exact takeWhile_digits hdigits
      · intro s hs
        cases hs
        exact hc rfl
  · rw [List.cons_append, leadingNumber, takeWhile_digits hdigits]

theorem leadingNumber_append_drop (s : List Char) :
    leadingNumber s ++ s.drop (leadingNumber s).length = s := by
  apply List.prefix_iff_eq_append.mp
  unfold leadingNumber
  split
  · exact (List.prefix_cons_inj _).mpr (List.takeWhile_prefix _)
  · exact List.takeWhile_prefix _

theorem isNumber_leadingNumber {s : List Char} (h : (leadingNumber s).any Char.isDigit = true) :
    IsNumber (leadingNumber s) := by
  have hdigits (t : List Char) : ∀ c ∈ t.takeWhile Char.isDigit, c.isDigit = true :=
    List.all_eq_true.mp List.all_takeWhile
  unfold leadingNumber at h ⊢
  split at h
  next t =>
    refine ⟨t.takeWhile Char.isDigit, ?_, hdigits t, .inr rfl⟩
    intro hnil
    rw [hnil] at h
    exact absurd h (by decide)
  next =>
    refine ⟨s.takeWhile Char.isDigit, ?_, hdigits s, .inl rfl⟩
    intro hnil
    rw [hnil] at h
    exact absurd h (by decide)

theorem any_isDigit_of_isNumber {s : List Char} (h : IsNumber s) : s.any Char.isDigit = true := by
  obtain ⟨digits, hne, hdigits, rfl | rfl⟩ := h
  · obtain ⟨c, hc⟩ := List.exists_mem_of_ne_nil s hne
    exact List.any_eq_true.mpr ⟨c, hc, hdigits c hc⟩
  · obtain ⟨c, hc⟩ := List.exists_mem_of_ne_nil digits hne
    exact List.any_eq_true.mpr ⟨c, List.mem_cons_of_mem _ hc, hdigits c hc⟩

theorem leadingSlot?_eq_some_iff {s w : List Char} :
    leadingSlot? s = some w ↔
      ∃ number rest, IsNumber number ∧ w = slotHead.toList ++ number ++ slotTail.toList ∧
        s = w ++ rest := by
  unfold leadingSlot?
  constructor
  · intro h
    split at h
    next rest hrest =>
      have hs := List.isPrefixOf?_eq_some_iff_append_eq.mp hrest
      simp only [Option.ite_none_right_eq_some, Bool.and_eq_true, Option.some.injEq] at h
      obtain ⟨⟨hany, htail⟩, rfl⟩ := h
      obtain ⟨after, hafter⟩ := List.isPrefixOf_iff_prefix.mp htail
      refine ⟨leadingNumber rest, after, isNumber_leadingNumber hany, rfl, ?_⟩
      rw [← hs, List.append_assoc, List.append_assoc, hafter, leadingNumber_append_drop]
    next => cases h
  · rintro ⟨number, rest, hnumber, rfl, rfl⟩
    have hhead : slotHead.toList.isPrefixOf?
        (slotHead.toList ++ number ++ slotTail.toList ++ rest) =
          some (number ++ (slotTail.toList ++ rest)) := by
      rw [List.isPrefixOf?_eq_some_iff_append_eq, List.append_assoc, List.append_assoc]
    have hnum : leadingNumber (number ++ (slotTail.toList ++ rest)) = number := by
      rw [slotTail_toList]
      exact leadingNumber_append hnumber
    rw [hhead]
    simp only [hnum, any_isDigit_of_isNumber hnumber, List.drop_left, Bool.true_and]
    rw [if_pos (List.isPrefixOf_iff_prefix.mpr (List.prefix_append _ _))]

/-- A slot name at the beginning of a text stays there when the text goes on. -/
theorem leadingSlot?_append {a w : List Char} (h : leadingSlot? a = some w) (b : List Char) :
    leadingSlot? (a ++ b) = some w := by
  obtain ⟨number, rest, hnumber, hw, rfl⟩ := leadingSlot?_eq_some_iff.mp h
  exact leadingSlot?_eq_some_iff.mpr ⟨number, rest ++ b, hnumber, hw, List.append_assoc ..⟩

theorem slotNamesIn_append (a b : List Char) :
    (slotNamesIn a ++ slotNamesIn b).Sublist (slotNamesIn (a ++ b)) := by
  induction a with
  | nil => exact List.Sublist.refl _
  | cons c a ih =>
    rw [slotNamesIn, List.append_assoc, List.cons_append, slotNamesIn]
    refine List.Sublist.append ?_ ih
    cases h : leadingSlot? (c :: a) with
    | none => exact List.nil_sublist _
    | some w =>
      rw [← List.cons_append, leadingSlot?_append h]

theorem slotNamesIn_within {a b : List Char} (h : a <:+: b) :
    (slotNamesIn a).Sublist (slotNamesIn b) := by
  obtain ⟨before, after, rfl⟩ := h
  calc slotNamesIn a
    _ |>.Sublist (slotNamesIn before ++ slotNamesIn a) := List.sublist_append_right _ _
    _ |>.Sublist (slotNamesIn (before ++ a)) := slotNamesIn_append before a
    _ |>.Sublist (slotNamesIn (before ++ a) ++ slotNamesIn after) := List.sublist_append_left _ _
    _ |>.Sublist (slotNamesIn (before ++ a ++ after)) := slotNamesIn_append _ after

theorem rightParen_notMem_slot {number : List Char} (h : IsNumber number) :
    ')' ∉ slotHead.toList ++ number ++ slotTail.toList := by
  have hdigit {d : Char} (hd : d.isDigit = true) : ')' ≠ d := by
    rintro rfl
    exact absurd hd (by decide)
  have hnumber : ')' ∉ number := by
    obtain ⟨digits, -, hdigits, rfl | rfl⟩ := h
    · exact fun hc => hdigit (hdigits _ hc) rfl
    · intro hc
      rcases List.mem_cons.mp hc with hplus | hc
      · exact absurd hplus (by decide)
      · exact hdigit (hdigits _ hc) rfl
  have hhead : ')' ∉ slotHead.toList := by decide
  have htail : ')' ∉ slotTail.toList := by decide
  simp only [List.mem_append, not_or]
  exact ⟨⟨hhead, hnumber⟩, htail⟩

/-- An opening parenthesis in front of a text makes no slot name. -/
theorem slotNamesIn_leftParen (s : List Char) : slotNamesIn ('(' :: s) = slotNamesIn s := by
  rw [slotNamesIn]
  cases h : leadingSlot? ('(' :: s) with
  | none => rfl
  | some w =>
    obtain ⟨number, rest, hnumber, rfl, hs⟩ := leadingSlot?_eq_some_iff.mp h
    rw [slotHead_toList] at hs
    cases hs

theorem slotNamesIn_rightParen (s : List Char) : slotNamesIn (s ++ [')']) = slotNamesIn s := by
  induction s with
  | nil => decide
  | cons c s ih =>
    rw [List.cons_append, slotNamesIn, slotNamesIn, ih]
    congr 2
    cases h : leadingSlot? (c :: s) with
    | some w => exact leadingSlot?_append h [')']
    | none =>
      cases h' : leadingSlot? (c :: (s ++ [')'])) with
      | none => rfl
      | some w =>
        obtain ⟨number, rest, hnumber, hw, hs⟩ := leadingSlot?_eq_some_iff.mp h'
        rw [← List.cons_append] at hs
        rcases List.eq_nil_or_concat rest with rfl | ⟨rest, last, rfl⟩
        · -- the name would end with the parenthesis
          have hmem : ')' ∈ w := by
            rw [List.append_nil] at hs
            rw [← hs]
            simp
          exact absurd (hw ▸ hmem) (rightParen_notMem_slot hnumber)
        · rw [List.concat_eq_append, ← List.append_assoc] at hs
          have hs := (List.append_inj' hs rfl).1
          rw [leadingSlot?_eq_some_iff.mpr ⟨number, rest, hnumber, hw, hs⟩] at h
          cases h

/-! ## Slot names in a filled fragment -/

theorem toDigits_isDigit (n : Nat) : ∀ c ∈ Nat.toDigits 10 n, c.isDigit = true :=
  fun _ hc => Nat.isDigit_of_mem_toDigits (by decide) (by decide) hc

theorem slotName_toList (index : Nat) :
    (slotName index).toList = slotHead.toList ++ Nat.toDigits 10 index ++ slotTail.toList := by
  simp [slotName]

theorem leadingSlot?_slotName (index : Nat) (rest : List Char) :
    leadingSlot? ((slotName index).toList ++ rest) = some (slotName index).toList := by
  refine leadingSlot?_eq_some_iff.mpr ⟨Nat.toDigits 10 index, rest, ?_, slotName_toList index, rfl⟩
  exact ⟨_, Nat.toDigits_ne_nil, toDigits_isDigit index, .inl rfl⟩

theorem slotNamesIn_of_leadingSlot? {s w : List Char} (h : leadingSlot? (w ++ s) = some w) :
    (w :: slotNamesIn s).Sublist (slotNamesIn (w ++ s)) := by
  cases w with
  | nil =>
    obtain ⟨number, rest, -, hw, -⟩ := leadingSlot?_eq_some_iff.mp h
    rw [slotHead_toList] at hw
    cases hw
  | cons c w =>
    rw [List.cons_append, slotNamesIn, ← List.cons_append, h]
    refine List.Sublist.cons_cons _ ?_
    exact slotNamesIn_within ⟨w, [], List.append_nil _⟩

/-- The number of placeholders among the parts of a text. -/
def slotCount (ps : List Piece) : Nat :=
  ps.countP fun | .slot _ => true | .char _ => false

/-- A filled fragment spells the names of its slots in order. -/
theorem slotNames_sublist_fillSlots (index : Nat) (ps : List Piece) :
    ((List.range' index (slotCount ps)).map fun i => (slotName i).toList).Sublist
      (slotNamesIn (fillSlots index ps)) := by
  induction ps generalizing index with
  | nil => exact List.nil_sublist _
  | cons p ps ih =>
    cases p with
    | char c =>
      rw [fillSlots]
      exact (ih index).trans (slotNamesIn_within ⟨[c], [], by simp⟩)
    | slot content =>
      have hcount : slotCount (.slot content :: ps) = slotCount ps + 1 := by
        simp [slotCount]
      rw [hcount, List.range'_succ, List.map_cons, fillSlots]
      calc (slotName index).toList :: (List.range' (index + 1) (slotCount ps)).map _
        _ |>.Sublist ((slotName index).toList :: slotNamesIn (fillSlots (index + 1) ps)) :=
          (ih (index + 1)).cons_cons _
        _ |>.Sublist _ := slotNamesIn_of_leadingSlot? (leadingSlot?_slotName index _)

theorem length_parseAll {ps : List Piece} {found : List Placeholder}
    (h : Placeholder.parseAll ps = .ok found) : found.length = slotCount ps := by
  induction ps generalizing found with
  | nil =>
    cases h
    rfl
  | cons p ps ih =>
    cases p with
    | char c => exact ih h
    | slot content =>
      rw [Placeholder.parseAll] at h
      split at h
      next p _ =>
        cases hrest : Placeholder.parseAll ps with
        | error e =>
          rw [hrest] at h
          cases h
        | ok rest =>
          rw [hrest] at h
          cases h
          simp [slotCount, ih hrest]
      next => cases h

theorem isNumber_of_readIndex? {s : List Char} (h : (readIndex? s).isSome) : IsNumber s := by
  have hdigits (digits : List Char) {α : Type} {answer : Option α}
      (h : (if digits.isEmpty || !digits.all Char.isDigit then none else answer).isSome) :
      digits ≠ [] ∧ ∀ c ∈ digits, c.isDigit = true := by
    split at h
    next => cases h
    next hcond => simpa using hcond
  unfold readIndex? at h
  split at h
  next rest =>
    obtain ⟨hne, hall⟩ := hdigits rest h
    exact ⟨rest, hne, hall, .inr rfl⟩
  next =>
    obtain ⟨hne, hall⟩ := hdigits s h
    exact ⟨s, hne, hall, .inl rfl⟩

/-- An identifier that stands for a slot spells its own name. -/
theorem mem_slotNamesIn_of_slotIndex? {text : String} (h : (slotIndex? text).isSome) :
    [text.toList].Sublist (slotNamesIn text.toList) := by
  obtain ⟨index, h⟩ := Option.isSome_iff_exists.mp h
  simp only [slotIndex?, Option.bind_eq_bind, Option.bind_eq_some_iff] at h
  obtain ⟨rest, hhead, number, htail, hread⟩ := h
  rw [List.isPrefixOf?_eq_some_iff_append_eq] at hhead
  rw [List.isSuffixOf?_eq_some_iff_append_eq] at htail
  have hnumber : IsNumber number := isNumber_of_readIndex? (by rw [hread]; rfl)
  have hleading : leadingSlot? (text.toList ++ []) = some text.toList :=
    leadingSlot?_eq_some_iff.mpr ⟨number, [], hnumber, by rw [List.append_assoc, htail, hhead], rfl⟩
  simpa [slotNamesIn] using slotNamesIn_of_leadingSlot? hleading

/-! ## The tokens of a body -/

namespace Template

/-- A token that an argument can be put in place of. -/
def isSlot (token : Kind × String) : Bool :=
  token.1 == .identifier && (slotIndex? token.2).isSome

/-- The identifiers of a body that an argument can be put in place of, in document order. -/
def slotTexts (body : List Tree) : List String :=
  ((Tree.tokensOf body).filter isSlot).map (·.2)

/-- The fragment as it is read: with the names of the slots for the placeholders. -/
def filled (t : Template) : List Char :=
  fillSlots 0 (pieces t.fragment.toList)

/-- Every placeholder is an identifier of the body, in order, and no other token spells the name of a
slot. -/
structure RealSlots (t : Template) : Prop where
  slots : slotTexts t.body = (List.range t.placeholders.length).map slotName
  others : ∀ token ∈ Tree.tokensOf t.body, isSlot token = false → slotNamesIn token.2.toList = []

theorem flatMap_slotNamesIn_sublist (tokens : List (Kind × String)) :
    (tokens.flatMap fun token => slotNamesIn token.2.toList).Sublist
      (slotNamesIn (Tree.joinTokens tokens).toList) := by
  rw [Tree.joinTokens_toList]
  induction tokens with
  | nil => exact List.Sublist.refl _
  | cons token tokens ih =>
    rw [List.flatMap_cons, List.flatMap_cons]
    exact ((List.Sublist.refl _).append ih).trans (slotNamesIn_append _ _)

theorem slots_sublist (tokens : List (Kind × String)) :
    ((tokens.filter isSlot).map (·.2.toList)).Sublist
      (tokens.flatMap fun token => slotNamesIn token.2.toList) := by
  induction tokens with
  | nil => exact List.Sublist.refl _
  | cons token tokens ih =>
    rw [List.flatMap_cons]
    cases h : isSlot token with
    | false =>
      rw [List.filter_cons_of_neg (by simp [h])]
      exact ih.trans (List.sublist_append_right _ _)
    | true =>
      rw [List.filter_cons_of_pos h, List.map_cons]
      have hname := mem_slotNamesIn_of_slotIndex? (Bool.and_eq_true_iff.mp h).2
      exact hname.append ih

/-- If the tokens spell no more slot names than there are slots, then the other tokens spell none. -/
theorem slotNamesIn_eq_nil_of_length_le {tokens : List (Kind × String)}
    (h : (tokens.flatMap fun token => slotNamesIn token.2.toList).length ≤
      (tokens.filter isSlot).length) :
    ∀ token ∈ tokens, isSlot token = false → slotNamesIn token.2.toList = [] := by
  induction tokens with
  | nil => simp
  | cons token tokens ih =>
    have hrest := (slots_sublist tokens).length_le
    rw [List.length_map] at hrest
    rw [List.flatMap_cons, List.length_append] at h
    cases hslot : isSlot token with
    | false =>
      rw [List.filter_cons_of_neg (by simp [hslot])] at h
      have hnil : (slotNamesIn token.2.toList).length = 0 := by omega
      intro other hother hfree
      rcases List.mem_cons.mp hother with rfl | hother
      · exact List.length_eq_zero_iff.mp hnil
      · exact ih (by omega) other hother hfree
    | true =>
      rw [List.filter_cons_of_pos hslot, List.length_cons] at h
      have hone := (mem_slotNamesIn_of_slotIndex? (Bool.and_eq_true_iff.mp hslot).2).length_le
      rw [List.length_singleton] at hone
      intro other hother hfree
      rcases List.mem_cons.mp hother with rfl | hother
      · rw [hslot] at hfree
        cases hfree
      · exact ih (by omega) other hother hfree

/-! ## Reading a fragment -/

theorem dropWhile_both_within {α : Type} (p q : α → Bool) (l : List α) :
    ((l.dropWhile p).reverse.dropWhile q).reverse <:+: l := by
  have hend : ((l.dropWhile p).reverse.dropWhile q).reverse <+: l.dropWhile p := by
    rw [← List.reverse_suffix, List.reverse_reverse]
    exact List.dropWhile_suffix q
  exact hend.isInfix.trans (List.dropWhile_suffix p).isInfix

theorem text_of_expressionOf? {root : Tree} {fragment : String} {body : List Tree}
    (h : expressionOf? root fragment = some body) :
    ∃ expression, body = [expression] ∧
      expression.text.toList = Text.trim fragment.toList := by
  unfold expressionOf? at h
  split at h
  next => cases h
  next =>
    split at h
    next expression semicolon _ =>
      rw [Option.ite_none_right_eq_some, Bool.and_eq_true, beq_iff_eq, beq_iff_eq] at h
      obtain ⟨⟨-, htext⟩, hbody⟩ := h
      refine ⟨expression, (Option.some.inj hbody).symm, ?_⟩
      rw [htext, String.toList_ofList]
    next => cases h

theorem insideParens?_within {list inner : List Tree} (h : insideParens? list = some inner) :
    inner <:+: list := by
  unfold insideParens? at h
  split at h
  next first rest =>
    split at h
    next =>
      rw [Option.ite_none_right_eq_some] at h
      rw [← Option.some.inj h.2]
      exact (List.dropLast_prefix rest).isInfix.trans (List.suffix_cons first rest).isInfix
    next => cases h
  next => cases h

/-- All that can be found of a fragment in an argument list: the list is that of a call and spells the
fragment in its parentheses. -/
theorem argumentsOf?_cases {root : Tree} {fragment : String} {body : List Tree}
    (h : argumentsOf? root fragment = some body) :
    ∃ call contents inside, call ∈ root.nodes ∧ call.kind = .methodInvocation ∧
      Tree.node .argumentList contents ∈ call.children ∧
      (Tree.joinTokens (Tree.tokensOf contents)).toList = '(' :: (fragment.toList ++ [')']) ∧
      insideParens? contents = some inside ∧ body = dropOuterSpace inside := by
  simp only [argumentsOf?, Option.bind_eq_bind, Option.bind_eq_some_iff] at h
  obtain ⟨call, hcall, list, hlist, h⟩ := h
  have hkind : call.kind = .methodInvocation := by
    have hfound := List.find?_some hcall
    simp only [Call.isCall, Bool.and_eq_true, beq_iff_eq] at hfound
    exact hfound.1.2
  obtain ⟨hchild, hisList⟩ := List.mem_filter.mp (List.mem_of_getLast? hlist)
  obtain ⟨contents, rfl⟩ := isArgumentList_iff.mp hisList
  split at h
  next => cases h
  next htext =>
    simp only [Option.bind_eq_some_iff] at h
    obtain ⟨inside, hinside, h⟩ := h
    rw [Option.ite_none_left_eq_some] at h
    refine ⟨call, contents, inside, List.mem_of_find?_eq_some hcall, hkind, hchild, ?_, hinside,
      (Option.some.inj h.2).symm⟩
    simp only [bne_iff_ne, ne_eq, not_not] at htext
    change (Tree.text (.node .argumentList contents)).toList = _
    rw [htext]
    simp

theorem text_of_argumentsOf? {root : Tree} {fragment : String} {body : List Tree}
    (h : argumentsOf? root fragment = some body) :
    ∃ children, (Tree.joinTokens (Tree.tokensOf children)).toList =
      '(' :: (fragment.toList ++ [')']) ∧ body <:+: children := by
  obtain ⟨call, contents, inside, -, -, -, htext, hinside, rfl⟩ := argumentsOf?_cases h
  exact ⟨contents, htext, (dropWhile_both_within _ _ inside).trans (insideParens?_within hinside)⟩

variable {parser : Parser} {fragment : String} {placeholders : List Placeholder}
  {imports : List String} {target : Target} {t : Template}

/-- The text of a body stands in the text that was read. -/
theorem slotNamesIn_readBody {body : List Tree} (h : readBody (JavaUnit.parseWith parser) fragment target = .ok body) :
    (slotNamesIn (Tree.joinTokens (Tree.tokensOf body)).toList).Sublist
      (slotNamesIn (fillSlots 0 (pieces fragment.toList))) := by
  obtain ⟨u, -, -, hfound⟩ := readBody_eq_ok_iff.mp h
  cases target with
  | invocation =>
    obtain ⟨expression, rfl, htext⟩ := text_of_expressionOf? hfound
    rw [String.toList_ofList] at htext
    rw [Tree.tokensOf_singleton]
    change (slotNamesIn expression.text.toList).Sublist _
    rw [htext]
    exact slotNamesIn_within (dropWhile_both_within _ _ _)
  | arguments =>
    obtain ⟨children, htext, before, after, rfl⟩ := text_of_argumentsOf? hfound
    rw [String.toList_ofList] at htext
    rw [← slotNamesIn_rightParen (fillSlots 0 (pieces fragment.toList)),
      ← slotNamesIn_leftParen (fillSlots 0 (pieces fragment.toList) ++ [')']), ← htext]
    apply slotNamesIn_within
    simp only [Tree.tokensOf_append, Tree.joinTokens_toList, List.flatMap_append]
    exact List.infix_append _ _ _

/-! ## Counting slots -/

theorem length_of_checkPlaceholders {u : Unit}
    (h : checkPlaceholders fragment placeholders = .ok u) :
    placeholders.length = slotCount (pieces fragment.toList) := by
  unfold checkPlaceholders scan at h
  simp only [bind, Except.bind] at h
  split at h
  next => cases h
  next found hfound =>
    split at h
    next => cases h
    next hlength =>
      rw [ne_eq, not_not] at hlength
      split at hfound
      next scanned hscan =>
        cases hfound
        rw [← hlength]
        exact length_parseAll hscan
      next => cases hfound

/-- The names of the placeholders are spelled in the fragment as it is read, and the slots of the
body are among them. -/
theorem slotTexts_sublist (h : compileWith parser fragment placeholders imports target = .ok t) :
    ((List.range placeholders.length).map fun i => (slotName i).toList).Sublist
        (slotNamesIn t.filled) ∧
      ((slotTexts t.body).map String.toList).Sublist (slotNamesIn t.filled) := by
  have hcompiled := compileWith_eq_ok_iff.mp h
  rw [filled, hcompiled.fragment_eq]
  constructor
  · rw [length_of_checkPlaceholders hcompiled.declared, List.range_eq_range']
    exact slotNames_sublist_fillSlots 0 _
  · rw [slotTexts, List.map_map]
    exact (slots_sublist _).trans
      ((flatMap_slotNamesIn_sublist _).trans (slotNamesIn_readBody hcompiled.read))

theorem realSlots_iff (h : compileWith parser fragment placeholders imports target = .ok t)
    (hspelled : (slotNamesIn t.filled).length = t.placeholders.length) :
    t.RealSlots ↔ (slotTexts t.body).length = t.placeholders.length := by
  have hcompiled := compileWith_eq_ok_iff.mp h
  obtain ⟨hnames, htexts⟩ := slotTexts_sublist h
  rw [← hcompiled.placeholders_eq] at hnames
  constructor
  · intro hreal
    rw [hreal.slots, List.length_map, List.length_range]
  · intro hlength
    -- Three lists of the same length, two of them contained in the third.
    have heqNames := hnames.eq_of_length (by simp [hspelled])
    have heqTexts := htexts.eq_of_length (by simp [hspelled, hlength])
    refine ⟨?_, ?_⟩
    · apply List.map_injective_iff.mpr fun _ _ heq => String.toList_injective heq
      rw [heqTexts, ← heqNames, List.map_map]
      rfl
    · apply slotNamesIn_eq_nil_of_length_le
      have hle := (flatMap_slotNamesIn_sublist (Tree.tokensOf t.body)).trans
        (slotNamesIn_readBody hcompiled.read)
      rw [filled, hcompiled.fragment_eq] at hspelled
      have hle := hle.length_le
      rw [slotTexts, List.length_map] at hlength
      omega

/-! ## Arguments in the slots -/

/-- The tokens of an argument in a slot: its own, or those with a pair of parentheses around them. -/
def Grouped (argument : Tree) (tokens : List (Kind × String)) : Prop :=
  tokens = argument.tokens ∨
    tokens = (.leftParen, "(") :: (argument.tokens ++ [(.rightParen, ")")])

/-- Tokens with the slots replaced one after the other; all other tokens stay. -/
def weave : List (List (Kind × String)) → List (Kind × String) → List (Kind × String)
  | _, [] => []
  | [], tokens => tokens
  | fill :: fills, token :: tokens =>
    if isSlot token then fill ++ weave fills tokens else token :: weave (fill :: fills) tokens

theorem grouped_group (parent : Option Kind) (t : Tree) : Grouped t (group parent t).tokens := by
  unfold group
  split
  next => exact .inl rfl
  next =>
    right
    simp [parenthesize, Tree.tokens, Tree.tokensOf]

/-- The tokens of a body before and after substitution. -/
inductive Filled (captured : List Tree) : List (Kind × String) → List (Kind × String) → Prop
  | nil : Filled captured [] []
  | keep {token tokens out} : capturedAt? captured token.1 token.2 = none →
      Filled captured tokens out → Filled captured (token :: tokens) (token :: out)
  | slot {token tokens out argument fill} : capturedAt? captured token.1 token.2 = some argument →
      Grouped argument fill → Filled captured tokens out →
        Filled captured (token :: tokens) (fill ++ out)

theorem Filled.append {captured : List Tree} {a a' b b' : List (Kind × String)}
    (ha : Filled captured a a') (hb : Filled captured b b') :
    Filled captured (a ++ b) (a' ++ b') := by
  induction ha with
  | nil => exact hb
  | keep hnone _ ih => exact .keep hnone ih
  | slot hsome hgroup _ ih =>
    rw [List.cons_append, List.append_assoc]
    exact .slot hsome hgroup ih

mutual
theorem filled_substitute (captured : List Tree) (parent : Option Kind) :
    ∀ t : Tree, Filled captured t.tokens (substitute captured parent t).tokens
  | .token k s => by
    rw [substitute, Tree.tokens]
    split
    next argument hsome =>
      rw [← List.append_nil (group parent argument).tokens]
      exact .slot hsome (grouped_group parent argument) .nil
    next hnone => exact .keep hnone .nil
  | .node k cs => filled_substituteAll captured (some k) cs
theorem filled_substituteAll (captured : List Tree) (parent : Option Kind) :
    ∀ ts : List Tree,
      Filled captured (Tree.tokensOf ts) (Tree.tokensOf (substituteAll captured parent ts))
  | [] => .nil
  | t :: ts => (filled_substitute captured parent t).append (filled_substituteAll captured parent ts)
end

theorem readIndex?_toDigits {index j : Nat} (h : readIndex? (Nat.toDigits 10 index) = some j) :
    j = index := by
  have hdigits := toDigits_isDigit index
  unfold readIndex? at h
  split at h
  next rest hplus =>
    rw [hplus] at hdigits
    exact absurd (hdigits '+' List.mem_cons_self) (by decide)
  next =>
    simp only [Option.ite_none_left_eq_some, Option.ite_none_right_eq_some, Option.some.injEq] at h
    have hvalue := Nat.ofDigitChars_ten_toDigits (n := index)
    rw [Nat.ofDigitChars_eq_foldl] at hvalue
    simp only [Nat.mul_comm 10] at hvalue
    exact h.2.2.symm.trans hvalue

theorem slotIndex?_slotName {index j : Nat} (h : slotIndex? (slotName index) = some j) :
    j = index := by
  simp only [slotIndex?, Option.bind_eq_bind, Option.bind_eq_some_iff] at h
  obtain ⟨rest, hhead, number, htail, hread⟩ := h
  rw [List.isPrefixOf?_eq_some_iff_append_eq, slotName_toList, List.append_assoc] at hhead
  rw [List.isSuffixOf?_eq_some_iff_append_eq] at htail
  have hnumber : number = Nat.toDigits 10 index := by
    rw [← htail] at hhead
    exact List.append_cancel_right (List.append_cancel_left hhead)
  subst hnumber
  exact readIndex?_toDigits hread

theorem weave_nil (tokens : List (Kind × String)) : weave [] tokens = tokens := by
  cases tokens <;> rfl

theorem isSlot_iff {token : Kind × String} :
    isSlot token = true ↔ token.1 = .identifier ∧ ∃ index, slotIndex? token.2 = some index := by
  rw [isSlot, Bool.and_eq_true, beq_iff_eq, Option.isSome_iff_exists]

theorem capturedAt?_eq_some_iff {captured : List Tree} {k : Kind} {text : String} {argument : Tree} :
    capturedAt? captured k text = some argument ↔
      k = .identifier ∧ ∃ index, slotIndex? text = some index ∧ captured[index]? = some argument := by
  rw [capturedAt?, Option.ite_none_right_eq_some, beq_iff_eq, Option.bind_eq_some_iff]

/-- With the slots of a body named in order from `index` on, each takes the next argument. -/
theorem Filled.eq_weave {captured : List Tree} {tokens out : List (Kind × String)}
    (h : Filled captured tokens out) {index count : Nat}
    (hslots : (tokens.filter isSlot).map (·.2) = (List.range' index count).map slotName)
    (hcount : index + count = captured.length) :
    ∃ fills, List.Forall₂ Grouped (captured.drop index) fills ∧ out = weave fills tokens := by
  induction h generalizing index count with
  | nil =>
    have hzero : count = 0 := by simpa using (congrArg List.length hslots).symm
    subst hzero
    rw [List.drop_of_length_le (by omega)]
    exact ⟨[], .nil, rfl⟩
  | @keep token tokens out hnone _ ih =>
    have hfree : isSlot token = false := by
      by_contra hslot
      rw [Bool.not_eq_false] at hslot
      rw [List.filter_cons_of_pos hslot, List.map_cons] at hslots
      obtain ⟨hkind, j, hj⟩ := isSlot_iff.mp hslot
      cases count with
      | zero => cases hslots
      | succ count =>
        rw [List.range'_succ, List.map_cons, List.cons.injEq] at hslots
        rw [hslots.1] at hj
        have hlt : index < captured.length := by omega
        have hsome := capturedAt?_eq_some_iff.mpr
          ⟨hkind, index, hslots.1 ▸ slotIndex?_slotName hj ▸ hj, List.getElem?_eq_getElem hlt⟩
        rw [hnone] at hsome
        cases hsome
    rw [List.filter_cons_of_neg (by simp [hfree])] at hslots
    obtain ⟨fills, hfills, rfl⟩ := ih hslots hcount
    refine ⟨fills, hfills, ?_⟩
    cases fills with
    | nil => rw [weave_nil, weave_nil]
    | cons fill fills => rw [weave, if_neg (by simp [hfree])]
  | @slot token tokens out argument fill hsome hgroup _ ih =>
    obtain ⟨hkind, j, hj, hargument⟩ := capturedAt?_eq_some_iff.mp hsome
    have hslot : isSlot token = true := isSlot_iff.mpr ⟨hkind, j, hj⟩
    rw [List.filter_cons_of_pos hslot, List.map_cons] at hslots
    cases count with
    | zero => cases hslots
    | succ count =>
      rw [List.range'_succ, List.map_cons, List.cons.injEq] at hslots
      obtain ⟨hname, hslots⟩ := hslots
      rw [hname] at hj
      cases slotIndex?_slotName hj
      obtain ⟨fills, hfills, rfl⟩ := ih hslots (by omega)
      refine ⟨fill :: fills, ?_, ?_⟩
      · obtain ⟨hlt, rfl⟩ := List.getElem?_eq_some_iff.mp hargument
        rw [List.drop_eq_getElem_cons hlt]
        exact .cons hgroup hfills
      · rw [weave, if_pos hslot]

theorem mem_weave {fills : List (List (Kind × String))} {tokens : List (Kind × String)}
    (h : fills.length = (tokens.filter isSlot).length) {token : Kind × String}
    (hmem : token ∈ weave fills tokens) :
    (∃ fill ∈ fills, token ∈ fill) ∨ (token ∈ tokens ∧ isSlot token = false) := by
  induction tokens generalizing fills with
  | nil =>
    cases fills <;> cases hmem
  | cons first tokens ih =>
    cases hslot : isSlot first with
    | true =>
      rw [List.filter_cons_of_pos hslot, List.length_cons] at h
      cases fills with
      | nil => cases h
      | cons fill fills =>
        rw [weave, if_pos hslot, List.mem_append] at hmem
        rcases hmem with hmem | hmem
        · exact .inl ⟨fill, List.mem_cons_self, hmem⟩
        · rcases ih (by simpa using h) hmem with ⟨other, hother, hin⟩ | ⟨hin, hfree⟩
          · exact .inl ⟨other, List.mem_cons_of_mem _ hother, hin⟩
          · exact .inr ⟨List.mem_cons_of_mem _ hin, hfree⟩
    | false =>
      rw [List.filter_cons_of_neg (by simp [hslot])] at h
      have hweave : weave fills (first :: tokens) = first :: weave fills tokens := by
        cases fills with
        | nil => rw [weave_nil, weave_nil]
        | cons fill fills => rw [weave, if_neg (by simp [hslot])]
      rw [hweave, List.mem_cons] at hmem
      rcases hmem with rfl | hmem
      · exact .inr ⟨List.mem_cons_self, hslot⟩
      · rcases ih h hmem with hfill | ⟨hin, hfree⟩
        · exact .inl hfill
        · exact .inr ⟨List.mem_cons_of_mem _ hin, hfree⟩

/-! ## Replacing a call -/

/-- A token of the call, or a parenthesis around the replacement. -/
def FromCall (call : Tree) (token : Kind × String) : Prop :=
  token ∈ call.tokens ∨ token = (.leftParen, "(") ∨ token = (.rightParen, ")")

theorem fromCall_group (call : Tree) (parent : Option Kind) (t : Tree) :
    ∃ before after, (group parent t).tokens = before ++ t.tokens ++ after ∧
      ∀ token ∈ before ++ after, FromCall call token := by
  rcases grouped_group parent t with h | h
  · exact ⟨[], [], by rw [h, List.nil_append, List.append_nil], by simp⟩
  · refine ⟨[(.leftParen, "(")], [(.rightParen, ")")], h, ?_⟩
    intro token htoken
    rcases List.mem_cons.mp htoken with rfl | htoken
    · exact .inr (.inl rfl)
    · exact .inr (.inr (List.mem_singleton.mp htoken))

theorem leadingTrivia_sublist (ts : List Tree) : (leadingTrivia ts).Sublist ts :=
  List.takeWhile_sublist _

theorem trailingTrivia_sublist (ts : List Tree) : (trailingTrivia ts).Sublist ts := by
  rw [← List.reverse_sublist, trailingTrivia, List.reverse_reverse]
  exact List.takeWhile_sublist _

theorem isTrivia_of_mem_leadingTrivia {ts : List Tree} {t : Tree} (h : t ∈ leadingTrivia ts) :
    t.kind.isTrivia = true := by
  unfold leadingTrivia at h
  have htrivia := List.mem_takeWhile_imp h
  exact htrivia

theorem isTrivia_of_mem_trailingTrivia {ts : List Tree} {t : Tree} (h : t ∈ trailingTrivia ts) :
    t.kind.isTrivia = true := by
  rw [trailingTrivia, List.mem_reverse] at h
  have htrivia := List.mem_takeWhile_imp h
  exact htrivia

/-- A replaced call is made of its own tokens and of the body with the selected arguments. -/
theorem tokens_replacement? {t : Template} {call new : Tree} {selected : List Nat}
    {parent : Option Kind} (h : t.replacement? call selected parent = some new) :
    ∃ captured before inner after,
      (selected.mapM fun index => (Call.arguments call)[index]?) = some captured ∧
      captured.length = t.placeholders.length ∧
      Filled captured (Tree.tokensOf t.body) inner ∧
      new.tokens = before ++ inner ++ after ∧ ∀ token ∈ before ++ after, FromCall call token := by
  obtain ⟨captured, hcaptured, hcount, hnew⟩ := replacement?_cases h
  rcases hnew with ⟨-, body, hbody, rfl⟩ |
    ⟨-, ahead, opening, inside, closing, behind, rfl, -, -, -, rfl⟩
  · obtain ⟨before, after, htokens, hfrom⟩ := fromCall_group call parent (substitute captured none body)
    refine ⟨captured, before, _, after, hcaptured, hcount, ?_, htokens, hfrom⟩
    rw [hbody, Tree.tokensOf_singleton]
    exact filled_substitute captured none body
  · refine ⟨captured, Tree.tokensOf (ahead ++ opening :: leadingTrivia inside), _,
      Tree.tokensOf (trailingTrivia inside ++ closing :: behind), hcaptured, hcount,
      filled_substituteAll captured (some .argumentList) t.body, ?_, ?_⟩
    · simp [Tree.tokens, Tree.tokensOf]
    · intro token htoken
      left
      have hleading := Tree.tokensOf_sublist (leadingTrivia_sublist inside)
      have htrailing := Tree.tokensOf_sublist (trailingTrivia_sublist inside)
      simp only [Tree.tokens, Tree.tokensOf, Tree.tokensOf_append, List.mem_append] at htoken ⊢
      grind [List.Sublist.subset]

/-- **When a compiled template has real slots**, whatever the parser: where the fragment as it is read
spells no further slot name, exactly if its body has as many slot identifiers as there are placeholders.
Then every replaced call holds each selected argument once, in order, and no slot name of the
template. -/
theorem compile_realSlots_iff
    (h : compileWith parser fragment placeholders imports target = .ok t) :
    (t.RealSlots ∧ (slotNamesIn t.filled).length = placeholders.length ↔
      (slotTexts t.body).length = placeholders.length ∧
        (slotNamesIn t.filled).length = placeholders.length) ∧
    (t.RealSlots → ∀ (call new : Tree) (selected : List Nat) (parent : Option Kind),
      t.replacement? call selected parent = some new →
      ∃ captured fills before after,
        (selected.mapM fun index => (Call.arguments call)[index]?) = some captured ∧
        captured.length = placeholders.length ∧ List.Forall₂ Grouped captured fills ∧
        new.tokens = before ++ weave fills (Tree.tokensOf t.body) ++ after ∧
        (∀ token ∈ before ++ after, FromCall call token) ∧
        ∀ token ∈ weave fills (Tree.tokensOf t.body),
          (∃ fill ∈ fills, token ∈ fill) ∨ slotNamesIn token.2.toList = []) := by
  have hplaceholders := (compileWith_eq_ok_iff.mp h).placeholders_eq
  constructor
  · rw [← hplaceholders]
    exact and_congr_left (realSlots_iff h)
  · intro hreal call new selected parent hnew
    obtain ⟨captured, before, inner, after, hcaptured, hcount, hfilled, htokens, hfrom⟩ :=
      tokens_replacement? hnew
    have hslots : ((Tree.tokensOf t.body).filter isSlot).map (·.2) =
        (List.range' 0 captured.length).map slotName := by
      rw [hcount, ← List.range_eq_range']
      exact hreal.slots
    obtain ⟨fills, hfills, rfl⟩ := hfilled.eq_weave hslots (Nat.zero_add _)
    rw [List.drop_zero] at hfills
    refine ⟨captured, fills, before, after, hcaptured, hcount.trans (by rw [hplaceholders]),
      hfills, htokens, hfrom, ?_⟩
    intro token htoken
    have hlength : fills.length = ((Tree.tokensOf t.body).filter isSlot).length := by
      have hsame := congrArg List.length hslots
      rw [List.length_map, List.length_map, List.length_range'] at hsame
      rw [hsame, hfills.length_eq]
    rcases mem_weave hlength htoken with hfill | ⟨hmem, hfree⟩
    · exact .inl hfill
    · exact .inr (hreal.others token hmem hfree)

def callOf (arguments : List Tree) : Tree :=
  .node .methodInvocation [.token .identifier "f", .node .argumentList
    ([.token .leftParen "("] ++ arguments ++ [.token .rightParen ")"])]

theorem compile_realSlots_iff_max :
    ∃ t, compile "Math.max(#\x7b\x7d, #\x7b\x7d)" [.any, .any] [] .arguments = .ok t ∧ t.RealSlots ∧
      ∃ new, t.replacement? (callOf [.token .identifier "a", .token .comma ",",
          .token .identifier "b"]) [1, 0] none = some new ∧
        new.text = "f(Math.max(b, a))" := by
  have hcheck : (compile "Math.max(#\x7b\x7d, #\x7b\x7d)" [.any, .any] [] .arguments).toOption.any
      (fun t => (slotTexts t.body).length == 2 && (slotNamesIn t.filled).length == 2 &&
        (t.replacement? (callOf [.token .identifier "a", .token .comma ",",
          .token .identifier "b"]) [1, 0] none).any (·.text == "f(Math.max(b, a))")) = true := by
    rw [compile_eq]
    decide +kernel
  obtain ⟨t, ht, hcounts⟩ := exists_ok_of_any hcheck
  simp only [Bool.and_eq_true, beq_iff_eq] at hcounts
  obtain ⟨⟨hslots, hspelled⟩, hnew⟩ := hcounts
  refine ⟨t, ht, ((compile_realSlots_iff ht).1.mpr ⟨hslots, hspelled⟩).1, ?_⟩
  rw [Option.any_eq_true] at hnew
  simpa using hnew

/-- A placeholder inside of a string is accepted, but it is no slot: the argument is lost, and the
name of the slot stays. -/
theorem compile_slot_in_string :
    ∃ t, compile "Timeout.ofMilliseconds(\"#\x7b\x7d\")" [.any] ["a.Timeout"] .arguments = .ok t ∧
      slotTexts t.body = [] ∧ ¬ t.RealSlots ∧
      ∃ new, t.replacement? (callOf [.token .identifier "a"]) [0] none = some new ∧
        new.text = "f(Timeout.ofMilliseconds(\"__hcrewrite_slot0__\"))" := by
  have hcheck : (compile "Timeout.ofMilliseconds(\"#\x7b\x7d\")" [.any] ["a.Timeout"]
      .arguments).toOption.any (fun t => t.placeholders == [.any] && (slotTexts t.body).isEmpty &&
        (t.replacement? (callOf [.token .identifier "a"]) [0] none).any
          (·.text == "f(Timeout.ofMilliseconds(\"__hcrewrite_slot0__\"))")) = true := by
    rw [compile_eq]
    decide +kernel
  obtain ⟨t, ht, hcounts⟩ := exists_ok_of_any hcheck
  simp only [Bool.and_eq_true, beq_iff_eq, List.isEmpty_iff] at hcounts
  obtain ⟨⟨hplaceholders, hslots⟩, hnew⟩ := hcounts
  refine ⟨t, ht, hslots, ?_, ?_⟩
  · intro hreal
    have hnames := hreal.slots
    rw [hslots, hplaceholders] at hnames
    cases hnames
  · rw [Option.any_eq_true] at hnew
    simpa using hnew

end Template

end CallMigration
