import CallMigration.Proofs.Basic
import Mathlib.Data.List.Basic

/-!
# Where line comments end

A line comment reaches to the end of its line. In a list of tokens it is ended by a whitespace token
with a line break; a token that is neither whitespace nor a comment and comes before that stands in
the comment's line and is lost in it.

* `EndsLines` : every line comment is ended before the next such token.
* `OpenEnded` : the last line comment is not ended.
* `lineAfter` : reads tokens from left to right and remembers whether a line comment is open.
* `endsLines_iff`, `openEnded_iff` : the two conditions are its answers.
* `Solid` : tokens that can stand wherever a single token can.
-/

namespace CallMigration

def isBreak (token : Kind × String) : Bool :=
  token.1 == .whitespace && token.2.toList.contains '\n'

/-- The first token that is a line break or neither whitespace nor a comment. -/
def decider? (tokens : List (Kind × String)) : Option (Kind × String) :=
  tokens.find? fun token => isBreak token || !token.1.isTrivia

/-- Behind every line comment there is a line break before any token that is neither whitespace nor a
comment. -/
def EndsLines (tokens : List (Kind × String)) : Prop :=
  ∀ before text after, tokens = before ++ (.lineComment, text) :: after →
    (decider? after).any isBreak = true

/-- Only whitespace without line breaks and comments follow the last line comment. -/
def OpenEnded (tokens : List (Kind × String)) : Prop :=
  ∃ before text after, tokens = before ++ (.lineComment, text) :: after ∧ decider? after = none

/-! ## Reading tokens from left to right -/

/-- Whether a line comment is open behind a token; there is no answer if the token is lost in the line
comment in front of it. -/
def lineStep (isOpen : Bool) (token : Kind × String) : Option Bool :=
  if token.1 == .lineComment then some true
  else if token.1.isTrivia then some (isOpen && !isBreak token)
  else bif isOpen then none else some false

/-- Whether a line comment is open behind tokens, none of which is lost in a line comment. -/
def lineAfter (isOpen : Bool) (tokens : List (Kind × String)) : Option Bool :=
  tokens.foldlM lineStep isOpen

@[simp]
theorem lineAfter_nil (isOpen : Bool) : lineAfter isOpen [] = some isOpen := rfl

theorem lineAfter_cons (isOpen : Bool) (token : Kind × String) (tokens : List (Kind × String)) :
    lineAfter isOpen (token :: tokens) = (lineStep isOpen token).bind (lineAfter · tokens) :=
  List.foldlM_cons

theorem lineAfter_append (isOpen : Bool) (as bs : List (Kind × String)) :
    lineAfter isOpen (as ++ bs) = (lineAfter isOpen as).bind (lineAfter · bs) :=
  List.foldlM_append

theorem lineStep_comment (isOpen : Bool) (text : String) :
    lineStep isOpen (.lineComment, text) = some true := rfl

theorem lineStep_trivia {isOpen : Bool} {token : Kind × String} (hcomment : token.1 ≠ .lineComment)
    (htrivia : token.1.isTrivia = true) :
    lineStep isOpen token = some (isOpen && !isBreak token) := by
  rw [lineStep, if_neg (by simpa using hcomment), if_pos htrivia]

theorem lineStep_significant {isOpen : Bool} {token : Kind × String}
    (h : token.1.isTrivia = false) :
    lineStep isOpen token = bif isOpen then none else some false := by
  have hcomment : token.1 ≠ .lineComment := by
    intro heq
    rw [heq] at h
    cases h
  rw [lineStep, if_neg (by simpa using hcomment), if_neg (by simp [h])]

/-- A blank text ends an open line comment with its first line break. -/
theorem lineStep_blank (isOpen : Bool) (text : List Char) :
    lineStep isOpen (.whitespace, String.ofList text) = some (isOpen && !text.contains '\n') := by
  have hbreak : isBreak (.whitespace, String.ofList text) = text.contains '\n' := by
    simp [isBreak]
  rw [lineStep_trivia (fun h => by cases h) rfl, hbreak]

theorem isTrivia_of_isBreak {token : Kind × String} (h : isBreak token = true) :
    token.1.isTrivia = true := by
  rw [isBreak, Bool.and_eq_true, beq_iff_eq] at h
  rw [h.1]
  rfl

/-- What decides about an open line comment is the first token that `decider?` finds. -/
theorem decider?_cons (token : Kind × String) (tokens : List (Kind × String)) :
    decider? (token :: tokens) =
      if isBreak token || !token.1.isTrivia then some token else decider? tokens := by
  rw [decider?, List.find?_cons]
  cases isBreak token || !token.1.isTrivia <;> rfl

theorem endsLines_nil : EndsLines [] := by
  intro before text after h
  cases before <;> cases h

theorem endsLines_cons (token : Kind × String) (tokens : List (Kind × String)) :
    EndsLines (token :: tokens) ↔
      (token.1 = .lineComment → (decider? tokens).any isBreak = true) ∧ EndsLines tokens := by
  constructor
  · intro h
    constructor
    · intro hcomment
      exact h [] token.2 tokens (by rw [← hcomment]; rfl)
    · rintro before text after rfl
      exact h (token :: before) text after rfl
  · rintro ⟨hfirst, hrest⟩ before text after heq
    cases before with
    | nil =>
      cases heq
      exact hfirst rfl
    | cons first before =>
      cases heq
      exact hrest before text after rfl

theorem openEnded_cons (token : Kind × String) (tokens : List (Kind × String)) :
    OpenEnded (token :: tokens) ↔
      (token.1 = .lineComment ∧ decider? tokens = none) ∨ OpenEnded tokens := by
  constructor
  · rintro ⟨before, text, after, heq, hnone⟩
    cases before with
    | nil =>
      cases heq
      exact .inl ⟨rfl, hnone⟩
    | cons first before =>
      cases heq
      exact .inr ⟨before, text, after, rfl, hnone⟩
  · rintro (⟨hcomment, hnone⟩ | ⟨before, text, after, rfl, hnone⟩)
    · exact ⟨[], token.2, tokens, by rw [← hcomment]; rfl, hnone⟩
    · exact ⟨token :: before, text, after, rfl, hnone⟩

theorem isBreak_of_significant {token : Kind × String} (h : token.1.isTrivia = false) :
    isBreak token = false := by
  cases hbreak : isBreak token with
  | false => rfl
  | true =>
    rw [isTrivia_of_isBreak hbreak] at h
    cases h

/-- From an open or a closed line on, the tokens are read to a closed one exactly if the comments among
them are ended and, where a comment is open already, that one is, too. -/
theorem lineAfter_eq_false_iff (isOpen : Bool) (tokens : List (Kind × String)) :
    lineAfter isOpen tokens = some false ↔
      EndsLines tokens ∧ (isOpen = true → (decider? tokens).any isBreak = true) := by
  induction tokens generalizing isOpen with
  | nil => cases isOpen <;> simp [endsLines_nil, decider?]
  | cons token tokens ih =>
    rw [lineAfter_cons, endsLines_cons, decider?_cons]
    by_cases hcomment : token.1 = .lineComment
    · -- The comment is open behind itself, and no break.
      obtain ⟨k, text⟩ := token
      cases hcomment
      have hno : (isBreak (.lineComment, text) || !Kind.lineComment.isTrivia) = false := rfl
      rw [lineStep_comment, Option.bind_some, ih, hno, if_neg Bool.false_ne_true]
      constructor
      · rintro ⟨hends, hbreak⟩
        exact ⟨⟨fun _ => hbreak rfl, hends⟩, fun _ => hbreak rfl⟩
      · rintro ⟨⟨hbreak, hends⟩, -⟩
        exact ⟨hends, fun _ => hbreak rfl⟩
    · cases htrivia : token.1.isTrivia with
      | true =>
        rw [lineStep_trivia hcomment htrivia, Option.bind_some, ih]
        cases hbreak : isBreak token <;> cases isOpen <;> simp [hcomment, hbreak]
      | false =>
        have hno := isBreak_of_significant htrivia
        rw [lineStep_significant htrivia]
        cases isOpen <;> simp [hcomment, hno, ih]

/-- Tokens that are read to an open line are those behind whose last line comment nothing ends it. -/
theorem lineAfter_eq_true {isOpen last : Bool} {tokens : List (Kind × String)}
    (h : lineAfter isOpen tokens = some last) :
    last = true ↔ OpenEnded tokens ∨ (isOpen = true ∧ decider? tokens = none) := by
  induction tokens generalizing isOpen with
  | nil =>
    cases h
    have hnot : ¬ OpenEnded [] := by
      rintro ⟨before, text, after, heq, -⟩
      cases before <;> cases heq
    simp [hnot, decider?]
  | cons token tokens ih =>
    obtain ⟨next, hstep, h⟩ := Option.bind_eq_some_iff.mp ((lineAfter_cons _ _ _).symm.trans h)
    rw [ih h, openEnded_cons, decider?_cons]
    by_cases hcomment : token.1 = .lineComment
    · obtain ⟨k, text⟩ := token
      cases hcomment
      cases hstep
      have hno : (isBreak (.lineComment, text) || !Kind.lineComment.isTrivia) = false := rfl
      rw [hno, if_neg Bool.false_ne_true]
      constructor
      · rintro (hopen | ⟨-, hnone⟩)
        · exact .inl (.inr hopen)
        · exact .inl (.inl ⟨rfl, hnone⟩)
      · rintro ((⟨-, hnone⟩ | hopen) | ⟨-, hnone⟩)
        · exact .inr ⟨rfl, hnone⟩
        · exact .inl hopen
        · exact .inr ⟨rfl, hnone⟩
    · cases htrivia : token.1.isTrivia with
      | true =>
        rw [lineStep_trivia hcomment htrivia] at hstep
        cases hstep
        cases isBreak token <;> simp [hcomment]
      | false =>
        rw [lineStep_significant htrivia] at hstep
        cases isOpen with
        | true => cases hstep
        | false =>
          cases hstep
          simp [hcomment]

/-- **Reading from left to right is right**: it ends on a closed line exactly if every line comment is
ended. -/
theorem endsLines_iff {tokens : List (Kind × String)} :
    EndsLines tokens ↔ lineAfter false tokens = some false := by
  simp [lineAfter_eq_false_iff]

instance (tokens : List (Kind × String)) : Decidable (EndsLines tokens) :=
  decidable_of_iff _ endsLines_iff.symm

theorem openEnded_iff {tokens : List (Kind × String)} {last : Bool}
    (h : lineAfter false tokens = some last) : last = true ↔ OpenEnded tokens := by
  simp [lineAfter_eq_true h]

/-- Of tokens that can be read, any part can be read. -/
theorem exists_lineAfter_of_append {isOpen last : Bool} {as bs : List (Kind × String)}
    (h : lineAfter isOpen (as ++ bs) = some last) :
    ∃ middle, lineAfter isOpen as = some middle ∧ lineAfter middle bs = some last :=
  Option.bind_eq_some_iff.mp ((lineAfter_append _ _ _).symm.trans h)

/-! ## Tokens that are read like a single one -/

/-- The tokens begin and end with one that is neither whitespace nor a comment. -/
def Bounded (tokens : List (Kind × String)) : Prop :=
  tokens.head?.any (fun token => !token.1.isTrivia) = true ∧
    tokens.getLast?.any (fun token => !token.1.isTrivia) = true

instance (tokens : List (Kind × String)) : Decidable (Bounded tokens) :=
  inferInstanceAs (Decidable (_ ∧ _))

/-- Read like a single token that is neither whitespace nor a comment. -/
def Solid (tokens : List (Kind × String)) : Prop :=
  ∀ isOpen, lineAfter isOpen tokens = bif isOpen then none else some false

theorem solid_significant {token : Kind × String} (h : token.1.isTrivia = false) :
    Solid [token] := by
  intro isOpen
  rw [lineAfter_cons, lineStep_significant h]
  cases isOpen <;> rfl

theorem bounded_significant {token : Kind × String} (h : token.1.isTrivia = false) :
    Bounded [token] := by
  simp [Bounded, h]

/-- Bounded tokens can only be read on a closed line, and leave one behind. -/
theorem Bounded.lines {tokens : List (Kind × String)} (hbounded : Bounded tokens)
    {isOpen last : Bool} (h : lineAfter isOpen tokens = some last) :
    isOpen = false ∧ last = false := by
  obtain ⟨hhead, hlast⟩ := hbounded
  constructor
  · cases tokens with
    | nil => cases hhead
    | cons token tokens =>
      have hsignificant : token.1.isTrivia = false := by simpa using hhead
      rw [lineAfter_cons, lineStep_significant hsignificant] at h
      cases isOpen with
      | true => cases h
      | false => rfl
  · rcases List.eq_nil_or_concat' tokens with rfl | ⟨tokens, token, rfl⟩
    · cases hlast
    · have hsignificant : token.1.isTrivia = false := by simpa using hlast
      obtain ⟨middle, -, h⟩ := exists_lineAfter_of_append h
      rw [lineAfter_cons, lineStep_significant hsignificant] at h
      cases middle with
      | true => cases h
      | false =>
        cases h
        rfl

theorem Bounded.solid {tokens : List (Kind × String)} (hbounded : Bounded tokens)
    {isOpen last : Bool} (h : lineAfter isOpen tokens = some last) : Solid tokens := by
  obtain ⟨rfl, rfl⟩ := hbounded.lines h
  intro isOpen
  cases isOpen with
  | false => exact h
  | true =>
    cases hopen : lineAfter true tokens with
    | none => rfl
    | some last => exact absurd (hbounded.lines hopen).1 (by decide)

theorem Solid.append {as bs : List (Kind × String)} (ha : Solid as) (hb : Solid bs) :
    Solid (as ++ bs) := by
  intro isOpen
  rw [lineAfter_append, ha]
  cases isOpen with
  | true => rfl
  | false => exact hb false

theorem decider?_of_trivia {tokens : List (Kind × String)}
    (htrivia : ∀ token ∈ tokens, token.1.isTrivia = true) :
    decider? tokens = tokens.find? isBreak := by
  induction tokens with
  | nil => rfl
  | cons token tokens ih =>
    rw [decider?_cons, htrivia token List.mem_cons_self, Bool.not_true, Bool.or_false,
      ih fun other hother => htrivia other (List.mem_cons_of_mem _ hother), List.find?_cons]
    cases isBreak token <;> rfl

/-- Among whitespace and comments, an open line comment is ended by any line break. -/
theorem lineAfter_true_of_trivia {tokens : List (Kind × String)}
    (htrivia : ∀ token ∈ tokens, token.1.isTrivia = true)
    (h : lineAfter false tokens = some false) :
    lineAfter true tokens = some false ↔ tokens.any isBreak = true := by
  rw [lineAfter_eq_false_iff, decider?_of_trivia htrivia]
  have hends := endsLines_iff.mpr h
  simp only [hends, true_and, forall_const]
  constructor
  · intro hany
    obtain ⟨token, hfound, hbreak⟩ := (Option.any_eq_true _ _).mp hany
    exact List.any_eq_true.mpr ⟨token, List.mem_of_find?_eq_some hfound, hbreak⟩
  · intro hany
    obtain ⟨token, hfound⟩ := Option.isSome_iff_exists.mp
      ((List.find?_isSome).mpr (List.any_eq_true.mp hany))
    have hbreak : isBreak token = true := List.find?_some hfound
    rw [hfound, Option.any_some, hbreak]

end CallMigration
