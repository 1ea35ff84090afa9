import CallMigration.Grammar.Java
import CallMigration.Proofs.LineComments
import CallMigration.Proofs.Lossless
import Mathlib.Algebra.GroupWithZero.Nat

/-!
# Stretches of a source

A source is read from left to right, one stretch after the other: spaces, comments and tokens. Comments
and most tokens are recorded as leaves.

A line comment goes on to a line break. If it ends earlier, then at a null character or at the end of
the source, and there no token can follow. So no token is ever read in the line of a line comment, and
whether a comment is open is the only thing to remember between two stretches.

* `Stretch` : a part of the source, with the rule it is recorded under.
* `SpanTree.leaves`, `Trimmed` : the leaves of a node, and nodes with no comments at their ends.
* `LinesTo` : where a line comment may be open behind some stretches.
* `Input.exists_skips_trivia` : the stretches that are gone over behind a token.
* `Lexeme.eq_append_of_scan`, `Lexeme.not_stuck_of_scan`, `number_of_numberAt?` : what is known of the
  text of a token.
-/

namespace CallMigration

namespace SpanTree

mutual
def leaves : SpanTree → List SpanTree
  | mk rule start stop [] => [mk rule start stop []]
  | mk _ _ _ (child :: children) => leavesOf (child :: children)
def leavesOf : List SpanTree → List SpanTree
  | [] => []
  | s :: ss => s.leaves ++ leavesOf ss
end

theorem leavesOf_append (as bs : List SpanTree) :
    leavesOf (as ++ bs) = leavesOf as ++ leavesOf bs := by
  induction as with
  | nil => rfl
  | cons s as ih => rw [List.cons_append, leavesOf, leavesOf, ih, List.append_assoc]

theorem leavesOf_singleton (s : SpanTree) : leavesOf [s] = s.leaves := by
  rw [leavesOf, leavesOf, List.append_nil]

end SpanTree

namespace Grammar

open SpanTree

/-! ## Rules that are no comments -/

def isPlain (rule : String) : Bool :=
  !(["line_comment", "block_comment", "comment"].contains rule)

theorem mem_of_lookup {α β : Type} [BEq α] [LawfulBEq α] {pairs : List (α × β)} {a : α} {b : β}
    (h : pairs.lookup a = some b) : (a, b) ∈ pairs := by
  obtain ⟨before, after, rfl, -⟩ := List.lookup_eq_some_iff.mp h
  exact List.mem_append_right _ List.mem_cons_self

theorem isTrivia_ofRule {rule : String} (h : isPlain rule = true) (leaf : Bool) :
    (Kind.ofRule rule leaf).isTrivia = false := by
  have hrules : ∀ pair ∈ Kind.ruleKinds ++ Kind.leafKinds, isPlain pair.1 = true →
      pair.2.isTrivia = false := by decide +kernel
  unfold Kind.ofRule
  split
  next k hlookup =>
    exact hrules (rule, k) (List.mem_append_left _ (mem_of_lookup hlookup)) h
  next =>
    cases leaf with
    | false => rfl
    | true =>
      rw [if_pos rfl]
      cases hlookup : Kind.leafKinds.lookup rule with
      | none => rfl
      | some k =>
        exact hrules (rule, k) (List.mem_append_right _ (mem_of_lookup hlookup)) h

theorem isComment_of_isPlain {rule : String} (h : isPlain rule = true) (start stop : Nat)
    (children : List SpanTree) : isComment (.mk rule start stop children) = false := by
  rw [Bool.eq_false_iff]
  intro hcomment
  rw [isComment, Bool.or_eq_true, beq_iff_eq, beq_iff_eq, SpanTree.rule] at hcomment
  rcases hcomment with rfl | rfl <;> cases h

/-- A node begins and ends with parts that are no comments, and starts where its first part does. -/
inductive Trimmed : SpanTree → Prop
  | leaf {rule : String} {start stop : Nat} :
    (isComment (.mk rule start stop []) = true ∨ isPlain rule = true) →
      Trimmed (.mk rule start stop [])
  | node {rule : String} {stop : Nat} {first last : SpanTree} {others : List SpanTree} :
    isPlain rule = true → isComment first = false →
      (first :: others).getLast? = some last → isComment last = false →
      (∀ t ∈ first :: others, Trimmed t) → Trimmed (.mk rule first.start stop (first :: others))

/-! ## Stretches of a source -/

/-- A stretch of a source, with the rule it is recorded under, if at all. -/
structure Stretch where
  rule : Option String
  text : List Char

namespace Stretch

def token (s : Stretch) : Kind × String :=
  (match s.rule with
    | some rule => Kind.ofRule rule true
    | none => .whitespace, String.ofList s.text)

def textOf (ss : List Stretch) : List Char :=
  ss.flatMap text

def leavesFrom : Nat → List Stretch → List SpanTree
  | _, [] => []
  | offset, s :: ss =>
    let stop := offset + byteCount s.text
    match s.rule with
    | some rule => .mk rule offset stop [] :: leavesFrom stop ss
    | none => leavesFrom stop ss

end Stretch

open Stretch

theorem textOf_append (as bs : List Stretch) : textOf (as ++ bs) = textOf as ++ textOf bs :=
  List.flatMap_append

theorem textOf_cons (s : Stretch) (ss : List Stretch) : textOf (s :: ss) = s.text ++ textOf ss :=
  List.flatMap_cons

theorem leavesFrom_append (offset : Nat) (as bs : List Stretch) :
    leavesFrom offset (as ++ bs) =
      leavesFrom offset as ++ leavesFrom (offset + byteCount (textOf as)) bs := by
  induction as generalizing offset with
  | nil => rfl
  | cons s as ih =>
    have hoffset : offset + byteCount s.text + byteCount (textOf as) =
        offset + byteCount (textOf (s :: as)) := by
      rw [textOf_cons, byteCount_append, Nat.add_assoc]
    rw [List.cons_append, leavesFrom, leavesFrom, ih, hoffset]
    cases s.rule <;> rfl

/-! ## Open line comments -/

/-- No token begins here: a null character, or the end of the source. -/
def Stuck (rest : List Char) : Prop :=
  ∀ c ∈ rest.head?, isPresent c = false

def CommentEnd (rest : List Char) : Prop :=
  ∀ c ∈ rest.head?, isPresent c = false ∨ c = '\n'

/-- If a line comment is open at most where `P` holds, then after the stretches it is open at most where
`Q` holds, and none of them is lost in it. -/
def LinesTo (P : Prop) (ss : List Stretch) (Q : Prop) : Prop :=
  ∀ isOpen, (isOpen = true → P) →
    ∃ last, lineAfter isOpen (ss.map token) = some last ∧ (last = true → Q)

namespace LinesTo

variable {P Q R : Prop} {as bs : List Stretch}

theorem refl (h : P → Q) : LinesTo P [] Q := fun isOpen hopen => ⟨isOpen, rfl, fun ho => h (hopen ho)⟩

theorem trans (ha : LinesTo P as Q) (hb : LinesTo Q bs R) : LinesTo P (as ++ bs) R := by
  intro isOpen hopen
  obtain ⟨middle, hmiddle, hopen'⟩ := ha isOpen hopen
  obtain ⟨last, hlast, hopen''⟩ := hb middle hopen'
  refine ⟨last, ?_, hopen''⟩
  rw [List.map_append, lineAfter_append, hmiddle]
  exact hlast

theorem mono {P' : Prop} (h : LinesTo P as Q) (himp : P' → P) : LinesTo P' as Q :=
  fun isOpen hopen => h isOpen fun ho => himp (hopen ho)

end LinesTo

/-- The text between two places of the source. -/
structure Covers (i : Input) (ss : List Stretch) (i' : Input) : Prop where
  text : i.rest = textOf ss ++ i'.rest
  offset : i'.offset = i.offset + byteCount (textOf ss)

namespace Covers

variable {i i' i'' : Input} {as bs : List Stretch}

theorem refl (i : Input) : Covers i [] i := ⟨rfl, rfl⟩

theorem trans (ha : Covers i as i') (hb : Covers i' bs i'') : Covers i (as ++ bs) i'' := by
  constructor
  · rw [ha.text, hb.text, textOf_append, List.append_assoc]
  · rw [hb.offset, ha.offset, textOf_append, byteCount_append, Nat.add_assoc]

theorem single {rule : Option String} {text rest : List Char} (comments : List SpanTree)
    (h : i.rest = text ++ rest) :
    Covers i [⟨rule, text⟩] ⟨rest, i.offset + byteCount text, comments⟩ := by
  have htext : textOf [⟨rule, text⟩] = text := List.append_nil text
  constructor
  · rw [htext, h]
  · rw [htext]

end Covers

/-! ## Whitespace and comments -/

theorem isPresent_of_isSpace {c : Char} (h : isSpace c = true) : isPresent c = true := by
  rw [isSpace, Bool.or_eq_true, beq_iff_eq] at h
  rw [isPresent, bne_iff_ne]
  intro hzero
  rcases h with rfl | h
  · cases hzero
  · rw [hzero] at h
    cases h

theorem drop_length_takeWhile {α : Type} (p : α → Bool) (s : List α) :
    s.drop (s.takeWhile p).length = s.dropWhile p := by
  calc s.drop (s.takeWhile p).length
      = (s.takeWhile p ++ s.dropWhile p).drop (s.takeWhile p).length := by
        rw [List.takeWhile_append_dropWhile]
    _ = s.dropWhile p := List.drop_left

theorem blockCommentEnd_eq_some {s body rest : List Char}
    (h : blockCommentEnd s = some (body, rest)) : s = body ++ rest := by
  fun_induction blockCommentEnd s generalizing body with
  | case1 => cases h
  | case2 s =>
    cases h
    rfl
  | case3 c s _ _ ih =>
    obtain ⟨⟨before, after⟩, hend, heq⟩ := Option.map_eq_some_iff.mp h
    cases heq
    rw [List.cons_append, ← ih hend]
  | case4 => cases h

theorem comment?_eq_some {input text rest : List Char} {rule : String}
    (h : comment? input = some (rule, text, rest)) :
    input = text ++ rest ∧ text ≠ [] ∧ (∀ c ∈ input.head?, c = '/') ∧
      ((rule = "line_comment" ∧ CommentEnd rest) ∨ rule = "block_comment") := by
  unfold comment? at h
  split at h
  next s =>
    cases h
    rw [drop_length_takeWhile]
    refine ⟨?_, by simp, by simp, .inl ⟨rfl, ?_⟩⟩
    · rw [List.cons_append, List.cons_append, List.takeWhile_append_dropWhile]
    · intro c hc
      have hstop := List.head?_dropWhile_not (fun c => isPresent c && c != '\n') s
      rw [Option.mem_def.mp hc] at hstop
      simpa [or_iff_not_imp_left] using hstop
  next s =>
    obtain ⟨⟨body, rest'⟩, hend, heq⟩ := Option.map_eq_some_iff.mp h
    cases heq
    refine ⟨?_, by simp, by simp, .inr rfl⟩
    rw [List.cons_append, List.cons_append, ← blockCommentEnd_eq_some hend]
  next => cases h

def Noted (comments : List SpanTree) : Prop :=
  ∀ t ∈ comments, isComment t = true ∧ t.children = []

theorem Noted.nil : Noted [] := fun _ ht => absurd ht List.not_mem_nil

/-- Whitespace and comments between two places; the comments are noted. -/
structure Skips (i : Input) (ss : List Stretch) (i' : Input) : Prop extends Covers i ss i' where
  lines : LinesTo (CommentEnd i.rest) ss (Stuck i'.rest)
  comments : i'.comments.reverse = i.comments.reverse ++ leavesFrom i.offset ss
  noted : Noted i.comments → Noted i'.comments

namespace Skips

variable {i i' i'' : Input} {ss : List Stretch}

theorem refl (h : CommentEnd i.rest → Stuck i.rest) : Skips i [] i where
  toCovers := .refl i
  lines := .refl h
  comments := (List.append_nil _).symm
  noted := id

theorem cons {s : Stretch} (hcovers : Covers i [s] i')
    (hlines : LinesTo (CommentEnd i.rest) [s] (CommentEnd i'.rest))
    (hcomments : i'.comments.reverse = i.comments.reverse ++ leavesFrom i.offset [s])
    (hnoted : Noted i.comments → Noted i'.comments) (h : Skips i' ss i'') : Skips i (s :: ss) i'' where
  toCovers := hcovers.trans h.toCovers
  lines := hlines.trans h.lines
  comments := by
    rw [h.comments, hcomments, hcovers.offset, List.append_assoc, ← leavesFrom_append]
    rfl
  noted := fun hi => h.noted (hnoted hi)

end Skips

/-- A space is a line break if a line comment ends at it. -/
theorem linesTo_space {c : Char} {s : List Char} (hspace : isSpace c = true) :
    LinesTo (CommentEnd (c :: s)) [⟨none, [c]⟩] (CommentEnd s) := by
  intro isOpen hopen
  refine ⟨false, ?_, nofun⟩
  have hstep : lineStep isOpen (token ⟨none, [c]⟩) = some false := by
    rw [token, lineStep_blank]
    cases isOpen with
    | false => rfl
    | true =>
      rcases hopen rfl c rfl with hnull | rfl
      · rw [isPresent_of_isSpace hspace] at hnull
        cases hnull
      · rfl
  rw [List.map_cons, lineAfter_cons, hstep]
  rfl

theorem linesTo_comment {input text rest : List Char} {rule : String}
    (h : comment? input = some (rule, text, rest)) :
    LinesTo (CommentEnd input) [⟨some rule, text⟩] (CommentEnd rest) := by
  obtain ⟨hinput, htext, hhead, hrule⟩ := comment?_eq_some h
  intro isOpen hopen
  have hclosed : isOpen = false := by
    cases isOpen with
    | false => rfl
    | true =>
      cases text with
      | nil => exact absurd rfl htext
      | cons c text =>
        subst hinput
        cases hhead c rfl
        rcases hopen rfl '/' rfl with hnull | hbreak
        · cases hnull
        · cases hbreak
  subst hclosed
  rcases hrule with ⟨rfl, hend⟩ | rfl
  · exact ⟨true, rfl, fun _ => hend⟩
  · exact ⟨false, rfl, nofun⟩

namespace Input

/-- Spaces and comments are gone over up to the first character that begins neither. -/
theorem exists_skips {steps : Nat} {i : Input} (hsteps : i.rest.length < steps) :
    ∃ ss, Skips i ss (i.skip steps) := by
  induction steps generalizing i with
  | zero => omega
  | succ steps ih =>
    obtain ⟨rest, offset, comments⟩ := i
    unfold skip
    split
    next hrest =>
      cases hrest
      exact ⟨[], .refl fun _ => nofun⟩
    next c s hrest =>
      cases hrest
      split
      next hspace =>
        obtain ⟨ss, hss⟩ := @ih ⟨s, offset + c.utf8Size, comments⟩ (by simpa using hsteps)
        have hbytes : byteCount [c] = c.utf8Size := Nat.zero_add _
        have hcovers : Covers ⟨c :: s, offset, comments⟩ [⟨none, [c]⟩]
            ⟨s, offset + c.utf8Size, comments⟩ := by
          rw [← hbytes]
          exact .single comments rfl
        exact ⟨_, .cons hcovers (linesTo_space hspace) (List.append_nil _).symm id hss⟩
      next hspace =>
        split
        next rule text rest hcomment =>
          obtain ⟨hinput, htext, -, hrule⟩ := comment?_eq_some hcomment
          have hless : rest.length < steps := by
            have hlength := congrArg List.length hinput
            rw [List.length_append] at hlength
            have hpos := List.length_pos_iff.mpr htext
            change (c :: s).length < steps + 1 at hsteps
            omega
          obtain ⟨ss, hss⟩ := @ih ⟨rest, offset + byteCount text,
            .mk rule offset (offset + byteCount text) [] :: comments⟩ hless
          refine ⟨_, .cons (.single _ hinput) (linesTo_comment hcomment) List.reverse_cons ?_ hss⟩
          intro hnoted t ht
          rcases List.mem_cons.mp ht with rfl | ht
          · rcases hrule with ⟨rfl, -⟩ | rfl <;> exact ⟨rfl, rfl⟩
          · exact hnoted t ht
        next hcomment =>
          refine ⟨[], .refl fun hend => ?_⟩
          intro c' hc'
          cases hc'
          rcases hend c rfl with hnull | rfl
          · exact hnull
          · exact absurd rfl hspace

theorem exists_skips_trivia (i : Input) : ∃ ss, Skips i ss i.skipTrivia :=
  exists_skips (Nat.lt_succ_self _)

end Input

/-! ## Tokens -/

/-- The regular expression matches nothing. -/
def Regex.isNever : Regex → Bool
  | .never => true
  | _ => false

/-- The text begins with a character that is not null. -/
def beginsVisibly (s : String) : Bool :=
  s.toList.head?.any isPresent

/-- No token of the class is empty or begins with a null character. -/
def Lexeme.isVisible : Lexeme → Bool
  | .symbol s | .text s | .word s => beginsVisibly s
  | .name _ => true
  | .regex r => (r.deriv '\x00').isNever

theorem eq_null_of_not_isPresent {c : Char} (h : isPresent c = false) : c = '\x00' := by
  rw [isPresent, bne_eq_false_iff_eq] at h
  exact Char.toNat_inj.mp h

theorem after?_eq_some {s : String} {input rest : List Char} (h : after? s input = some rest) :
    input = s.toList ++ rest :=
  (List.isPrefixOf?_eq_some_iff_append_eq.mp h).symm

theorem not_stuck_of_after? {s : String} {input rest : List Char} (hvisible : beginsVisibly s = true)
    (h : after? s input = some rest) : ¬ Stuck input := by
  rw [after?_eq_some h]
  intro hstuck
  unfold beginsVisibly at hvisible
  cases hs : s.toList with
  | nil =>
    rw [hs] at hvisible
    cases hvisible
  | cons c cs =>
    rw [hs] at hvisible hstuck
    have hnull := hstuck c rfl
    rw [List.head?_cons, Option.any_some, hnull] at hvisible
    cases hvisible

/-- In front of a null character or the end, nothing but the empty text can match. -/
theorem Regex.longest?_of_stuck {r : Regex} {input : List Char}
    (hnever : (r.deriv '\x00').isNever = true) (hstuck : Stuck input) :
    r.longest? input = if r.nullable then some 0 else none := by
  have hderiv : r.deriv '\x00' = .never := by
    cases hr : r.deriv '\x00' with
    | never => rfl
    | _ =>
      rw [hr] at hnever
      cases hnever
  cases input with
  | nil => cases r <;> rfl
  | cons c s =>
    cases eq_null_of_not_isPresent (hstuck c rfl)
    have hnone : Regex.longest? .never s = none := by
      cases s <;> rfl
    cases r with
    | never => rfl
    | _ =>
      rw [Regex.longest?, hderiv, hnone]
      exact nofun

theorem identifierRun_within (input : List Char) : identifierRun input <+: input := by
  cases input with
  | nil => exact List.prefix_rfl
  | cons c s =>
    rw [identifierRun]
    split
    next => exact List.cons_prefix_cons.mpr ⟨rfl, List.takeWhile_prefix _⟩
    next => exact List.nil_prefix

theorem identifierRun_of_stuck {input : List Char} (hstuck : Stuck input) :
    identifierRun input = [] := by
  cases input with
  | nil => rfl
  | cons c s =>
    cases eq_null_of_not_isPresent (hstuck c rfl)
    rfl

namespace Lexeme

theorem eq_append_of_scan {l : Lexeme} {input text rest : List Char}
    (h : l.scan input = some (text, rest)) : input = text ++ rest := by
  unfold scan at h
  split at h
  next =>
    split at h
    next hafter =>
      rw [Option.ite_none_left_eq_some] at h
      cases h.2
      exact after?_eq_some hafter
    next => cases h
  next =>
    obtain ⟨rest, hafter, heq⟩ := Option.map_eq_some_iff.mp h
    cases heq
    exact after?_eq_some hafter
  next =>
    split at h
    next hafter =>
      rw [Option.ite_none_left_eq_some] at h
      cases h.2
      exact after?_eq_some hafter
    next => cases h
  next =>
    simp only [Option.ite_none_left_eq_some, Option.some.injEq, Prod.mk.injEq] at h
    obtain ⟨-, rfl, rfl⟩ := h
    exact (List.prefix_iff_eq_append.mp (identifierRun_within input)).symm
  next =>
    split at h
    next =>
      cases h
      exact (List.take_append_drop _ _).symm
    next => cases h

theorem not_stuck_of_scan {l : Lexeme} {input : List Char} {p : List Char × List Char}
    (hvisible : l.isVisible = true) (h : l.scan input = some p) : ¬ Stuck input := by
  intro hstuck
  cases l with
  | symbol s =>
    rw [scan] at h
    split at h
    next hafter => exact not_stuck_of_after? hvisible hafter hstuck
    next => cases h
  | text s =>
    obtain ⟨rest, hafter, -⟩ := Option.map_eq_some_iff.mp h
    exact not_stuck_of_after? hvisible hafter hstuck
  | word s =>
    rw [scan] at h
    split at h
    next hafter => exact not_stuck_of_after? hvisible hafter hstuck
    next => cases h
  | name except =>
    rw [scan, identifierRun_of_stuck hstuck] at h
    cases h
  | regex r =>
    rw [scan, Regex.longest?_of_stuck hvisible hstuck] at h
    cases hnullable : r.nullable <;> rw [hnullable] at h <;> cases h

end Lexeme

theorem exists_mem_numbers {input : List Char} {rule : String} {n : Nat}
    (h : numberAt? input = some (rule, n)) :
    ∃ r, (rule, r) ∈ numbers ∧ r.longest? input = some n := by
  have hbest : ∀ p ∈ numberAt? input, ∃ r, (p.1, r) ∈ numbers ∧ r.longest? input = some p.2 := by
    refine List.foldlRecOn (motive := fun best : Option (String × Nat) =>
      ∀ p ∈ best, ∃ r, (p.1, r) ∈ numbers ∧ r.longest? input = some p.2) numbers _
      (fun p hp => by cases hp) ?_
    rintro best hbest ⟨name, r⟩ hmem p hp
    dsimp only at hp
    split at hp
    next k _ m hlongest =>
      split at hp
      next =>
        cases hp
        exact ⟨r, hmem, hlongest⟩
      next => exact hbest p hp
    next k hlongest =>
      cases hp
      exact ⟨r, hmem, hlongest⟩
    next => exact hbest p hp
  exact hbest (rule, n) h

/-- No number begins with a null character, and the rules of numbers are plain. -/
theorem number_of_numberAt? {input : List Char} {rule : String} {n : Nat}
    (h : numberAt? input = some (rule, n)) : isPlain rule = true ∧ ¬ Stuck input := by
  have hall : ∀ pair ∈ numbers, isPlain pair.1 = true ∧ pair.2.nullable = false ∧
      (pair.2.deriv '\x00').isNever = true := by decide
  obtain ⟨r, hmem, hlongest⟩ := exists_mem_numbers h
  obtain ⟨hplain, hnullable, hnever⟩ := hall _ hmem
  refine ⟨hplain, fun hstuck => ?_⟩
  rw [Regex.longest?_of_stuck hnever hstuck, hnullable] at hlongest
  cases hlongest

end Grammar

end CallMigration
