import CallMigration.Grammar.Java
import CallMigration.Proofs.Characters
import CallMigration.Proofs.Reading
import CallMigration.Proofs.Runs
import Mathlib.Data.Nat.Init

/-!
# What a form begins with

Most forms begin with a token, and can only be read where the first character of such a token stands.

* `Start`, `Form.start?` : the characters that a form can begin with.
* `Runs.covers` : a run goes on with one of these, or not at all.
* `Rule.start?` : what the rules of Java begin with.
-/

namespace CallMigration.Grammar

open Text CallMigration.Evaluated

/-! ## First characters -/

/-- The characters that something can begin with. Bit `n` stands for the character `n`; those outside of
ASCII are always possible. -/
structure Start where
  bits : Nat
  /-- Nothing may be read at all. -/
  optional : Bool
deriving DecidableEq

namespace Start

def asciiBits (p : Char → Bool) : Nat :=
  Nat.ofBits fun n : Fin 128 => p (Char.ofNat n)

def bitsOf (s : List Char) : Nat :=
  s.foldl (fun bits c => bits ||| 1 <<< c.toNat) 0

/-- The bits of `asciiBits beginsIdentifier`. -/
def nameBits : Nat := 0x07FFFFFE87FFFFFE0000001000000000

/-- The bits of the digits and the dot. -/
def numberBits : Nat := 0x03FF400000000000

def or (s t : Start) : Start :=
  ⟨s.bits ||| t.bits, s.optional || t.optional⟩

def has (s : Start) (c : Char) : Bool :=
  decide (128 ≤ c.toNat) || s.bits.testBit c.toNat

def admits (s : Start) (next : Option Char) : Bool :=
  s.optional || next.any s.has

/-- What has been read began with a possible character, or was nothing. -/
def Covers (s : Start) (i i' : Input) : Prop :=
  (∃ c rest, i.rest = c :: rest ∧ s.has c = true) ∨ (s.optional = true ∧ i' = i)

variable {s t : Start} {i middle i' : Input} {c : Char}

theorem has_of_asciiBits {p : Char → Bool} {optional : Bool} (h : p c = true) :
    has ⟨asciiBits p, optional⟩ c = true := by
  unfold has
  by_cases hc : c.toNat < 128
  · rw [asciiBits, Nat.testBit_ofBits_lt _ _ hc, Char.ofNat_toNat, h, Bool.or_true]
  · rw [decide_eq_true (Nat.not_lt.mp hc), Bool.true_or]

theorem has_or : (s.or t).has c = (s.has c || t.has c) := by
  unfold has or
  rw [Nat.testBit_or]
  cases decide (128 ≤ c.toNat) <;> simp

theorem Covers.or_left (h : s.Covers i i') : (s.or t).Covers i i' := by
  rcases h with ⟨c, rest, hrest, hc⟩ | ⟨hoptional, hsame⟩
  · exact .inl ⟨c, rest, hrest, by rw [has_or, hc, Bool.true_or]⟩
  · exact .inr ⟨by simp [or, hoptional], hsame⟩

theorem Covers.or_right (h : t.Covers i i') : (s.or t).Covers i i' := by
  rcases h with ⟨c, rest, hrest, hc⟩ | ⟨hoptional, hsame⟩
  · exact .inl ⟨c, rest, hrest, by rw [has_or, hc, Bool.or_true]⟩
  · exact .inr ⟨by simp [or, hoptional], hsame⟩

theorem Covers.andThen (h : s.Covers i middle) (h' : t.Covers middle i') :
    Covers ⟨s.bits ||| t.bits, t.optional⟩ i i' := by
  rcases h with ⟨c, rest, hrest, hc⟩ | ⟨-, rfl⟩
  · exact .inl ⟨c, rest, hrest, (has_or (t := t)).trans (by rw [hc, Bool.true_or])⟩
  · rcases h' with ⟨c, rest, hrest, hc⟩ | hnothing
    · exact .inl ⟨c, rest, hrest, (has_or (s := s)).trans (by rw [hc, Bool.or_true])⟩
    · exact .inr hnothing

theorem Covers.trans (h : s.Covers i middle) (hrequired : s.optional = false) : s.Covers i i' := by
  rcases h with hnext | ⟨hoptional, -⟩
  · exact .inl hnext
  · rw [hrequired] at hoptional
    cases hoptional

theorem Covers.admits (h : s.Covers i i') : s.admits i.rest.head? = true := by
  rcases h with ⟨c, rest, hrest, hc⟩ | ⟨hoptional, -⟩
  · rw [Start.admits, hrest, List.head?_cons, Option.any_some, hc, Bool.or_true]
  · rw [Start.admits, hoptional, Bool.true_or]

end Start

/-! ## Regular expressions and numbers -/

/-- A text that matches may begin with the character. -/
def Regex.begins (c : Char) : Regex → Bool
  | .never => false
  | .empty => false
  | .one p => p c
  | .cat r s => r.begins c || (r.nullable && s.begins c)
  | .or r s => r.begins c || s.begins c
  | .star r => r.begins c

theorem Regex.deriv_eq_never {c : Char} {r : Regex} (h : r.begins c = false) : r.deriv c = .never := by
  induction r with
  | never => rfl
  | empty => rfl
  | one p =>
    have hp : p c = false := h
    rw [deriv, hp]
    rfl
  | cat r s ihr ihs =>
    rw [begins, Bool.or_eq_false_iff] at h
    rw [deriv, ihr h.1]
    split
    next hnullable =>
      rw [hnullable, Bool.true_and] at h
      rw [ihs h.2]
      rfl
    next => rfl
  | or r s ihr ihs =>
    rw [begins, Bool.or_eq_false_iff] at h
    rw [deriv, ihr h.1, ihs h.2]
    rfl
  | star r ih =>
    rw [deriv, ih h]
    rfl

theorem Regex.begins_of_longest? {r : Regex} {s : List Char} {n : Nat} (h : r.longest? s = some n)
    (hrequired : r.nullable = false) : ∃ c rest, s = c :: rest ∧ r.begins c = true := by
  cases s with
  | nil =>
    unfold longest? at h
    split at h
    next => cases h
    next =>
      rw [hrequired] at h
      cases h
    next heq => cases heq
  | cons c rest =>
    refine ⟨c, rest, rfl, ?_⟩
    cases hbegins : r.begins c with
    | true => rfl
    | false =>
      unfold longest? at h
      split at h
      next => cases h
      next heq => cases heq
      next heq =>
        cases heq
        rw [deriv_eq_never hbegins, hrequired] at h
        unfold longest? at h
        cases h

theorem has_of_numberAt? {input : List Char} {found : String × Nat} (h : numberAt? input = some found) :
    ∃ c rest, input = c :: rest ∧ Start.has ⟨Start.numberBits, false⟩ c = true := by
  have hrequired : ∀ pair ∈ numbers, pair.2.nullable = false := by decide +kernel
  have hbits : ∀ pair ∈ numbers, ∀ n : Fin 128, pair.2.begins (Char.ofNat n) = true →
      Start.numberBits.testBit n = true := by decide +kernel
  obtain ⟨r, hmem, hlongest⟩ := exists_mem_numbers h
  obtain ⟨c, rest, hinput, hc⟩ := Regex.begins_of_longest? hlongest (hrequired _ hmem)
  refine ⟨c, rest, hinput, ?_⟩
  unfold Start.has
  by_cases hascii : c.toNat < 128
  · have hbit := hbits _ hmem ⟨c.toNat, hascii⟩ (by rw [Char.ofNat_toNat]; exact hc)
    rw [hbit, Bool.or_true]
  · rw [decide_eq_true (Nat.not_lt.mp hascii), Bool.true_or]

/-! ## Tokens -/

theorem Start.asciiBits_beginsIdentifier : asciiBits beginsIdentifier = nameBits := by
  decide +kernel

theorem has_of_after? {t : String} {input rest : List Char} {b : Nat} {optional : Bool}
    (h : after? t input = some rest) (hb : firstByte? t = some b) :
    ∃ c rest, input = c :: rest ∧ Start.has ⟨1 <<< b, optional⟩ c = true := by
  obtain ⟨c, cs, hchars, hbyte⟩ := exists_of_firstByte? hb
  refine ⟨c, cs ++ rest, by rw [after?_eq_some h, hchars, List.cons_append], ?_⟩
  unfold Start.has
  by_cases hascii : c.toNat < 128
  · rw [hbyte hascii, Nat.one_shiftLeft, Nat.testBit_two_pow_self, Bool.or_true]
  · rw [decide_eq_true (Nat.not_lt.mp hascii), Bool.true_or]

namespace Lexeme

/-- What a token can begin with, as far as it is known. -/
def start? : Lexeme → Option Start
  | symbol s => (firstByte? s).map fun b => ⟨1 <<< b, false⟩
  | text s => (firstByte? s).map fun b => ⟨1 <<< b, false⟩
  | word s => (firstByte? s).map fun b => ⟨1 <<< b, false⟩
  | name _ => some ⟨Start.nameBits, false⟩
  | regex r => if r.nullable then none else some ⟨Start.asciiBits fun c => r.begins c, false⟩

theorem has_of_scan {lexeme : Lexeme} {input : List Char} {found : List Char × List Char}
    (h : lexeme.scan input = some found) {s : Start} (hs : lexeme.start? = some s) :
    ∃ c rest, input = c :: rest ∧ s.has c = true := by
  cases lexeme with
  | symbol t =>
    obtain ⟨b, hb, rfl⟩ := Option.map_eq_some_iff.mp hs
    rw [scan] at h
    split at h
    next hafter => exact has_of_after? hafter hb
    next => cases h
  | text t =>
    obtain ⟨b, hb, rfl⟩ := Option.map_eq_some_iff.mp hs
    obtain ⟨rest, hafter, -⟩ := Option.map_eq_some_iff.mp h
    exact has_of_after? hafter hb
  | word t =>
    obtain ⟨b, hb, rfl⟩ := Option.map_eq_some_iff.mp hs
    rw [scan] at h
    split at h
    next hafter => exact has_of_after? hafter hb
    next => cases h
  | name except =>
    cases hs
    cases input with
    | nil => cases h
    | cons c rest =>
      refine ⟨c, rest, rfl, ?_⟩
      cases hbegins : beginsIdentifier c with
      | true =>
        rw [← Start.asciiBits_beginsIdentifier]
        exact Start.has_of_asciiBits hbegins
      | false =>
        have hempty : identifierRun (c :: rest) = [] := by
          rw [identifierRun, if_neg (Bool.eq_false_iff.mp hbegins)]
        rw [scan, hempty] at h
        cases h
  | regex r =>
    rw [start?, Option.ite_none_left_eq_some] at hs
    obtain ⟨hrequired, heq⟩ := hs
    cases heq
    rw [scan] at h
    split at h
    next hlongest =>
      obtain ⟨c, rest, hinput, hc⟩ :=
        Regex.begins_of_longest? hlongest (Bool.eq_false_iff.mpr hrequired)
      exact ⟨c, rest, hinput, Start.has_of_asciiBits hc⟩
    next => cases h

end Lexeme

/-! ## Forms -/

namespace Form

variable {ρ : Type} (starts : ρ → Option Start)

mutual
/-- What a form can begin with, as far as it is known, where `starts` tells it of the rules. -/
def start? : Form ρ → Option Start
  | token _ lexeme _ => lexeme.start?
  | number => some ⟨Start.numberBits, false⟩
  | rule r => starts r
  | seq fs => startSeq? fs
  | alt fs => startAlt? fs
  | opt f => (start? f).map fun s => ⟨s.bits, true⟩
  | many f => (start? f).map fun s => ⟨s.bits, true⟩
  | node _ f => start? f
  | chain first _ => (start? first).filter fun s => !s.optional
  | only _ f => start? f
  | absent _ => some ⟨0, true⟩
  | present _ => some ⟨0, true⟩

/-- Behind what is optional, the rest can be the beginning. -/
def startSeq? : List (Form ρ) → Option Start
  | [] => some ⟨0, true⟩
  | f :: fs =>
    match start? f with
    | none => none
    | some s =>
      if s.optional then (startSeq? fs).map fun t => ⟨s.bits ||| t.bits, t.optional⟩ else some s

def startAlt? : List (Form ρ) → Option Start
  | [] => some ⟨0, false⟩
  | f :: fs =>
    match start? f, startAlt? fs with
    | some s, some t => some (s.or t)
    | _, _ => none
end

def canBegin (f : Form ρ) (next : Option Char) : Bool :=
  (f.start? starts).all (·.admits next)

end Form

/-- What is known of each rule is what its form begins with. -/
def StartsOf {ρ : Type} (grammar : ρ → Form ρ) (starts : ρ → Option Start) : Prop :=
  ∀ r s, starts r = some s → (grammar r).start? starts = some s

section

variable {ρ : Type} {grammar : ρ → Form ρ} {starts : ρ → Option Start}

theorem Start.Covers.optional {s t : Start} {i i' : Input} (h : s.Covers i i')
    (hbits : t.bits = s.bits) (hoptional : t.optional = true) : t.Covers i i' := by
  rcases h with ⟨c, rest, hrest, hc⟩ | ⟨-, hsame⟩
  · refine .inl ⟨c, rest, hrest, ?_⟩
    rw [Start.has, hbits]
    exact hc
  · exact .inr ⟨hoptional, hsame⟩

theorem Form.canBegin_of_covers {f : Form ρ} {i i' : Input}
    (h : ∀ s, f.start? starts = some s → s.Covers i i') :
    f.canBegin starts i.rest.head? = true := by
  unfold canBegin
  cases hs : f.start? starts with
  | none => rfl
  | some s => exact (h s hs).admits

/-- **What is read begins as the form can.** -/
theorem Runs.covers (hstarts : StartsOf grammar starts) {task : Task ρ} {i i' : Input}
    {out out' : List SpanTree} (h : Runs grammar task i out i' out') :
    ∀ f, task = .form f → ∀ s, f.start? starts = some s → s.Covers i i' := by
  induction h with
  | token hscan =>
    rintro _ ⟨⟩ s hs
    rw [Form.start?] at hs
    exact .inl (Lexeme.has_of_scan hscan hs)
  | number hnumber =>
    rintro _ ⟨⟩ s hs
    rw [Form.start?] at hs
    cases hs
    exact .inl (has_of_numberAt? hnumber)
  | rule _ ih =>
    rintro _ ⟨⟩ s hs
    rw [Form.start?] at hs
    exact ih _ rfl s (hstarts _ s hs)
  | seq_nil =>
    rintro _ ⟨⟩ s hs
    rw [Form.start?, Form.startSeq?] at hs
    cases hs
    exact .inr ⟨rfl, rfl⟩
  | seq_cons _ _ ih ihrest =>
    rintro _ ⟨⟩ s hs
    rw [Form.start?, Form.startSeq?] at hs
    split at hs
    next => cases hs
    next first hfirst =>
      have hcovers := ih _ rfl first hfirst
      split at hs
      next hoptional =>
        obtain ⟨t, ht, rfl⟩ := Option.map_eq_some_iff.mp hs
        exact hcovers.andThen (ihrest _ rfl t (by rw [Form.start?]; exact ht))
      next hrequired =>
        cases hs
        exact hcovers.trans (Bool.eq_false_iff.mpr hrequired)
  | alt_first _ ih =>
    rintro _ ⟨⟩ s hs
    rw [Form.start?, Form.startAlt?] at hs
    split at hs
    next hfirst _ =>
      cases hs
      exact (ih _ rfl _ hfirst).or_left
    next => cases hs
  | alt_rest _ ih =>
    rintro _ ⟨⟩ s hs
    rw [Form.start?, Form.startAlt?] at hs
    split at hs
    next hrest =>
      cases hs
      exact (ih _ rfl _ (by rw [Form.start?]; exact hrest)).or_right
    next => cases hs
  | opt_some _ ih =>
    rintro _ ⟨⟩ s hs
    rw [Form.start?] at hs
    obtain ⟨t, ht, rfl⟩ := Option.map_eq_some_iff.mp hs
    exact (ih _ rfl t ht).optional rfl rfl
  | opt_none =>
    rintro _ ⟨⟩ s hs
    rw [Form.start?] at hs
    obtain ⟨t, ht, rfl⟩ := Option.map_eq_some_iff.mp hs
    exact .inr ⟨rfl, rfl⟩
  | many_again _ _ ih ihrest =>
    rintro _ ⟨⟩ s hs
    have hrest := ihrest _ rfl s hs
    rw [Form.start?] at hs
    obtain ⟨t, ht, rfl⟩ := Option.map_eq_some_iff.mp hs
    have hboth := (ih _ rfl t ht).andThen hrest
    rw [Nat.or_self] at hboth
    exact hboth
  | many_done =>
    rintro _ ⟨⟩ s hs
    rw [Form.start?] at hs
    obtain ⟨t, ht, rfl⟩ := Option.map_eq_some_iff.mp hs
    exact .inr ⟨rfl, rfl⟩
  | node _ ih =>
    rintro _ ⟨⟩ s hs
    rw [Form.start?] at hs
    exact ih _ rfl s hs
  | chain _ _ ih _ =>
    rintro _ ⟨⟩ s hs
    rw [Form.start?, Option.filter_eq_some_iff] at hs
    exact (ih _ rfl s hs.1).trans (by simpa using hs.2)
  | only _ _ ih =>
    rintro _ ⟨⟩ s hs
    rw [Form.start?] at hs
    exact ih _ rfl s hs
  | absent _ =>
    rintro _ ⟨⟩ s hs
    rw [Form.start?] at hs
    cases hs
    exact .inr ⟨rfl, rfl⟩
  | present _ =>
    rintro _ ⟨⟩ s hs
    rw [Form.start?] at hs
    cases hs
    exact .inr ⟨rfl, rfl⟩
  | tails_done => exact nofun
  | tails_first _ _ _ _ _ => exact nofun
  | tails_rest _ _ => exact nofun

end

/-! ## The rules of Java -/

namespace Rule

def expressionBits : Nat :=
  Start.nameBits ||| Start.numberBits ||| Start.bitsOf ['"', '\'', '(', '@', '+', '-', '!', '~']

/-- The bits of what a modifier or the declaration of a type can begin with. -/
def declarationBits : Nat :=
  Start.bitsOf ['@', 'a', 'c', 'd', 'e', 'f', 'i', 'n', 'p', 'r', 's', 't', 'v']

/-- What a rule can begin with, as `startsOf_form` finds it in the forms. -/
def start? : Rule → Option Start
  | name | plainType _ | simpleType _ | recordPattern => some ⟨Start.nameBits, false⟩
  | type _ => some ⟨Start.nameBits ||| Start.bitsOf ['@'], false⟩
  | annotationUse => some ⟨Start.bitsOf ['@'], false⟩
  | typeArguments | typeParameters => some ⟨Start.bitsOf ['<'], false⟩
  | arguments | parameters => some ⟨Start.bitsOf ['('], false⟩
  | string => some ⟨Start.bitsOf ['"'], false⟩
  | switch => some ⟨Start.bitsOf ['s'], false⟩
  | arrayInitializer | block | classBody => some ⟨Start.bitsOf ['\x7b'], false⟩
  | modifiers => some ⟨Start.bitsOf ['@', 'a', 'd', 'f', 'n', 'p', 's', 't', 'v'], false⟩
  | typeDeclaration => some ⟨declarationBits, false⟩
  | primary => some ⟨Start.nameBits ||| Start.numberBits ||| Start.bitsOf ['"', '\'', '(', '@'], false⟩
  | expression _ _ | operand _ => some ⟨expressionBits, false⟩
  | elementValue => some ⟨expressionBits ||| Start.bitsOf ['@', '\x7b'], false⟩
  | statement => some ⟨expressionBits ||| Start.bitsOf ['@', '\x7b', ';'], false⟩

theorem startsOf_form : StartsOf form start? := by
  intro r s h
  cases r with
  | expression least lambda =>
    cases h
    rfl
  | operand lambda =>
    cases h
    cases lambda <;> decide +kernel
  | type except =>
    cases h
    rfl
  | plainType except =>
    cases h
    rfl
  | simpleType except =>
    cases h
    rfl
  | _ =>
    cases h
    decide +kernel

end Rule

end CallMigration.Grammar
