import CallMigration.Proofs.Erasure
import CallMigration.Rule.Signature
import CallMigration.Types.Pattern

/-!
# Words in written types

A written type is checked after erasure, when the blanks and the type arguments are gone. Two words that
only these keep apart are one word by then. So the check never sees that there were two, and a type with
any word next to it is read as a type of a longer name.

* `KeepsWords` : what is one word in the name is one word in the text.
* `Glues` : a text with something that is dropped between two words.
* `TypeName.keepsWords_iff` : erasure makes one word of two exactly there.
* `TypeName.parse?_beside` : two types next to each other are read as one.
-/

namespace CallMigration

open Text

/-! ## Where the characters of a name come from -/

/-- A character of an identifier that erasure keeps; a dollar sign becomes a dot. -/
def isWordChar (c : Char) : Bool :=
  isIdentifierPart c && c != '$'

theorem isErased_of_isWordChar {c : Char} (h : isWordChar c = true) : isErased c = true := by
  rw [isWordChar, Bool.and_eq_true, bne_iff_ne] at h
  have hblank := isBlank_of_isIdentifierPart h.1
  have hopen : c ≠ '<' := by
    rintro rfl
    exact absurd h.1 (by decide)
  have hclose : c ≠ '>' := by
    rintro rfl
    exact absurd h.1 (by decide)
  simp [isErased, hblank, hopen, hclose, h.2]

/-- A character that erasure keeps is kept wherever it stands outside of type arguments. -/
theorem erase_cons_of_isErased {c : Char} (h : isErased c = true) (s : List Char) :
    erase (c :: s) = c :: erase s := by
  have hall : ∀ d ∈ [c], isErased d = true := fun d hd => by rwa [List.mem_singleton.mp hd]
  have hkept : erase [c] = [c] := eraseFrom_of_isErased hall
  rw [← List.singleton_append, erase_append (depthAfter_of_isErased hall 0), hkept,
    List.singleton_append]

/-- Whatever erasure leaves is left of a character outside of type arguments, and the rest of the name
is left of the text behind that character. -/
theorem exists_of_eraseFrom {depth : Nat} {s x rest : List Char} {c : Char}
    (h : eraseFrom depth s = x ++ c :: rest) :
    ∃ before d after, s = before ++ d :: after ∧ depthAfter depth before = 0 ∧
      eraseFrom depth before = x ∧ (if d = '$' then '.' else d) = c ∧ eraseFrom 0 after = rest := by
  induction s generalizing depth x with
  | nil => cases x <;> cases h
  | cons d s ih =>
    rw [eraseFrom_cons] at h
    rcases eraseFrom_singleton_cases depth d with hdropped | ⟨rfl, hzero, hkept⟩
    · -- A dropped character belongs to the text in front.
      rw [hdropped, List.nil_append] at h
      obtain ⟨before, e, after, rfl, hbefore, hx, he, hrest⟩ := ih h
      refine ⟨d :: before, e, after, rfl, hbefore, ?_, he, hrest⟩
      rw [eraseFrom_cons, hdropped, hx, List.nil_append]
    · rw [hkept, List.singleton_append] at h
      cases x with
      | nil =>
        rw [List.nil_append, List.cons.injEq, hzero] at h
        exact ⟨[], d, s, rfl, rfl, rfl, h.1, h.2⟩
      | cons e x =>
        rw [List.cons_append, List.cons.injEq] at h
        obtain ⟨before, e', after, rfl, hbefore, hx, he, hrest⟩ := ih h.2
        refine ⟨d :: before, e', after, rfl, hbefore, ?_, he, hrest⟩
        rw [eraseFrom_cons, hkept, h.1, hx, List.singleton_append]

/-- An identifier character of the name stands in the text itself. -/
theorem exists_of_erase {s x rest : List Char} {c : Char} (h : erase s = x ++ c :: rest)
    (hc : isIdentifierPart c = true) :
    isWordChar c = true ∧ ∃ before after, s = before ++ c :: after ∧ depthAfter 0 before = 0 ∧
      erase before = x ∧ erase after = rest := by
  have hmem : c ∈ eraseFrom 0 s := by
    rw [← erase, h]
    simp
  have herased : isErased c = true := isErased_of_mem_eraseFrom c hmem
  obtain ⟨before, d, after, hs, hbefore, hx, hd, hrest⟩ := exists_of_eraseFrom h
  have hdollar : d ≠ '$' := by
    rintro rfl
    rw [if_pos rfl] at hd
    rw [← hd] at hc
    exact absurd hc (by decide)
  rw [if_neg hdollar] at hd
  subst hd
  exact ⟨by rw [isWordChar, hc, bne_iff_ne.mpr hdollar]; rfl, before, after, hs, hbefore, hx, hrest⟩

/-! ## Glued words -/

/-- Identifier characters that are next to each other somewhere in the name are next to each other in the
text, at the place that the name has them from. -/
def KeepsWords (written : String) : Prop :=
  ∀ x c d y, (TypeName.ofWritten written).chars = x ++ c :: d :: y →
    isIdentifierPart c = true → isIdentifierPart d = true →
      ∃ before after, written.toList = before ++ c :: d :: after ∧ depthAfter 0 before = 0 ∧
        erase before = x

/-- Outside of type arguments, something is dropped between two identifier characters. -/
def Glues (written : String) : Prop :=
  ∃ before c gap d after, written.toList = before ++ c :: (gap ++ d :: after) ∧
    depthAfter 0 before = 0 ∧ isWordChar c = true ∧ isWordChar d = true ∧ IsDropped gap ∧ gap ≠ []

/-- What is cut at the same place of the name is cut at the same place of the text. -/
theorem eq_of_erase_eq {before before' after after' : List Char} {c : Char}
    (hc : isErased c = true) (hdepth : depthAfter 0 before = 0) (hdepth' : depthAfter 0 before' = 0)
    (herase : erase before = erase before') (h : before ++ c :: after = before' ++ c :: after') :
    before = before' ∧ after = after' := by
  -- A longer beginning has the character in it, and so a longer name.
  have hlonger {s t u v : List Char} (hs : depthAfter 0 s = 0) (hsplit : c :: t = u ++ v)
      (hsame : erase (s ++ u) = erase s) : u = [] := by
    cases u with
    | nil => rfl
    | cons e u =>
      rw [List.cons_append, List.cons.injEq] at hsplit
      rw [← hsplit.1, erase_append hs, erase_cons_of_isErased hc, List.append_right_eq_self] at hsame
      cases hsame
  rcases List.append_eq_append_iff.mp h with ⟨u, rfl, hsplit⟩ | ⟨u, rfl, hsplit⟩
  · have hu := hlonger hdepth hsplit herase.symm
    rw [hu, List.nil_append, List.cons.injEq] at hsplit
    exact ⟨by rw [hu, List.append_nil], hsplit.2⟩
  · have hu := hlonger hdepth' hsplit herase
    rw [hu, List.nil_append, List.cons.injEq] at hsplit
    exact ⟨by rw [hu, List.append_nil], hsplit.2.symm⟩

theorem not_keepsWords_of_glues {written : String} (h : Glues written) : ¬KeepsWords written := by
  obtain ⟨before, c, gap, d, after, hs, hbefore, hc, hd, hgap, hsome⟩ := h
  intro hkeeps
  have hkept := erase_cons_of_isErased (isErased_of_isWordChar hc)
  have hkept' := erase_cons_of_isErased (isErased_of_isWordChar hd)
  have hname : (TypeName.ofWritten written).chars = erase before ++ c :: d :: erase after := by
    rw [TypeName.chars_ofWritten, hs, ← erase, erase_append hbefore, hkept, hgap.erase_in_front,
      hkept']
  rw [isWordChar, Bool.and_eq_true] at hc hd
  obtain ⟨before', after', hs', hbefore', herase⟩ := hkeeps _ c d _ hname hc.1 hd.1
  have hcut := eq_of_erase_eq (isErased_of_isWordChar (by simpa [isWordChar] using hc)) hbefore
    hbefore' herase.symm (hs.symm.trans hs')
  -- The gap would begin with a character that is kept.
  cases gap with
  | nil => exact hsome rfl
  | cons e gap =>
    have hfirst := hcut.2
    rw [List.cons_append, List.cons.injEq] at hfirst
    have hnothing := hgap.erased
    rw [hfirst.1, hkept'] at hnothing
    cases hnothing

/-- **Erasure makes one word of two** exactly where something is dropped between them. -/
theorem keepsWords_iff (written : String) : KeepsWords written ↔ ¬Glues written := by
  constructor
  · exact fun hkeeps hglues => not_keepsWords_of_glues hglues hkeeps
  · intro hno x c d y hname hc hd
    rw [TypeName.chars_ofWritten] at hname
    obtain ⟨hc', before, rest, hs, hbefore, hx, hrest⟩ := exists_of_erase hname hc
    obtain ⟨hd', gap, after, hgap, hdepth, herased, -⟩ := exists_of_erase (x := []) hrest hd
    refine ⟨before, after, ?_, hbefore, hx⟩
    by_contra hother
    refine hno ⟨before, c, gap, d, after, by rw [hs, hgap], hbefore, hc', hd', ⟨hdepth, herased⟩, ?_⟩
    rintro rfl
    exact hother (by rw [hs, hgap, List.nil_append])

/-! ## Types beside each other -/

/-- The last segment of a text and the first one of the text behind it become one. -/
theorem segments_append {s t last first : List Char} (before : List (List Char))
    {rest : List (List Char)}
    (hs : segments s = before ++ [last]) (ht : segments t = first :: rest) :
    segments (s ++ t) = before ++ (last ++ first) :: rest := by
  induction s generalizing before last with
  | nil =>
    obtain ⟨rfl, hlast⟩ | ⟨-, hlast⟩ := List.append_eq_singleton_iff.mp hs.symm
    · cases hlast
      exact ht
    · cases hlast
  | cons c s ih =>
    obtain ⟨head, tail, hsegments⟩ := exists_segments s
    by_cases hc : c = '.'
    · subst hc
      rw [segments_dot, hsegments] at hs
      cases before with
      | nil => cases hs
      | cons b before =>
        rw [List.cons_append, List.cons.injEq] at hs
        rw [List.cons_append, segments_dot, ih before (hsegments.trans hs.2), ← hs.1, List.cons_append]
    · rw [segments_cons hc hsegments] at hs
      cases before with
      | nil =>
        cases hs
        exact segments_cons hc (ih [] hsegments)
      | cons b before =>
        rw [List.cons_append, List.cons.injEq] at hs
        rw [hs.2] at hsegments
        rw [List.cons_append, segments_cons hc (ih (head :: before) hsegments), hs.1]
        rfl

theorem isIdentifier_append {s t : List Char} (hs : isIdentifier s = true)
    (ht : isIdentifier t = true) : isIdentifier (s ++ t) = true := by
  cases s with
  | nil => cases hs
  | cons c s =>
    rw [isIdentifier, Bool.and_eq_true] at hs
    rw [List.cons_append, isIdentifier, hs.1, List.all_append, hs.2]
    exact List.all_eq_true.mpr (isIdentifierPart_of_mem ht)

theorem all_segments_append {s t : List Char} (hs : (segments s).all isIdentifier = true)
    (ht : (segments t).all isIdentifier = true) : (segments (s ++ t)).all isIdentifier = true := by
  obtain ⟨before, last, hlast⟩ := List.eq_nil_or_concat (segments s) |>.resolve_left
    (List.splitOn_ne_nil '.' s)
  obtain ⟨first, rest, hfirst⟩ := exists_segments t
  rw [List.concat_eq_append] at hlast
  rw [hlast, List.all_append, Bool.and_eq_true, List.all_cons, List.all_nil, Bool.and_true] at hs
  rw [hfirst, List.all_cons, Bool.and_eq_true] at ht
  rw [segments_append before hlast hfirst, List.all_append, List.all_cons, hs.1,
    isIdentifier_append hs.2 ht.1, ht.2]
  rfl

/-- What follows a text that has more than pairs of brackets does not add to these. -/
theorem takePairs_append {s : List Char} (hsome : (takePairs s).2 ≠ [])
    (hclose : ']' ∉ (takePairs s).2) (t : List Char) :
    takePairs (s ++ t) = ((takePairs s).1, (takePairs s).2 ++ t) := by
  fun_induction takePairs s with
  | case1 s count rest heq ih =>
    rw [heq] at ih
    rw [List.cons_append, List.cons_append, takePairs, ih hsome hclose]
  | case2 s hother =>
    cases s with
    | nil => exact absurd rfl hsome
    | cons c s =>
      have hc : c ≠ ']' := fun heq => hclose (heq ▸ List.mem_cons_self)
      rw [List.cons_append, takePairs]
      intro u hu
      exact hc (List.cons.inj hu).1

namespace TypeName

/-- The base of a name whose segments are identifiers has no brackets, and it is not empty. -/
theorem bracket_notMem_dimensions {n : TypeName} (h : n.isWellFormed = true) :
    n.dimensions.2.chars ≠ [] ∧ ']' ∉ n.dimensions.2.chars := by
  constructor
  · intro hnil
    rw [isWellFormed, hnil] at h
    exact absurd h (by decide)
  · intro hmem
    obtain ⟨segment, hsegment, hin⟩ := mem_segments_of_mem hmem (by decide)
    exact not_mem_of_isIdentifier (List.all_eq_true.mp h segment hsegment) (by decide) hin

/-- **Two types beside each other are read as one**, whatever is dropped between them. -/
theorem parse?_beside {first second gap : String} {m n : TypeName} (hm : parse? first = some m)
    (hn : parse? second = some n) (harray : m.isArray = false) (hclosed : IsClosed first.toList)
    (hgap : IsDropped gap.toList) : parse? (first ++ gap ++ second) = some ⟨m.text ++ n.text⟩ := by
  obtain ⟨rfl, hfirst⟩ := parse?_eq_some_iff.mp hm
  obtain ⟨rfl, hsecond⟩ := parse?_eq_some_iff.mp hn
  have hname : ofWritten (first ++ gap ++ second) =
      ⟨(ofWritten first).text ++ (ofWritten second).text⟩ := by
    have hdepth := depthAfter_eq_zero_iff.mpr hclosed
    rw [ofWritten, ofWritten, ofWritten, String.toList_append, String.toList_append,
      List.append_assoc, hgap.erase_between hdepth, erase_append hdepth, String.ofList_append]
  refine parse?_eq_some_iff.mpr ⟨hname.symm, ?_⟩
  obtain ⟨hsome, hclose⟩ := bracket_notMem_dimensions hsecond
  rw [chars_dimensions] at hsome hclose
  have hpairs := takePairs_append (t := (ofWritten first).chars.reverse) (by simpa using hsome)
    (by simpa using hclose)
  have hchars : (⟨(ofWritten first).text ++ (ofWritten second).text⟩ : TypeName).chars =
      (ofWritten first).chars ++ (ofWritten second).chars := String.toList_append
  have hboth : (⟨(ofWritten first).text ++ (ofWritten second).text⟩ : TypeName).dimensions.2.chars =
      (ofWritten first).chars ++ (ofWritten second).dimensions.2.chars := by
    rw [chars_dimensions, hchars, List.reverse_append, hpairs, List.reverse_append,
      List.reverse_reverse, chars_dimensions]
  rw [isWellFormed, dimensions_of_isArray harray] at hfirst
  rw [isWellFormed, hboth]
  exact all_segments_append hfirst hsecond

/-- **What the check of a written type sees of its words.** The words of the name are words of the text
exactly if nothing is dropped between two of them; and if the text is accepted, then also with any other
accepted one beside it. -/
theorem parse?_words (written : String) :
    (KeepsWords written ↔ ¬Glues written) ∧
      ∀ gap second m n, parse? written = some m → parse? second = some n → m.isArray = false →
        IsClosed written.toList → IsDropped gap.toList →
          parse? (written ++ gap ++ second) = some ⟨m.text ++ n.text⟩ :=
  ⟨keepsWords_iff written, fun _ _ _ _ hm hn harray hclosed hgap =>
    parse?_beside hm hn harray hclosed hgap⟩

theorem glues_parameter : Glues "int timeout" :=
  ⟨['i', 'n'], 't', [' '], 't', "imeout".toList, by decide, by decide, by decide, by decide, by decide,
    List.cons_ne_nil _ _⟩

/-- A type with the name of a parameter behind it, and one with a modifier and type arguments in front. -/
theorem parse?_words_parameter :
    ¬KeepsWords "int timeout" ∧ parse? ("int" ++ " " ++ "timeout") = some ⟨"int" ++ "timeout"⟩ ∧
      parse? ("final" ++ " <K, V> " ++ "java.util.Map") = some ⟨"final" ++ "java.util.Map"⟩ := by
  refine ⟨fun hkeeps => (parse?_words _).1.mp hkeeps glues_parameter, ?_, ?_⟩
  · exact (parse?_words "int").2 " " "timeout" ⟨"int"⟩ ⟨"timeout"⟩ (by decide +kernel) (by decide +kernel)
      (by decide) (by decide) (by decide)
  · exact (parse?_words "final").2 " <K, V> " "java.util.Map" ⟨"final"⟩ ⟨"java.util.Map"⟩
      (by decide +kernel) (by decide +kernel) (by decide) (by decide) (by decide)

/-- A type with the name of a parameter behind it is accepted, alone and in a signature. A pattern for one
type may have a blank in its package, while a pattern for the whole package may not. -/
theorem parse?_glues_words :
    ¬(∀ written n, parse? written = some n → KeepsWords written) ∧
      parse? "int timeout" = some ⟨"inttimeout"⟩ ∧
      (Signature.parse "p.A f(int timeout)").toOption = some ⟨⟨"p.A"⟩, "f", [⟨"inttimeout"⟩]⟩ ∧
      (TypePattern.parse "my pkg.A").toOption = some (.exact ⟨"mypkg.A"⟩) ∧
      (TypePattern.parse "my pkg.*").toOption = none := by
  have hparse : parse? "int timeout" = some ⟨"inttimeout"⟩ := by decide +kernel
  refine ⟨fun hall => ?_, hparse, by decide +kernel, by decide +kernel, by decide +kernel⟩
  exact not_keepsWords_of_glues glues_parameter (hall _ _ hparse)

end TypeName

end CallMigration
