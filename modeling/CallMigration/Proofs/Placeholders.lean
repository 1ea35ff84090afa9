import CallMigration.Proofs.Signatures
import CallMigration.Rule.Placeholder

/-!
# Written placeholders are found again

A text is scanned from left to right for a number sign with an opening brace, and a placeholder reaches to
the closing brace if no other brace comes before it. A written placeholder has no brace inside, and a text
without such a beginning cannot become one through what follows it, since that is the number sign of the
next placeholder. So a text that was put together from both is taken apart at the same places.

* `pieces_literal`, `Placeholder.pieces_render` : the parts of a literal text and of a placeholder.
* `Placeholder.IsRead`, `Placeholder.IsRead.parse?_content` : what is read is written so that it is read
  again.
* `Placeholder.woven` : placeholders with literal texts around them.
* `Placeholder.scan_woven` : the placeholders of such a text.
-/

namespace CallMigration

open Text

/-! ## Parts of a text -/

theorem slotAt?_slot {content : List Char} (hopen : '\x7b' ∉ content) (hclose : '\x7d' ∉ content)
    (rest : List Char) :
    slotAt? ('#' :: '\x7b' :: (content ++ '\x7d' :: rest)) = some (content, rest) := by
  have htake : (content ++ '\x7d' :: rest).takeWhile (fun c => c != '\x7b' && c != '\x7d') =
      content := by
    rw [List.takeWhile_append_of_pos, List.takeWhile_cons_of_neg (by decide), List.append_nil]
    intro c hc
    rw [Bool.and_eq_true, bne_iff_ne, bne_iff_ne]
    exact ⟨ne_of_mem_of_not_mem hc hopen, ne_of_mem_of_not_mem hc hclose⟩
  unfold slotAt?
  simp only [htake, List.drop_left]

/-- Only a number sign with an opening brace behind it begins a placeholder. -/
theorem slotAt?_eq_none {c : Char} {s : List Char} (h : ¬(c = '#' ∧ s.head? = some '\x7b')) :
    slotAt? (c :: s) = none := by
  unfold slotAt?
  split
  next heq =>
    cases heq
    exact absurd ⟨rfl, rfl⟩ h
  next => rfl

theorem length_of_slotAt? {s content rest : List Char} (h : slotAt? s = some (content, rest)) :
    rest.length < s.length := by
  unfold slotAt? at h
  split at h
  next s =>
    simp only at h
    split at h
    next rest' hrest =>
      cases h
      have hlength := congrArg List.length hrest
      rw [List.length_drop, List.length_cons] at hlength
      simp only [List.length_cons]
      omega
    next => cases h
  next => cases h

/-- Any number of rounds that is enough gives the same parts. -/
theorem piecesWithin_congr {m n : Nat} {s : List Char} (hm : s.length ≤ m) (hn : s.length ≤ n) :
    piecesWithin m s = piecesWithin n s := by
  induction m generalizing n s with
  | zero =>
    cases s with
    | nil => cases n <;> rfl
    | cons c s => simp at hm
  | succ m ih =>
    cases s with
    | nil => cases n <;> rfl
    | cons c s =>
      rw [List.length_cons] at hm hn
      cases n with
      | zero => omega
      | succ n =>
        rw [piecesWithin, piecesWithin]
        cases hslot : slotAt? (c :: s) with
        | none =>
          have htail := ih (n := n) (s := s) (by omega) (by omega)
          simp only [htail]
        | some found =>
          have hrest := length_of_slotAt? hslot
          rw [List.length_cons] at hrest
          have htail := ih (n := n) (s := found.2) (by omega) (by omega)
          simp only [htail]

theorem pieces_char {c : Char} {s : List Char} (h : slotAt? (c :: s) = none) :
    pieces (c :: s) = .char c :: pieces s := by
  unfold pieces
  rw [List.length_cons, piecesWithin, h]

theorem pieces_slot {s content rest : List Char} (h : slotAt? s = some (content, rest)) :
    pieces s = .slot content :: pieces rest := by
  have hrest := length_of_slotAt? h
  cases s with
  | nil => cases h
  | cons c s =>
    unfold pieces
    rw [List.length_cons] at hrest
    rw [List.length_cons, piecesWithin, h]
    simp only
    rw [piecesWithin_congr (m := s.length) (by omega) (Nat.le_refl _)]

/-- A literal text is no part of a placeholder if no brace follows it. -/
theorem pieces_literal {t rest : List Char} (h : ¬"#\x7b".toList <:+: t)
    (hrest : rest.head? ≠ some '\x7b') : pieces (t ++ rest) = t.map .char ++ pieces rest := by
  induction t with
  | nil => rfl
  | cons c t ih =>
    have hnone : slotAt? (c :: (t ++ rest)) = none := by
      apply slotAt?_eq_none
      rintro ⟨rfl, hhead⟩
      cases t with
      | nil => exact hrest hhead
      | cons d t =>
        have hd : d = '\x7b' := Option.some.inj hhead
        exact h ⟨[], t, by simp [hd]⟩
    have htail : ¬"#\x7b".toList <:+: t := fun hin => h (hin.trans (List.suffix_cons c t).isInfix)
    rw [List.cons_append, pieces_char hnone, ih htail]
    rfl

namespace Placeholder

/-! ## Reading and writing -/

theorem splitFirst_of_notMem {c : Char} {s : List Char} (h : c ∉ s) :
    splitFirst (· == c) s = none := by
  cases hsplit : splitFirst (· == c) s with
  | none => rfl
  | some parts =>
    obtain ⟨d, hd, hs⟩ := splitFirst_eq_some hsplit
    refine absurd ?_ h
    rw [hs, ← eq_of_beq hd]
    simp

/-- What is read of a placeholder: an identifier, and a type that is read as itself. -/
structure IsRead (p : Placeholder) : Prop where
  name : ∀ n, p.name = some n → isIdentifier n.toList = true
  type : ∀ t, p.type = some t → TypeName.parse? t.text = some t

theorem parse?_text_of_parseType? {s : List Char} {t : TypeName} (h : parseType? s = some t) :
    TypeName.parse? t.text = some t := by
  obtain ⟨rest, -, h⟩ := Option.bind_eq_some_iff.mp h
  obtain ⟨inner, -, h⟩ := Option.bind_eq_some_iff.mp h
  exact Signature.parse?_text_of_parse? h

/-- A type that is read makes a placeholder, with a name or without one. -/
theorem isRead_of_parseType? {name : Option String} {s : List Char} {p : Placeholder}
    (hname : ∀ n, name = some n → isIdentifier n.toList = true)
    (h : ((parseType? s).map fun t => (⟨name, some t⟩ : Placeholder)) = some p) : p.IsRead := by
  obtain ⟨t, ht, rfl⟩ := Option.map_eq_some_iff.mp h
  refine ⟨hname, ?_⟩
  rintro t' ⟨⟩
  exact parse?_text_of_parseType? ht

theorem isRead_of_parse? {content : List Char} {p : Placeholder} (h : parse? content = some p) :
    p.IsRead := by
  have hname (s : List Char) (hs : isIdentifier s = true) (n : String)
      (hn : some (String.ofList s) = some n) : isIdentifier n.toList = true := by
    cases hn
    rwa [String.toList_ofList]
  unfold parse? at h
  simp only at h
  split at h
  next =>
    cases h
    exact ⟨nofun, nofun⟩
  next =>
    split at h
    next name type _ =>
      split at h
      next hs => exact isRead_of_parseType? (hname (trim name) hs) h
      next => cases h
    next =>
      split at h
      next => exact isRead_of_parseType? (fun _ hn => by cases hn) h
      next =>
        split at h
        next hs =>
          cases h
          exact ⟨hname (trim content) hs, nofun⟩
        next => cases h

def typeNotation (t : TypeName) : List Char :=
  "any(".toList ++ (t.text.toList ++ [')'])

theorem parseType?_typeNotation {t : TypeName} (h : TypeName.parse? t.text = some t) :
    parseType? (typeNotation t) = some t := by
  have hopen : "any(".toList.isPrefixOf? (typeNotation t) = some (t.text.toList ++ [')']) :=
    List.isPrefixOf?_eq_some_iff_append_eq.mpr rfl
  have hclose : [')'].isSuffixOf? (t.text.toList ++ [')']) = some t.text.toList :=
    List.isSuffixOf?_eq_some_iff_append_eq.mpr rfl
  have htrim : TypeName.parse? (String.ofList (trim t.text.toList)) = some t := by
    rw [TypeName.parse?_trim, String.ofList_toList, h]
  unfold parseType?
  simp only [hopen, hclose, Option.bind_eq_bind, Option.bind_some, htrim]

theorem notMem_typeNotation {t : TypeName} (h : TypeName.parse? t.text = some t) {c : Char}
    (hpart : isIdentifierPart c = false) (hother : c ≠ '.' ∧ c ≠ '[' ∧ c ≠ ']')
    (hparens : c ∉ "any()".toList) : c ∉ typeNotation t := by
  have hname : c ∉ t.text.toList :=
    TypeName.notMem_of_isWellFormed (TypeName.parse?_eq_some_iff.mp h).2 hpart hother
  have hends : c ∉ "any(".toList ∧ c ∉ [')'] := by
    rw [← not_or, ← List.mem_append]
    exact hparens
  unfold typeNotation
  rw [List.mem_append, List.mem_append, not_or, not_or]
  exact ⟨hends.1, hname, hends.2⟩

/-- A placeholder ends with a parenthesis if it has a type. -/
theorem trim_append_typeNotation {s : List Char} (h : ∀ c ∈ s.head?, isBlank c = false)
    (t : TypeName) : trim (s ++ typeNotation t) = s ++ typeNotation t := by
  refine trim_eq_self ?_ ?_
  · cases s with
    | nil =>
      rintro c ⟨⟩
      decide
    | cons c s => exact h
  · unfold typeNotation
    rw [← List.append_assoc, ← List.append_assoc, List.getLast?_concat]
    rintro c ⟨⟩
    decide

theorem content_toList (p : Placeholder) :
    p.content.toList = match p.name, p.type with
      | none, none => []
      | some n, none => n.toList
      | none, some t => typeNotation t
      | some n, some t => n.toList ++ ':' :: typeNotation t := by
  obtain ⟨name, type⟩ := p
  cases name <;> cases type <;> simp [content, typeNotation, String.toList_append]

/-- A placeholder that was read has no character that names, types and their notation have not. -/
theorem IsRead.notMem_content {p : Placeholder} (h : p.IsRead) {c : Char}
    (hpart : isIdentifierPart c = false) (hother : c ≠ '.' ∧ c ≠ '[' ∧ c ≠ ']')
    (hmark : c ∉ "any()".toList) (hcolon : c ≠ ':') : c ∉ p.content.toList := by
  rw [content_toList]
  obtain ⟨name, type⟩ := p
  have hname (n : String) (hn : name = some n) : c ∉ n.toList :=
    not_mem_of_isIdentifier (h.name n hn) hpart
  have htype (t : TypeName) (ht : type = some t) : c ∉ typeNotation t :=
    notMem_typeNotation (h.type t ht) hpart hother hmark
  cases name with
  | none =>
    cases type with
    | none => exact List.not_mem_nil
    | some t => exact htype t rfl
  | some n =>
    cases type with
    | none => exact hname n rfl
    | some t =>
      rw [List.mem_append, List.mem_cons, not_or, not_or]
      exact ⟨hname n rfl, hcolon, htype t rfl⟩

/-! ## The four forms -/

theorem parse?_typeNotation {t : TypeName} (h : TypeName.parse? t.text = some t) :
    parse? (typeNotation t) = some ⟨none, some t⟩ := by
  have htrim : trim (typeNotation t) = typeNotation t := trim_append_typeNotation (s := []) nofun t
  have hsome : (typeNotation t).isEmpty = false := rfl
  have hcolon : splitFirst (· == ':') (typeNotation t) = none :=
    splitFirst_of_notMem (notMem_typeNotation h (by decide) (by decide) (by decide))
  have hbegins : ['a', 'n', 'y', '('] <+: typeNotation t := List.prefix_append _ _
  unfold parse?
  simp [htrim, hsome, hcolon, hbegins, parseType?_typeNotation h]

section Identifier

variable {s : List Char} (h : isIdentifier s = true)

include h

theorem trim_identifier : trim s = s :=
  trim_eq_self (fun c hc => notBlank_of_isIdentifier h c (List.mem_of_head? hc))
    fun c hc => notBlank_of_isIdentifier h c (List.mem_of_getLast? hc)

theorem ne_nil_of_isIdentifier : s ≠ [] := by
  rintro rfl
  cases h

/-- A name alone. It is not taken for the beginning of a type, even if it is `any`. -/
theorem parse?_identifier : parse? s = some (named (String.ofList s)) := by
  have hcolon : ':' ∉ s := not_mem_of_isIdentifier h (by decide)
  have hany : ¬['a', 'n', 'y', '('] <+: s := by
    intro hbegins
    exact not_mem_of_isIdentifier h (by decide) (hbegins.subset (show '(' ∈ _ by decide))
  unfold parse?
  simp [trim_identifier h, ne_nil_of_isIdentifier h, splitFirst_of_notMem hcolon, hany, h]

theorem parse?_identifier_typed {t : TypeName} (ht : TypeName.parse? t.text = some t) :
    parse? (s ++ ':' :: typeNotation t) = some ⟨some (String.ofList s), some t⟩ := by
  have htrim : trim (s ++ ':' :: typeNotation t) = s ++ ':' :: typeNotation t := by
    rw [List.append_cons]
    apply trim_append_typeNotation
    intro c hc
    rw [List.head?_append_of_ne_nil _ (ne_nil_of_isIdentifier h)] at hc
    exact notBlank_of_isIdentifier h c (List.mem_of_head? hc)
  have hsplit : splitFirst (· == ':') (s ++ ':' :: typeNotation t) = some (s, typeNotation t) := by
    refine splitFirst_append (p := (· == ':')) (fun d hd => ?_) (by decide) _
    exact beq_eq_false_iff_ne.mpr (ne_of_mem_of_not_mem hd (not_mem_of_isIdentifier h (by decide)))
  have htrimType : trim (typeNotation t) = typeNotation t :=
    trim_append_typeNotation (s := []) nofun t
  unfold parse?
  simp [htrim, hsplit, trim_identifier h, h, htrimType, parseType?_typeNotation ht]

end Identifier

/-- **What is read of a placeholder is written so that it is read again.** -/
theorem IsRead.parse?_content {p : Placeholder} (h : p.IsRead) :
    parse? p.content.toList = some p := by
  rw [content_toList]
  obtain ⟨name, type⟩ := p
  cases name with
  | none =>
    cases type with
    | none => rfl
    | some t => exact parse?_typeNotation (h.type t rfl)
  | some n =>
    have hn := h.name n rfl
    cases type with
    | none =>
      have hread := parse?_identifier hn
      rwa [String.ofList_toList] at hread
    | some t =>
      have hread := parse?_identifier_typed hn (h.type t rfl)
      rwa [String.ofList_toList] at hread

/-- The placeholders that are read are those with an identifier for a name and a type that is read as
itself. -/
theorem exists_parse?_iff {p : Placeholder} : (∃ content, parse? content = some p) ↔ p.IsRead := by
  constructor
  · rintro ⟨content, h⟩
    exact isRead_of_parse? h
  · intro h
    exact ⟨_, h.parse?_content⟩

/-! ## Placeholders among literal texts -/

theorem IsRead.pieces_render {p : Placeholder} (h : p.IsRead) (rest : List Char) :
    pieces (p.render.toList ++ rest) = .slot p.content.toList :: pieces rest := by
  have htext : p.render.toList ++ rest =
      '#' :: '\x7b' :: (p.content.toList ++ '\x7d' :: rest) := by
    simp [render, String.toList_append]
  rw [htext]
  apply pieces_slot
  apply slotAt?_slot
  · exact h.notMem_content (by decide) (by decide) (by decide) (by decide)
  · exact h.notMem_content (by decide) (by decide) (by decide) (by decide)

theorem parseAll_literal (t : List Char) (ps : List Piece) :
    parseAll (t.map .char ++ ps) = parseAll ps := by
  induction t with
  | nil => rfl
  | cons c t ih => exact ih

/-- A literal text, then placeholders with a literal text behind each. -/
def woven (first : String) : List (Placeholder × String) → String
  | [] => first
  | (p, t) :: rest => first ++ p.render ++ woven t rest

theorem parseAll_woven {first : String} {rest : List (Placeholder × String)}
    (hread : ∀ part ∈ rest, part.1.IsRead)
    (hliteral : ∀ t ∈ first :: rest.map (·.2), ¬"#\x7b".toList <:+: t.toList) :
    parseAll (pieces (woven first rest).toList) = .ok (rest.map (·.1)) := by
  induction rest generalizing first with
  | nil =>
    have hfirst := hliteral first List.mem_cons_self
    have hpieces : pieces (first.toList ++ []) = _ := pieces_literal hfirst nofun
    rw [List.append_nil] at hpieces
    rw [woven, hpieces, parseAll_literal]
    rfl
  | cons part rest ih =>
    obtain ⟨p, t⟩ := part
    rw [List.map_cons, List.forall_mem_cons] at hliteral
    rw [List.forall_mem_cons] at hread
    obtain ⟨hfirst, hrest⟩ := hliteral
    obtain ⟨hp, hread⟩ := hread
    -- What follows the literal text begins with a number sign.
    have hhead : (p.render.toList ++ (woven t rest).toList).head? ≠ some '\x7b' := by
      simp [render, String.toList_append]
    rw [woven, String.toList_append, String.toList_append, List.append_assoc,
      pieces_literal hfirst hhead, hp.pieces_render, parseAll_literal, parseAll, hp.parse?_content]
    simp only [ih hread hrest]
    rfl

/-- **Written placeholders are found again**, whatever literal texts stand around them, as long as none of
these has a beginning of a placeholder in it. What is read of the content of a placeholder is written as
a content that is read the same; so it is for every placeholder with or without an identifier for a name
and with or without a type that is read as itself, and no other one is read. -/
theorem scan_woven :
    (∀ first (rest : List (Placeholder × String)),
      (∀ part ∈ rest, ∃ content, parse? content = some part.1) →
      (∀ t ∈ first :: rest.map (·.2), ¬"#\x7b".toList <:+: t.toList) →
      scan (woven first rest) = .ok (rest.map (·.1))) ∧
    (∀ content p, parse? content = some p → parse? p.content.toList = some p) ∧
    ∀ p : Placeholder, (∃ content, parse? content = some p) ↔
      (∀ n, p.name = some n → isIdentifier n.toList = true) ∧
      ∀ t, p.type = some t → TypeName.parse? t.text = some t := by
  refine ⟨fun first rest hread hliteral => ?_, fun content p h => (isRead_of_parse? h).parse?_content,
    fun p => ?_⟩
  · exact parseAll_woven (fun part hpart => exists_parse?_iff.mp (hread part hpart)) hliteral
  · rw [exists_parse?_iff]
    exact ⟨fun h => ⟨h.name, h.type⟩, fun h => ⟨h.1, h.2⟩⟩

/-- All four forms, among texts that end with a number sign or begin with a brace. -/
theorem scan_woven_forms :
    let parts : List (Placeholder × String) :=
      [(⟨some "millis", some ⟨"java.util.Map[]"⟩⟩, "\x7b#"), (⟨none, some ⟨"long"⟩⟩, "\x7d"),
        (⟨some "any", none⟩, ""), (⟨none, none⟩, ")")]
    woven "#" parts =
        "##\x7bmillis:any(java.util.Map[])\x7d\x7b##\x7bany(long)\x7d\x7d#\x7bany\x7d#\x7b\x7d)" ∧
      scan (woven "#" parts) = .ok (parts.map (·.1)) ∧
      parse? " millis : any( java.util.Map<K, V>[] ) ".toList =
        some ⟨some "millis", some ⟨"java.util.Map[]"⟩⟩ ∧
      parse? "millis:any(java.util.Map[])".toList = some ⟨some "millis", some ⟨"java.util.Map[]"⟩⟩ := by
  intro parts
  obtain ⟨hscan, hcontent, -⟩ := scan_woven
  have hread : ∀ part ∈ parts, ∃ content, parse? content = some part.1 := by
    have hall : ∀ part ∈ parts, parse? part.1.content.toList = some part.1 := by decide +kernel
    exact fun part hpart => ⟨_, hall part hpart⟩
  have hliteral : ∀ t ∈ "#" :: parts.map (·.2), ¬"#\x7b".toList <:+: t.toList := by
    decide +kernel
  have hblanks : parse? " millis : any( java.util.Map<K, V>[] ) ".toList =
      some ⟨some "millis", some ⟨"java.util.Map[]"⟩⟩ := by decide +kernel
  have hwritten : content ⟨some "millis", some ⟨"java.util.Map[]"⟩⟩ =
      "millis:any(java.util.Map[])" := by decide +kernel
  have hagain := hcontent _ _ hblanks
  rw [hwritten] at hagain
  exact ⟨by decide +kernel, hscan "#" parts hread hliteral, hblanks, hagain⟩

end Placeholder

end CallMigration
