import CallMigration.Proofs.Fragments
import CallMigration.Proofs.OwnTypes
import CallMigration.Proofs.SortedImports

/-!
# How erasure reads a text

Erasure goes through a written type from left to right and keeps count of the angle brackets that are
open. A text may therefore be cut anywhere: what is made of its second part depends on the first only
through the brackets that are open between them.

* `depthAfter`, `IsClosed` : the count behind a text, and what it means that nothing is left open.
* `eraseFrom_append` : erasure of two parts.
* `IsDropped` : a text that is dropped wherever it stands outside of type arguments.
* `TypeName.parse?_trim` : blanks around a written type.
* `TypeName.mem_of_isWellFormed` : the characters of a name whose segments are identifiers.
* `TypeName.dimensions_append` : a name with further pairs of brackets.
-/

namespace CallMigration

open Text

/-! ## Open brackets -/

/-- The number of angle brackets that are open behind a text that begins inside `depth` of them. A
closing bracket without an opening one is ignored. -/
def depthAfter : Nat → List Char → Nat
  | depth, [] => depth
  | depth, c :: s =>
    depthAfter (if c = '<' then depth + 1 else if c = '>' then depth - 1 else depth) s

theorem depthAfter_append (depth : Nat) (s t : List Char) :
    depthAfter depth (s ++ t) = depthAfter (depthAfter depth s) t := by
  induction s generalizing depth with
  | nil => rfl
  | cons c s ih => exact ih _

theorem depthAfter_of_plain {s : List Char} (hopen : '<' ∉ s) (hclose : '>' ∉ s) (depth : Nat) :
    depthAfter depth s = depth := by
  induction s with
  | nil => rfl
  | cons c s ih =>
    rw [List.mem_cons, not_or] at hopen hclose
    rw [depthAfter, if_neg (Ne.symm hopen.1), if_neg (Ne.symm hclose.1), ih hopen.2 hclose.2]

theorem depthAfter_of_isErased {s : List Char} (h : ∀ c ∈ s, isErased c = true) (depth : Nat) :
    depthAfter depth s = depth :=
  depthAfter_of_plain (fun hc => absurd (h _ hc) (by decide))
    (fun hc => absurd (h _ hc) (by decide)) depth

/-- Every opening bracket is closed: a closing one follows it with as many opened as closed in between. -/
def IsClosed (s : List Char) : Prop :=
  ∀ before after, s = before ++ '<' :: after →
    ∃ inside rest, after = inside ++ '>' :: rest ∧ inside.count '<' = inside.count '>'

/-- Where `level` further brackets are open inside of others and none is left open, those others are
closed somewhere. -/
theorem exists_closing {outer : Nat} (level : Nat) {s : List Char}
    (h : depthAfter (outer + 1 + level) s = 0) :
    ∃ inside rest, s = inside ++ '>' :: rest ∧ inside.count '>' = inside.count '<' + level := by
  induction s generalizing level with
  | nil =>
    rw [depthAfter] at h
    omega
  | cons c s ih =>
    rw [depthAfter] at h
    by_cases hopen : c = '<'
    · subst hopen
      obtain ⟨inside, rest, hsplit, hcount⟩ := ih (level + 1) h
      refine ⟨'<' :: inside, rest, by rw [hsplit, List.cons_append], ?_⟩
      rw [List.count_cons_of_ne (by decide), List.count_cons_self, hcount]
      omega
    · rw [if_neg hopen] at h
      by_cases hclose : c = '>'
      · subst hclose
        rw [if_pos rfl] at h
        cases level with
        | zero => exact ⟨[], s, rfl, rfl⟩
        | succ level =>
          obtain ⟨inside, rest, hsplit, hcount⟩ := ih level h
          refine ⟨'>' :: inside, rest, by rw [hsplit, List.cons_append], ?_⟩
          rw [List.count_cons_self, List.count_cons_of_ne (by decide), hcount]
          omega
      · rw [if_neg hclose] at h
        obtain ⟨inside, rest, hsplit, hcount⟩ := ih level h
        refine ⟨c :: inside, rest, by rw [hsplit, List.cons_append], ?_⟩
        rwa [List.count_cons_of_ne hopen, List.count_cons_of_ne hclose]

theorem isClosed_of_notMem {s : List Char} (h : '<' ∉ s) : IsClosed s := by
  rintro before after rfl
  exact absurd (List.mem_append_right _ List.mem_cons_self) h

/-- In no beginning of the text is more closed than opened, up to a number of brackets. -/
def StaysOpen (more : Nat) (s : List Char) : Prop :=
  ∀ u v, s = u ++ v → u.count '>' ≤ u.count '<' + more

theorem StaysOpen.cons {more less : Nat} {c : Char} {s : List Char} (h : StaysOpen less s)
    (hc : [c].count '>' + less ≤ [c].count '<' + more) : StaysOpen more (c :: s) := by
  intro u v hsplit
  cases u with
  | nil => simp
  | cons d u =>
    rw [List.cons_append, List.cons.injEq] at hsplit
    have hu := h u v hsplit.2
    have hcount (e : Char) : (d :: u).count e = [c].count e + u.count e := by
      rw [hsplit.1, ← List.count_append, List.singleton_append]
    rw [hcount, hcount]
    omega

/-- If brackets are left open, one of them was open at the beginning or was opened in the text. -/
theorem staysOpen_of_depthAfter {depth : Nat} {s : List Char} (h : 0 < depthAfter depth s) :
    (∃ more, depth = more + 1 ∧ StaysOpen more s) ∨
      ∃ before after, s = before ++ '<' :: after ∧ StaysOpen 0 after := by
  induction s generalizing depth with
  | nil =>
    refine .inl ⟨depth - 1, ?_, fun u v hsplit => ?_⟩
    · rw [depthAfter] at h
      omega
    · rw [(List.append_eq_nil_iff.mp hsplit.symm).1]
      simp
  | cons c s ih =>
    rw [depthAfter] at h
    rcases ih h with ⟨more, hdepth, hopen⟩ | ⟨before, after, hsplit, hopen⟩
    · by_cases hc : c = '<'
      · subst hc
        rw [if_pos rfl] at hdepth
        cases more with
        | zero => exact .inr ⟨[], s, rfl, hopen⟩
        | succ more =>
          have hcloses : ['<'].count '>' = 0 := rfl
          exact .inl ⟨more, by omega, hopen.cons (by rw [hcloses, List.count_singleton_self]; omega)⟩
      · rw [if_neg hc] at hdepth
        by_cases hc' : c = '>'
        · subst hc'
          rw [if_pos rfl] at hdepth
          exact .inl ⟨more + 1, by omega, hopen.cons (by simp; omega)⟩
        · rw [if_neg hc'] at hdepth
          exact .inl ⟨more, hdepth, hopen.cons (by simp [hc, hc'])⟩
    · exact .inr ⟨c :: before, after, by rw [hsplit, List.cons_append], hopen⟩

/-- **No bracket is left open** exactly if every one of them is closed. -/
theorem depthAfter_eq_zero_iff {s : List Char} : depthAfter 0 s = 0 ↔ IsClosed s := by
  constructor
  · rintro h before after rfl
    rw [depthAfter_append, depthAfter, if_pos rfl] at h
    obtain ⟨inside, rest, hsplit, hcount⟩ := exists_closing 0 h
    exact ⟨inside, rest, hsplit, hcount.symm⟩
  · intro h
    by_contra hopen
    rcases staysOpen_of_depthAfter (Nat.pos_of_ne_zero hopen) with
      ⟨more, hdepth, -⟩ | ⟨before, after, hsplit, hstays⟩
    · cases hdepth
    · obtain ⟨inside, rest, hclose, hcount⟩ := h before after hsplit
      have hmany := hstays (inside ++ ['>']) rest (by rw [hclose]; simp)
      have hcloses : ['>'].count '>' = 1 := rfl
      have hopens : ['>'].count '<' = 0 := rfl
      rw [List.count_append, List.count_append, hcount, hcloses, hopens] at hmany
      omega

instance (s : List Char) : Decidable (IsClosed s) :=
  decidable_of_iff (depthAfter 0 s = 0) depthAfter_eq_zero_iff

/-- **Erasure of two parts.** -/
theorem eraseFrom_append (depth : Nat) (s t : List Char) :
    eraseFrom depth (s ++ t) = eraseFrom depth s ++ eraseFrom (depthAfter depth s) t := by
  induction s generalizing depth with
  | nil => rfl
  | cons c s ih =>
    rw [List.cons_append, eraseFrom, eraseFrom, depthAfter]
    split
    next => exact ih _
    next =>
      split
      next => exact ih _
      next =>
        split
        next => exact ih _
        next => rw [ih, List.cons_append]

/-- Inside of type arguments, a text without angle brackets is dropped. -/
theorem eraseFrom_succ_of_plain {s : List Char} (hopen : '<' ∉ s) (hclose : '>' ∉ s) (depth : Nat) :
    eraseFrom (depth + 1) s = [] := by
  have hnothing := eraseFrom_append_of_plain hopen hclose depth []
  rwa [List.append_nil, eraseFrom] at hnothing

/-- Where nothing is left open, a text is erased in two parts. -/
theorem erase_append {s : List Char} (h : depthAfter 0 s = 0) (t : List Char) :
    erase (s ++ t) = erase s ++ erase t := by
  rw [erase, erase, erase, eraseFrom_append, h]

theorem eraseFrom_cons (depth : Nat) (c : Char) (s : List Char) :
    eraseFrom depth (c :: s) = eraseFrom depth [c] ++ eraseFrom (depthAfter depth [c]) s :=
  eraseFrom_append depth [c] s

/-- A single character is dropped, or it stands outside of type arguments and is kept. -/
theorem eraseFrom_singleton_cases (depth : Nat) (c : Char) :
    eraseFrom depth [c] = [] ∨
      depth = 0 ∧ depthAfter 0 [c] = 0 ∧ eraseFrom 0 [c] = [if c = '$' then '.' else c] := by
  by_cases hopen : c = '<'
  · exact .inl (by rw [eraseFrom, if_pos hopen, eraseFrom])
  by_cases hclose : c = '>'
  · exact .inl (by rw [eraseFrom, if_neg hopen, if_pos hclose, eraseFrom])
  rw [eraseFrom_cons_of_plain hopen hclose]
  split
  next => exact .inl rfl
  next hkept =>
    rw [Bool.or_eq_true, not_or, decide_eq_true_eq, Nat.not_lt, Nat.le_zero, Bool.not_eq_true] at hkept
    obtain ⟨rfl, hblank⟩ := hkept
    refine .inr ⟨rfl, depthAfter_of_plain ?_ ?_ 0, ?_⟩
    · simpa using Ne.symm hopen
    · simpa using Ne.symm hclose
    · rw [eraseFrom_cons_of_plain hopen hclose, hblank, if_neg (by decide), eraseFrom]

/-! ## Dropped texts -/

theorem isBlank_of_isIdentifierPart {c : Char} (h : isIdentifierPart c = true) :
    isBlank c = false := by
  by_contra hblank
  rw [isIdentifierPart_of_isBlank (by simpa using hblank)] at h
  cases h

/-- A text that erasure drops outside of type arguments, and that opens and closes as many. -/
structure IsDropped (s : List Char) : Prop where
  depth : depthAfter 0 s = 0
  erased : erase s = []

instance (s : List Char) : Decidable (IsDropped s) :=
  decidable_of_iff (depthAfter 0 s = 0 ∧ erase s = []) ⟨fun h => ⟨h.1, h.2⟩, fun h => ⟨h.1, h.2⟩⟩

theorem IsDropped.of_blank {s : List Char} (h : ∀ c ∈ s, isBlank c = true) : IsDropped s := by
  have hopen : '<' ∉ s := fun hc => absurd (h _ hc) (by decide)
  have hclose : '>' ∉ s := fun hc => absurd (h _ hc) (by decide)
  refine ⟨depthAfter_of_plain hopen hclose 0, ?_⟩
  rw [erase]
  induction s with
  | nil => rfl
  | cons c s ih =>
    rw [List.mem_cons, not_or] at hopen hclose
    rw [eraseFrom_cons_of_plain (Ne.symm hopen.1) (Ne.symm hclose.1),
      if_pos (by simp [h c List.mem_cons_self]),
      ih (fun d hd => h d (List.mem_cons_of_mem _ hd)) hopen.2 hclose.2]

theorem IsDropped.erase_between {gap s : List Char} (h : IsDropped gap) (hs : depthAfter 0 s = 0)
    (t : List Char) : erase (s ++ (gap ++ t)) = erase (s ++ t) := by
  rw [erase_append hs, erase_append h.depth, h.erased, List.nil_append, erase_append hs]

theorem IsDropped.erase_in_front {gap : List Char} (h : IsDropped gap) (s : List Char) :
    erase (gap ++ s) = erase s :=
  h.erase_between (s := []) rfl s

theorem erase_append_blank {s blank : List Char} (h : ∀ c ∈ blank, isBlank c = true) :
    erase (s ++ blank) = erase s := by
  rw [erase, erase, eraseFrom_append]
  cases hdepth : depthAfter 0 s with
  | zero =>
    have hblank : eraseFrom 0 blank = [] := (IsDropped.of_blank h).erased
    rw [hblank, List.append_nil]
  | succ depth =>
    rw [eraseFrom_succ_of_plain (fun hc => absurd (h _ hc) (by decide))
      (fun hc => absurd (h _ hc) (by decide)), List.append_nil]

theorem erase_trim (s : List Char) : erase (trim s) = erase s := by
  obtain ⟨before, after, hsplit, hbefore, hafter⟩ := Template.exists_dropWhile_both isBlank s
  change s = before ++ (trim s ++ after) at hsplit
  calc erase (trim s) = erase (trim s ++ after) := (erase_append_blank hafter).symm
    _ = erase (before ++ (trim s ++ after)) :=
      ((IsDropped.of_blank hbefore).erase_in_front _).symm
    _ = erase s := by rw [← hsplit]

/-! ## Names -/

/-- A text with something in it has something in its segments. -/
theorem mem_segments_of_mem {s : List Char} {c : Char} (hc : c ∈ s) (hdot : c ≠ '.') :
    ∃ segment ∈ segments s, c ∈ segment := by
  induction s with
  | nil => cases hc
  | cons d s ih =>
    obtain ⟨first, rest, hsegments⟩ := exists_segments s
    by_cases hd : d = '.'
    · subst hd
      obtain ⟨segment, hmem, hin⟩ := ih ((List.mem_cons.mp hc).resolve_left hdot)
      rw [segments_dot]
      exact ⟨segment, List.mem_cons_of_mem _ hmem, hin⟩
    · rw [segments_cons hd hsegments]
      rcases List.mem_cons.mp hc with rfl | hc
      · exact ⟨_, List.mem_cons_self, List.mem_cons_self⟩
      · obtain ⟨segment, hmem, hin⟩ := ih hc
        rw [hsegments] at hmem
        rcases List.mem_cons.mp hmem with rfl | hmem
        · exact ⟨_, List.mem_cons_self, List.mem_cons_of_mem _ hin⟩
        · exact ⟨segment, List.mem_cons_of_mem _ hmem, hin⟩

namespace TypeName

theorem parse?_eq_some_iff {written : String} {n : TypeName} :
    parse? written = some n ↔ n = ofWritten written ∧ n.isWellFormed = true := by
  rw [parse?, Option.ite_none_right_eq_some]
  constructor
  · rintro ⟨hformed, heq⟩
    cases heq
    exact ⟨rfl, hformed⟩
  · rintro ⟨rfl, hformed⟩
    exact ⟨hformed, rfl⟩

theorem ofWritten_congr {a b : String} (h : erase a.toList = erase b.toList) :
    ofWritten a = ofWritten b := by
  rw [ofWritten, ofWritten, h]

theorem parse?_congr {a b : String} (h : erase a.toList = erase b.toList) :
    parse? a = parse? b := by
  rw [parse?, parse?, ofWritten_congr h]

theorem parse?_trim (s : List Char) : parse? (String.ofList (trim s)) = parse? (String.ofList s) :=
  parse?_congr (by rw [String.toList_ofList, String.toList_ofList, erase_trim])

theorem parse?_text {n : TypeName} (herased : n.Erased) (hformed : n.isWellFormed = true) :
    parse? n.text = some n :=
  parse?_eq_some_iff.mpr ⟨(ofWritten_text herased).symm, hformed⟩

theorem chars_dimensions (n : TypeName) :
    n.dimensions.2.chars = (takePairs n.chars.reverse).2.reverse := by
  rw [dimensions, chars, String.toList_ofList]

/-- A name whose segments are identifiers has only their characters, dots and array brackets. -/
theorem mem_of_isWellFormed {n : TypeName} (h : n.isWellFormed = true) {c : Char}
    (hc : c ∈ n.chars) : isIdentifierPart c = true ∨ c = '.' ∨ c = '[' ∨ c = ']' := by
  by_cases hdot : c = '.'
  · exact .inr (.inl hdot)
  by_cases hopen : c = '['
  · exact .inr (.inr (.inl hopen))
  by_cases hclose : c = ']'
  · exact .inr (.inr (.inr hclose))
  have hkept : c ∈ n.dimensions.2.chars := by
    rw [chars_dimensions, List.mem_reverse]
    exact mem_takePairs (List.mem_reverse.mpr hc) hopen hclose
  obtain ⟨segment, hsegment, hin⟩ := mem_segments_of_mem hkept hdot
  exact .inl (isIdentifierPart_of_mem (List.all_eq_true.mp h segment hsegment) c hin)

/-- A character that is not for identifiers, no dot and no array bracket is not in such a name. -/
theorem notMem_of_isWellFormed {n : TypeName} (h : n.isWellFormed = true) {c : Char}
    (hpart : isIdentifierPart c = false) (hother : c ≠ '.' ∧ c ≠ '[' ∧ c ≠ ']') : c ∉ n.chars := by
  intro hc
  rcases mem_of_isWellFormed h hc with hc | hc | hc | hc
  · rw [hpart] at hc
    cases hc
  · exact hother.1 hc
  · exact hother.2.1 hc
  · exact hother.2.2 hc

theorem chars_ne_nil_of_isWellFormed {n : TypeName} (h : n.isWellFormed = true) : n.chars ≠ [] := by
  intro hnil
  have heq : n = ⟨""⟩ := congrArg TypeName.mk (String.toList_eq_nil_iff.mp hnil)
  rw [heq] at h
  exact absurd h (by decide)

/-! ## Pairs of brackets -/

def pairs : Nat → List Char
  | 0 => []
  | count + 1 => pairs count ++ ['[', ']']

theorem mem_pairs {count : Nat} {c : Char} (h : c ∈ pairs count) : c = '[' ∨ c = ']' := by
  induction count with
  | zero => cases h
  | succ count ih =>
    rcases List.mem_append.mp h with h | h
    · exact ih h
    · simpa using h

theorem isErased_pairs (count : Nat) : ∀ c ∈ pairs count, isErased c = true := by
  intro c hc
  rcases mem_pairs hc with rfl | rfl <;> decide

/-- The pairs that are taken off a reversed text, and what is left of it. -/
theorem takePairs_reverse_append (s : List Char) :
    (takePairs s).2.reverse ++ pairs (takePairs s).1 = s.reverse := by
  fun_induction takePairs s with
  | case1 s count rest heq ih =>
    rw [heq] at ih
    rw [pairs, ← List.append_assoc, ih]
    simp
  | case2 s => rw [pairs, List.append_nil]

theorem takePairs_reverse_append_pairs (s : List Char) (count : Nat) :
    takePairs (s ++ pairs count).reverse =
      ((takePairs s.reverse).1 + count, (takePairs s.reverse).2) := by
  induction count with
  | zero => rw [pairs, List.append_nil, Nat.add_zero]
  | succ count ih =>
    have hreverse : (s ++ pairs (count + 1)).reverse = ']' :: '[' :: (s ++ pairs count).reverse := by
      simp [pairs]
    rw [hreverse, takePairs, ih]
    rfl

/-- A name is its base with the brackets of its dimensions behind it. -/
theorem dimensions_append_pairs (n : TypeName) :
    n.dimensions.2.chars ++ pairs n.dimensions.1 = n.chars := by
  have hpairs := takePairs_reverse_append n.chars.reverse
  rw [List.reverse_reverse] at hpairs
  rw [chars_dimensions]
  exact hpairs

theorem dimensions_append {n m : TypeName} {count : Nat} (h : m.chars = n.chars ++ pairs count) :
    m.dimensions = (n.dimensions.1 + count, n.dimensions.2) := by
  rw [dimensions, h, takePairs_reverse_append_pairs]
  rfl

theorem array_array (n : TypeName) (inner outer : Nat) :
    (n.array inner).array outer = n.array (inner + outer) := by
  induction outer with
  | zero => rfl
  | succ outer ih => rw [array, ih, ← Nat.add_assoc, array]

theorem chars_array {n : TypeName} (h : n.Erased) (count : Nat) :
    (n.array count).chars = n.chars ++ pairs count := by
  induction count with
  | zero => rw [pairs, List.append_nil, array]
  | succ count ih => rw [h.chars_array_succ, ih, pairs, List.append_assoc]; rfl

end TypeName

end CallMigration
