import CallMigration.Proofs.Presence
import CallMigration.Proofs.Signatures
import CallMigration.Types.Pattern

/-!
# Patterns match whole segments

Patterns are matched as texts: a name lies below a package if the package is a beginning of it that ends
at a dot, and the package of a type ends where the first capitalised segment begins. Both are facts about
segments, since a text is cut at every dot and its segments have none.

* `segments_prefix_iff` : a dotted beginning has the segments of a beginning.
* `TypeName.package?_eq_some_iff` : the package of a type, by segments.
* `TypePattern.Writable`, `TypePattern.parse_render` : what can be written is read back.
* `TypePattern.matches_segments` : what the patterns match.
-/

namespace CallMigration

open Text

/-! ## Segments -/

theorem joinDots_segments (s : List Char) : joinDots (segments s) = s :=
  List.intercalate_splitOn '.'

theorem segments_append_dot (s t : List Char) :
    segments (s ++ '.' :: t) = segments s ++ segments t := by
  unfold segments
  rw [List.splitOn_eq_splitOnP, List.splitOn_eq_splitOnP, List.splitOn_eq_splitOnP]
  exact List.splitOnP_append_cons s t (beq_self_eq_true '.')

theorem dot_notMem_segment {s segment : List Char} (h : segment ∈ segments s) : '.' ∉ segment := by
  induction s generalizing segment with
  | nil =>
    rw [List.mem_singleton.mp h]
    exact List.not_mem_nil
  | cons c s ih =>
    obtain ⟨first, rest, hsegments⟩ := exists_segments s
    rw [hsegments] at ih
    by_cases hc : c = '.'
    · subst hc
      rw [segments_dot, hsegments] at h
      rcases List.mem_cons.mp h with rfl | h
      · exact List.not_mem_nil
      · exact ih h
    · rw [segments_cons hc hsegments] at h
      rcases List.mem_cons.mp h with rfl | h
      · rw [List.mem_cons, not_or]
        exact ⟨Ne.symm hc, ih List.mem_cons_self⟩
      · exact ih (List.mem_cons_of_mem _ h)

/-- Some of the segments of a text are the segments of what they are joined to. -/
theorem segments_joinDots {s : List Char} {some : List (List Char)} (hne : some ≠ [])
    (h : some ⊆ segments s) : segments (joinDots some) = some :=
  List.splitOn_intercalate '.' (fun _ hsegment => dot_notMem_segment (h hsegment)) hne

/-- **The segments of a text are a beginning of those of another one** exactly if the other text is the
same one or goes on after a dot. -/
theorem segments_prefix_iff {s t : List Char} :
    segments s <+: segments t ↔ t = s ∨ ∃ rest, t = s ++ '.' :: rest := by
  constructor
  · rintro ⟨more, hmore⟩
    by_cases hnil : more = []
    · left
      rw [hnil, List.append_nil] at hmore
      rw [← joinDots_segments t, ← hmore, joinDots_segments]
    · right
      refine ⟨joinDots more, ?_⟩
      have hrest : segments (joinDots more) = more :=
        segments_joinDots hnil (hmore ▸ List.subset_append_right _ _)
      rw [← joinDots_segments t, ← hmore, ← hrest, ← segments_append_dot, joinDots_segments, hrest]
  · rintro (rfl | ⟨rest, rfl⟩)
    · exact List.prefix_refl _
    · exact ⟨segments rest, (segments_append_dot s rest).symm⟩

/-- What is taken of a list while something holds, if it is not all, ends where that holds no longer. -/
theorem takeWhile_eq_iff {α : Type} {p : α → Bool} {l taken : List α} :
    l.takeWhile p = taken ∧ taken.length ≠ l.length ↔
      (∀ a ∈ taken, p a = true) ∧ ∃ b rest, l = taken ++ b :: rest ∧ p b = false := by
  constructor
  · rintro ⟨rfl, hlength⟩
    refine ⟨fun a ha => List.mem_takeWhile_imp ha, ?_⟩
    have hcut : l.takeWhile p ++ l.dropWhile p = l := List.takeWhile_append_dropWhile
    have hstop := List.head?_dropWhile_not p l
    cases hrest : l.dropWhile p with
    | nil =>
      rw [hrest, List.append_nil] at hcut
      exact absurd (congrArg List.length hcut) hlength
    | cons b rest =>
      rw [hrest] at hcut hstop
      exact ⟨b, rest, hcut.symm, by simpa using hstop⟩
  · rintro ⟨htaken, b, rest, rfl, hb⟩
    have hstop : ¬p b = true := by simp [hb]
    rw [List.takeWhile_append_of_pos htaken, List.takeWhile_cons_of_neg hstop, List.append_nil]
    refine ⟨rfl, ?_⟩
    rw [List.length_append, List.length_cons]
    omega

/-- The package of a type is what its lower segments are joined to, if there are some and others. -/
theorem TypeName.package?_eq_some {n : TypeName} {p : String} :
    n.package? = some p ↔
      ((segments n.chars).takeWhile fun segment => !startsUppercase segment) = segments p.toList ∧
        (segments p.toList).length ≠ (segments n.chars).length := by
  unfold package?
  simp only
  constructor
  · intro h
    split at h
    next => cases h
    next hsome =>
      rw [Bool.or_eq_true, not_or, List.isEmpty_iff, beq_iff_eq] at hsome
      have hp : segments p.toList =
          (segments n.chars).takeWhile fun segment => !startsUppercase segment := by
        rw [← Option.some.inj h, String.toList_ofList]
        exact segments_joinDots hsome.1 (List.takeWhile_subset _)
      rw [hp]
      exact ⟨rfl, hsome.2⟩
  · rintro ⟨htake, hlength⟩
    have hne : (segments p.toList).isEmpty = false :=
      List.isEmpty_eq_false_iff.mpr (List.splitOn_ne_nil '.' _)
    rw [htake, hne, Bool.false_or, if_neg (by simpa using hlength), joinDots_segments,
      String.ofList_toList]

/-- **The package of a type** : the segments in front of the first capitalised one. -/
theorem TypeName.package?_eq_some_iff {n : TypeName} {p : String} :
    n.package? = some p ↔ (∀ segment ∈ segments p.toList, startsUppercase segment = false) ∧
      ∃ top rest, segments n.chars = segments p.toList ++ top :: rest ∧
        startsUppercase top = true := by
  rw [package?_eq_some, takeWhile_eq_iff]
  simp only [Bool.not_eq_true', Bool.not_eq_false']

namespace TypePattern

/-! ## The notation -/

/-- What a pattern is made of: a type name that is read as itself, or a dotted list of identifiers. -/
def Writable : TypePattern → Prop
  | exact n => n.Erased ∧ n.isWellFormed = true
  | package p => isPackage p.toList = true
  | recursive p => isPackage p.toList = true

theorem writable_of_parse {written : String} {pattern : TypePattern}
    (h : parse written = .ok pattern) : pattern.Writable := by
  unfold parse at h
  simp only at h
  split at h
  next base _ =>
    split at h
    next hbase =>
      cases h
      rwa [Writable, String.toList_ofList]
    next => cases h
  next =>
    split at h
    next base _ =>
      split at h
      next hbase =>
        cases h
        rwa [Writable, String.toList_ofList]
      next => cases h
    next =>
      split at h
      next n hn =>
        cases h
        exact ⟨Signature.erased_of_parse? hn, (TypeName.parse?_eq_some_iff.mp hn).2⟩
      next => cases h

section Package

variable {s : List Char} (h : isPackage s = true)

include h

theorem mem_of_isPackage {c : Char} (hc : c ∈ s) : isIdentifierPart c = true ∨ c = '.' := by
  by_cases hdot : c = '.'
  · exact .inr hdot
  · obtain ⟨segment, hsegment, hin⟩ := mem_segments_of_mem hc hdot
    exact .inl (isIdentifierPart_of_mem (List.all_eq_true.mp h segment hsegment) c hin)

theorem notBlank_of_isPackage : ∀ c ∈ s, isBlank c = false := by
  intro c hc
  rcases mem_of_isPackage h hc with hpart | rfl
  · exact isBlank_of_isIdentifierPart hpart
  · decide

theorem ne_concat_dot (base : List Char) : s ≠ base ++ ['.'] := by
  rintro rfl
  unfold isPackage at h
  rw [segments_append_dot, List.all_append, Bool.and_eq_true] at h
  exact absurd h.2 (by decide)

/-- With dots and a star behind it, a package has no blanks at its ends. -/
theorem trim_star (dots : List Char) : trim (s ++ (dots ++ ['*'])) = s ++ (dots ++ ['*']) := by
  have hne : s ≠ [] := by
    rintro rfl
    exact absurd h (by decide)
  refine trim_eq_self ?_ ?_
  · intro c hc
    rw [List.head?_append_of_ne_nil _ hne] at hc
    exact notBlank_of_isPackage h c (List.mem_of_head? hc)
  · rw [← List.append_assoc, List.getLast?_concat]
    rintro c ⟨⟩
    decide

end Package

theorem parse_recursive {p : String} (h : isPackage p.toList = true) :
    parse (p ++ "..*") = .ok (.recursive p) := by
  have htrim : trim (p ++ "..*").toList = p.toList ++ "..*".toList := by
    rw [String.toList_append]
    exact trim_star h ['.', '.']
  have hsuffix : "..*".toList.isSuffixOf? (p.toList ++ "..*".toList) = some p.toList :=
    List.isSuffixOf?_eq_some_iff_append_eq.mpr rfl
  unfold parse
  simp only [htrim, hsuffix, h, if_true, String.ofList_toList]

theorem parse_package {p : String} (h : isPackage p.toList = true) :
    parse (p ++ ".*") = .ok (.package p) := by
  have htrim : trim (p ++ ".*").toList = p.toList ++ ".*".toList := by
    rw [String.toList_append]
    exact trim_star h ['.']
  -- With two dots in front of the star, the package would end in a dot.
  have hother : "..*".toList.isSuffixOf? (p.toList ++ ".*".toList) = none := by
    rw [Option.eq_none_iff_forall_ne_some]
    intro base hbase
    have hsplit : (base ++ ['.']) ++ ".*".toList = p.toList ++ ".*".toList := by
      rw [← List.isSuffixOf?_eq_some_iff_append_eq.mp hbase, List.append_assoc]
      rfl
    exact ne_concat_dot h base (List.append_cancel_right hsplit).symm
  have hsuffix : ".*".toList.isSuffixOf? (p.toList ++ ".*".toList) = some p.toList :=
    List.isSuffixOf?_eq_some_iff_append_eq.mpr rfl
  unfold parse
  simp only [htrim, hother, hsuffix, h, if_true, String.ofList_toList]

theorem trim_of_erased {n : TypeName} (h : n.Erased) : trim n.text.toList = n.text.toList := by
  have hblank : ∀ c ∈ n.text.toList, isBlank c = false := by
    intro c hc
    have hkept := h c hc
    simp only [isErased, Bool.and_eq_true, Bool.not_eq_true'] at hkept
    exact hkept.1.2
  exact trim_eq_self (fun c hc => hblank c (List.mem_of_head? hc))
    fun c hc => hblank c (List.mem_of_getLast? hc)

theorem parse_exact {n : TypeName} (herased : n.Erased) (hformed : n.isWellFormed = true) :
    parse n.text = .ok (.exact n) := by
  have hstar : '*' ∉ n.text.toList :=
    TypeName.notMem_of_isWellFormed hformed (by decide) (by decide)
  have hnone (dots : List Char) : (dots ++ ['*']).isSuffixOf? n.text.toList = none := by
    rw [Option.eq_none_iff_forall_ne_some]
    intro base hbase
    apply hstar
    rw [← List.isSuffixOf?_eq_some_iff_append_eq.mp hbase]
    simp
  have htwo : "..*".toList.isSuffixOf? n.text.toList = none := hnone ['.', '.']
  have hone : ".*".toList.isSuffixOf? n.text.toList = none := hnone ['.']
  unfold parse
  simp only [trim_of_erased herased, htwo, hone, String.ofList_toList,
    TypeName.parse?_text herased hformed]

/-- **What can be written is read back.** -/
theorem parse_render {pattern : TypePattern} (h : pattern.Writable) :
    parse pattern.render = .ok pattern := by
  cases pattern with
  | exact n => exact parse_exact h.1 h.2
  | package p => exact parse_package h
  | recursive p => exact parse_recursive h

/-! ## What patterns match -/

theorem within_iff_segments {name base : String} :
    within name base = true ↔ segments base.toList <+: segments name.toList := by
  rw [within_iff, segments_prefix_iff]

theorem matchesType_package_iff {p : String} {n : TypeName} :
    (package p).matchesType n = true ↔
      (∀ segment ∈ segments p.toList, startsUppercase segment = false) ∧
      ∃ top rest, segments n.chars = segments p.toList ++ top :: rest ∧
        startsUppercase top = true := by
  rw [← TypeName.package?_eq_some_iff]
  exact beq_iff_eq

/-- **Patterns match whole segments.** A pattern that is read can be written and is read back as itself;
with a dotted list of identifiers, both notations are read. A recursive pattern matches the types and the
packages that begin with its segments. A package pattern matches the types whose segments are its own,
none of them capitalised, then a capitalised one, and then any. So a package pattern matches nothing that
the recursive pattern with the same package does not match, and a recursive pattern matches whatever one
for a package below its own matches. -/
theorem matches_segments :
    (∀ written pattern, parse written = .ok pattern → parse pattern.render = .ok pattern) ∧
    (∀ p : String, isPackage p.toList = true →
      parse (p ++ "..*") = .ok (.recursive p) ∧ parse (p ++ ".*") = .ok (.package p)) ∧
    (∀ (p : String) (n : TypeName),
      (recursive p).matchesType n = true ↔ segments p.toList <+: segments n.chars) ∧
    (∀ p n : String,
      (recursive p).matchesPackage n = true ↔ segments p.toList <+: segments n.toList) ∧
    (∀ (p : String) (n : TypeName), (package p).matchesType n = true ↔
      (∀ segment ∈ segments p.toList, startsUppercase segment = false) ∧
      ∃ top rest, segments n.chars = segments p.toList ++ top :: rest ∧
        startsUppercase top = true) ∧
    (∀ (p : String) (n : TypeName),
      (package p).matchesType n = true → (recursive p).matchesType n = true) ∧
    ∀ p q : String, segments p.toList <+: segments q.toList →
      (∀ n : TypeName, (recursive q).matchesType n = true → (recursive p).matchesType n = true) ∧
      ∀ n : String, (recursive q).matchesPackage n = true →
        (recursive p).matchesPackage n = true := by
  refine ⟨fun written pattern h => parse_render (writable_of_parse h),
    fun p hp => ⟨parse_recursive hp, parse_package hp⟩, fun p n => within_iff_segments, fun p n => within_iff_segments,
    fun p n => matchesType_package_iff, fun p n h => ?_, fun p q hpq => ⟨fun n h => ?_, fun n h => ?_⟩⟩
  · obtain ⟨-, top, rest, hsegments, -⟩ := matchesType_package_iff.mp h
    exact within_iff_segments.mpr ⟨top :: rest, hsegments.symm⟩
  · exact within_iff_segments.mpr (hpq.trans (within_iff_segments.mp h))
  · exact within_iff_segments.mpr (hpq.trans (within_iff_segments.mp h))

/-- A nested type, and a package with the same letters in a longer segment. -/
theorem matches_segments_nested :
    parse " org.apache.hc.* " = .ok (.package "org.apache.hc") ∧
      parse "org.apache.hc.*" = .ok (.package "org.apache.hc") ∧
      parse "org.apache..*" = .ok (.recursive "org.apache") ∧
      (recursive "org.apache").matchesType ⟨"org.apache.hc.Outer.Inner"⟩ = true ∧
      (recursive "org.apache").matchesPackage "org.apache.hc.core5" = true ∧
      (recursive "org.apache.hc").matchesPackage "org.apache.hcx" = false := by
  obtain ⟨hround, hread, -, hbelow, -, hdirect, hwider⟩ := matches_segments
  have hparse : parse " org.apache.hc.* " = .ok (.package "org.apache.hc") :=
    eq_ok_of_toOption (by decide +kernel)
  have hinner : (package "org.apache.hc").matchesType ⟨"org.apache.hc.Outer.Inner"⟩ = true := by
    decide +kernel
  have hprefix : segments "org.apache".toList <+: segments "org.apache.hc".toList := by
    decide +kernel
  obtain ⟨htypes, hpackages⟩ := hwider "org.apache" "org.apache.hc" hprefix
  refine ⟨hparse, hround _ _ hparse, (hread "org.apache" (by decide +kernel)).1,
    htypes _ (hdirect _ _ hinner), hpackages _ ?_, ?_⟩
  · decide +kernel
  · rw [Bool.eq_false_iff, ne_eq, hbelow]
    decide +kernel

end TypePattern

end CallMigration
