import CallMigration.Proofs.Erasure
import Mathlib.Data.List.Infix
import Mathlib.Logic.Relation

/-!
# What erasure removes

Erasure counts open angle brackets and never goes below zero. As long as a text closes no bracket that was
open in front of it, the count goes up and down with its brackets, and inside of type arguments all of it
is dropped. So type arguments go as a whole, however deep they are nested and wherever they stand.

Nothing else goes with them. A written type can be simplified in small steps that leave the type as it is,
and erasure is where these steps end. So two texts are spellings of one type exactly if their erasures are
the same.

* `StaysOpen.depthAfter_add`, `StaysOpen.eraseFrom_eq_nil` : a text inside of type arguments.
* `IsBalanced`, `IsBalanced.eraseFrom_arguments` : type arguments leave no trace.
* `Simplifies`, `simplifies_erase` : the steps, and that they lead to the erasure.
* `SameType`, `sameType_iff` : two spellings of one type have the same erasure.
* `TypeName.ofWritten_removes_arguments` : where a text may be cut, and what is removed from it.
-/

namespace CallMigration

open Text Relation

/-! ## Inside of type arguments -/

/-- A single character moves the count of open brackets by what it opens and closes, but not below
zero. -/
theorem depthAfter_singleton_add (depth : Nat) (c : Char) :
    depthAfter depth [c] + [c].count '>' = max (depth + [c].count '<') ([c].count '>') := by
  rw [depthAfter, depthAfter]
  by_cases hopen : c = '<'
  · subst hopen
    simp
  · by_cases hclose : c = '>'
    · subst hclose
      have hcloses : ['>'].count '>' = 1 := rfl
      have hopens : ['>'].count '<' = 0 := rfl
      rw [if_neg hopen, if_pos rfl, hcloses, hopens]
      omega
    · simp [hopen, hclose]

namespace StaysOpen

theorem nil (more : Nat) : StaysOpen more [] := by
  intro u v hsplit
  rw [(List.append_eq_nil_iff.mp hsplit.symm).1]
  simp

theorem mono {less more : Nat} {s : List Char} (h : StaysOpen less s) (hle : less ≤ more) :
    StaysOpen more s := by
  intro u v hsplit
  have hu := h u v hsplit
  omega

theorem tail {more : Nat} {c : Char} {s : List Char} (h : StaysOpen more (c :: s)) :
    StaysOpen (depthAfter more [c]) s := by
  intro u v hsplit
  have hu := h (c :: u) v (by rw [hsplit, List.cons_append])
  rw [← List.singleton_append, List.count_append, List.count_append] at hu
  have hc := depthAfter_singleton_add more c
  omega

/-- The count of open brackets goes up and down with the brackets of the text. -/
theorem depthAfter_add {depth : Nat} {s : List Char} (h : StaysOpen depth s) :
    depthAfter depth s + s.count '>' = depth + s.count '<' := by
  induction s generalizing depth with
  | nil => rfl
  | cons c s ih =>
    have hfirst := h [c] s rfl
    have hc := depthAfter_singleton_add depth c
    have hs := ih h.tail
    rw [← List.singleton_append, depthAfter_append, List.count_append, List.count_append]
    omega

/-- Inside of type arguments, a text that does not close them is dropped. -/
theorem eraseFrom_eq_nil {depth : Nat} {s : List Char} (h : StaysOpen depth s) :
    eraseFrom (depth + 1) s = [] := by
  induction s generalizing depth with
  | nil => rfl
  | cons c s ih =>
    have hdropped : eraseFrom (depth + 1) [c] = [] :=
      (eraseFrom_singleton_cases (depth + 1) c).resolve_right fun hkept => absurd hkept.1 (by omega)
    have hdepth : depthAfter (depth + 1) [c] = depthAfter depth [c] + 1 := by
      have hfirst := h [c] s rfl
      have hc := depthAfter_singleton_add depth c
      have hc' := depthAfter_singleton_add (depth + 1) c
      omega
    rw [eraseFrom_cons, hdropped, hdepth, ih h.tail, List.append_nil]

end StaysOpen

instance (more : Nat) (s : List Char) : Decidable (StaysOpen more s) :=
  decidable_of_iff (∀ u ∈ s.inits, u.count '>' ≤ u.count '<' + more)
    ⟨fun h u v hsplit => h u ((List.mem_inits u s).mpr ⟨v, hsplit.symm⟩), fun h u hu => by
      obtain ⟨v, hsplit⟩ := (List.mem_inits u s).mp hu
      exact h u v hsplit.symm⟩

/-- Either a text closes none of the brackets that are open in front of it, or there is a first place where
all of them are closed and one more. -/
theorem staysOpen_or_closes (more : Nat) (s : List Char) :
    StaysOpen more s ∨
      ∃ a t, s = a ++ '>' :: t ∧ StaysOpen more a ∧ a.count '>' = a.count '<' + more := by
  induction s generalizing more with
  | nil => exact .inl (.nil more)
  | cons c s ih =>
    have hc := depthAfter_singleton_add more c
    by_cases hfirst : [c].count '>' ≤ [c].count '<' + more
    · rcases ih (depthAfter more [c]) with hstays | ⟨a, t, rfl, hstays, hcount⟩
      · exact .inl (hstays.cons (by omega))
      · refine .inr ⟨c :: a, t, rfl, hstays.cons (by omega), ?_⟩
        rw [← List.singleton_append, List.count_append, List.count_append]
        omega
    · -- The text begins with the bracket that closes one too many.
      have hclose : c = '>' := by
        by_contra hother
        simp [hother] at hfirst
      subst hclose
      have hnone : more = 0 := by
        simpa using hfirst
      subst hnone
      exact .inr ⟨[], s, rfl, .nil 0, rfl⟩

/-- Brackets that belong to each other: counted from the beginning, nowhere more are closed than opened,
and in the end as many. -/
structure IsBalanced (s : List Char) : Prop where
  stays : StaysOpen 0 s
  closes : s.count '>' = s.count '<'

instance (s : List Char) : Decidable (IsBalanced s) :=
  decidable_of_iff (StaysOpen 0 s ∧ s.count '>' = s.count '<')
    ⟨fun h => ⟨h.1, h.2⟩, fun h => ⟨h.stays, h.closes⟩⟩

/-- **Type arguments leave no trace**, wherever they stand. -/
theorem IsBalanced.eraseFrom_arguments {a : List Char} (h : IsBalanced a) (depth : Nat) (s t : List Char) :
    eraseFrom depth (s ++ '<' :: (a ++ '>' :: t)) = eraseFrom depth (s ++ t) := by
  rw [eraseFrom_append, eraseFrom_append depth s t]
  congr 1
  generalize depthAfter depth s = outer
  have hstays := h.stays.mono (Nat.zero_le outer)
  have hdepth : depthAfter (outer + 1) a = outer + 1 := by
    have hadd := (h.stays.mono (Nat.zero_le (outer + 1))).depthAfter_add
    have hcloses := h.closes
    omega
  calc eraseFrom outer ('<' :: (a ++ '>' :: t))
      = eraseFrom (outer + 1) (a ++ '>' :: t) := by rw [eraseFrom, if_pos rfl]
    _ = eraseFrom (outer + 1) ('>' :: t) := by
      rw [eraseFrom_append, hstays.eraseFrom_eq_nil, hdepth, List.nil_append]
    _ = eraseFrom outer t := by
      rw [eraseFrom, if_neg (by decide), if_pos rfl, Nat.add_sub_cancel]

/-! ## Spellings of one type -/

/-- One step that makes a written type simpler and leaves the type as it is. It takes away a blank, type
arguments, or an angle bracket without its counterpart, an opening one with all that follows; or it writes
a dot for a dollar sign. -/
inductive Simplifies : List Char → List Char → Prop
  | blank (s : List Char) {c : Char} (t : List Char) (hblank : isBlank c = true) :
    Simplifies (s ++ c :: t) (s ++ t)
  | arguments (s : List Char) {a : List Char} (t : List Char) (ha : IsBalanced a) :
    Simplifies (s ++ '<' :: (a ++ '>' :: t)) (s ++ t)
  | unopened {s : List Char} (t : List Char) (hs : IsClosed s) : Simplifies (s ++ '>' :: t) (s ++ t)
  | unclosed (s : List Char) {t : List Char} (ht : StaysOpen 0 t) : Simplifies (s ++ '<' :: t) s
  | dollar (s t : List Char) : Simplifies (s ++ '$' :: t) (s ++ '.' :: t)

theorem Simplifies.erase_eq {s t : List Char} (h : Simplifies s t) : erase s = erase t := by
  cases h with
  | @blank s c t hblank =>
    have hopen : c ≠ '<' := by
      rintro rfl
      cases hblank
    have hclose : c ≠ '>' := by
      rintro rfl
      cases hblank
    have hdropped (depth : Nat) : eraseFrom depth (c :: t) = eraseFrom depth t := by
      rw [eraseFrom_cons_of_plain hopen hclose, if_pos (by rw [hblank, Bool.or_true])]
    rw [erase, erase, eraseFrom_append, eraseFrom_append 0 s t, hdropped]
  | arguments s t ha => exact ha.eraseFrom_arguments 0 s t
  | unopened t hs =>
    have hdepth := depthAfter_eq_zero_iff.mpr hs
    have hdropped : erase ('>' :: t) = erase t := by
      rw [erase, erase, eraseFrom, if_neg (by decide), if_pos rfl]
    rw [erase_append hdepth, hdropped, erase_append hdepth]
  | unclosed s ht =>
    rw [erase, erase, eraseFrom_append, eraseFrom, if_pos rfl,
      (ht.mono (Nat.zero_le _)).eraseFrom_eq_nil, List.append_nil]
  | dollar s t =>
    have hdot (depth : Nat) : eraseFrom depth ('$' :: t) = eraseFrom depth ('.' :: t) := by
      rw [eraseFrom_cons_of_plain (by decide) (by decide), eraseFrom_cons_of_plain (by decide) (by decide)]
      rfl
    rw [erase, erase, eraseFrom_append, eraseFrom_append 0 s ('.' :: t), hdot]

theorem isClosed_of_isErased {s : List Char} (h : ∀ c ∈ s, isErased c = true) : IsClosed s :=
  isClosed_of_notMem fun hopen => absurd (h _ hopen) (by decide)

/-- The number of characters that are left to simplify. -/
def toSimplify (s : List Char) : Nat :=
  s.countP (!isErased ·)

/-- **As long as there is something to erase, there is a step**, and it leaves less. -/
theorem exists_simplifies {s : List Char} (h : ∃ c ∈ s, isErased c = false) :
    ∃ t, Simplifies s t ∧ toSimplify t < toSimplify s := by
  have hfind : (s.find? (!isErased ·)).isSome = true := by
    simpa using h
  obtain ⟨c, hc⟩ := Option.isSome_iff_exists.mp hfind
  obtain ⟨hother, before, rest, rfl, hbefore⟩ := List.find?_eq_some_iff_append.mp hc
  -- This is the first such character, so nothing is open in front of it.
  have hclosed : IsClosed before := isClosed_of_isErased (by simpa using hbefore)
  by_cases hblank : isBlank c = true
  · exact ⟨_, .blank before rest hblank, by simp [toSimplify, hother]⟩
  by_cases hopen : c = '<'
  · subst hopen
    rcases staysOpen_or_closes 0 rest with hstays | ⟨a, t, rfl, hstays, hcloses⟩
    · exact ⟨_, .unclosed before hstays, by simp [toSimplify, hother]⟩
    · refine ⟨_, .arguments before t ⟨hstays, hcloses⟩, ?_⟩
      simp only [toSimplify, List.countP_append, List.countP_cons, hother, if_true]
      omega
  by_cases hclose : c = '>'
  · subst hclose
    exact ⟨_, .unopened rest hclosed, by simp [toSimplify, hother]⟩
  by_cases hdollar : c = '$'
  · subst hdollar
    refine ⟨_, .dollar before rest, ?_⟩
    have hdot : isErased '.' = true := by decide
    simp [toSimplify, hother, hdot]
  simp [isErased, hblank, hopen, hclose, hdollar] at hother

/-- **Every written type is simplified to its erasure.** -/
theorem simplifies_erase (s : List Char) : ReflTransGen Simplifies s (erase s) := by
  induction hleft : toSimplify s using Nat.strong_induction_on generalizing s with
  | h left ih =>
  by_cases herased : ∀ c ∈ s, isErased c = true
  · have hdone : erase s = s := eraseFrom_of_isErased herased
    rw [hdone]
  · obtain ⟨t, hstep, hless⟩ := exists_simplifies (s := s) (by simpa using herased)
    rw [hstep.erase_eq]
    exact (ih (toSimplify t) (hleft ▸ hless) t rfl).head hstep

/-- Two written types are the same: steps that simplify a type, taken forth and back, lead from one to the
other. -/
def SameType (a b : String) : Prop :=
  EqvGen Simplifies a.toList b.toList

/-- **Two written types are the same exactly if they have the same name.** -/
theorem sameType_iff {a b : String} :
    SameType a b ↔ TypeName.ofWritten a = TypeName.ofWritten b := by
  have hname : TypeName.ofWritten a = TypeName.ofWritten b ↔ erase a.toList = erase b.toList := by
    rw [TypeName.ofWritten, TypeName.ofWritten, TypeName.mk.injEq, String.ofList_inj]
  rw [hname]
  constructor
  · intro h
    unfold SameType at h
    generalize a.toList = s, b.toList = t at h
    induction h with
    | rel s t hstep => exact hstep.erase_eq
    | refl s => rfl
    | symm s t _ ih => exact ih.symm
    | trans s t u _ _ ih ih' => exact ih.trans ih'
  · intro h
    have herased (s : List Char) : EqvGen Simplifies s (erase s) :=
      EqvGen.reflTransGen_le_eqvGen _ _ _ (simplifies_erase s)
    exact .trans _ _ _ (h ▸ herased a.toList) (.symm _ _ (herased b.toList))

/-! ## Type arguments of a written type -/

namespace TypeName

/-- **What erasure removes from a written type.** A text can be cut, and its name is put together from the
names of the two parts whatever the second one is, exactly if no bracket is left open at the cut. And type
arguments are removed as a whole, however deep they are nested and whatever stands around them. -/
theorem ofWritten_removes_arguments (s : String) :
    (depthAfter 0 s.toList = 0 ↔
      ∀ t, ofWritten (s ++ t) = ⟨(ofWritten s).text ++ (ofWritten t).text⟩) ∧
    ∀ a t : String, IsBalanced a.toList → ofWritten (s ++ "<" ++ a ++ ">" ++ t) = ofWritten (s ++ t) := by
  refine ⟨⟨fun hclosed t => ?_, fun hcut => ?_⟩, fun a t ha => ?_⟩
  · rw [ofWritten, ofWritten, ofWritten, String.toList_append, erase_append hclosed,
      String.ofList_append]
  · -- Where a bracket is left open, a letter behind the text is lost.
    by_contra hopen
    obtain ⟨depth, hdepth⟩ := Nat.exists_eq_succ_of_ne_zero hopen
    have hlost : ofWritten (s ++ "x") = ofWritten s := by
      refine ofWritten_congr ?_
      rw [String.toList_append, erase, eraseFrom_append, hdepth,
        eraseFrom_succ_of_plain (by decide) (by decide), List.append_nil, erase]
    have hkept : (ofWritten "x").text = "x" := by decide +kernel
    have hlength := congrArg (fun n : TypeName => n.text.length) (hlost.symm.trans (hcut "x"))
    simp only [hkept, String.length_append] at hlength
    exact absurd hlength (by simp)
  · refine ofWritten_congr ?_
    have htext : (s ++ "<" ++ a ++ ">" ++ t).toList =
        s.toList ++ '<' :: (a.toList ++ '>' :: t.toList) := by
      simp
    rw [htext, String.toList_append]
    exact ha.eraseFrom_arguments 0 s.toList t.toList

/-- A nested type with arguments that are nested in turn, and a closing bracket that nothing has opened. -/
theorem ofWritten_removes_arguments_nested :
    IsBalanced "String, List<Map<K, V[]>>".toList ∧
      ofWritten ("java.util.Map$Entry" ++ "<" ++ "String, List<Map<K, V[]>>" ++ ">" ++ " []") =
        ofWritten ("java.util.Map$Entry" ++ " []") ∧
      depthAfter 0 "Outer<A>>".toList = 0 ∧
      ofWritten ("Outer<A>>" ++ ".Inner<B") = ⟨"Outer" ++ ".Inner"⟩ ∧
      ¬∀ t, ofWritten ("List<A" ++ t) = ⟨(ofWritten "List<A").text ++ (ofWritten t).text⟩ := by
  have hbalanced : IsBalanced "String, List<Map<K, V[]>>".toList := by decide
  have hclosed : depthAfter 0 "Outer<A>>".toList = 0 := by decide
  refine ⟨hbalanced, ?_, hclosed, ?_, ?_⟩
  · exact (ofWritten_removes_arguments "java.util.Map$Entry").2 _ _ hbalanced
  · exact (ofWritten_removes_arguments "Outer<A>>").1.mp hclosed ".Inner<B"
  · exact mt (ofWritten_removes_arguments "List<A").1.mpr (by decide)

end TypeName

end CallMigration
