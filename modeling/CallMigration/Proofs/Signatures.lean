import CallMigration.Proofs.Erasure
import CallMigration.Rule.Signature

/-!
# The notation of signatures

A written signature is cut at the first parenthesis, then at the last blank before it, and its
parameters at the commas outside of type arguments. The cuts count open brackets for themselves, and
erasure counts them again in each part. Both counts agree, so what a parameter closes is closed for the
next one too, and a comma that is left outside of brackets would be left in the name.

* `Signature.written` : the notation.
* `Signature.splitParams_append` : where a parameter ends.
* `Signature.Writable` : the parts that a signature can be written with.
* `Signature.parse_written`, `Signature.parse_render` : the notation is read, and what is read is written
  again.
-/

namespace CallMigration

open Text

/-! ## Cuts -/

theorem splitFirst_append {p : Char → Bool} {before : List Char} {c : Char}
    (hbefore : ∀ d ∈ before, p d = false) (hc : p c = true) (after : List Char) :
    splitFirst p (before ++ c :: after) = some (before, after) := by
  induction before with
  | nil => rw [List.nil_append, splitFirst, if_pos hc]
  | cons d before ih =>
    rw [List.cons_append, splitFirst, if_neg (by simp [hbefore d List.mem_cons_self]),
      ih fun e he => hbefore e (List.mem_cons_of_mem _ he)]
    rfl

theorem splitLast_append {p : Char → Bool} {after : List Char} {c : Char}
    (hafter : ∀ d ∈ after, p d = false) (hc : p c = true) (before : List Char) :
    splitLast p (before ++ c :: after) = some (before, after) := by
  have hreverse : (before ++ c :: after).reverse = after.reverse ++ c :: before.reverse := by simp
  rw [splitLast, hreverse, splitFirst_append (fun d hd => hafter d (List.mem_reverse.mp hd)) hc]
  simp

/-- Without a blank at either end, there is nothing to trim. -/
theorem trim_eq_self {s : List Char} (hfirst : ∀ c ∈ s.head?, isBlank c = false)
    (hlast : ∀ c ∈ s.getLast?, isBlank c = false) : trim s = s := by
  have hdrop (t : List Char) (ht : ∀ c ∈ t.head?, isBlank c = false) : t.dropWhile isBlank = t := by
    cases t with
    | nil => rfl
    | cons c t => rw [List.dropWhile_cons_of_neg (by simp [ht c rfl])]
  rw [trim, trimStart, hdrop s hfirst, trimEnd, hdrop s.reverse (by rwa [List.head?_reverse]),
    List.reverse_reverse]

theorem notBlank_of_isIdentifier {s : List Char} (h : isIdentifier s = true) :
    ∀ c ∈ s, isBlank c = false :=
  fun c hc => isBlank_of_isIdentifierPart (isIdentifierPart_of_mem h c hc)

namespace Signature

/-! ## Parameters -/

/-- A character that erasure makes no comma of belongs to the first part. -/
theorem splitParams_cons {depth : Nat} {c : Char} {s part : List Char} {parts : List (List Char)}
    (hcomma : ',' ∉ eraseFrom depth [c])
    (hrest : splitParams (depthAfter depth [c]) s = part :: parts) :
    splitParams depth (c :: s) = (c :: part) :: parts := by
  have hcut : ¬(c = ',' ∧ depth = 0) := by
    rintro ⟨rfl, rfl⟩
    exact hcomma (by decide)
  rw [depthAfter, depthAfter] at hrest
  rw [splitParams, if_neg hcut]
  simp only [hrest]

theorem notMem_eraseFrom_cons {depth : Nat} {c d : Char} {s : List Char}
    (h : d ∉ eraseFrom depth (c :: s)) :
    d ∉ eraseFrom depth [c] ∧ d ∉ eraseFrom (depthAfter depth [c]) s := by
  rwa [eraseFrom_cons, List.mem_append, not_or] at h

/-- **A parameter ends at the comma behind it** if it closes its brackets and erasure leaves no comma
of it. -/
theorem splitParams_append {depth : Nat} {p : List Char} (hclosed : depthAfter depth p = 0)
    (hcomma : ',' ∉ eraseFrom depth p) (s : List Char) :
    splitParams depth (p ++ ',' :: s) = p :: splitParams 0 s := by
  induction p generalizing depth with
  | nil =>
    have hdepth : depth = 0 := hclosed
    rw [hdepth, List.nil_append, splitParams, if_pos ⟨rfl, rfl⟩]
  | cons c p ih =>
    obtain ⟨hfirst, hrest⟩ := notMem_eraseFrom_cons hcomma
    exact splitParams_cons hfirst (ih hclosed hrest)

theorem splitParams_last {depth : Nat} {p : List Char} (hcomma : ',' ∉ eraseFrom depth p) :
    splitParams depth p = [p] := by
  induction p generalizing depth with
  | nil => rfl
  | cons c p ih =>
    obtain ⟨hfirst, hrest⟩ := notMem_eraseFrom_cons hcomma
    exact splitParams_cons hfirst (ih hrest)

/-- A written parameter type that is read and in which every opening bracket is closed. -/
structure IsParameter (p : String) : Prop where
  accepted : (TypeName.parse? p).isSome = true
  closed : IsClosed p.toList

namespace IsParameter

variable {p : String} (h : IsParameter p)

include h

theorem parse?_eq : TypeName.parse? p = some (TypeName.ofWritten p) := by
  obtain ⟨n, hn⟩ := Option.isSome_iff_exists.mp h.accepted
  rw [hn, (TypeName.parse?_eq_some_iff.mp hn).1]

theorem isWellFormed : (TypeName.ofWritten p).isWellFormed = true :=
  (TypeName.parse?_eq_some_iff.mp h.parse?_eq).2

theorem comma_notMem : ',' ∉ eraseFrom 0 p.toList := by
  rw [← TypeName.chars_ofWritten]
  exact TypeName.notMem_of_isWellFormed h.isWellFormed (by decide) (by decide)

end IsParameter

/-- Between the parentheses, every parameter is found, with a blank before all but the first. -/
theorem splitParams_intercalate {p : String} {ps : List String}
    (h : ∀ q ∈ p :: ps, IsParameter q) :
    splitParams 0 (", ".intercalate (p :: ps)).toList = p.toList :: ps.map (' ' :: ·.toList) := by
  induction ps generalizing p with
  | nil =>
    rw [String.intercalate_singleton]
    exact splitParams_last (h p List.mem_cons_self).comma_notMem
  | cons q qs ih =>
    have hp := h p List.mem_cons_self
    have hsplit : (", ".intercalate (p :: q :: qs)).toList =
        p.toList ++ ',' :: (' ' :: (", ".intercalate (q :: qs)).toList) := by
      rw [String.intercalate_cons_cons, String.toList_append, String.toList_append,
        List.append_assoc]
      rfl
    have hrest := ih fun r hr => h r (List.mem_cons_of_mem _ hr)
    have hblank : ',' ∉ eraseFrom 0 [' '] := by decide
    rw [hsplit, splitParams_append (depthAfter_eq_zero_iff.mpr hp.closed) hp.comma_notMem,
      splitParams_cons hblank hrest]
    rfl

theorem mapM_parts {ps : List String} (h : ∀ q ∈ ps, IsParameter q) :
    ((ps.map (' ' :: ·.toList)).mapM fun part => TypeName.parse? (String.ofList (trim part))) =
      some (ps.map TypeName.ofWritten) := by
  induction ps with
  | nil => rfl
  | cons q qs ih =>
    have hblank : trim (' ' :: q.toList) = trim q.toList := by
      have htrim : trim ([' '] ++ (q.toList ++ [])) = trim q.toList :=
        trim_append (List.forall_mem_singleton.mpr (by decide)) (by simp)
      rwa [List.append_nil] at htrim
    rw [List.map_cons, List.mapM_cons, hblank, TypeName.parse?_trim, String.ofList_toList,
      (h q List.mem_cons_self).parse?_eq, ih fun r hr => h r (List.mem_cons_of_mem _ hr)]
    rfl

theorem parseParams_intercalate {params : List String} (h : ∀ p ∈ params, IsParameter p) :
    parseParams (", ".intercalate params).toList = .ok (params.map TypeName.ofWritten) := by
  cases params with
  | nil => rfl
  | cons p ps =>
    have hp := h p List.mem_cons_self
    have hprefix : ∃ rest, (", ".intercalate (p :: ps)).toList = p.toList ++ rest := by
      cases ps with
      | nil => exact ⟨[], by rw [String.intercalate_singleton, List.append_nil]⟩
      | cons q qs =>
        exact ⟨_, by rw [String.intercalate_cons_cons, String.toList_append, String.toList_append,
          List.append_assoc]⟩
    have hsome : (trim (", ".intercalate (p :: ps)).toList).isEmpty = false := by
      obtain ⟨rest, hrest⟩ := hprefix
      rw [List.isEmpty_eq_false_iff]
      intro hnil
      have herased := erase_trim (", ".intercalate (p :: ps)).toList
      rw [hnil, hrest, erase, erase, eraseFrom_append] at herased
      have hchars := (List.append_eq_nil_iff.mp herased.symm).1
      rw [← TypeName.chars_ofWritten] at hchars
      exact TypeName.chars_ne_nil_of_isWellFormed hp.isWellFormed hchars
    rw [parseParams, hsome, if_neg (by decide), splitParams_intercalate h, List.mapM_cons,
      TypeName.parse?_trim, String.ofList_toList, hp.parse?_eq,
      mapM_parts fun q hq => h q (List.mem_cons_of_mem _ hq)]
    rfl

/-! ## The owner and the name -/

theorem parseHead_append {owner name : List Char} {o : TypeName}
    (howner : TypeName.parse? (String.ofList owner) = some o) (hqualified : o.isQualified = true)
    (hfirst : ∀ c ∈ owner.head?, isBlank c = false) (hname : isIdentifier name = true) :
    parseHead (owner ++ ' ' :: name) = .ok (o, String.ofList name) := by
  obtain ⟨ho, hformed⟩ := TypeName.parse?_eq_some_iff.mp howner
  have hblank := notBlank_of_isIdentifier hname
  have hsome : owner ≠ [] := by
    rintro rfl
    rw [ho] at hformed
    exact absurd hformed (by decide)
  have hlast : (owner ++ ' ' :: name).getLast? = name.getLast? := by
    cases name with
    | nil => cases hname
    | cons c name => exact List.getLast?_append_cons owner ' ' (c :: name)
  have htrim : trim (owner ++ ' ' :: name) = owner ++ ' ' :: name := by
    refine trim_eq_self ?_ ?_
    · rwa [List.head?_append_of_ne_nil _ hsome]
    · rw [hlast]
      exact fun c hc => hblank c (List.mem_of_getLast? hc)
  rw [parseHead, htrim, splitLast_append hblank (by decide)]
  simp only [TypeName.parse?_trim, howner, hqualified, hname]
  rfl

/-! ## The whole notation -/

def written (owner name : String) (params : List String) : String :=
  owner ++ " " ++ name ++ "(" ++ ", ".intercalate params ++ ")"

theorem render_eq (s : Signature) : s.render = written s.owner.text s.name (s.params.map (·.text)) :=
  rfl

/-- The parts that a signature can be written with. -/
structure Writable (owner name : String) (params : List String) : Prop where
  accepted : ∃ o, TypeName.parse? owner = some o ∧ o.isQualified = true
  plain : '(' ∉ owner.toList
  identifier : isIdentifier name.toList = true
  params : ∀ p ∈ params, IsParameter p

theorem parse_cut {text : String} (lead head params tail : List Char)
    (htext : text.toList = lead ++ ((head ++ '(' :: (params ++ [')'])) ++ tail))
    (hlead : ∀ c ∈ lead, isBlank c = true) (htail : ∀ c ∈ tail, isBlank c = true)
    (hfirst : ∀ c ∈ head.head?, isBlank c = false) (hplain : '(' ∉ head) :
    parse text = (do
      let (owner, name) ← parseHead head
      return ⟨owner, name, ← parseParams params⟩) := by
  have htrim : trim (head ++ '(' :: (params ++ [')'])) = head ++ '(' :: (params ++ [')']) := by
    refine trim_eq_self ?_ ?_
    · cases head with
      | nil => simp; decide
      | cons c head => exact hfirst
    · rw [← List.cons_append, ← List.append_assoc, List.getLast?_concat]
      rintro c ⟨⟩
      decide
  have hparams : [')'].isSuffixOf? (params ++ [')']) = some params :=
    List.isSuffixOf?_eq_some_iff_append_eq.mpr rfl
  have hcut : splitFirst (· == '(') (head ++ '(' :: (params ++ [')'])) =
      some (head, params ++ [')']) :=
    splitFirst_append (fun d hd => beq_eq_false_iff_ne.mpr (ne_of_mem_of_not_mem hd hplain))
      (by decide) _
  rw [parse, htext, trim_append hlead htail, htrim, hcut]
  simp only [hparams]

/-- **The notation is read**, whatever blanks are around it. -/
theorem parse_written {owner name : String} {params : List String}
    (h : Writable owner name params) {before after : String}
    (hbefore : ∀ c ∈ before.toList, isBlank c = true) (hafter : ∀ c ∈ after.toList, isBlank c = true) :
    parse (before ++ written owner name params ++ after) = .ok (ofWritten owner name params) := by
  obtain ⟨o, howner, hqualified⟩ := h.accepted
  have ho := (TypeName.parse?_eq_some_iff.mp howner).1
  -- The blanks at the beginning of the owner count as blanks around the signature.
  let lead := owner.toList.takeWhile isBlank
  let rest := owner.toList.dropWhile isBlank
  have hsplit : owner.toList = lead ++ rest := List.takeWhile_append_dropWhile.symm
  have hlead : ∀ c ∈ lead, isBlank c = true := fun c hc => List.mem_takeWhile_imp hc
  have hfirst : ∀ c ∈ rest.head?, isBlank c = false := by
    intro c hc
    have hstop := List.head?_dropWhile_not isBlank owner.toList
    rw [Option.mem_def.mp hc] at hstop
    simpa using hstop
  have hrest : TypeName.parse? (String.ofList rest) = some o := by
    rw [← howner]
    refine TypeName.parse?_congr ?_
    rw [String.toList_ofList, hsplit, (IsDropped.of_blank hlead).erase_in_front]
  have hhead := parseHead_append hrest hqualified hfirst h.identifier
  have hsome : rest ≠ [] := by
    intro hnil
    rw [hnil] at hrest
    cases hrest
  rw [parse_cut (before.toList ++ lead) (rest ++ ' ' :: name.toList)
    (", ".intercalate params).toList after.toList, hhead, parseParams_intercalate h.params]
  · rw [ofWritten, ← ho, String.ofList_toList]
    rfl
  · simp [written, hsplit]
  · intro c hc
    exact (List.mem_append.mp hc).elim (hbefore c) (hlead c)
  · exact hafter
  · rwa [List.head?_append_of_ne_nil _ hsome]
  · rw [List.mem_append, List.mem_cons, not_or, not_or]
    refine ⟨fun hmem => h.plain ?_, by decide, not_mem_of_isIdentifier h.identifier (by decide)⟩
    rw [hsplit]
    exact List.mem_append_right _ hmem

/-! ## Signatures that were read -/

theorem erased_of_parse? {written : String} {n : TypeName} (h : TypeName.parse? written = some n) :
    n.Erased := by
  rw [(TypeName.parse?_eq_some_iff.mp h).1]
  exact TypeName.erased_ofWritten written

theorem parse?_text_of_parse? {written : String} {n : TypeName}
    (h : TypeName.parse? written = some n) : TypeName.parse? n.text = some n :=
  TypeName.parse?_text (erased_of_parse? h) (TypeName.parse?_eq_some_iff.mp h).2

/-- What is read of the parts. -/
structure IsRead (s : Signature) : Prop where
  owner : TypeName.parse? s.owner.text = some s.owner
  qualified : s.owner.isQualified = true
  identifier : isIdentifier s.name.toList = true
  params : ∀ p ∈ s.params, TypeName.parse? p.text = some p

theorem isRead_of_parseHead {head : List Char} {o : TypeName} {name : String}
    (h : parseHead head = .ok (o, name)) :
    TypeName.parse? o.text = some o ∧ o.isQualified = true ∧ isIdentifier name.toList = true := by
  unfold parseHead at h
  split at h
  next => cases h
  next =>
    split at h
    next => cases h
    next howner =>
      split at h
      next => cases h
      next hqualified =>
        split at h
        next => cases h
        next hname =>
          cases h
          refine ⟨parse?_text_of_parse? howner, by simpa using hqualified, ?_⟩
          rw [String.toList_ofList]
          simpa using hname

theorem forall_of_mapM_eq_some {α β : Type} {f : α → Option β} {xs : List α} {ys : List β}
    (h : xs.mapM f = some ys) : ∀ y ∈ ys, ∃ x ∈ xs, f x = some y := by
  induction xs generalizing ys with
  | nil =>
    cases h
    simp
  | cons x xs ih =>
    rw [List.mapM_cons] at h
    obtain ⟨y, hy, h⟩ := Option.bind_eq_some_iff.mp h
    obtain ⟨zs, hzs, h⟩ := Option.bind_eq_some_iff.mp h
    cases h
    intro z hz
    rcases List.mem_cons.mp hz with rfl | hz
    · exact ⟨x, List.mem_cons_self, hy⟩
    · obtain ⟨x', hx', hfx⟩ := ih hzs z hz
      exact ⟨x', List.mem_cons_of_mem _ hx', hfx⟩

theorem isRead_of_parseParams {params : List Char} {read : List TypeName}
    (h : parseParams params = .ok read) : ∀ p ∈ read, TypeName.parse? p.text = some p := by
  unfold parseParams at h
  split at h
  next =>
    cases h
    simp
  next =>
    split at h
    next parts hparts =>
      cases h
      intro p hp
      obtain ⟨part, -, hpart⟩ := forall_of_mapM_eq_some hparts p hp
      exact parse?_text_of_parse? hpart
    next => cases h

theorem isRead_of_parse {text : String} {s : Signature} (h : parse text = .ok s) : s.IsRead := by
  unfold parse at h
  split at h
  next => cases h
  next =>
    split at h
    next => cases h
    next =>
      obtain ⟨⟨o, name⟩, hhead, h⟩ := exists_of_bind_eq_ok h
      obtain ⟨params, hparams, h⟩ := exists_of_bind_eq_ok h
      cases h
      obtain ⟨howner, hqualified, hname⟩ := isRead_of_parseHead hhead
      exact ⟨howner, hqualified, hname, isRead_of_parseParams hparams⟩

namespace IsRead

variable {s : Signature} (h : s.IsRead)

include h

theorem writable : Writable s.owner.text s.name (s.params.map (·.text)) where
  accepted := ⟨s.owner, h.owner, h.qualified⟩
  plain :=
    TypeName.notMem_of_isWellFormed (TypeName.parse?_eq_some_iff.mp h.owner).2 (by decide) (by decide)
  identifier := h.identifier
  params := by
    intro text htext
    obtain ⟨p, hp, rfl⟩ := List.mem_map.mp htext
    refine ⟨by rw [h.params p hp]; rfl, ?_⟩
    exact depthAfter_eq_zero_iff.mp (depthAfter_of_isErased (erased_of_parse? (h.params p hp)) 0)

theorem ofWritten_eq : ofWritten s.owner.text s.name (s.params.map (·.text)) = s := by
  have howner := (TypeName.parse?_eq_some_iff.mp h.owner).1
  have hparams : (s.params.map (·.text)).map TypeName.ofWritten = s.params := by
    rw [List.map_map]
    conv => rhs; rw [← List.map_id s.params]
    exact List.map_congr_left fun p hp => (TypeName.parse?_eq_some_iff.mp (h.params p hp)).1.symm
  rw [ofWritten, hparams, ← howner]

end IsRead

/-- **The notation and the signature say the same.** Parts that can be written are read as they are, and
whatever is read is written as a text that reads the same. -/
theorem parse_notation :
    (∀ owner name params, Writable owner name params → ∀ before after : String,
      (∀ c ∈ before.toList, isBlank c = true) → (∀ c ∈ after.toList, isBlank c = true) →
        parse (before ++ written owner name params ++ after) = .ok (ofWritten owner name params)) ∧
      ∀ text s, parse text = .ok s → parse s.render = .ok s := by
  refine ⟨fun owner name params h before after => parse_written h, fun text s htext => ?_⟩
  have hread := isRead_of_parse htext
  have hparse : parse ("" ++ s.render ++ "") = .ok s := by
    rw [render_eq, parse_written hread.writable (by simp) (by simp), hread.ofWritten_eq]
  rwa [String.append_empty, String.empty_append] at hparse

/-- Type arguments in the owner and in two parameters, with commas in them and one inside of the other. -/
theorem parse_notation_nested :
    let owner := " org.example.Outer$Inner<A, B>"
    let params := ["Map<String, List<Map<A, B[]>>>", " java.util.List <? extends A>", "int []"]
    Writable owner "größe_1" params ∧
      parse ("\t" ++ written owner "größe_1" params ++ " \n") =
        .ok (ofWritten owner "größe_1" params) ∧
      parse (ofWritten owner "größe_1" params).render = .ok (ofWritten owner "größe_1" params) := by
  intro owner params
  have hwritable : Writable owner "größe_1" params := by
    refine ⟨Option.any_eq_true _ _ |>.mp ?_, by decide, by decide +kernel, fun p hp => ?_⟩
    · decide +kernel
    · have hall : ∀ p ∈ params, (TypeName.parse? p).isSome = true ∧ IsClosed p.toList := by
        decide +kernel
      exact ⟨(hall p hp).1, (hall p hp).2⟩
  have hread := parse_notation.1 owner "größe_1" params hwritable "\t" " \n"
    (List.all_eq_true.mp (by decide +kernel)) (List.all_eq_true.mp (by decide +kernel))
  exact ⟨hwritable, hread, parse_notation.2 _ _ hread⟩

end Signature

end CallMigration
