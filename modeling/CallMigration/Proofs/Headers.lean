import CallMigration.Proofs.Erasure
import CallMigration.Proofs.Spacing

/-!
# Names in the header of a unit

The package and the imports of a unit that was read are dotted names. No token of them has an angle
bracket, whatever stands around them, so nothing of a name is lost when it is erased together with the
name of a type.

* `Unbracketed` : a span whose names are spelled without angle brackets.
* `Form.unbracketed`, `Form.unbracketed_of_runs` : what a form has to satisfy, and what is read with it.
* `Rule.unbracketed_form` : every rule of Java satisfies it.
* `ClosedHeader`, `JavaUnit.closedHeader_parse` : the package and the imports of a unit.
-/

namespace CallMigration.Grammar

/-! ## Spans of names -/

def nameRules : List String := ["import_declaration", "scoped_identifier", "identifier"]

mutual
/-- The tokens of names are spelled without an angle bracket, and all tokens if `strict`, comments
apart. -/
def Unbracketed (source : List Char) (strict : Bool) : SpanTree → Prop
  | .mk rule start stop [] => (strict || nameRules.contains rule) = true →
    isComment (.mk rule start stop []) = true ∨ ∃ text, Between source start text stop ∧ '<' ∉ text
  | .mk rule _ _ (child :: children) =>
    UnbracketedAll source (strict || nameRules.contains rule) (child :: children)
def UnbracketedAll (source : List Char) (strict : Bool) : List SpanTree → Prop
  | [] => True
  | t :: ts => Unbracketed source strict t ∧ UnbracketedAll source strict ts
end

section Unbracketed

variable {source : List Char} {strict : Bool}

theorem unbracketedAll_iff {ts : List SpanTree} :
    UnbracketedAll source strict ts ↔ ∀ t ∈ ts, Unbracketed source strict t := by
  induction ts with
  | nil => exact iff_of_true trivial (List.forall_mem_nil _)
  | cons t ts ih => rw [UnbracketedAll, ih, List.forall_mem_cons]

mutual
theorem Unbracketed.mono : ∀ {t : SpanTree} {strict strict' : Bool},
    Unbracketed source strict t → (strict' = true → strict = true) → Unbracketed source strict' t
  | .mk rule start stop [], strict, strict', h, hle => by
    rw [Unbracketed] at h ⊢
    intro hneeds
    rw [Bool.or_eq_true] at h hneeds
    exact h (hneeds.imp_left hle)
  | .mk rule start stop (child :: children), strict, strict', h, hle => by
    rw [Unbracketed] at h ⊢
    refine UnbracketedAll.mono h fun hneeds => ?_
    rw [Bool.or_eq_true] at hneeds ⊢
    exact hneeds.imp_left hle
theorem UnbracketedAll.mono : ∀ {ts : List SpanTree} {strict strict' : Bool},
    UnbracketedAll source strict ts → (strict' = true → strict = true) →
      UnbracketedAll source strict' ts
  | [], _, _, _, _ => trivial
  | _ :: _, strict, strict', h, hle => by
    rw [UnbracketedAll] at h ⊢
    exact ⟨h.1.mono hle, h.2.mono hle⟩
end

/-- A node is unbracketed if its parts are, and strictly so if it is a name. -/
theorem Unbracketed.node {rule : String} {start stop : Nat} {parts : List SpanTree}
    (hne : parts ≠ [])
    (h : ∀ t ∈ parts, Unbracketed source (strict || nameRules.contains rule) t) :
    Unbracketed source strict (.mk rule start stop parts) := by
  cases parts with
  | nil => exact absurd rfl hne
  | cons first others =>
    rw [Unbracketed]
    exact unbracketedAll_iff.mpr h

end Unbracketed

/-! ## Where a reader stands -/

/-- The reader stands where it says, and nothing but comments waits. -/
structure Stands (source : List Char) (i : Input) : Prop where
  here : At source i.offset i.rest
  comments : ∀ t ∈ i.comments, Unbracketed source true t

section Stands

variable {source : List Char} {i : Input}

theorem unbracketed_comment {rule : String} (h : rule = "line_comment" ∨ rule = "block_comment")
    (start stop : Nat) : Unbracketed source true (.mk rule start stop []) := by
  rw [Unbracketed]
  intro _
  left
  rcases h with rfl | rfl <;> rfl

theorem Stands.skip (h : Stands source i) (steps : Nat) : Stands source (i.skip steps) := by
  induction steps generalizing i with
  | zero => exact h
  | succ steps ih =>
    obtain ⟨rest, offset, comments⟩ := i
    obtain ⟨hat, hcomments⟩ := h
    change At source offset rest at hat
    unfold Input.skip
    split
    next hrest =>
      cases hrest
      exact ⟨hat, hcomments⟩
    next c s hrest =>
      cases hrest
      have hone : At source offset ([c] ++ s) := hat
      have hbytes : byteCount [c] = c.utf8Size := Nat.zero_add _
      split
      next =>
        have hbehind := hone.behind
        rw [hbytes] at hbehind
        exact ih (i := ⟨s, offset + c.utf8Size, comments⟩) ⟨hbehind, hcomments⟩
      next =>
        split
        next rule text rest hcomment =>
          obtain ⟨hinput, -, -, hrule⟩ := comment?_eq_some hcomment
          rw [hinput] at hat
          refine ih ⟨hat.behind, fun t ht => ?_⟩
          rcases List.mem_cons.mp ht with rfl | ht
          · exact unbracketed_comment (hrule.imp_left And.left) _ _
          · exact hcomments t ht
        next => exact ⟨hat, hcomments⟩

theorem Stands.ofSource (source : List Char) : Stands source (Input.ofSource source) := by
  have hstart : At source 0 source := ⟨[], rfl, rfl⟩
  unfold Input.ofSource
  split
  next c s =>
    split
    next =>
      have hone : At (c :: s) 0 ([c] ++ s) := hstart
      have hbytes : 0 + byteCount [c] = c.utf8Size := by simp [byteCount]
      have hbehind := hone.behind
      rw [hbytes] at hbehind
      exact Stands.skip (i := ⟨s, c.utf8Size, []⟩) ⟨hbehind, List.forall_mem_nil _⟩ _
    next => exact Stands.skip (i := ⟨c :: s, 0, []⟩) ⟨hstart, List.forall_mem_nil _⟩ _
  next => exact ⟨hstart, List.forall_mem_nil _⟩

theorem Stands.take (h : Stands source i) {strict : Bool} {leaf : Option String} (glued : Bool)
    {text rest : List Char} (hrest : i.rest = text ++ rest)
    (hplain : ∀ rule ∈ leaf, (strict || nameRules.contains rule) = true → '<' ∉ text)
    (out : List SpanTree) :
    Stands source (i.take leaf glued text rest out).1 ∧
      ∃ new, (i.take leaf glued text rest out).2 = new ++ out ∧
        ∀ t ∈ new, Unbracketed source strict t := by
  obtain ⟨hat, hcomments⟩ := h
  rw [hrest] at hat
  have hnext : Stands source ⟨rest, i.offset + byteCount text, []⟩ :=
    ⟨hat.behind, List.forall_mem_nil _⟩
  have hwaiting : ∀ t ∈ i.comments, Unbracketed source strict t :=
    fun t ht => (hcomments t ht).mono fun _ => rfl
  refine ⟨?_, ?_⟩
  · cases glued with
    | true => exact hnext
    | false => exact hnext.skip _
  · cases leaf with
    | none => exact ⟨i.comments, rfl, hwaiting⟩
    | some rule =>
      refine ⟨.mk rule i.offset (i.offset + byteCount text) [] :: i.comments, rfl, ?_⟩
      rw [List.forall_mem_cons, Unbracketed]
      exact ⟨fun hneeds => .inr ⟨text, hat.between, hplain rule rfl hneeds⟩, hwaiting⟩

end Stands

/-! ## Tokens -/

/-- The token never has an angle bracket. -/
def Lexeme.isUnbracketed : Lexeme → Bool
  | symbol s => !s.toList.contains '<'
  | text s => !s.toList.contains '<'
  | word s => !s.toList.contains '<'
  | name _ => true
  | regex _ => false

theorem notMem_identifierRun (input : List Char) : '<' ∉ identifierRun input := by
  intro hmem
  cases input with
  | nil => cases hmem
  | cons c s =>
    rw [identifierRun] at hmem
    split at hmem
    next hbegins =>
      rcases List.mem_cons.mp hmem with rfl | hmem
      · exact absurd hbegins (by decide +kernel)
      · exact absurd (List.mem_takeWhile_imp hmem) (by decide +kernel)
    next => cases hmem

theorem Lexeme.notMem_of_scan {l : Lexeme} {input text rest : List Char}
    (h : l.isUnbracketed = true) (hscan : l.scan input = some (text, rest)) : '<' ∉ text := by
  have hfixed {s : String} (hs : (!s.toList.contains '<') = true) : '<' ∉ s.toList := by
    rwa [Bool.not_eq_true', List.contains_eq_mem, decide_eq_false_iff_not] at hs
  cases l with
  | symbol s =>
    rw [scan] at hscan
    split at hscan
    next =>
      rw [Option.ite_none_left_eq_some] at hscan
      cases hscan.2
      exact hfixed h
    next => cases hscan
  | text s =>
    rw [scan, Option.map_eq_some_iff] at hscan
    obtain ⟨_, -, hpair⟩ := hscan
    cases hpair
    exact hfixed h
  | word s =>
    rw [scan] at hscan
    split at hscan
    next =>
      rw [Option.ite_none_left_eq_some] at hscan
      cases hscan.2
      exact hfixed h
    next => cases hscan
  | name except =>
    rw [scan] at hscan
    simp only [Option.ite_none_left_eq_some] at hscan
    cases hscan.2
    exact notMem_identifierRun input
  | regex r => cases h

/-! ## Forms -/

/-- What is recorded in front of `out` is unbracketed, and the reader stands behind it. -/
structure Yields (source : List Char) (strict : Bool) (out : List SpanTree) (i' : Input)
    (out' : List SpanTree) : Prop where
  stands : Stands source i'
  recorded : ∃ new, out' = new ++ out ∧ ∀ t ∈ new, Unbracketed source strict t

namespace Yields

variable {source : List Char} {strict : Bool} {i i' i'' : Input} {out out' out'' : List SpanTree}

theorem refl (h : Stands source i) (strict : Bool) (out : List SpanTree) :
    Yields source strict out i out :=
  ⟨h, [], rfl, List.forall_mem_nil _⟩

theorem trans (h : Yields source strict out i' out') (h' : Yields source strict out' i'' out'') :
    Yields source strict out i'' out'' := by
  obtain ⟨-, new, rfl, hnew⟩ := h
  obtain ⟨hstands, new', rfl, hnew'⟩ := h'
  exact ⟨hstands, new' ++ new, by rw [List.append_assoc], List.forall_mem_append.mpr ⟨hnew', hnew⟩⟩

theorem all (h : Yields source strict [] i' out') : ∀ t ∈ out', Unbracketed source strict t := by
  obtain ⟨-, new, rfl, hnew⟩ := h
  rwa [List.append_nil]

theorem of_all (h : Stands source i') {inner : List SpanTree}
    (hall : ∀ t ∈ inner, Unbracketed source strict t) (out : List SpanTree) :
    Yields source strict out i' (inner ++ out) :=
  ⟨h, inner, rfl, hall⟩

theorem wrap (h : Stands source i') {name : String} {inner : List SpanTree}
    (hall : ∀ t ∈ inner, Unbracketed source (strict || nameRules.contains name) t)
    (out : List SpanTree) : Yields source strict out i' (wrap name inner out) := by
  have hloose : ∀ t ∈ inner, Unbracketed source strict t := fun t ht =>
    (hall t ht).mono fun hstrict => by rw [hstrict, Bool.true_or]
  rcases wrap_split name inner out with
    ⟨-, hwrap⟩ | ⟨comments, first, others, last, hsplit, -, -, -, hwrap⟩
  · rw [hwrap]
    exact of_all h hloose out
  · have hmem {t : SpanTree} (ht : t ∈ comments ++ first :: others) : t ∈ inner :=
      List.mem_reverse.mp (hsplit ▸ ht)
    rw [hwrap]
    refine ⟨h, _ :: comments.reverse, rfl, List.forall_mem_cons.mpr ⟨?_, fun t ht => ?_⟩⟩
    · exact .node (List.cons_ne_nil _ _) fun t ht => hall t (hmem (List.mem_append_right _ ht))
    · exact hloose t (hmem (List.mem_append_left _ (List.mem_reverse.mp ht)))

end Yields

namespace Form

variable {ρ : Type} (inside : ρ → Bool)

mutual
/-- Whether the names that a form makes are spelled without angle brackets, and all it reads if it is
read `strict`ly. Of other rules, only those `inside` may be read like that. -/
@[simp]
def unbracketed (strict : Bool) : Form ρ → Bool
  | token leaf lexeme _ =>
    leaf.all fun rule => !(strict || nameRules.contains rule) || lexeme.isUnbracketed
  | number => !strict
  | rule r => !strict || inside r
  | seq fs => unbracketedAll strict fs
  | alt fs => unbracketedAll strict fs
  | opt f => unbracketed strict f
  | many f => unbracketed strict f
  | node name f => unbracketed (strict || nameRules.contains name) f
  | chain first tails =>
    let strict := strict || tails.any fun tail => nameRules.contains tail.1
    unbracketed strict first && unbracketedTails strict tails
  | only _ f => unbracketed strict f
  | absent _ => true
  | present _ => true
@[simp]
def unbracketedAll (strict : Bool) : List (Form ρ) → Bool
  | [] => true
  | f :: fs => unbracketed strict f && unbracketedAll strict fs
@[simp]
def unbracketedTails (strict : Bool) : List (String × List String × Form ρ) → Bool
  | [] => true
  | (name, _, f) :: tails =>
    (strict || !nameRules.contains name) && unbracketed strict f && unbracketedTails strict tails
end

def YieldsUnbracketed (source : List Char) :
    Task ρ → Input → List SpanTree → Input → List SpanTree → Prop
  | .form f, i, out, i', out' => ∀ {strict : Bool}, f.unbracketed inside strict = true →
      Stands source i → Yields source strict out i' out'
  | .tails all tails, i, left, i', left' => ∀ {strict : Bool},
      unbracketedTails inside strict all = true → unbracketedTails inside strict tails = true →
      Stands source i → (∀ t ∈ left, Unbracketed source strict t) →
      Stands source i' ∧ ∀ t ∈ left', Unbracketed source strict t

section Steps

variable {inside} {source : List Char} {strict : Bool} {i : Input} {out : List SpanTree}

theorem yields_token {leaf : Option String} {lexeme : Lexeme} {glued : Bool} {text rest : List Char}
    (hform : (token leaf lexeme glued : Form ρ).unbracketed inside strict = true)
    (h : Stands source i) (hscan : lexeme.scan i.rest = some (text, rest)) :
    Yields source strict out (i.take leaf glued text rest out).1
      (i.take leaf glued text rest out).2 := by
  rw [unbracketed, Option.all_eq_true] at hform
  have hplain : ∀ rule ∈ leaf, (strict || nameRules.contains rule) = true → '<' ∉ text := by
    intro rule hrule hneeds
    have hlexeme := hform rule hrule
    rw [hneeds] at hlexeme
    exact Lexeme.notMem_of_scan hlexeme hscan
  obtain ⟨hstands, hnew⟩ := h.take glued (Lexeme.eq_append_of_scan hscan) hplain out
  exact ⟨hstands, hnew⟩

theorem yields_number (hform : (number : Form ρ).unbracketed inside strict = true)
    (h : Stands source i) {name : String} {length : Nat}
    (hnumber : numberAt? i.rest = some (name, length)) :
    Yields source strict out
      (i.take (some name) false (i.rest.take length) (i.rest.drop length) out).1
      (i.take (some name) false (i.rest.take length) (i.rest.drop length) out).2 := by
  have hnames : ∀ pair ∈ numbers, nameRules.contains pair.1 = false := by decide
  rw [unbracketed, Bool.not_eq_true'] at hform
  obtain ⟨r, hmem, -⟩ := exists_mem_numbers hnumber
  have hplain : ∀ rule ∈ some name, (strict || nameRules.contains rule) = true →
      '<' ∉ i.rest.take length := by
    rintro rule ⟨⟩ hneeds
    rw [hform, hnames _ hmem] at hneeds
    cases hneeds
  obtain ⟨hstands, hnew⟩ := h.take false (List.take_append_drop length i.rest).symm hplain out
  exact ⟨hstands, hnew⟩

/-- The node that a tail makes of the last part and what it reads. -/
theorem unbracketed_tail {name : String} {last : SpanTree} {before inner : List SpanTree}
    (hname : (strict || !nameRules.contains name) = true)
    (hleft : ∀ t ∈ last :: before, Unbracketed source strict t)
    (h : Yields source strict [last] i inner) :
    ∀ t ∈ wrap name inner before, Unbracketed source strict t := by
  obtain ⟨hlast, hbefore⟩ := List.forall_mem_cons.mp hleft
  obtain ⟨hstands, new, rfl, hnew⟩ := h
  have hparts : ∀ t ∈ new ++ [last],
      Unbracketed source (strict || nameRules.contains name) t := by
    intro t ht
    have hstrict : Unbracketed source strict t := by
      rcases List.mem_append.mp ht with ht | ht
      · exact hnew t ht
      · rwa [List.mem_singleton.mp ht]
    refine hstrict.mono fun hneeds => ?_
    rw [Bool.or_eq_true, Bool.not_eq_true'] at hname
    rcases hname with hname | hname
    · exact hname
    · rwa [hname, Bool.or_false] at hneeds
  obtain ⟨-, made, hmade, hunbracketed⟩ := Yields.wrap hstands hparts before
  rw [hmade]
  exact List.forall_mem_append.mpr ⟨hunbracketed, hbefore⟩

end Steps

/-- **A grammar of unbracketed forms records what is unbracketed.** -/
theorem unbracketed_of_runs {source : List Char} {grammar : ρ → Form ρ}
    (hgrammar : ∀ r strict, (strict = true → inside r = true) →
      (grammar r).unbracketed inside strict = true) {task : Task ρ} {i i' : Input}
    {out out' : List SpanTree} (h : Runs grammar task i out i' out') :
    YieldsUnbracketed inside source task i out i' out' := by
  induction h with
  | token hscan => exact fun hform h => yields_token hform h hscan
  | number hnumber => exact fun hform h => yields_number hform h hnumber
  | @rule r _ _ _ _ _ ih =>
    intro strict hform h
    rw [unbracketed, Bool.or_eq_true, Bool.not_eq_true'] at hform
    refine ih (hgrammar r strict fun hstrict => ?_) h
    exact hform.resolve_left (by rw [hstrict]; decide)
  | @seq_nil _ out | @opt_none _ _ out | @many_done _ _ out | @absent _ _ out | @present _ _ out =>
    exact fun _ h => .refl h _ out
  | seq_cons _ _ ihfirst ihrest =>
    intro strict hform h
    rw [unbracketed, unbracketedAll, Bool.and_eq_true] at hform
    have hfirst := ihfirst hform.1 h
    exact hfirst.trans (ihrest (by rw [unbracketed]; exact hform.2) hfirst.stands)
  | alt_first _ ih =>
    intro strict hform h
    rw [unbracketed, unbracketedAll, Bool.and_eq_true] at hform
    exact ih hform.1 h
  | alt_rest _ ih =>
    intro strict hform h
    rw [unbracketed, unbracketedAll, Bool.and_eq_true] at hform
    exact ih (by rw [unbracketed]; exact hform.2) h
  | opt_some _ ih => exact fun hform h => ih hform h
  | many_again _ _ ihfirst ihrest =>
    intro strict hform h
    have hfirst := ihfirst hform h
    exact hfirst.trans (ihrest hform hfirst.stands)
  | @node _ _ _ _ out _ _ ih =>
    intro strict hform h
    have hinner := ih hform h
    exact .wrap hinner.stands hinner.all out
  | @chain _ _ _ _ _ out _ _ _ _ ihfirst ihtails =>
    intro strict hform h
    rw [unbracketed, Bool.and_eq_true] at hform
    obtain ⟨hfirst, htails⟩ := hform
    have hleft := ihfirst hfirst h
    obtain ⟨hstands, hall⟩ := ihtails htails htails hleft.stands hleft.all
    refine .of_all hstands (fun t ht => (hall t ht).mono fun hstrict => ?_) out
    rw [hstrict, Bool.true_or]
  | only _ _ ih => exact fun hform h => ih hform h
  | tails_done => exact fun _ _ h hleft => ⟨h, hleft⟩
  | tails_first _ _ _ ihinner ihrest =>
    intro strict hall htails h hleft
    rw [unbracketedTails, Bool.and_eq_true, Bool.and_eq_true] at htails
    have hinner := ihinner htails.1.2 h
    exact ihrest hall hall hinner.stands (unbracketed_tail htails.1.1 hleft hinner)
  | tails_rest _ ih =>
    intro strict hall htails h hleft
    rw [unbracketedTails, Bool.and_eq_true] at htails
    exact ih hall htails.2 h hleft

end Form

/-! ## The grammar of Java -/

namespace Rule

open Grammar.Form

def isName : Rule → Bool
  | name => true
  | _ => false

theorem unbracketedTails_iff {ρ : Type} {inside : ρ → Bool}
    {tails : List (String × List String × Form ρ)} : unbracketedTails inside false tails = true ↔
      ∀ tail ∈ tails, (!nameRules.contains tail.1 && tail.2.2.unbracketed inside false) = true := by
  induction tails with
  | nil => exact iff_of_true rfl (List.forall_mem_nil _)
  | cons tail tails ih =>
    obtain ⟨name, rules, f⟩ := tail
    rw [unbracketedTails, Bool.and_eq_true, ih, List.forall_mem_cons, Bool.false_or]

theorem unbracketedTails_operatorTails (least : Nat) (lambda : Bool) :
    unbracketedTails isName false (operatorTails least lambda) = true := by
  have hbinary : ∀ pair ∈ binaryOperators, (symbol pair.1).unbracketed isName false = true := by
    decide +kernel
  rw [unbracketedTails_iff]
  intro tail htail
  simp only [operatorTails, List.mem_append] at htail
  rcases htail with ((htail | htail) | htail) | htail
  · obtain ⟨⟨op, strength⟩, hmem, rfl⟩ := List.mem_map.mp htail
    have hsymbol := hbinary _ (List.mem_filter.mp hmem).1
    have hseq : (Form.seq [symbol op, .rule (.expression (strength + 1) lambda)]).unbracketed isName
        false = true := by
      rw [unbracketed, unbracketedAll, hsymbol]
      rfl
    rw [hseq]
    rfl
  · split at htail
    next =>
      rw [List.mem_singleton.mp htail]
      decide +kernel
    next => cases htail
  · split at htail
    next =>
      rw [List.mem_singleton.mp htail]
      rfl
    next => cases htail
  · split at htail
    next =>
      rw [List.mem_singleton.mp htail]
      decide +kernel
    next => cases htail

/-- Every rule of Java is unbracketed, and that of names strictly. -/
theorem unbracketed_form (r : Rule) (strict : Bool) (h : strict = true → isName r = true) :
    r.form.unbracketed isName strict = true := by
  cases strict with
  | true =>
    cases r with
    | name => decide +kernel
    | _ => cases h rfl
  | false =>
    cases r with
    | name => decide +kernel
    | annotationUse => decide +kernel
    | type except => rfl
    | plainType except => rfl
    | simpleType except => rfl
    | typeArguments => decide +kernel
    | expression least lambda =>
      have hnone : ((operatorTails least lambda).any fun tail => nameRules.contains tail.1) =
          false := by
        rw [List.any_eq_false]
        intro tail htail hname
        have hplain := unbracketedTails_iff.mp (unbracketedTails_operatorTails least lambda) tail htail
        rw [hname] at hplain
        cases hplain
      change (Form.chain (.rule (.operand lambda)) (operatorTails least lambda)).unbracketed isName
        false = true
      rw [unbracketed, hnone, Bool.or_false, unbracketedTails_operatorTails]
      rfl
    | operand lambda => cases lambda <;> decide +kernel
    | primary => decide +kernel
    | string => decide +kernel
    | arguments => decide +kernel
    | switch => decide +kernel
    | arrayInitializer => decide +kernel
    | elementValue => decide +kernel
    | recordPattern => decide +kernel
    | parameters => decide +kernel
    | typeParameters => decide +kernel
    | modifiers => decide +kernel
    | block => decide +kernel
    | statement => decide +kernel
    | classBody => decide +kernel
    | typeDeclaration => decide +kernel

end Rule

/-- **The names in a unit are spelled without angle brackets.** -/
theorem parse?_unbracketed {source : String} {root : SpanTree} (h : parse? source = some root) :
    ∀ t ∈ root.children, Unbracketed source.toList false t := by
  have hprogram : Rule.program.unbracketed Rule.isName false = true := by decide +kernel
  obtain ⟨i, out, hruns, -, rfl⟩ := exists_runs_of_parse? h
  have hyields := Form.unbracketed_of_runs Rule.isName Rule.unbracketed_form hruns hprogram
    (.ofSource source.toList)
  intro t ht
  rcases List.mem_append.mp (List.mem_reverse.mp ht) with ht | ht
  · exact (hyields.stands.comments t ht).mono fun h => absurd h Bool.false_ne_true
  · exact hyields.all t ht

end CallMigration.Grammar

namespace CallMigration

open Grammar

/-! ## Names in a tree -/

def nameKinds : List Kind := [.importDeclaration, .scopedIdentifier, .identifier]

/-- What becomes a name was read by a rule of names. -/
theorem contains_nameRules {rule : String} {leaf : Bool}
    (h : nameKinds.contains (Kind.ofRule rule leaf) = true) : nameRules.contains rule = true := by
  have hrules : ∀ pair ∈ Kind.ruleKinds ++ Kind.leafKinds,
      nameKinds.contains pair.2 = true → nameRules.contains pair.1 = true := by decide +kernel
  unfold Kind.ofRule at h
  split at h
  next k hlookup => exact hrules (rule, k) (List.mem_append_left _ (mem_of_lookup hlookup)) h
  next =>
    cases leaf with
    | false => cases h
    | true =>
      rw [if_pos rfl] at h
      cases hlookup : Kind.leafKinds.lookup rule with
      | none =>
        rw [hlookup] at h
        cases h
      | some k =>
        rw [hlookup] at h
        exact hrules (rule, k) (List.mem_append_right _ (mem_of_lookup hlookup)) h

namespace Tree

mutual
/-- The tokens of names are spelled without an angle bracket, and all tokens if `strict`, whitespace and
comments apart. -/
def Unbracketed (strict : Bool) : Tree → Prop
  | token k s => (strict || nameKinds.contains k) = true → k.isTrivia = true ∨ '<' ∉ s.toList
  | node k cs => UnbracketedAll (strict || nameKinds.contains k) cs
/-- The same for several elements. -/
def UnbracketedAll (strict : Bool) : List Tree → Prop
  | [] => True
  | t :: ts => t.Unbracketed strict ∧ UnbracketedAll strict ts
end

theorem unbracketedAll_iff {strict : Bool} {ts : List Tree} :
    UnbracketedAll strict ts ↔ ∀ t ∈ ts, t.Unbracketed strict := by
  induction ts with
  | nil => exact iff_of_true trivial (List.forall_mem_nil _)
  | cons t ts ih => rw [UnbracketedAll, ih, List.forall_mem_cons]

theorem unbracketedAll_append {strict : Bool} {as bs : List Tree} :
    UnbracketedAll strict (as ++ bs) ↔ UnbracketedAll strict as ∧ UnbracketedAll strict bs := by
  rw [unbracketedAll_iff, unbracketedAll_iff, unbracketedAll_iff, List.forall_mem_append]

theorem unbracketedAll_gap {c c' : Cursor} {stop : Nat} {gap : List Tree}
    (h : c.gap stop = .ok (gap, c')) (strict : Bool) : UnbracketedAll strict gap := by
  rcases (Cursor.of_gap h).2 with rfl | ⟨text, rfl⟩
  · trivial
  · exact ⟨fun _ => .inl rfl, trivial⟩

theorem Unbracketed.name {t : Tree} (h : t.Unbracketed false)
    (hkind : nameKinds.contains t.kind = true) : t.Unbracketed true := by
  cases t with
  | token k s => exact fun _ => h hkind
  | node k cs =>
    have hk : nameKinds.contains k = true := hkind
    rw [Unbracketed, hk] at h
    rwa [Unbracketed, Bool.true_or]

mutual
theorem Unbracketed.tokens : ∀ {t : Tree}, t.Unbracketed true →
    ∀ k s, (k, s) ∈ t.tokens → k.isTrivia = true ∨ '<' ∉ s.toList
  | .token _ _, h, k, s, hmem => by
    rw [Tree.tokens] at hmem
    cases List.mem_singleton.mp hmem
    exact h rfl
  | .node _ _, h, k, s, hmem => by
    rw [Unbracketed] at h
    rw [Tree.tokens] at hmem
    exact h.tokens k s hmem
theorem UnbracketedAll.tokens : ∀ {ts : List Tree}, UnbracketedAll true ts →
    ∀ k s, (k, s) ∈ tokensOf ts → k.isTrivia = true ∨ '<' ∉ s.toList
  | [], _, _, _, hmem => by cases hmem
  | _ :: _, h, k, s, hmem => by
    rcases List.mem_append.mp hmem with hmem | hmem
    · exact h.1.tokens k s hmem
    · exact h.2.tokens k s hmem
end

/-- Tokens of a name that are neither whitespace nor comments spell a text without angle brackets. -/
theorem Unbracketed.joinTokens {t : Tree} (h : t.Unbracketed true) {tokens : List (Kind × String)}
    (hsub : tokens ⊆ t.significantTokens) : '<' ∉ (joinTokens tokens).toList := by
  rw [joinTokens_toList, List.mem_flatMap]
  rintro ⟨⟨k, s⟩, hmem, hopen⟩
  obtain ⟨htoken, hsignificant⟩ := List.mem_filter.mp (hsub hmem)
  rcases h.tokens k s htoken with htrivia | hplain
  · change (!k.isTrivia) = true at hsignificant
    rw [htrivia] at hsignificant
    cases hsignificant
  · exact hplain hopen

theorem Unbracketed.significantText {t : Tree} (h : t.Unbracketed true)
    (hkind : nameKinds.contains t.kind = true) : '<' ∉ t.significantText.toList := by
  cases t with
  | token k s =>
    have hnames : ∀ k ∈ nameKinds, k.isTrivia = false := by decide
    refine (h rfl).resolve_left fun htrivia => ?_
    rw [hnames k (List.contains_iff_mem.mp hkind)] at htrivia
    cases htrivia
  | node k cs => exact h.joinTokens (List.Subset.refl _)

/-! ## Cutting along spans -/

section Cutting

variable {source : List Char} {strict : Bool}

mutual
theorem unbracketed_ofSpan : ∀ {t : SpanTree} {c c' : Cursor} {loose strict : Bool} {ts : List Tree},
    Spells source t → c.IsAt source → Gap source loose c.offset t.start →
    Grammar.Unbracketed source strict t → ofSpan c t = .ok (ts, c') → UnbracketedAll strict ts
  | .mk rule start stop [], c, c', loose, strict, ts, ht, hat, hgap, hspan, h => by
    obtain ⟨gap, c₁, text, hcut, htext, rfl⟩ := ofSpan_leaf_eq_ok h
    obtain ⟨gap', c₂, hcut', hat₁, hoffset, -, -⟩ := hat.gap hgap
    cases hcut'.symm.trans hcut
    change c₁.offset = start at hoffset
    refine unbracketedAll_append.mpr ⟨unbracketedAll_gap hcut strict, ?_, trivial⟩
    intro hneeds
    rw [Grammar.Unbracketed] at hspan
    rw [Bool.or_eq_true] at hneeds
    rcases hspan (Bool.or_eq_true _ _ ▸ hneeds.imp_right contains_nameRules) with
      hcomment | ⟨spelled, hbetween, hplain⟩
    · left
      rw [isComment, Bool.or_eq_true, beq_iff_eq, beq_iff_eq] at hcomment
      change rule = _ ∨ rule = _ at hcomment
      rcases hcomment with rfl | rfl <;> rfl
    · right
      have hmax : max stop c₁.offset = stop := by
        obtain ⟨after, -, hstop⟩ := hbetween
        omega
      rw [← hoffset] at hbetween
      obtain ⟨c₃, hupTo, -, -⟩ := hat₁.upTo hbetween
      rw [hmax] at htext
      cases hupTo.symm.trans htext
      rwa [String.toList_ofList]
  | .mk rule start stop (child :: children), c, c', loose, strict, ts, ht, hat, hgap, hspan, h => by
    obtain ⟨gap, c₁, inner, hcut, hinner, rfl⟩ := ofSpan_node h
    obtain ⟨gap', c₂, hcut', hat₁, hoffset, -, -⟩ := hat.gap hgap
    cases hcut'.symm.trans hcut
    rw [Spells] at ht
    change c₁.offset = start at hoffset
    rw [← hoffset] at ht
    rw [Grammar.Unbracketed] at hspan
    refine unbracketedAll_append.mpr ⟨unbracketedAll_gap hcut strict, ?_, trivial⟩
    rw [Unbracketed]
    refine unbracketed_ofSpanList ht.2 hat₁ (hspan.mono fun hneeds => ?_) hinner
    rw [Bool.or_eq_true] at hneeds ⊢
    exact hneeds.imp_right contains_nameRules
theorem unbracketed_ofSpanList : ∀ {ss : List SpanTree} {c c' : Cursor} {loose strict : Bool} {q : Nat}
    {ts : List Tree}, Laid source loose c.offset ss q → c.IsAt source →
    Grammar.UnbracketedAll source strict ss → ofSpanList c ss = .ok (ts, c') →
    UnbracketedAll strict ts
  | [], c, c', loose, strict, q, ts, _, _, _, h => by
    rw [ofSpanList] at h
    cases h
    trivial
  | s :: ss, c, c', loose, strict, q, ts, hlaid, hat, hspans, h => by
    obtain ⟨here, c₁, there, hhere, hthere, rfl⟩ := ofSpanList_cons h
    rw [Laid] at hlaid
    obtain ⟨hgap, hs, hlaid⟩ := hlaid
    obtain ⟨hat₁, hoffset, -, -⟩ := spaced_ofSpan hs hat hgap hhere
    rw [← hoffset] at hlaid
    exact unbracketedAll_append.mpr ⟨unbracketed_ofSpan hs hat hgap hspans.1 hhere,
      unbracketed_ofSpanList hlaid hat₁ hspans.2 hthere⟩
end

end Cutting

end Tree

theorem JavaUnit.unbracketed_parse {source : String} {u : JavaUnit}
    (h : JavaUnit.parse source = .ok u) : Tree.UnbracketedAll false u.tree.children := by
  obtain ⟨-, root, hroot, htree⟩ | rfl := JavaUnit.parse_cases h
  · obtain ⟨inner, c, gap, c', hinner, hgap, htree⟩ := Tree.exists_of_ofSpans htree
    obtain ⟨-, q, hlaid⟩ := parse?_laid hroot
    have hstart : (⟨0, source.toList⟩ : Cursor).IsAt source.toList := ⟨[], rfl, rfl⟩
    rw [htree]
    refine Tree.unbracketedAll_append.mpr ⟨?_, Tree.unbracketedAll_gap hgap false⟩
    exact Tree.unbracketed_ofSpanList hlaid hstart
      (unbracketedAll_iff.mpr (parse?_unbracketed hroot)) hinner
  · -- The whole source is one token, which is no name.
    exact ⟨fun h => absurd h (by decide), trivial⟩

/-! ## The header of a unit -/

/-- The package and the imports of a unit leave no bracket open. -/
structure ClosedHeader (root : Tree) : Prop where
  package : ∀ p ∈ root.packageName?, IsClosed p.toList
  imports : ∀ i ∈ root.imports, IsClosed i.path.toList

/-- An import names what its tokens spell, up to a last `.*`. -/
theorem ImportDecl.path_prefix (position : Nat) (t : Tree) :
    (ImportDecl.ofTree position t).path.toList <+: (writtenPath t.significantTokens).toList := by
  unfold ImportDecl.ofTree
  dsimp only
  split
  next base hbase =>
    rw [List.isSuffixOf?_eq_some_iff_append_eq] at hbase
    rw [String.toList_ofList, ← hbase]
    exact List.prefix_append _ _
  next => exact List.prefix_rfl

/-- **The header of a unit that was read leaves no bracket open.** -/
theorem JavaUnit.closedHeader_parse {source : String} {u : JavaUnit}
    (h : JavaUnit.parse source = .ok u) : ClosedHeader u.tree := by
  have hchildren := Tree.unbracketedAll_iff.mp (JavaUnit.unbracketed_parse h)
  constructor
  · intro p hp
    rw [Tree.packageName?] at hp
    obtain ⟨declaration, hdeclaration, hp⟩ := Option.bind_eq_some_iff.mp hp
    obtain ⟨name, hname, hp⟩ := Option.bind_eq_some_iff.mp hp
    cases hp
    have hpackage := List.find?_some hdeclaration
    have hparts := hchildren declaration (List.mem_of_find?_eq_some hdeclaration)
    have hmem := List.mem_of_mem_filter (List.mem_of_find?_eq_some hname)
    have hkind : nameKinds.contains name.kind = true := by
      have hfound := List.find?_some hname
      rw [Bool.or_eq_true, beq_iff_eq, beq_iff_eq] at hfound
      rcases hfound with hfound | hfound <;> rw [hfound] <;> rfl
    cases declaration with
    | token k s => cases hpackage
    | node k cs =>
      obtain rfl : k = .packageDeclaration := beq_iff_eq.mp hpackage
      rw [Tree.Unbracketed] at hparts
      have hplain := Tree.unbracketedAll_iff.mp hparts name hmem
      exact isClosed_of_notMem ((hplain.name hkind).significantText hkind)
  · intro i hi
    obtain ⟨pre, declaration, post, hsplit, himport, rfl, -⟩ := Tree.exists_split_of_mem_imports hi
    rw [Tree.isImport, Bool.and_eq_true, beq_iff_eq] at himport
    have hplain := hchildren declaration (hsplit ▸ by simp)
    have hwritten : '<' ∉ (ImportDecl.writtenPath declaration.significantTokens).toList :=
      (hplain.name (by rw [himport.2]; rfl)).joinTokens (List.filter_subset_self _)
    exact isClosed_of_notMem fun hmem => hwritten ((ImportDecl.path_prefix _ _).subset hmem)

end CallMigration
