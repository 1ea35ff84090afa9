import CallMigration.Proofs.Forms

/-!
# Spans over a source

The parts of a node are laid out from left to right. What is between two of them is what the reader has
gone over without recording it, which is nothing but spaces, except in text blocks: an escape sequence
that only text blocks have is recorded under no rule. A string begins and ends with a recorded token,
so nothing of this can be seen from outside.

* `Between`, `Gap` : the text between two offsets of a source.
* `Spells`, `Laid` : spans that are laid out over a source.
* `Waits`, `Neat` : where a reader stands behind such spans.
* `Neat.take`, `Neat.behind`, `Ripe.wrap` : the steps of a reader.
-/

namespace CallMigration.Grammar

/-! ## Text between two offsets -/

/-- The source goes on with `rest` from the byte offset `p` on. -/
def At (source : List Char) (p : Nat) (rest : List Char) : Prop :=
  ∃ before, source = before ++ rest ∧ byteCount before = p

/-- The text of the source between the byte offsets `p` and `q`. -/
def Between (source : List Char) (p : Nat) (text : List Char) (q : Nat) : Prop :=
  ∃ after, At source p (text ++ after) ∧ p + byteCount text = q

section Between

variable {source rest rest' text text' : List Char} {p q r : Nat}

theorem append_inj_of_byteCount {a a' b b' : List Char} (h : a ++ b = a' ++ b')
    (hcount : byteCount a = byteCount a') : b = b' := by
  rcases List.append_eq_append_iff.mp h with ⟨s, rfl, rfl⟩ | ⟨s, rfl, rfl⟩
  · rw [byteCount_append] at hcount
    rw [eq_nil_of_byteCount (s := s) (by omega), List.nil_append]
  · rw [byteCount_append] at hcount
    rw [eq_nil_of_byteCount (s := s) (by omega), List.nil_append]

theorem At.unique (h : At source p rest) (h' : At source p rest') : rest = rest' := by
  obtain ⟨before, hsource, hcount⟩ := h
  obtain ⟨before', hsource', hcount'⟩ := h'
  exact append_inj_of_byteCount (hsource.symm.trans hsource') (hcount.trans hcount'.symm)

theorem At.behind (h : At source p (text ++ rest)) : At source (p + byteCount text) rest := by
  obtain ⟨before, hsource, hcount⟩ := h
  refine ⟨before ++ text, by rw [List.append_assoc]; exact hsource, ?_⟩
  rw [byteCount_append, hcount]

theorem At.between (h : At source p (text ++ rest)) :
    Between source p text (p + byteCount text) :=
  ⟨rest, h, rfl⟩

theorem Between.start (h : Between source p text q) : ∃ rest, At source p (text ++ rest) ∧
    At source q rest := by
  obtain ⟨rest, hat, rfl⟩ := h
  exact ⟨rest, hat, hat.behind⟩

theorem Between.trans (h : Between source p text q) (h' : Between source q text' r) :
    Between source p (text ++ text') r := by
  obtain ⟨after, hat, rfl⟩ := h
  obtain ⟨after', hat', rfl⟩ := h'
  cases hat.behind.unique hat'
  refine ⟨after', by rw [List.append_assoc]; exact hat, ?_⟩
  rw [byteCount_append, Nat.add_assoc]

/-- What stands between two offsets is spaces, or anything where it is `loose`. -/
def Gap (source : List Char) (loose : Bool) (p q : Nat) : Prop :=
  ∃ text, Between source p text q ∧ (loose = false → ∀ c ∈ text, isSpace c = true)

namespace Gap

variable {loose loose' : Bool}

theorem refl (h : At source p rest) (loose : Bool) : Gap source loose p p :=
  ⟨[], ⟨rest, h, rfl⟩, nofun⟩

theorem trans (h : Gap source loose p q) (h' : Gap source loose q r) : Gap source loose p r := by
  obtain ⟨text, hbetween, hspace⟩ := h
  obtain ⟨text', hbetween', hspace'⟩ := h'
  exact ⟨text ++ text', hbetween.trans hbetween', fun hloose =>
    List.forall_mem_append.mpr ⟨hspace hloose, hspace' hloose⟩⟩

theorem loosen (h : Gap source false p q) (loose : Bool) : Gap source loose p q := by
  obtain ⟨text, hbetween, hspace⟩ := h
  exact ⟨text, hbetween, fun _ => hspace rfl⟩

theorem at_left (h : Gap source loose p q) : ∃ rest, At source p rest := by
  obtain ⟨text, ⟨after, hat, -⟩, -⟩ := h
  exact ⟨_, hat⟩

theorem at_right (h : Gap source loose p q) : ∃ rest, At source q rest := by
  obtain ⟨text, hbetween, -⟩ := h
  obtain ⟨rest, -, hat⟩ := hbetween.start
  exact ⟨rest, hat⟩

end Gap

end Between

/-! ## Spans over a source -/

def parenRules : List String := ["(", ")"]

/-- The rule of the nodes that may have more than spaces between their parts. -/
def stringRule : String := "string_literal"

mutual
/-- The span covers a part of the source: a parenthesis itself, and the parts of a node one after the
other. -/
def Spells (source : List Char) : SpanTree → Prop
  | .mk rule start stop [] =>
    ∃ text, Between source start text stop ∧ (rule ∈ parenRules → text = rule.toList)
  | .mk rule start stop (child :: children) =>
    rule ∉ parenRules ∧ Laid source (rule == stringRule) start (child :: children) stop
/-- The spans cover the source from one offset to another, up to gaps in front of each. -/
def Laid (source : List Char) (loose : Bool) : Nat → List SpanTree → Nat → Prop
  | p, [], q => p = q
  | p, t :: ts, q => Gap source loose p t.start ∧ Spells source t ∧ Laid source loose t.stop ts q
end

namespace Laid

variable {source : List Char} {loose : Bool} {p q e : Nat} {as bs ts : List SpanTree} {t : SpanTree}

theorem append_iff : Laid source loose p (as ++ bs) q ↔
    ∃ m, Laid source loose p as m ∧ Laid source loose m bs q := by
  induction as generalizing p with
  | nil => simp [Laid]
  | cons t as ih =>
    rw [List.cons_append, Laid, ih]
    constructor
    · rintro ⟨hgap, ht, m, has, hbs⟩
      exact ⟨m, by rw [Laid]; exact ⟨hgap, ht, has⟩, hbs⟩
    · rintro ⟨m, has, hbs⟩
      rw [Laid] at has
      exact ⟨has.1, has.2.1, m, has.2.2, hbs⟩

theorem singleton_iff : Laid source loose p [t] q ↔
    Gap source loose p t.start ∧ Spells source t ∧ t.stop = q := by
  rw [Laid, Laid]

theorem loosen (h : Laid source false p ts q) (loose : Bool) : Laid source loose p ts q := by
  induction ts generalizing p with
  | nil =>
    rw [Laid] at h ⊢
    exact h
  | cons t ts ih =>
    rw [Laid] at h ⊢
    exact ⟨h.1.loosen loose, h.2.1, ih h.2.2⟩

theorem after_gap (hgap : Gap source loose e p) (h : Laid source loose p ts q) (hne : ts ≠ []) :
    Laid source loose e ts q := by
  cases ts with
  | nil => exact absurd rfl hne
  | cons t ts =>
    rw [Laid] at h ⊢
    exact ⟨hgap.trans h.1, h.2⟩

theorem stop_eq {last : SpanTree} (h : Laid source loose p (ts ++ [last]) q) : q = last.stop := by
  obtain ⟨m, -, hlast⟩ := append_iff.mp h
  exact (singleton_iff.mp hlast).2.2.symm

end Laid

/-! ## Where a reader stands -/

/-- Nothing but spaces and comments has been gone over since the offset `e`. -/
def Waits (source : List Char) (e : Nat) (i : Input) : Prop :=
  At source i.offset i.rest ∧
    ∃ m, Laid source false e i.comments.reverse m ∧ Gap source false m i.offset

/-- The parts that have been recorded are laid out from `p` on, up to some offset. Behind it there may
be more than spaces only where it is `loose`. -/
def Neat (source : List Char) (loose : Bool) (p : Nat) (i : Input) (out : List SpanTree) : Prop :=
  ∃ m e, Laid source loose p out.reverse m ∧ Gap source loose m e ∧ Waits source e i

section Neat

variable {source : List Char} {loose : Bool} {p m e : Nat} {i i' : Input}
  {out inner : List SpanTree}

theorem Waits.start (h : Waits source e i) : ∃ rest, At source e rest := by
  obtain ⟨-, m, hcomments, hgap⟩ := h
  cases hcs : i.comments.reverse with
  | nil =>
    rw [hcs, Laid] at hcomments
    subst hcomments
    exact hgap.at_left
  | cons t ts =>
    rw [hcs, Laid] at hcomments
    exact hcomments.1.at_left

theorem Neat.nil (h : Waits source e i) : Neat source loose e i [] := by
  obtain ⟨rest, hat⟩ := h.start
  exact ⟨e, e, by rw [List.reverse_nil, Laid], .refl hat loose, h⟩

theorem Waits.skip (h : Waits source e i) (steps : Nat) : Waits source e (i.skip steps) := by
  induction steps generalizing i with
  | zero => exact h
  | succ steps ih =>
    obtain ⟨rest, offset, comments⟩ := i
    obtain ⟨hat, m, hcomments, hgap⟩ := h
    change At source offset rest at hat
    change Gap source false m offset at hgap
    unfold Input.skip
    split
    next hrest =>
      cases hrest
      exact ⟨hat, m, hcomments, hgap⟩
    next c s hrest =>
      cases hrest
      have hone : At source offset ([c] ++ s) := hat
      have hbytes : byteCount [c] = c.utf8Size := Nat.zero_add _
      split
      next hspace =>
        have hbetween := hone.between
        rw [hbytes] at hbetween
        refine ih (i := ⟨s, offset + c.utf8Size, comments⟩) ⟨?_, m, hcomments, ?_⟩
        · rw [← hbytes]
          exact hone.behind
        · refine hgap.trans ⟨[c], hbetween, fun _ d hd => ?_⟩
          rw [List.mem_singleton.mp hd]
          exact hspace
      next =>
        split
        next rule text rest hcomment =>
          obtain ⟨hinput, -, -, hrule⟩ := comment?_eq_some hcomment
          rw [hinput] at hat
          refine ih (i := ⟨rest, offset + byteCount text,
            .mk rule offset (offset + byteCount text) [] :: comments⟩) ⟨hat.behind, _, ?_,
              .refl hat.behind false⟩
          rw [List.reverse_cons]
          refine Laid.append_iff.mpr ⟨m, hcomments, Laid.singleton_iff.mpr ⟨hgap, ?_, rfl⟩⟩
          rw [Spells]
          refine ⟨text, hat.between, fun hmem => ?_⟩
          rcases hrule with ⟨rfl, -⟩ | rfl <;> simp [parenRules] at hmem
        next => exact ⟨hat, m, hcomments, hgap⟩

theorem Waits.behind {text rest : List Char} (hat : At source i.offset i.rest)
    (hrest : i.rest = text ++ rest) (glued : Bool) :
    Waits source (i.offset + byteCount text)
      (if glued then (⟨rest, i.offset + byteCount text, []⟩ : Input)
        else Input.skipTrivia ⟨rest, i.offset + byteCount text, []⟩) := by
  rw [hrest] at hat
  have hnext : Waits source (i.offset + byteCount text) ⟨rest, i.offset + byteCount text, []⟩ :=
    ⟨hat.behind, _, by rw [List.reverse_nil, Laid], .refl hat.behind false⟩
  cases glued with
  | true => exact hnext
  | false => exact hnext.skip _

/-- The next part is recorded behind the comments in front of it. -/
theorem Neat.record {t : SpanTree} (h : Neat source loose p i out) (ht : Spells source t)
    (hstart : t.start = i.offset) :
    Laid source loose p (t :: (i.comments ++ out)).reverse t.stop := by
  obtain ⟨m, e, hout, hgap, -, q, hcomments, hend⟩ := h
  have hpart : Laid source false e (i.comments.reverse ++ [t]) t.stop :=
    Laid.append_iff.mpr ⟨q, hcomments, Laid.singleton_iff.mpr ⟨hstart ▸ hend, ht, rfl⟩⟩
  rw [List.reverse_cons, List.reverse_append, List.append_assoc]
  exact Laid.append_iff.mpr ⟨m, hout, (hpart.loosen loose).after_gap hgap (by simp)⟩

theorem Neat.flush (h : Neat source loose p i out) :
    ∃ q, Laid source loose p (i.comments ++ out).reverse q ∧ Gap source loose q i.offset := by
  obtain ⟨m, e, hout, hgap, -, q, hcomments, hend⟩ := h
  rw [List.reverse_append]
  by_cases hne : i.comments.reverse = []
  · rw [hne, Laid] at hcomments
    subst hcomments
    rw [hne, List.append_nil]
    exact ⟨m, hout, hgap.trans (hend.loosen loose)⟩
  · exact ⟨q, Laid.append_iff.mpr ⟨m, hout, (hcomments.loosen loose).after_gap hgap hne⟩,
      hend.loosen loose⟩

theorem Neat.waits (h : Neat source loose p i out) : ∃ e, Waits source e i := by
  obtain ⟨m, e, -, -, h⟩ := h
  exact ⟨e, h⟩

/-- A token is read. It may go unrecorded only where it is `loose`. -/
theorem Neat.take {leaf : Option String} {glued : Bool} {text rest : List Char}
    (h : Neat source loose p i out) (hrest : i.rest = text ++ rest)
    (hspelled : ∀ rule ∈ leaf, rule ∈ parenRules → text = rule.toList)
    (hleaf : leaf = none → loose = true) :
    Neat source loose p (i.take leaf glued text rest out).1 (i.take leaf glued text rest out).2 := by
  obtain ⟨e, hat, -⟩ := h.waits
  have hnext := Waits.behind hat hrest glued
  rw [hrest] at hat
  obtain ⟨after, hstop⟩ := hnext.start
  cases leaf with
  | some rule =>
    have hspells : Spells source (.mk rule i.offset (i.offset + byteCount text) []) := by
      rw [Spells]
      exact ⟨text, hat.between, hspelled rule rfl⟩
    exact ⟨_, _, h.record hspells rfl, .refl hstop loose, hnext⟩
  | none =>
    obtain ⟨q, hout, hgap⟩ := h.flush
    refine ⟨q, _, hout, hgap.trans ⟨text, hat.between, fun hfalse => ?_⟩, hnext⟩
    rw [hleaf rfl] at hfalse
    cases hfalse

/-- What is read behind nothing can be read behind parts that go up to `m`. -/
theorem Neat.behind (h : Neat source false e i inner) (hout : Laid source loose p out.reverse m)
    (hgap : Gap source loose m e) : Neat source loose p i (inner ++ out) := by
  obtain ⟨m', e', hinner, hbehind, hwaits⟩ := h
  by_cases hne : inner.reverse = []
  · rw [hne, Laid] at hinner
    subst hinner
    rw [List.reverse_eq_nil_iff.mp hne]
    exact ⟨m, e', hout, hgap.trans (hbehind.loosen loose), hwaits⟩
  · refine ⟨m', e', ?_, hbehind.loosen loose, hwaits⟩
    rw [List.reverse_append]
    exact Laid.append_iff.mpr ⟨m, hout, (hinner.loosen loose).after_gap hgap hne⟩

/-! ## Nodes -/

/-- Where a node is made: behind the comments in front of its first part. -/
theorem wrap_split (rule : String) (inner out : List SpanTree) :
    ((∀ t ∈ inner, isComment t = true) ∧ wrap rule inner out = inner ++ out) ∨
    ∃ comments first others last, inner.reverse = comments ++ first :: others ∧
      (∀ t ∈ comments, isComment t = true) ∧ isComment first = false ∧
      (first :: others).getLast? = some last ∧
      wrap rule inner out =
        .mk rule first.start last.stop (first :: others) :: (comments.reverse ++ out) := by
  have hsplit := List.takeWhile_append_dropWhile (p := isComment) (l := inner.reverse)
  have hcomments : ∀ t ∈ inner.reverse.takeWhile isComment, isComment t = true :=
    fun t ht => List.mem_takeWhile_imp ht
  cases hparts : inner.reverse.dropWhile isComment with
  | nil =>
    rw [hparts, List.append_nil] at hsplit
    rw [hsplit] at hcomments
    refine .inl ⟨fun t ht => hcomments t (List.mem_reverse.mpr ht), ?_⟩
    simp only [wrap, hparts, hsplit, List.reverse_reverse]
  | cons first others =>
    rw [hparts] at hsplit
    have hfirst := List.head?_dropWhile_not isComment inner.reverse
    rw [hparts] at hfirst
    cases inner with
    | nil => cases hparts
    | cons last inner =>
      refine .inr ⟨_, first, others, last, hsplit.symm, hcomments, hfirst, ?_, ?_⟩
      · have hend := congrArg List.getLast? hsplit
        rw [List.getLast?_append_of_ne_nil _ (List.cons_ne_nil _ _)] at hend
        rw [hend, List.getLast?_reverse]
        rfl
      · simp only [wrap, hparts]

/-- What a form has recorded behind nothing, before it becomes a node: its parts are laid out, and
nothing of a string can be seen where the node will begin. -/
structure Ripe (source : List Char) (loose : Bool) (e : Nat) (i : Input) (inner : List SpanTree) :
    Prop where
  laid : ∃ m e', Laid source loose e inner.reverse m ∧ Gap source false m e' ∧ Waits source e' i
  opening : ∀ before first after, inner.reverse = before ++ first :: after →
    (∀ t ∈ before, isComment t = true) → ∃ q, Laid source false e (before ++ [first]) q

theorem Neat.ripe (h : Neat source false e i inner) : Ripe source false e i inner := by
  refine ⟨h, fun before first after hsplit _ => ?_⟩
  obtain ⟨m, e', hinner, -⟩ := h
  rw [hsplit, List.append_cons] at hinner
  obtain ⟨q, hbefore, -⟩ := Laid.append_iff.mp hinner
  exact ⟨q, hbefore⟩

/-- The parts become a node, behind parts that go up to `m`. -/
theorem Ripe.wrap {name : String} (hname : name ∉ parenRules)
    (h : Ripe source (name == stringRule) e i inner) (hsolid : name = stringRule →
      ∃ t ∈ inner, isComment t = false) (hout : Laid source loose p out.reverse m)
    (hgap : Gap source loose m e) : Neat source loose p i (wrap name inner out) := by
  obtain ⟨⟨m', e', hinner, hbehind, hwaits⟩, hopening⟩ := h
  rcases wrap_split name inner out with
    ⟨hall, hwrap⟩ | ⟨comments, first, others, last, hsplit, hcomments, -, hlast, hwrap⟩
  · have hplain : (name == stringRule) = false := by
      rw [beq_eq_false_iff_ne]
      intro hstring
      obtain ⟨t, ht, hsolid⟩ := hsolid hstring
      rw [hall t ht] at hsolid
      cases hsolid
    rw [hplain] at hinner
    rw [hwrap]
    exact Neat.behind ⟨m', e', hinner, hbehind, hwaits⟩ hout hgap
  · rw [hwrap]
    rw [hsplit] at hinner
    obtain ⟨q, -, hparts⟩ := Laid.append_iff.mp hinner
    obtain ⟨q', hfront⟩ := hopening comments first others hsplit hcomments
    obtain ⟨q'', hbefore, hfirst⟩ := Laid.append_iff.mp hfront
    obtain ⟨hstart, -, -⟩ := Laid.singleton_iff.mp hfirst
    have hend : m' = last.stop := by
      obtain ⟨others', hothers⟩ := List.getLast?_eq_some_iff.mp hlast
      rw [hothers] at hparts
      exact hparts.stop_eq
    subst hend
    obtain ⟨rest, hat⟩ := hstart.at_right
    have hnode : Spells source (.mk name first.start last.stop (first :: others)) := by
      rw [Spells]
      refine ⟨hname, ?_⟩
      rw [Laid] at hparts ⊢
      exact ⟨.refl hat _, hparts.2⟩
    refine ⟨last.stop, e', ?_, hbehind.loosen loose, hwaits⟩
    rw [List.reverse_cons, List.reverse_append, List.reverse_reverse, List.append_assoc]
    refine Laid.append_iff.mpr ⟨m, hout, ?_⟩
    have hfrontNode : Laid source false e
        (comments ++ [.mk name first.start last.stop (first :: others)]) last.stop :=
      Laid.append_iff.mpr ⟨q'', hbefore, Laid.singleton_iff.mpr ⟨hstart, hnode, rfl⟩⟩
    exact (hfrontNode.loosen loose).after_gap hgap (by simp)

end Neat

end CallMigration.Grammar
