import CallMigration.Proofs.Layout

/-!
# Tidy forms

What a grammar reads is laid out over the source, if its forms are tidy: only inside of a string may a
token go unrecorded, a string begins and ends with a recorded token, and nothing but a parenthesis is
recorded as one.

* `Form.tidy` : what a form has to satisfy.
* `Form.tidied_of_runs` : reading a tidy form, by induction on the run.
* `Rule.tidy_form` : every rule of Java has a tidy form.
* `parse?_laid` : the spans of a unit are laid out over its source.
-/

namespace CallMigration.Grammar

/-! ## Tidy forms -/

namespace Form

variable {ρ : Type}

/-- A token that is recorded under no rule of a parenthesis, unless it is spelled like that. -/
def isLeaf (leaf : Option String) (lexeme : Lexeme) : Bool :=
  leaf.any fun rule => !parenRules.contains rule ||
    match lexeme with
    | .symbol s => s == rule
    | _ => false

def isSolid : Form ρ → Bool
  | token leaf lexeme _ => isLeaf leaf lexeme && leaf.any isPlain
  | _ => false

mutual
/-- Whether a form records all tokens, unless it is read where it is `loose`, and whether its strings
are framed. -/
@[simp]
def tidy (loose : Bool) : Form ρ → Bool
  | token leaf lexeme _ => isLeaf leaf lexeme || (loose && leaf.isNone)
  | number => true
  | rule _ => !loose
  | seq fs => tidyAll loose fs
  | alt fs => tidyAll loose fs
  | opt f => tidy loose f
  | many f => tidy loose f
  | node name f =>
    !parenRules.contains name && if name == stringRule then framed f else tidy false f
  | chain first tails => !loose && tidy false first && tidyTails tails
  | only _ f => tidy loose f
  | absent _ => true
  | present _ => true
@[simp]
def tidyAll (loose : Bool) : List (Form ρ) → Bool
  | [] => true
  | f :: fs => tidy loose f && tidyAll loose fs
@[simp]
def tidyTails : List (String × List String × Form ρ) → Bool
  | [] => true
  | (name, _, f) :: tails =>
    !parenRules.contains name && name != stringRule && tidy false f && tidyTails tails
/-- Whether a string begins and ends with a recorded token, whichever alternative is read. -/
@[simp]
def framed : Form ρ → Bool
  | alt fs => framedAll fs
  | seq fs => opens fs
  | _ => false
@[simp]
def framedAll : List (Form ρ) → Bool
  | [] => true
  | f :: fs => framed f && framedAll fs
@[simp]
def opens : List (Form ρ) → Bool
  | [] => false
  | f :: fs => isSolid f && closes fs
/-- Forms the last of which is a recorded token. -/
@[simp]
def closes : List (Form ρ) → Bool
  | [] => false
  | [f] => isSolid f
  | f :: fs => tidy true f && closes fs
end

/-- Forms the last of which is a recorded token. -/
def isClosing : Form ρ → Bool
  | seq fs => closes fs
  | _ => false

/-- What is known of the run of a form: it is laid out if the form is tidy, it can be made a string if the
form is framed, and what is open is closed if the form is closing. -/
structure Tidied (source : List Char) (f : Form ρ) (i : Input) (out : List SpanTree) (i' : Input)
    (out' : List SpanTree) : Prop where
  neat {loose : Bool} {p : Nat} : f.tidy loose = true → Neat source loose p i out →
    Neat source loose p i' out'
  ripe {e : Nat} : f.framed = true → out = [] → Waits source e i →
    Ripe source true e i' out' ∧ ∃ t ∈ out', isComment t = false
  closed {p : Nat} : f.isClosing = true → Neat source true p i out →
    ∃ m e, Laid source true p out'.reverse m ∧ Gap source false m e ∧ Waits source e i'

def ReadsTidied (source : List Char) :
    Task ρ → Input → List SpanTree → Input → List SpanTree → Prop
  | .form f, i, out, i', out' => Tidied source f i out i' out'
  | .tails all tails, i, left, i', left' => ∀ {p : Nat}, tidyTails all = true →
      tidyTails tails = true → Neat source false p i left → Neat source false p i' left'

section Steps

variable {source : List Char} {grammar : ρ → Form ρ} {f : Form ρ} {loose : Bool} {p e : Nat}
  {i i' : Input} {out out' inner : List SpanTree}

theorem Tidied.of_neat (hframed : f.framed = false) (hclosing : f.isClosing = false)
    (h : ∀ {loose : Bool} {p : Nat}, f.tidy loose = true → Neat source loose p i out →
      Neat source loose p i' out') : Tidied source f i out i' out' where
  neat := h
  ripe h := by
    rw [hframed] at h
    cases h
  closed h := by
    rw [hclosing] at h
    cases h

theorem suffix_take (i : Input) (leaf : Option String) (glued : Bool) (text rest : List Char)
    (out : List SpanTree) : out <:+ (i.take leaf glued text rest out).2 := by
  cases leaf with
  | none => exact List.suffix_append i.comments out
  | some rule => exact (List.suffix_append i.comments out).trans (List.suffix_cons _ _)

theorem suffix_wrap (rule : String) (inner out : List SpanTree) : out <:+ wrap rule inner out := by
  rcases wrap_split rule inner out with
    ⟨-, hwrap⟩ | ⟨comments, first, others, last, -, -, -, -, hwrap⟩
  · rw [hwrap]
    exact List.suffix_append inner out
  · rw [hwrap]
    exact (List.suffix_append _ _).trans (List.suffix_cons _ _)

theorem spelled_of_isLeaf {leaf : Option String} {lexeme : Lexeme} {text rest : List Char}
    {input : List Char} (hleaf : isLeaf leaf lexeme = true)
    (hscan : lexeme.scan input = some (text, rest)) :
    ∀ rule ∈ leaf, rule ∈ parenRules → text = rule.toList := by
  rintro rule ⟨⟩ hmem
  rw [isLeaf, Option.any_some, Bool.or_eq_true, Bool.not_eq_true', List.contains_eq_mem,
    decide_eq_false_iff_not] at hleaf
  have hleaf := hleaf.resolve_left (not_not_intro hmem)
  cases lexeme with
  | symbol s =>
    obtain rfl := beq_iff_eq.mp hleaf
    rw [Lexeme.scan] at hscan
    split at hscan
    next =>
      rw [Option.ite_none_left_eq_some] at hscan
      cases hscan.2
      rfl
    next => cases hscan
  | _ => cases hleaf

theorem neat_token {leaf : Option String} {lexeme : Lexeme} {glued : Bool} {text rest : List Char}
    (htidy : (token leaf lexeme glued : Form ρ).tidy loose = true) (h : Neat source loose p i out)
    (hscan : lexeme.scan i.rest = some (text, rest)) :
    Neat source loose p (i.take leaf glued text rest out).1 (i.take leaf glued text rest out).2 := by
  have hrest := Lexeme.eq_append_of_scan hscan
  rw [tidy, Bool.or_eq_true, Bool.and_eq_true] at htidy
  rcases htidy with hleaf | ⟨rfl, hnone⟩
  · refine h.take hrest (spelled_of_isLeaf hleaf hscan) fun hnone => ?_
    rw [hnone] at hleaf
    cases hleaf
  · cases Option.isNone_iff_eq_none.mp hnone
    exact h.take hrest nofun fun _ => rfl

theorem neat_number {name : String} {length : Nat} (h : Neat source loose p i out)
    (hnumber : numberAt? i.rest = some (name, length)) :
    Neat source loose p
      (i.take (some name) false (i.rest.take length) (i.rest.drop length) out).1
      (i.take (some name) false (i.rest.take length) (i.rest.drop length) out).2 := by
  have hnames : ∀ pair ∈ numbers, pair.1 ∉ parenRules := by decide
  obtain ⟨r, hmem, -⟩ := exists_mem_numbers hnumber
  refine h.take (List.take_append_drop _ _).symm ?_ nofun
  rintro rule ⟨⟩ hparen
  exact absurd hparen (hnames _ hmem)

theorem neat_node {name : String} (htidy : (node name f).tidy loose = true)
    (hinner : Tidied source f i [] i' inner) (h : Neat source loose p i out) :
    Neat source loose p i' (wrap name inner out) := by
  rw [tidy, Bool.and_eq_true, Bool.not_eq_true', List.contains_eq_mem,
    decide_eq_false_iff_not] at htidy
  obtain ⟨hname, hf⟩ := htidy
  obtain ⟨m, e, hout, hgap, hwaits⟩ := h
  split at hf
  next hstring =>
    obtain ⟨hripe, hsolid⟩ := hinner.ripe hf rfl hwaits
    rw [← hstring] at hripe
    exact hripe.wrap hname (fun _ => hsolid) hout hgap
  next hstring =>
    have hripe := (hinner.neat hf (.nil hwaits)).ripe
    rw [← Bool.eq_false_iff.mpr hstring] at hripe
    exact hripe.wrap hname (fun heq => absurd (beq_iff_eq.mpr heq) hstring) hout hgap

/-- A tail takes up the last part, in front of which the other parts stay. -/
theorem neat_tail {name : String} {last : SpanTree} {before : List SpanTree}
    (hname : name ∉ parenRules) (hstring : name ≠ stringRule) (hf : f.tidy false = true)
    (hinner : Tidied source f i [last] i' inner) (h : Neat source false p i (last :: before)) :
    Neat source false p i' (wrap name inner before) := by
  obtain ⟨m, e, hleft, hgap, hwaits⟩ := h
  rw [List.reverse_cons] at hleft
  obtain ⟨m', hbefore, hlast⟩ := Laid.append_iff.mp hleft
  obtain ⟨rest, hat⟩ := (Laid.singleton_iff.mp hlast).1.at_left
  have hripe := (hinner.neat hf ⟨m, e, hlast, hgap, hwaits⟩).ripe
  rw [← beq_eq_false_iff_ne.mpr hstring] at hripe
  exact hripe.wrap hname (fun heq => absurd heq hstring) hbefore (.refl hat false)

theorem suffix_of_runs (h : Runs grammar (.form f) i out i' out') : out <:+ out' := by
  generalize htask : Task.form f = task at h
  induction h generalizing f with
  | token => exact suffix_take _ _ _ _ _ _
  | number => exact suffix_take _ _ _ _ _ _
  | rule _ ih | alt_first _ ih | alt_rest _ ih | opt_some _ ih | only _ _ ih => exact ih rfl
  | seq_nil | opt_none | many_done | absent | present => exact List.suffix_rfl
  | seq_cons _ _ ihfirst ihrest | many_again _ _ ihfirst ihrest => exact (ihfirst rfl).trans (ihrest rfl)
  | node => exact suffix_wrap _ _ _
  | chain => exact List.suffix_append _ _
  | tails_done | tails_first | tails_rest => cases htask

theorem isSolid_iff {f : Form ρ} : f.isSolid = true ↔ ∃ rule lexeme glued,
    f = token (some rule) lexeme glued ∧ isLeaf (some rule) lexeme = true ∧ isPlain rule = true := by
  constructor
  · intro h
    cases f with
    | token leaf lexeme glued =>
      rw [isSolid, Bool.and_eq_true, Option.any_eq_true] at h
      obtain ⟨hleaf, rule, rfl, hplain⟩ := h
      exact ⟨rule, lexeme, glued, rfl, hleaf, hplain⟩
    | _ => cases h
  · rintro ⟨rule, lexeme, glued, rfl, hleaf, hplain⟩
    rw [isSolid, hleaf, Option.any_some, hplain]
    rfl

theorem solid_of_runs (hsolid : f.isSolid = true) (hat : At source i.offset i.rest)
    (h : Runs grammar (.form f) i out i' out') :
    ∃ t, isComment t = false ∧ Spells source t ∧ t.start = i.offset ∧
      out' = t :: (i.comments ++ out) ∧ Waits source t.stop i' := by
  obtain ⟨rule, lexeme, glued, rfl, hleaf, hplain⟩ := isSolid_iff.mp hsolid
  cases h with
  | token hscan =>
    have hrest := Lexeme.eq_append_of_scan hscan
    have hnext := Waits.behind hat hrest glued
    rw [hrest] at hat
    refine ⟨_, isComment_of_isPlain hplain _ _ _, ?_, rfl, rfl, hnext⟩
    rw [Spells]
    exact ⟨_, hat.between, spelled_of_isLeaf hleaf hscan rule rfl⟩

/-- Behind comments and a token that is none, only the comments are in front of the node. -/
theorem prefix_of_solid {comments before parts : List SpanTree} {t first : SpanTree}
    (ht : isComment t = false) (hbefore : ∀ u ∈ before, isComment u = true)
    (h : comments ++ [t] <+: parts) (h' : before ++ [first] <+: parts) :
    before ++ [first] <+: comments ++ [t] := by
  rcases List.prefix_or_prefix_of_prefix h h' with hle | hle
  · rcases List.prefix_concat_iff.mp hle with heq | hle
    · exact heq ▸ List.prefix_rfl
    · have hmem : t ∈ before := hle.subset (by simp)
      rw [hbefore t hmem] at ht
      cases ht
  · exact hle

theorem ripe_seq {fs : List (Form ρ)} {middle : Input} {between : List SpanTree}
    (hopens : opens (f :: fs) = true) (h : Waits source e i)
    (hfirst : Runs grammar (.form f) i [] middle between)
    (hrest : Runs grammar (.form (.seq fs)) middle between i' out')
    (htidied : Tidied source (seq fs) middle between i' out') :
    Ripe source true e i' out' ∧ ∃ t ∈ out', isComment t = false := by
  rw [opens, Bool.and_eq_true] at hopens
  obtain ⟨t, hsolid, ht, hstart, rfl, hwaits⟩ := solid_of_runs hopens.1 h.1 hfirst
  obtain ⟨rest, hstop⟩ := hwaits.start
  have hopening (loose : Bool) : Laid source loose e (t :: (i.comments ++ [])).reverse t.stop :=
    Neat.record (.nil h) ht hstart
  have hsuffix := suffix_of_runs hrest
  have hend := htidied.closed hopens.2
    ⟨t.stop, t.stop, hopening true, .refl hstop true, hwaits⟩
  refine ⟨⟨hend, fun before first after hsplit hcomments => ?_⟩, t,
    hsuffix.subset List.mem_cons_self, hsolid⟩
  have hprefix := List.reverse_prefix.mpr hsuffix
  rw [List.append_nil, List.reverse_cons] at hprefix
  have hfront := prefix_of_solid hsolid hcomments hprefix
    ⟨after, by rw [hsplit, List.append_assoc]; rfl⟩
  have hlaid := hopening false
  rw [List.append_nil, List.reverse_cons] at hlaid
  obtain ⟨others, hothers⟩ := hfront
  rw [← hothers] at hlaid
  obtain ⟨q, hlaid, -⟩ := Laid.append_iff.mp hlaid
  exact ⟨q, hlaid⟩

theorem closed_seq {fs : List (Form ρ)} {middle : Input} {between : List SpanTree}
    (hcloses : closes (f :: fs) = true) (h : Neat source true p i out)
    (hfirst : Runs grammar (.form f) i out middle between)
    (hrest : Runs grammar (.form (.seq fs)) middle between i' out')
    (hneat : Tidied source f i out middle between)
    (htidied : Tidied source (seq fs) middle between i' out') :
    ∃ m e, Laid source true p out'.reverse m ∧ Gap source false m e ∧ Waits source e i' := by
  cases fs with
  | nil =>
    rw [closes] at hcloses
    cases hrest
    obtain ⟨e, hat, -⟩ := h.waits
    obtain ⟨t, -, ht, hstart, rfl, hwaits⟩ := solid_of_runs hcloses hat hfirst
    obtain ⟨rest, hstop⟩ := hwaits.start
    exact ⟨t.stop, t.stop, h.record ht hstart, .refl hstop false, hwaits⟩
  | cons g fs =>
    rw [closes, Bool.and_eq_true] at hcloses
    · exact htidied.closed hcloses.2 (hneat.neat hcloses.1 h)
    · intro heq
      cases heq

end Steps

/-- **A tidy grammar lays out what it reads.** -/
theorem tidied_of_runs {source : List Char} {grammar : ρ → Form ρ}
    (hgrammar : ∀ r, (grammar r).tidy false = true) {task : Task ρ} {i i' : Input}
    {out out' : List SpanTree} (h : Runs grammar task i out i' out') :
    ReadsTidied source task i out i' out' := by
  induction h with
  | token hscan => exact .of_neat rfl rfl fun htidy h => neat_token htidy h hscan
  | number hnumber => exact .of_neat rfl rfl fun _ h => neat_number h hnumber
  | @rule r _ _ _ _ _ ih =>
    refine .of_neat rfl rfl fun htidy h => ?_
    rw [tidy, Bool.not_eq_true'] at htidy
    subst htidy
    exact ih.neat (hgrammar r) h
  | seq_nil | opt_none | many_done | absent | present => exact .of_neat rfl rfl fun _ h => h
  | seq_cons hfirst hrest ihfirst ihrest =>
    refine ⟨fun htidy h => ?_, fun hframed hout h => ?_, fun hcloses h => ?_⟩
    · rw [tidy, tidyAll, Bool.and_eq_true] at htidy
      exact ihrest.neat (by rw [tidy]; exact htidy.2) (ihfirst.neat htidy.1 h)
    · subst hout
      exact ripe_seq hframed h hfirst hrest ihrest
    · exact closed_seq hcloses h hfirst hrest ihfirst ihrest
  | alt_first _ ih =>
    refine ⟨fun htidy h => ?_, fun hframed hout h => ?_, nofun⟩
    · rw [tidy, tidyAll, Bool.and_eq_true] at htidy
      exact ih.neat htidy.1 h
    · rw [framed, framedAll, Bool.and_eq_true] at hframed
      exact ih.ripe hframed.1 hout h
  | alt_rest _ ih =>
    refine ⟨fun htidy h => ?_, fun hframed hout h => ?_, nofun⟩
    · rw [tidy, tidyAll, Bool.and_eq_true] at htidy
      exact ih.neat (by rw [tidy]; exact htidy.2) h
    · rw [framed, framedAll, Bool.and_eq_true] at hframed
      exact ih.ripe (by rw [framed]; exact hframed.2) hout h
  | opt_some _ ih => exact .of_neat rfl rfl fun htidy h => ih.neat htidy h
  | many_again _ _ ihfirst ihrest =>
    exact .of_neat rfl rfl fun htidy h => ihrest.neat htidy (ihfirst.neat htidy h)
  | node _ ih => exact .of_neat rfl rfl fun htidy h => neat_node htidy ih h
  | chain _ _ ihfirst ihtails =>
    refine .of_neat rfl rfl fun htidy h => ?_
    rw [tidy, Bool.and_eq_true, Bool.and_eq_true] at htidy
    obtain ⟨⟨-, hfirst⟩, htails⟩ := htidy
    obtain ⟨m, e, hout, hgap, hwaits⟩ := h
    exact (ihtails htails htails (ihfirst.neat hfirst (.nil hwaits))).behind hout hgap
  | only _ _ ih => exact .of_neat rfl rfl fun htidy h => ih.neat htidy h
  | tails_done => exact fun _ _ h => h
  | tails_first _ _ _ ihinner ihrest =>
    intro p hall htails h
    simp only [tidyTails, Bool.and_eq_true, Bool.not_eq_true', List.contains_eq_mem,
      decide_eq_false_iff_not, bne_iff_ne] at htails
    obtain ⟨⟨⟨hname, hstring⟩, hf⟩, -⟩ := htails
    exact ihrest hall hall (neat_tail hname hstring hf ihinner h)
  | tails_rest _ ih =>
    intro p hall htails h
    rw [tidyTails, Bool.and_eq_true] at htails
    exact ih hall htails.2 h

end Form

/-! ## The grammar of Java -/

namespace Rule

open Form

theorem tidyTails_iff {ρ : Type} {tails : List (String × List String × Form ρ)} :
    tidyTails tails = true ↔ ∀ tail ∈ tails,
      (!parenRules.contains tail.1 && tail.1 != stringRule && tail.2.2.tidy false) = true := by
  induction tails with
  | nil => exact iff_of_true rfl nofun
  | cons tail tails ih =>
    obtain ⟨name, rules, f⟩ := tail
    rw [tidyTails, Bool.and_eq_true, ih, List.forall_mem_cons]

theorem tidyTails_operatorTails (least : Nat) (lambda : Bool) :
    tidyTails (operatorTails least lambda) = true := by
  have hbinary : ∀ pair ∈ binaryOperators, (symbol pair.1).tidy false = true := by decide
  rw [tidyTails_iff]
  intro tail htail
  simp only [operatorTails, List.mem_append] at htail
  rcases htail with ((htail | htail) | htail) | htail
  · obtain ⟨⟨op, strength⟩, hmem, rfl⟩ := List.mem_map.mp htail
    have hsymbol := hbinary _ (List.mem_filter.mp hmem).1
    have hseq : Form.tidy false (.seq [symbol op, .rule (.expression (strength + 1) lambda)]) =
        true := by
      rw [tidy, tidyAll, hsymbol]
      rfl
    rw [hseq]
    rfl
  · split at htail
    next =>
      rw [List.mem_singleton.mp htail]
      decide
    next => cases htail
  · split at htail
    next =>
      rw [List.mem_singleton.mp htail]
      rfl
    next => cases htail
  · split at htail
    next =>
      rw [List.mem_singleton.mp htail]
      decide
    next => cases htail

theorem tidy_form (r : Rule) : r.form.tidy false = true := by
  cases r with
  | name => decide +kernel
  | annotationUse => decide +kernel
  | type except => rfl
  | plainType except => rfl
  | simpleType except => rfl
  | typeArguments => decide +kernel
  | expression least lambda =>
    change (Form.chain (.rule (.operand lambda)) (operatorTails least lambda)).tidy false = true
    rw [tidy, tidyTails_operatorTails]
    rfl
  | operand lambda => cases lambda <;> decide +kernel
  | primary => decide +kernel
  | string => decide +kernel
  | arguments => decide +kernel
  | switch => decide +kernel
  | arrayInitializer => decide +kernel
  | elementValue => decide +kernel
  | recordPattern => decide +kernel
  | parameters => decide +kernel
  | typeParameters => decide +kernel
  | modifiers => decide +kernel
  | block => decide +kernel
  | statement => decide +kernel
  | classBody => decide +kernel
  | typeDeclaration => decide +kernel

end Rule

/-- In front of a source there is at most a byte order mark. -/
theorem exists_waits_ofSource (source : List Char) :
    ∃ e, Gap source true 0 e ∧ Waits source e (Input.ofSource source) := by
  have hstart : At source 0 source := ⟨[], rfl, rfl⟩
  have hnone {e : Nat} {rest : List Char} (h : At source e rest) :
      Waits source e ⟨rest, e, []⟩ :=
    ⟨h, e, by rw [List.reverse_nil, Laid], .refl h false⟩
  unfold Input.ofSource
  split
  next c s =>
    split
    next =>
      have hone : At (c :: s) 0 ([c] ++ s) := hstart
      have hbytes : 0 + byteCount [c] = c.utf8Size := by simp [byteCount]
      have hbehind := hone.behind
      have hbetween := hone.between
      rw [hbytes] at hbehind hbetween
      exact ⟨c.utf8Size, ⟨[c], hbetween, fun hloose => by cases hloose⟩, (hnone hbehind).skip _⟩
    next => exact ⟨0, .refl hstart true, (hnone hstart).skip _⟩
  next => exact ⟨0, .refl hstart true, hnone hstart⟩

/-- **The spans of a unit are laid out over its source.** -/
theorem parse?_laid {source : String} {root : SpanTree} (h : parse? source = some root) :
    root.rule = "program" ∧ ∃ q, Laid source.toList true 0 root.children q := by
  have hprogram : Rule.program.tidy false = true := by decide +kernel
  obtain ⟨i, out, hruns, -, rfl⟩ := exists_runs_of_parse? h
  obtain ⟨e, hgap, hwaits⟩ := exists_waits_ofSource source.toList
  have hneat := (Form.tidied_of_runs Rule.tidy_form hruns).neat hprogram (.nil hwaits)
  obtain ⟨q, hlaid, -⟩ := hneat.flush
  refine ⟨rfl, ?_⟩
  by_cases hne : (i.comments ++ out).reverse = []
  · exact ⟨0, by rw [SpanTree.children, hne, Laid]⟩
  · exact ⟨q, (hlaid.loosen true).after_gap hgap hne⟩

end CallMigration.Grammar
