import CallMigration.Proofs.Reading
import CallMigration.Proofs.Runs
import Mathlib.Data.List.TakeWhile

/-!
# Reading with a checked grammar

However a grammar groups what it reads, the leaves it records are stretches of the source, one behind
the other. That takes no more of its forms than `Form.check` looks at: tokens that stand for something,
names of rules that make no comments, and no unrecorded token where a comment may be waiting to be
recorded.

* `Reads` : what is read and recorded between two places of the source.
* `Reads.token`, `Reads.skip`, `Reads.wrap`, `Reads.behind` : the steps of a reader.
* `Form.check` : what a form has to satisfy.
* `Form.reads_of_runs` : reading a checked form, by induction on the run.
* `Rule.isSome_check_form` : every rule of Java has a checked form.
* `parse?_reads` : the leaves of a unit are the recorded stretches of its source.
-/

namespace CallMigration.Grammar

open SpanTree Stretch

/-! ## What is read and recorded -/

/-- The leaves that are recorded up to a place of the source. -/
def leavesAt (i : Input) (out : List SpanTree) : List SpanTree :=
  leavesOf out.reverse ++ leavesOf i.comments.reverse

theorem leavesAt_append (i : Input) (out before : List SpanTree) :
    leavesAt i (out ++ before) = leavesOf before.reverse ++ leavesAt i out := by
  rw [leavesAt, leavesAt, List.reverse_append, leavesOf_append, List.append_assoc]

theorem leavesOf_leavesFrom (offset : Nat) (ss : List Stretch) :
    leavesOf (leavesFrom offset ss) = leavesFrom offset ss := by
  induction ss generalizing offset with
  | nil => rfl
  | cons s ss ih =>
    rw [leavesFrom]
    cases s.rule with
    | none => exact ih _
    | some rule => exact congrArg _ (ih _)

/-- The parts are trimmed, and the last one is no comment; the output has it first. -/
structure Sound (i : Input) (out : List SpanTree) : Prop where
  noted : Noted i.comments
  trimmed : ∀ t ∈ out, Trimmed t
  last : ∀ t ∈ out.head?, isComment t = false

theorem Sound.nil {i : Input} (h : Noted i.comments) : Sound i [] :=
  ⟨h, fun _ ht => absurd ht List.not_mem_nil, fun _ ht => absurd ht (Option.not_mem_none _)⟩

/-- What is read between two places, and recorded behind what has been recorded before. -/
structure Reads (i : Input) (out : List SpanTree) (i' : Input) (out' : List SpanTree) : Prop where
  stretches : ∃ ss, Covers i ss i' ∧ LinesTo (Stuck i.rest) ss (Stuck i'.rest) ∧
    leavesAt i' out' = leavesAt i out ++ leavesFrom i.offset ss
  sound : Sound i out → Sound i' out'
  nonempty : out ≠ [] → out' ≠ []

theorem Noted.trimmed {comments : List SpanTree} (h : Noted comments) :
    ∀ t ∈ comments, Trimmed t := by
  intro t ht
  obtain ⟨hcomment, hchildren⟩ := h t ht
  obtain ⟨rule, start, stop, children⟩ := t
  cases hchildren
  exact .leaf (.inl hcomment)

/-- A node takes up the parts behind the comments, which stay in front of it. -/
theorem wrap_cases (rule : String) {inner : List SpanTree} (out : List SpanTree)
    (hlast : ∀ t ∈ inner.head?, isComment t = false) :
    (inner = [] ∧ wrap rule inner out = out) ∨
    ∃ comments first others last, inner.reverse = comments ++ first :: others ∧
      isComment first = false ∧ (first :: others).getLast? = some last ∧ isComment last = false ∧
      wrap rule inner out =
        .mk rule first.start last.stop (first :: others) :: (comments.reverse ++ out) := by
  cases inner with
  | nil => exact .inl ⟨rfl, rfl⟩
  | cons last inner =>
    right
    have hplain : isComment last = false := hlast last rfl
    have hsplit := List.takeWhile_append_dropWhile (p := isComment) (l := (last :: inner).reverse)
    cases hparts : (last :: inner).reverse.dropWhile isComment with
    | nil =>
      have hall := List.dropWhile_eq_nil_iff.mp hparts last (by simp)
      rw [hplain] at hall
      cases hall
    | cons first others =>
      rw [hparts] at hsplit
      have hfirst := List.head?_dropWhile_not isComment (last :: inner).reverse
      rw [hparts] at hfirst
      refine ⟨_, first, others, last, hsplit.symm, hfirst, ?_, hplain, ?_⟩
      · have hend := congrArg List.getLast? hsplit
        rw [List.getLast?_append_of_ne_nil _ (List.cons_ne_nil _ _)] at hend
        rw [hend, List.getLast?_reverse]
        rfl
      · simp only [wrap, hparts]

namespace Reads

variable {i i' i'' : Input} {out out' out'' before inner inner' : List SpanTree}

theorem refl (i : Input) (out : List SpanTree) : Reads i out i out where
  stretches := ⟨[], .refl i, .refl id, (List.append_nil _).symm⟩
  sound := id
  nonempty := id

theorem trans (h : Reads i out i' out') (h' : Reads i' out' i'' out'') : Reads i out i'' out'' where
  stretches := by
    obtain ⟨as, hcovers, hlines, hleaves⟩ := h.stretches
    obtain ⟨bs, hcovers', hlines', hleaves'⟩ := h'.stretches
    refine ⟨as ++ bs, hcovers.trans hcovers', hlines.trans hlines', ?_⟩
    rw [hleaves', hleaves, hcovers.offset, leavesFrom_append, List.append_assoc]
  sound := fun hsound => h'.sound (h.sound hsound)
  nonempty := fun hne => h'.nonempty (h.nonempty hne)

theorem behind (h : Reads i [] i' inner) : Reads i out i' (inner ++ out) where
  stretches := by
    obtain ⟨ss, hcovers, hlines, hleaves⟩ := h.stretches
    refine ⟨ss, hcovers, hlines, ?_⟩
    have hstart : leavesAt i out = leavesOf out.reverse ++ leavesAt i [] :=
      leavesAt_append i [] out
    rw [leavesAt_append, hleaves, hstart, List.append_assoc]
  sound := by
    intro hsound
    have hinner := h.sound (.nil hsound.noted)
    refine ⟨hinner.noted, ?_, ?_⟩
    · intro t ht
      rcases List.mem_append.mp ht with ht | ht
      · exact hinner.trimmed t ht
      · exact hsound.trimmed t ht
    · cases inner with
      | nil => exact hsound.last
      | cons last inner => exact hinner.last
  nonempty := fun hne => List.append_ne_nil_of_right_ne_nil _ hne

/-- What is read behind some parts can be wrapped together with them. -/
theorem wrap {name : String} (hplain : isPlain name = true) (h : Reads i inner i' inner')
    (hsound : Sound i (inner ++ before)) :
    Reads i (inner ++ before) i' (wrap name inner' before) := by
  have hinner : Sound i' inner' := by
    apply h.sound
    refine ⟨hsound.noted, fun t ht => hsound.trimmed t (List.mem_append_left _ ht), ?_⟩
    cases inner with
    | nil => exact nofun
    | cons last inner => exact hsound.last
  obtain ⟨ss, hcovers, hlines, hleaves⟩ := h.stretches
  rcases wrap_cases name before hinner.last with
    ⟨rfl, hwrap⟩ | ⟨comments, first, others, last, hparts, hfirst, hend, hlast, hwrap⟩
  · -- Nothing has been read behind nothing, so there is no node.
    have hnil : inner = [] := by
      by_contra hne
      exact h.nonempty hne rfl
    subst hnil
    rw [hwrap]
    exact h.behind
  · rw [hwrap]
    have hsame : leavesOf (.mk name first.start last.stop (first :: others) ::
        (comments.reverse ++ before)).reverse = leavesOf (inner' ++ before).reverse := by
      rw [List.reverse_cons, List.reverse_append, List.reverse_reverse, List.reverse_append, hparts]
      simp only [leavesOf_append, leavesOf_singleton, leaves, List.append_assoc]
    have hmem : ∀ t ∈ comments ++ first :: others, Trimmed t := by
      intro t ht
      rw [← hparts, List.mem_reverse] at ht
      exact hinner.trimmed t ht
    refine ⟨⟨ss, hcovers, hlines, ?_⟩, fun _ => ⟨hinner.noted, ?_, ?_⟩, fun _ => List.cons_ne_nil _ _⟩
    · rw [leavesAt, hsame, ← leavesAt, leavesAt_append, leavesAt_append, hleaves, List.append_assoc]
    · intro t ht
      rcases List.mem_cons.mp ht with rfl | ht
      · exact .node hplain hfirst hend hlast fun t ht => hmem t (List.mem_append_right _ ht)
      · rcases List.mem_append.mp ht with ht | ht
        · exact hmem t (List.mem_append_left _ (List.mem_reverse.mp ht))
        · exact hsound.trimmed t (List.mem_append_right _ ht)
    · intro t ht
      cases ht
      exact isComment_of_isPlain hplain _ _ _

theorem skip {ss : List Stretch} (h : Skips i ss i') : Reads i out i' out where
  stretches := by
    refine ⟨ss, h.toCovers, h.lines.mono fun hstuck c hc => .inl (hstuck c hc), ?_⟩
    rw [leavesAt, leavesAt, h.comments, leavesOf_append, leavesOf_leavesFrom, List.append_assoc]
  sound := fun hsound => ⟨h.noted hsound.noted, hsound.trimmed, hsound.last⟩
  nonempty := id

/-- A token is read, and recorded behind the comments in front of it. A token that is not recorded has
no comments in front of it. -/
theorem token {leaf : Option String} {text rest : List Char} (hrest : i.rest = text ++ rest)
    (hstuck : ¬ Stuck i.rest) (hplain : ∀ rule ∈ leaf, isPlain rule = true)
    (hleaf : leaf = none → i.comments = []) :
    Reads i out ⟨rest, i.offset + byteCount text, []⟩ (i.take leaf true text rest out).2 := by
  have hlines : LinesTo (Stuck i.rest) [⟨leaf, text⟩] (Stuck rest) := by
    intro isOpen hopen
    cases isOpen with
    | true => exact absurd (hopen rfl) hstuck
    | false =>
      refine ⟨false, ?_, fun h => absurd h Bool.false_ne_true⟩
      rw [List.map_singleton, lineAfter_cons]
      cases leaf with
      | none => rw [Stretch.token, lineStep_blank]; rfl
      | some rule =>
        have htrivia := isTrivia_ofRule (hplain rule rfl) true
        rw [lineStep_significant htrivia]
        rfl
  refine ⟨⟨_, .single [] hrest, hlines, ?_⟩, fun hsound => ⟨.nil, ?_, ?_⟩, ?_⟩
  · cases leaf with
    | none =>
      simp [Input.take, leavesAt, leavesFrom, hleaf rfl, leavesOf]
    | some rule =>
      simp [Input.take, leavesAt, leavesFrom, leavesOf_append, leavesOf, leaves]
  · intro t ht
    have hcomments := hsound.noted.trimmed
    cases leaf with
    | none =>
      rcases List.mem_append.mp ht with ht | ht
      · exact hcomments t ht
      · exact hsound.trimmed t ht
    | some rule =>
      rcases List.mem_cons.mp ht with rfl | ht
      · exact .leaf (.inr (hplain rule rfl))
      · rcases List.mem_append.mp ht with ht | ht
        · exact hcomments t ht
        · exact hsound.trimmed t ht
  · cases leaf with
    | none =>
      simp only [Input.take, hleaf rfl, List.nil_append]
      exact hsound.last
    | some rule =>
      intro t ht
      cases ht
      exact isComment_of_isPlain (hplain rule rfl) _ _ _
  · intro hne
    cases leaf with
    | none => exact List.append_ne_nil_of_right_ne_nil _ hne
    | some rule => exact List.cons_ne_nil _ _

theorem take {leaf : Option String} {glued : Bool} {text rest : List Char}
    (hrest : i.rest = text ++ rest) (hstuck : ¬ Stuck i.rest)
    (hplain : ∀ rule ∈ leaf, isPlain rule = true) (hleaf : leaf = none → i.comments = []) :
    Reads i out (i.take leaf glued text rest out).1 (i.take leaf glued text rest out).2 := by
  have htoken := @token i out leaf text rest hrest hstuck hplain hleaf
  cases glued with
  | true => exact htoken
  | false =>
    obtain ⟨ss, hss⟩ := Input.exists_skips_trivia ⟨rest, i.offset + byteCount text, []⟩
    exact htoken.trans (.skip hss)

end Reads

/-! ## Checking forms -/

namespace Form

variable {ρ : Type}

mutual
/-- Whether no comments are waiting to be recorded behind a form, if none are waiting in front of it
where `clear` says so. There is no answer if the form has a token that may be empty or begin with a
null character, a rule that makes comments, or an unrecorded token where comments may be waiting. -/
@[simp]
def check (clear : Bool) : Form ρ → Option Bool
  | token leaf lexeme glued =>
    if lexeme.isVisible && (leaf.map isPlain).getD clear then some glued else none
  | number => some false
  | rule _ => some false
  | seq fs => checkSeq clear fs
  | alt fs => checkAlt clear fs
  | opt f => (check clear f).map (· && clear)
  | many f =>
    if clear && check true f == some true then some true else (check false f).map fun _ => false
  | node name f => if isPlain name then check clear f else none
  | chain first tails =>
    if (check clear first).isSome && checkTails tails then some false else none
  | only _ f => check clear f
  | absent _ => some clear
  | present _ => some clear
@[simp]
def checkSeq (clear : Bool) : List (Form ρ) → Option Bool
  | [] => some clear
  | f :: fs => (check clear f).bind fun c => checkSeq c fs
@[simp]
def checkAlt (clear : Bool) : List (Form ρ) → Option Bool
  | [] => some true
  | f :: fs => (check clear f).bind fun c => (checkAlt clear fs).map (c && ·)
@[simp]
def checkTails : List (String × List String × Form ρ) → Bool
  | [] => true
  | (name, _, f) :: tails => isPlain name && (check false f).isSome && checkTails tails
end

/-- What a checked form reads; no comments are waiting behind it where the check says so. -/
structure Checked (i : Input) (out : List SpanTree) (clear : Bool) (i' : Input)
    (out' : List SpanTree) : Prop extends Reads i out i' out' where
  comments : clear = true → i'.comments = []

def ReadsChecked : Task ρ → Input → List SpanTree → Input → List SpanTree → Prop
  | .form f, i, out, i', out' => ∀ {clear clear' : Bool}, f.check clear = some clear' →
      (clear = true → i.comments = []) → Sound i out → Checked i out clear' i' out'
  | .tails all tails, i, left, i', left' =>
      checkTails all = true → checkTails tails = true → Sound i left → Reads i left i' left'

section Steps

variable {grammar : ρ → Form ρ} {clear clear' : Bool} {i i' : Input} {out out' : List SpanTree}

theorem Checked.mono (h : Checked i out clear i' out') (himp : clear' = true → clear = true) :
    Checked i out clear' i' out' :=
  ⟨h.toReads, fun hclear => h.comments (himp hclear)⟩

theorem Checked.trans {middle : Input} {between : List SpanTree}
    (h : Reads i out middle between) (h' : Checked middle between clear i' out') :
    Checked i out clear i' out' :=
  ⟨Reads.trans h h'.toReads, h'.comments⟩

theorem checked_token {leaf : Option String} {lexeme : Lexeme} {glued : Bool} {text rest : List Char}
    (hcheck : (token leaf lexeme glued : Form ρ).check clear = some clear')
    (hclear : clear = true → i.comments = []) (hscan : lexeme.scan i.rest = some (text, rest)) :
    Checked i out clear' (i.take leaf glued text rest out).1 (i.take leaf glued text rest out).2 := by
  rw [check, Option.ite_none_right_eq_some, Bool.and_eq_true] at hcheck
  obtain ⟨⟨hvisible, hleaf⟩, hglued⟩ := hcheck
  obtain rfl : glued = clear' := Option.some.inj hglued
  refine ⟨.take (Lexeme.eq_append_of_scan hscan) (Lexeme.not_stuck_of_scan hvisible hscan) ?_ ?_, ?_⟩
  · rintro rule rfl
    exact hleaf
  · rintro rfl
    exact hclear hleaf
  · rintro rfl
    rfl

theorem reads_number {name : String} {length : Nat} (h : numberAt? i.rest = some (name, length)) :
    Reads i out (i.take (some name) false (i.rest.take length) (i.rest.drop length) out).1
      (i.take (some name) false (i.rest.take length) (i.rest.drop length) out).2 := by
  obtain ⟨hplain, hstuck⟩ := number_of_numberAt? h
  refine .take (List.take_append_drop _ _).symm hstuck ?_ nofun
  rintro rule hrule
  cases hrule
  exact hplain

theorem check_alt_cons {f : Form ρ} {fs : List (Form ρ)}
    (h : (alt (f :: fs)).check clear = some clear') :
    ∃ c c', f.check clear = some c ∧ (alt fs).check clear = some c' ∧ (c && c') = clear' := by
  rw [check, checkAlt] at h
  obtain ⟨c, hf, hrest⟩ := Option.bind_eq_some_iff.mp h
  obtain ⟨c', hfs, hboth⟩ := Option.map_eq_some_iff.mp hrest
  exact ⟨c, c', hf, by rw [check, hfs], hboth⟩

/-- Either no comments are waiting in front of any round, or they may be in front of each. -/
theorem check_many {f : Form ρ} (h : (many f).check clear = some clear') :
    (clear' = true → clear = true) ∧ (many f).check clear' = some clear' ∧
      ∃ c, f.check clear' = some c ∧ (clear' = true → c = true) := by
  rw [check] at h
  by_cases hround : (clear && check true f == some true) = true
  · rw [if_pos hround] at h
    cases h
    obtain ⟨hclear, hf⟩ := Bool.and_eq_true_iff.mp hround
    refine ⟨fun _ => hclear, ?_, true, beq_iff_eq.mp hf, id⟩
    rw [check, if_pos (Bool.and_eq_true_iff.mpr ⟨rfl, hf⟩)]
  · rw [if_neg hround] at h
    obtain ⟨c, hf, hfalse⟩ := Option.map_eq_some_iff.mp h
    cases hfalse
    refine ⟨nofun, ?_, c, hf, nofun⟩
    rw [check, Bool.false_and, if_neg Bool.false_ne_true, hf]
    rfl

/-- A tail takes up the last part, in front of which the other parts stay. -/
theorem reads_tail {name : String} {last : SpanTree} {before inner : List SpanTree}
    (hplain : isPlain name = true) (hsound : Sound i (last :: before))
    (h : Sound i [last] → Reads i [last] i' inner) :
    Reads i (last :: before) i' (wrap name inner before) := by
  have hlast : Sound i [last] := by
    refine ⟨hsound.noted, fun t ht => ?_, hsound.last⟩
    rw [List.mem_singleton.mp ht]
    exact hsound.trimmed last List.mem_cons_self
  exact (h hlast).wrap hplain hsound

end Steps

/-- **A checked grammar reads its source stretch by stretch.** -/
theorem reads_of_runs {grammar : ρ → Form ρ}
    (hgrammar : ∀ r, ((grammar r).check false).isSome = true) {task : Task ρ} {i i' : Input}
    {out out' : List SpanTree} (h : Runs grammar task i out i' out') :
    ReadsChecked task i out i' out' := by
  induction h with
  | token hscan => exact fun hcheck hclear _ => checked_token hcheck hclear hscan
  | number hnumber =>
    intro clear clear' hcheck _ _
    cases hcheck
    exact ⟨reads_number hnumber, nofun⟩
  | @rule r _ _ _ _ _ ih =>
    intro clear clear' hcheck _ hsound
    obtain ⟨c, hr⟩ := Option.isSome_iff_exists.mp (hgrammar r)
    cases hcheck
    exact (ih hr nofun hsound).mono nofun
  | @seq_nil i out =>
    intro clear clear' hcheck hclear _
    cases hcheck
    exact ⟨.refl i out, hclear⟩
  | seq_cons _ _ ihfirst ihrest =>
    intro clear clear' hcheck hclear hsound
    rw [check, checkSeq] at hcheck
    obtain ⟨c, hf, hfs⟩ := Option.bind_eq_some_iff.mp hcheck
    have hfirst := ihfirst hf hclear hsound
    exact .trans hfirst.toReads
      (ihrest (by rw [check, hfs]) hfirst.comments (hfirst.sound hsound))
  | alt_first _ ih =>
    intro clear clear' hcheck hclear hsound
    obtain ⟨c, c', hf, -, rfl⟩ := check_alt_cons hcheck
    exact (ih hf hclear hsound).mono fun hand => (Bool.and_eq_true_iff.mp hand).1
  | alt_rest _ ih =>
    intro clear clear' hcheck hclear hsound
    obtain ⟨c, c', -, hfs, rfl⟩ := check_alt_cons hcheck
    exact (ih hfs hclear hsound).mono fun hand => (Bool.and_eq_true_iff.mp hand).2
  | opt_some _ ih =>
    intro clear clear' hcheck hclear hsound
    rw [check] at hcheck
    obtain ⟨c, hf, rfl⟩ := Option.map_eq_some_iff.mp hcheck
    exact (ih hf hclear hsound).mono fun hand => (Bool.and_eq_true_iff.mp hand).1
  | @opt_none f i out =>
    intro clear clear' hcheck hclear _
    rw [check] at hcheck
    obtain ⟨c, -, rfl⟩ := Option.map_eq_some_iff.mp hcheck
    exact ⟨.refl i out, fun hand => hclear (Bool.and_eq_true_iff.mp hand).2⟩
  | many_again _ _ ihfirst ihrest =>
    intro clear clear' hcheck hclear hsound
    obtain ⟨hround, hagain, c, hf, hc⟩ := check_many hcheck
    have hfirst := ihfirst hf (fun h => hclear (hround h)) hsound
    exact .trans hfirst.toReads
      (ihrest hagain (fun h => hfirst.comments (hc h)) (hfirst.sound hsound))
  | @many_done f i out =>
    intro clear clear' hcheck hclear _
    exact ⟨.refl i out, fun h => hclear ((check_many hcheck).1 h)⟩
  | node _ ih =>
    intro clear clear' hcheck hclear hsound
    rw [check, Option.ite_none_right_eq_some] at hcheck
    have hinner := ih hcheck.2 hclear (.nil hsound.noted)
    exact ⟨Reads.wrap hcheck.1 hinner.toReads hsound, hinner.comments⟩
  | chain _ _ ihfirst ihtails =>
    intro clear clear' hcheck hclear hsound
    rw [check, Option.ite_none_right_eq_some, Bool.and_eq_true] at hcheck
    obtain ⟨⟨hfirst, htails⟩, hfalse⟩ := hcheck
    cases hfalse
    obtain ⟨c, hfirst⟩ := Option.isSome_iff_exists.mp hfirst
    have hempty : Sound _ [] := .nil hsound.noted
    have hleft := ihfirst hfirst hclear hempty
    have hrest := ihtails htails htails (hleft.sound hempty)
    exact ⟨(hleft.toReads.trans hrest).behind, nofun⟩
  | only _ _ ih => exact fun hcheck hclear hsound => ih hcheck hclear hsound
  | @absent _ i out | @present _ i out =>
    intro clear clear' hcheck hclear _
    cases hcheck
    exact ⟨.refl i out, hclear⟩
  | @tails_done _ _ i left => exact fun _ _ _ => .refl i left
  | tails_first _ _ _ ihinner ihrest =>
    intro hall htails hsound
    rw [checkTails, Bool.and_eq_true, Bool.and_eq_true] at htails
    obtain ⟨⟨hplain, hf⟩, -⟩ := htails
    obtain ⟨c, hf⟩ := Option.isSome_iff_exists.mp hf
    have hwrap := reads_tail hplain hsound fun hlast => (ihinner hf nofun hlast).toReads
    exact hwrap.trans (ihrest hall hall (hwrap.sound hsound))
  | tails_rest _ ih =>
    intro hall htails hsound
    rw [checkTails, Bool.and_eq_true] at htails
    exact ih hall htails.2 hsound

end Form

/-! ## The grammar of Java -/

namespace Rule

open Form

theorem checkTails_iff {ρ : Type} {tails : List (String × List String × Form ρ)} :
    checkTails tails = true ↔
      ∀ tail ∈ tails, (isPlain tail.1 && (tail.2.2.check false).isSome) = true := by
  induction tails with
  | nil => exact iff_of_true rfl nofun
  | cons tail tails ih =>
    obtain ⟨name, rules, f⟩ := tail
    rw [checkTails, Bool.and_eq_true, ih, List.forall_mem_cons]

theorem checkTails_operatorTails (least : Nat) (lambda : Bool) :
    checkTails (operatorTails least lambda) = true := by
  have hbinary : ∀ pair ∈ binaryOperators, ((symbol pair.1).check false).isSome = true := by decide
  rw [checkTails_iff]
  intro tail htail
  simp only [operatorTails, List.mem_append] at htail
  rcases htail with ((htail | htail) | htail) | htail
  · obtain ⟨⟨op, strength⟩, hmem, rfl⟩ := List.mem_map.mp htail
    obtain ⟨c, hsymbol⟩ := Option.isSome_iff_exists.mp (hbinary _ (List.mem_filter.mp hmem).1)
    have hseq : Form.check false (.seq [symbol op, .rule (.expression (strength + 1) lambda)]) =
        some false := by
      rw [check, checkSeq, hsymbol]
      rfl
    rw [hseq]
    rfl
  · split at htail
    next =>
      rw [List.mem_singleton.mp htail]
      decide
    next => cases htail
  · split at htail
    next =>
      rw [List.mem_singleton.mp htail]
      rfl
    next => cases htail
  · split at htail
    next =>
      rw [List.mem_singleton.mp htail]
      decide
    next => cases htail

theorem isSome_check_form (r : Rule) : (r.form.check false).isSome = true := by
  cases r with
  | name => decide +kernel
  | annotationUse => decide +kernel
  | type except => rfl
  | plainType except => rfl
  | simpleType except => rfl
  | typeArguments => decide +kernel
  | expression least lambda =>
    change ((Form.chain (.rule (.operand lambda)) (operatorTails least lambda)).check
      false).isSome = true
    rw [check, checkTails_operatorTails]
    rfl
  | operand lambda => cases lambda <;> decide +kernel
  | primary => decide +kernel
  | string => decide +kernel
  | arguments => decide +kernel
  | switch => decide +kernel
  | arrayInitializer => decide +kernel
  | elementValue => decide +kernel
  | recordPattern => decide +kernel
  | parameters => decide +kernel
  | typeParameters => decide +kernel
  | modifiers => decide +kernel
  | block => decide +kernel
  | statement => decide +kernel
  | classBody => decide +kernel
  | typeDeclaration => decide +kernel

end Rule

theorem reads_ofSource (source : List Char) :
    Reads ⟨source, 0, []⟩ [] (Input.ofSource source) [] := by
  unfold Input.ofSource
  split
  next c s =>
    split
    next hmark =>
      have hblank : Reads ⟨c :: s, 0, []⟩ [] ⟨s, c.utf8Size, []⟩ [] := by
        have hbytes : 0 + byteCount [c] = c.utf8Size := by simp [byteCount]
        have hcovers : Covers ⟨c :: s, 0, []⟩ [⟨none, [c]⟩] ⟨s, c.utf8Size, []⟩ := by
          rw [← hbytes]
          exact .single [] rfl
        refine ⟨⟨_, hcovers, ?_, rfl⟩, fun _ => .nil .nil, id⟩
        intro isOpen hopen
        cases isOpen with
        | true =>
          cases eq_null_of_not_isPresent (hopen rfl c rfl)
          cases hmark
        | false =>
          refine ⟨false, ?_, fun h => absurd h Bool.false_ne_true⟩
          rw [List.map_singleton, lineAfter_cons, Stretch.token, lineStep_blank]
          rfl
      obtain ⟨ss, hss⟩ := Input.exists_skips_trivia ⟨s, c.utf8Size, []⟩
      exact hblank.trans (.skip hss)
    next =>
      obtain ⟨ss, hss⟩ := Input.exists_skips_trivia ⟨c :: s, 0, []⟩
      exact .skip hss
  next => exact .refl _ _

/-- A source is covered if the form of a program reads all of it. -/
theorem exists_runs_of_parse? {source : String} {root : SpanTree} (h : parse? source = some root) :
    ∃ i out, Runs Rule.form (.form Rule.program) (.ofSource source.toList) [] i out ∧ i.rest = [] ∧
      root = .mk "program" 0 source.utf8ByteSize (i.comments ++ out).reverse := by
  unfold parse? at h
  dsimp only at h
  split at h
  next i out hrun =>
    rw [Option.ite_none_right_eq_some] at h
    cases h.2
    exact ⟨i, out, (Form.runs_of_run _ _).1 hrun, List.isEmpty_iff.mp h.1, rfl⟩
  next => cases h

/-- **The leaves of a unit are the recorded stretches of its source**: they are recorded in order and
where they stand, no stretch is lost in a line comment, and the nodes around them are trimmed. -/
theorem parse?_reads {source : String} {root : SpanTree} (h : parse? source = some root) :
    root.rule = "program" ∧ ∃ ss, source.toList = textOf ss ∧
      leavesOf root.children = leavesFrom 0 ss ∧ (∀ t ∈ root.children, Trimmed t) ∧
      ∃ last, lineAfter false (ss.map Stretch.token) = some last := by
  have hprogram : Rule.program.check false = some false := by decide +kernel
  obtain ⟨i, out, hruns, hend, rfl⟩ := exists_runs_of_parse? h
  have hstart := reads_ofSource source.toList
  have hsound : Sound ⟨source.toList, 0, []⟩ [] := .nil .nil
  have hreads := (Form.reads_of_runs Rule.isSome_check_form hruns hprogram
    (fun h => absurd h Bool.false_ne_true) (hstart.sound hsound)).toReads
  have hall := hstart.trans hreads
  obtain ⟨ss, hcovers, hlines, hleaves⟩ := hall.stretches
  have hsound' := hall.sound hsound
  obtain ⟨last, hlast, -⟩ := hlines false fun h => absurd h Bool.false_ne_true
  refine ⟨rfl, ss, ?_, ?_, ?_, last, hlast⟩
  · have htext := hcovers.text
    rw [hend, List.append_nil] at htext
    exact htext
  · have hparts : leavesOf (i.comments ++ out).reverse = leavesAt i out := by
      rw [List.reverse_append, leavesOf_append, leavesAt]
    change leavesOf (i.comments ++ out).reverse = _
    rw [hparts, hleaves]
    rfl
  · intro t ht
    rcases List.mem_append.mp (List.mem_reverse.mp ht) with ht | ht
    · exact hsound'.noted.trimmed t ht
    · exact hsound'.trimmed t ht

end CallMigration.Grammar
