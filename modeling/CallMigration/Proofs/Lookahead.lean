import CallMigration.Proofs.Starts

/-!
# Looking ahead

A reader with ordered choice tries one alternative after the other. A reader that looks at the next
character passes over all those that cannot begin with it.

A form is read with a bound for its depth, which an alternative that is passed over uses up as well. So
the reader that looks ahead also tells how much depth is needed for the same answer.

* `Form.ahead`, `Form.answers_of_ahead` : the reader that looks ahead, and its answers.
* `Form.read_eq` : the same is read.
-/

namespace CallMigration.Grammar

open Text CallMigration.Evaluated

/-! ## Scanning tokens -/

/-- Goes on with the next character. It is looked at here, so that what depends on it alone is the same
term at each place with the same character. -/
def peek {α : Type} (go : Option Char → α) : List Char → α
  | [] => go none
  | c :: _ => go (some c)

theorem peek_eq {α : Type} (go : Option Char → α) (s : List Char) : peek go s = go s.head? := by
  cases s <;> rfl

namespace Evaluated

def after? (s : String) (input : List Char) : Option (List Char) :=
  (chars s).isPrefixOf? input

/-- The token at the beginning of a text and the text behind it. -/
def scan (input : List Char) : Lexeme → Option (List Char × List Char)
  | .symbol s =>
    match after? s input with
    | some rest =>
      if ((longerSymbols.lookup s).getD []).any fun l => (after? l input).isSome then none
      else some (chars s, rest)
    | none => none
  | .text s => (after? s input).map fun rest => (chars s, rest)
  | .word s =>
    match after? s input with
    | some rest =>
      if (rest.head?.map continuesIdentifier).getD false then none else some (chars s, rest)
    | none => none
  | .name except =>
    let run := identifierRun input
    if run.isEmpty || except.any (fun word => chars word == run) then none
    else some (run, input.drop run.length)
  | .regex r =>
    match r.longest? input with
    | some (n + 1) => some (input.take (n + 1), input.drop (n + 1))
    | _ => none

/-- One of the tokens stands here. -/
def startsWith (i : Input) (lexemes : List Lexeme) : Bool :=
  lexemes.any fun l =>
    peek (fun next => l.start?.all (·.admits next)) i.rest && (scan i.rest l).isSome

theorem after?_eq (s : String) (input : List Char) : after? s input = Grammar.after? s input := by
  rw [after?, chars_eq, Grammar.after?]

theorem scan_eq (input : List Char) (lexeme : Lexeme) : scan input lexeme = lexeme.scan input := by
  cases lexeme with
  | symbol s =>
    rw [scan, Lexeme.scan, after?_eq]
    cases Grammar.after? s input with
    | none => rfl
    | some rest => simp only [after?_eq, chars_eq]
  | text s => simp only [scan, Lexeme.scan, after?_eq, chars_eq]
  | word s =>
    rw [scan, Lexeme.scan, after?_eq]
    cases Grammar.after? s input with
    | none => rfl
    | some rest => simp only [chars_eq]
  | name except =>
    have hword (word : String) (run : List Char) :
        (chars word == run) = (String.ofList run == word) := by
      rw [chars_eq, Bool.eq_iff_iff, beq_iff_eq, beq_iff_eq]
      constructor
      · rintro rfl
        exact String.ofList_toList
      · rintro rfl
        exact String.toList_ofList
    simp only [scan, Lexeme.scan, hword, List.contains_eq_any_beq]
  | regex r => rfl

theorem startsWith_eq (i : Input) (lexemes : List Lexeme) :
    startsWith i lexemes = i.startsWith lexemes := by
  unfold startsWith Input.startsWith
  congr 1
  funext l
  rw [peek_eq, scan_eq]
  cases hscan : l.scan i.rest with
  | none => rw [Option.isSome_none, Bool.and_false]
  | some found =>
    cases hs : l.start? with
    | none => rfl
    | some s =>
      obtain ⟨c, rest, hrest, hc⟩ := Lexeme.has_of_scan hscan hs
      rw [hrest, Option.all_some, Start.admits, List.head?_cons, Option.any_some, hc, Bool.or_true]
      rfl

end Evaluated

/-! ## The reader -/

/-- What is read, and a depth from which on this is the answer. -/
structure Answer where
  result : Option (Input × List SpanTree)
  depth : Nat

namespace Form

variable {ρ : Type} (grammar : ρ → Form ρ) (starts : ρ → Option Start)

/-- What is left of alternatives when those in front that cannot begin with the next character are
passed over. -/
def candidates (fs : List (Form ρ)) (next : Option Char) : List (Form ρ) :=
  fs.dropWhile fun f => !f.canBegin starts next

def tailCandidates (tails : Tails ρ) (next : Option Char) : Tails ρ :=
  tails.dropWhile fun tail => !tail.2.2.canBegin starts next

mutual
/-- Reads a form, looking at the next character where there is a choice. -/
def ahead : Nat → Form ρ → Input → List SpanTree → Option Answer
  | 0, _, _, _ => none
  | fuel + 1, f, i, out =>
    match f with
    | token leaf lexeme glued =>
      some ⟨(Evaluated.scan i.rest lexeme).map fun (text, rest) => i.take leaf glued text rest out, 1⟩
    | number =>
      some ⟨(numberAt? i.rest).map fun (name, length) =>
        i.take (some name) false (i.rest.take length) (i.rest.drop length) out, 1⟩
    | rule r => (ahead fuel (grammar r) i out).map fun x => ⟨x.result, x.depth + 1⟩
    | seq [] => some ⟨some (i, out), 1⟩
    | seq (f :: fs) =>
      (ahead fuel f i out).bind fun x =>
        match x.result with
        | some (i, out) =>
          (ahead fuel (seq fs) i out).map fun y => ⟨y.result, max x.depth y.depth + 1⟩
        | none => some ⟨none, x.depth + 1⟩
    | alt fs =>
      match peek (candidates starts fs) i.rest with
      | [] => some ⟨none, fs.length + 1⟩
      | f :: rest =>
        (ahead fuel f i out).bind fun x =>
          match x.result with
          | some r => some ⟨some r, fs.length + x.depth + 1⟩
          | none =>
            (ahead fuel (alt rest) i out).map fun y =>
              ⟨y.result, fs.length + max x.depth y.depth + 1⟩
    | opt f =>
      if peek (f.canBegin starts) i.rest then
        (ahead fuel f i out).map fun x => ⟨some (x.result.getD (i, out)), x.depth + 1⟩
      else some ⟨some (i, out), 1⟩
    | many f =>
      if peek (f.canBegin starts) i.rest then
        (ahead fuel f i out).bind fun x =>
          match x.result with
          | some (i, out) =>
            (ahead fuel (many f) i out).map fun y => ⟨y.result, max x.depth y.depth + 1⟩
          | none => some ⟨some (i, out), x.depth + 1⟩
      else some ⟨some (i, out), 1⟩
    | node name f =>
      (ahead fuel f i []).map fun x =>
        ⟨x.result.map fun (i, inner) => (i, wrap name inner out), x.depth + 1⟩
    | chain first tails =>
      (ahead fuel first i []).bind fun x =>
        match x.result with
        | some (i, left) =>
          (aheadTails fuel tails tails i left).map fun y =>
            ⟨y.result.map fun (i, left) => (i, left ++ out), max x.depth y.depth + 1⟩
        | none => some ⟨none, x.depth + 1⟩
    | only rules f =>
      (ahead fuel f i out).map fun x =>
        ⟨x.result.filter fun (_, out) => fits rules out, x.depth + 1⟩
    | absent lexemes =>
      some ⟨if Evaluated.startsWith i lexemes then none else some (i, out), 1⟩
    | present lexemes =>
      some ⟨if Evaluated.startsWith i lexemes then some (i, out) else none, 1⟩

def aheadTails : Nat → Tails ρ → Tails ρ → Input → List SpanTree → Option Answer
  | 0, _, _, _, _ => none
  | _ + 1, _, _, i, [] => some ⟨some (i, []), 1⟩
  | fuel + 1, all, tails, i, last :: before =>
    match peek (tailCandidates starts tails) i.rest with
    | [] => some ⟨some (i, last :: before), tails.length + 1⟩
    | (name, rules, f) :: rest =>
      if fits rules (last :: before) then
        (ahead fuel f i [last]).bind fun x =>
          match x.result with
          | some (i', inner) =>
            (aheadTails fuel all all i' (wrap name inner before)).map fun y =>
              ⟨y.result, tails.length + max x.depth y.depth + 1⟩
          | none =>
            (aheadTails fuel all rest i (last :: before)).map fun y =>
              ⟨y.result, tails.length + max x.depth y.depth + 1⟩
      else
        (aheadTails fuel all rest i (last :: before)).map fun y =>
          ⟨y.result, tails.length + y.depth + 1⟩
end

/-- Reads a form by looking ahead, or without if that does not tell the answer for this depth. -/
def read (depth : Nat) (f : Form ρ) (i : Input) (out : List SpanTree) :
    Option (Input × List SpanTree) :=
  match ahead grammar starts depth f i out with
  | some x => if x.depth ≤ depth then x.result else run grammar depth f i out
  | none => run grammar depth f i out

/-! ## Its answers -/

variable {grammar starts} {depth fuel : Nat} {f : Form ρ} {i : Input} {out : List SpanTree}

theorem run_eq_none (hstarts : StartsOf grammar starts)
    (h : f.canBegin starts i.rest.head? = false) : run grammar depth f i out = none := by
  cases hrun : run grammar depth f i out with
  | none => rfl
  | some found =>
    have hcovers := ((runs_of_run grammar depth).1 hrun).covers hstarts f rfl
    rw [canBegin_of_covers hcovers] at h
    cases h

/-- The alternatives that are passed over use up the depth, and nothing else. -/
theorem run_alt_candidates (i : Input) (out : List SpanTree) (hstarts : StartsOf grammar starts)
    (fs : List (Form ρ)) :
    ∃ passed ≤ fs.length, ∀ depth, run grammar (depth + passed) (alt fs) i out =
      run grammar depth (alt (candidates starts fs i.rest.head?)) i out := by
  induction fs with
  | nil => exact ⟨0, Nat.le_refl 0, fun _ => rfl⟩
  | cons f fs ih =>
    cases hbegin : f.canBegin starts i.rest.head? with
    | true =>
      refine ⟨0, Nat.zero_le _, fun depth => ?_⟩
      rw [candidates, List.dropWhile_cons_of_neg (by rw [hbegin]; decide), Nat.add_zero]
    | false =>
      obtain ⟨passed, hle, heq⟩ := ih
      refine ⟨passed + 1, Nat.succ_le_succ hle, fun depth => ?_⟩
      rw [candidates, List.dropWhile_cons_of_pos (by rw [hbegin]; rfl), ← candidates, ← heq,
        ← Nat.add_assoc, run, run_eq_none hstarts hbegin]

theorem runTails_candidates (i : Input) (hstarts : StartsOf grammar starts) (all tails : Tails ρ)
    (last : SpanTree) (before : List SpanTree) :
    ∃ passed ≤ tails.length, ∀ depth,
      runTails grammar (depth + 1 + passed) all tails i (last :: before) =
        runTails grammar (depth + 1) all (tailCandidates starts tails i.rest.head?) i
          (last :: before) := by
  induction tails with
  | nil => exact ⟨0, Nat.le_refl 0, fun _ => rfl⟩
  | cons tail tails ih =>
    obtain ⟨name, rules, f⟩ := tail
    cases hbegin : f.canBegin starts i.rest.head? with
    | true =>
      refine ⟨0, Nat.zero_le _, fun depth => ?_⟩
      rw [tailCandidates, List.dropWhile_cons_of_neg (by rw [hbegin]; decide), Nat.add_zero]
    | false =>
      obtain ⟨passed, hle, heq⟩ := ih
      refine ⟨passed + 1, Nat.succ_le_succ hle, fun depth => ?_⟩
      rw [tailCandidates, List.dropWhile_cons_of_pos (by rw [hbegin]; rfl), ← tailCandidates, ← heq,
        ← Nat.add_assoc, runTails, run_eq_none hstarts hbegin]
      exact ite_self _

/-- From the depth of the answer on, this is what is read. -/
def Answers (grammar : ρ → Form ρ) (f : Form ρ) (i : Input) (out : List SpanTree) (x : Answer) :
    Prop :=
  ∀ depth, x.depth ≤ depth → run grammar depth f i out = x.result

def TailsAnswer (grammar : ρ → Form ρ) (all tails : Tails ρ) (i : Input) (left : List SpanTree)
    (x : Answer) : Prop :=
  ∀ depth, x.depth ≤ depth → runTails grammar depth all tails i left = x.result

/-- What looking ahead tells with this fuel is what is read. -/
def AheadAnswers (grammar : ρ → Form ρ) (starts : ρ → Option Start) (fuel : Nat) : Prop :=
  ∀ {f : Form ρ} {i : Input} {out : List SpanTree} {x : Answer},
    ahead grammar starts fuel f i out = some x → Answers grammar f i out x

def TailsAheadAnswer (grammar : ρ → Form ρ) (starts : ρ → Option Start) (fuel : Nat) : Prop :=
  ∀ {all tails : Tails ρ} {i : Input} {left : List SpanTree} {x : Answer},
    aheadTails grammar starts fuel all tails i left = some x → TailsAnswer grammar all tails i left x

/-- An answer that needs some depth is one for the next step. -/
theorem Answers.of_step {result : Option (Input × List SpanTree)} (least : Nat)
    (h : ∀ depth, least ≤ depth → run grammar (depth + 1) f i out = result) :
    Answers grammar f i out ⟨result, least + 1⟩ := by
  intro depth hdepth
  obtain ⟨depth, rfl⟩ : ∃ d, depth = d + 1 := ⟨depth - 1, by simp only at hdepth; omega⟩
  exact h depth (Nat.le_of_succ_le_succ hdepth)

theorem TailsAnswer.of_step {all tails : Tails ρ} {left : List SpanTree}
    {result : Option (Input × List SpanTree)} (least : Nat)
    (h : ∀ depth, least ≤ depth → runTails grammar (depth + 1) all tails i left = result) :
    TailsAnswer grammar all tails i left ⟨result, least + 1⟩ := by
  intro depth hdepth
  obtain ⟨depth, rfl⟩ : ∃ d, depth = d + 1 := ⟨depth - 1, by simp only at hdepth; omega⟩
  exact h depth (Nat.le_of_succ_le_succ hdepth)

/-- The depth that is asked for is enough for what is passed over, one step more and what is read then. -/
theorem exists_depth {passed all depth : Nat} (least : Nat) (hle : passed ≤ all)
    (hdepth : all + least + 1 ≤ depth) : ∃ d, depth = d + 1 + passed ∧ least ≤ d :=
  ⟨depth - passed - 1, by omega, by omega⟩

theorem answers_of_ahead_seq (ih : AheadAnswers grammar starts fuel) {fs : List (Form ρ)} {x : Answer}
    (h : ahead grammar starts (fuel + 1) (seq fs) i out = some x) : Answers grammar (seq fs) i out x := by
  cases fs with
  | nil =>
    rw [ahead] at h
    cases h
    exact .of_step 0 fun _ _ => rfl
  | cons f fs =>
    rw [ahead] at h
    obtain ⟨⟨result, least⟩, hfirst, h⟩ := Option.bind_eq_some_iff.mp h
    cases result with
    | none =>
      cases h
      exact .of_step _ fun depth hdepth => by rw [run, ih hfirst depth hdepth]
    | some found =>
      obtain ⟨y, hrest, rfl⟩ := Option.map_eq_some_iff.mp h
      refine .of_step _ fun depth hdepth => ?_
      obtain ⟨hd₁, hd₂⟩ := Nat.max_le.mp hdepth
      rw [run, ih hfirst depth hd₁]
      exact ih hrest depth hd₂

theorem answers_of_ahead_alt (hstarts : StartsOf grammar starts) (ih : AheadAnswers grammar starts fuel)
    {fs : List (Form ρ)} {x : Answer} (h : ahead grammar starts (fuel + 1) (alt fs) i out = some x) :
    Answers grammar (alt fs) i out x := by
  obtain ⟨passed, hle, heq⟩ := run_alt_candidates i out hstarts fs
  rw [ahead, peek_eq] at h
  cases hfs : candidates starts fs i.rest.head? with
  | nil =>
    simp only [hfs] at h
    cases h
    intro depth hdepth
    obtain ⟨d, rfl, -⟩ := exists_depth 0 hle hdepth
    rw [heq, hfs, run]
  | cons f rest =>
    simp only [hfs] at h
    obtain ⟨⟨result, least⟩, hfirst, h⟩ := Option.bind_eq_some_iff.mp h
    cases result with
    | some found =>
      cases h
      intro depth hdepth
      obtain ⟨d, rfl, hd⟩ := exists_depth _ hle hdepth
      rw [heq, hfs, run, ih hfirst d hd]
    | none =>
      obtain ⟨y, hrest, rfl⟩ := Option.map_eq_some_iff.mp h
      intro depth hdepth
      obtain ⟨d, rfl, hd⟩ := exists_depth _ hle hdepth
      obtain ⟨hd₁, hd₂⟩ := Nat.max_le.mp hd
      rw [heq, hfs, run, ih hfirst d hd₁]
      exact ih hrest d hd₂

theorem answers_of_ahead_succ (hstarts : StartsOf grammar starts)
    (ih : AheadAnswers grammar starts fuel) (ihtails : TailsAheadAnswer grammar starts fuel)
    {x : Answer} (h : ahead grammar starts (fuel + 1) f i out = some x) : Answers grammar f i out x := by
  cases f with
  | token leaf lexeme glued =>
    rw [ahead] at h
    cases h
    exact .of_step 0 fun depth _ => by rw [run, Evaluated.scan_eq]
  | number =>
    rw [ahead] at h
    cases h
    exact .of_step 0 fun depth _ => by rw [run]
  | rule r =>
    rw [ahead] at h
    obtain ⟨y, hy, rfl⟩ := Option.map_eq_some_iff.mp h
    exact .of_step _ fun depth hdepth => by rw [run, ih hy depth hdepth]
  | seq fs => exact answers_of_ahead_seq ih h
  | alt fs => exact answers_of_ahead_alt hstarts ih h
  | opt f =>
    rw [ahead, peek_eq] at h
    split at h
    next =>
      obtain ⟨⟨result, least⟩, hy, rfl⟩ := Option.map_eq_some_iff.mp h
      refine .of_step _ fun depth hdepth => ?_
      rw [run, ih hy depth hdepth]
      cases result <;> rfl
    next hbegin =>
      cases h
      exact .of_step 0 fun depth _ => by
        rw [run, run_eq_none hstarts (Bool.eq_false_iff.mpr hbegin)]
  | many f =>
    rw [ahead, peek_eq] at h
    split at h
    next =>
      obtain ⟨⟨result, least⟩, hfirst, h⟩ := Option.bind_eq_some_iff.mp h
      cases result with
      | none =>
        cases h
        exact .of_step _ fun depth hdepth => by rw [run, ih hfirst depth hdepth]
      | some found =>
        obtain ⟨y, hrest, rfl⟩ := Option.map_eq_some_iff.mp h
        refine .of_step _ fun depth hdepth => ?_
        obtain ⟨hd₁, hd₂⟩ := Nat.max_le.mp hdepth
        rw [run, ih hfirst depth hd₁]
        exact ih hrest depth hd₂
    next hbegin =>
      cases h
      exact .of_step 0 fun depth _ => by
        rw [run, run_eq_none hstarts (Bool.eq_false_iff.mpr hbegin)]
  | node name f =>
    rw [ahead] at h
    obtain ⟨⟨result, least⟩, hy, rfl⟩ := Option.map_eq_some_iff.mp h
    refine .of_step _ fun depth hdepth => ?_
    rw [run, ih hy depth hdepth]
    cases result <;> rfl
  | chain first tails =>
    rw [ahead] at h
    obtain ⟨⟨result, least⟩, hfirst, h⟩ := Option.bind_eq_some_iff.mp h
    cases result with
    | none =>
      cases h
      exact .of_step _ fun depth hdepth => by rw [run, ih hfirst depth hdepth]
    | some found =>
      obtain ⟨⟨result, least'⟩, htails, rfl⟩ := Option.map_eq_some_iff.mp h
      refine .of_step _ fun depth hdepth => ?_
      obtain ⟨hd₁, hd₂⟩ := Nat.max_le.mp hdepth
      rw [run, ih hfirst depth hd₁]
      simp only
      rw [ihtails htails depth hd₂]
      cases result <;> rfl
  | only rules f =>
    rw [ahead] at h
    obtain ⟨⟨result, least⟩, hy, rfl⟩ := Option.map_eq_some_iff.mp h
    refine .of_step _ fun depth hdepth => ?_
    rw [run, ih hy depth hdepth]
    cases result with
    | none => rfl
    | some found =>
      rw [Option.filter_some]
  | absent lexemes =>
    rw [ahead] at h
    cases h
    exact .of_step 0 fun depth _ => by rw [run, Evaluated.startsWith_eq]
  | present lexemes =>
    rw [ahead] at h
    cases h
    exact .of_step 0 fun depth _ => by rw [run, Evaluated.startsWith_eq]

theorem tailsAnswer_of_aheadTails_succ (hstarts : StartsOf grammar starts)
    (ih : AheadAnswers grammar starts fuel) (ihtails : TailsAheadAnswer grammar starts fuel)
    {all tails : Tails ρ} {left : List SpanTree} {x : Answer}
    (h : aheadTails grammar starts (fuel + 1) all tails i left = some x) :
    TailsAnswer grammar all tails i left x := by
  cases left with
  | nil =>
    rw [aheadTails] at h
    cases h
    refine .of_step 0 fun depth _ => ?_
    cases tails <;> rfl
  | cons last before =>
    obtain ⟨passed, hle, heq⟩ := runTails_candidates i hstarts all tails last before
    rw [aheadTails, peek_eq] at h
    cases htails : tailCandidates starts tails i.rest.head? with
    | nil =>
      simp only [htails] at h
      cases h
      intro depth hdepth
      obtain ⟨d, rfl, -⟩ := exists_depth 0 hle hdepth
      rw [heq, htails, runTails]
    | cons tail rest =>
      obtain ⟨name, rules, f⟩ := tail
      simp only [htails] at h
      split at h
      next hfits =>
        obtain ⟨⟨result, least⟩, hfirst, h⟩ := Option.bind_eq_some_iff.mp h
        cases result with
        | some found =>
          obtain ⟨y, hrest, rfl⟩ := Option.map_eq_some_iff.mp h
          intro depth hdepth
          obtain ⟨d, rfl, hd⟩ := exists_depth _ hle hdepth
          obtain ⟨hd₁, hd₂⟩ := Nat.max_le.mp hd
          rw [heq, htails, runTails, if_pos hfits, ih hfirst d hd₁]
          exact ihtails hrest d hd₂
        | none =>
          obtain ⟨y, hrest, rfl⟩ := Option.map_eq_some_iff.mp h
          intro depth hdepth
          obtain ⟨d, rfl, hd⟩ := exists_depth _ hle hdepth
          obtain ⟨hd₁, hd₂⟩ := Nat.max_le.mp hd
          rw [heq, htails, runTails, if_pos hfits, ih hfirst d hd₁]
          exact ihtails hrest d hd₂
      next hfits =>
        obtain ⟨y, hrest, rfl⟩ := Option.map_eq_some_iff.mp h
        intro depth hdepth
        obtain ⟨d, rfl, hd⟩ := exists_depth _ hle hdepth
        rw [heq, htails, runTails, if_neg hfits]
        exact ihtails hrest d hd

/-- **What looking ahead tells is what is read**, with any bound from the depth of the answer on. -/
theorem answers_of_ahead (hstarts : StartsOf grammar starts) (fuel : Nat) :
    AheadAnswers grammar starts fuel ∧ TailsAheadAnswer grammar starts fuel := by
  induction fuel with
  | zero =>
    constructor
    · intro f i out x h
      rw [ahead] at h
      cases h
    · intro all tails i left x h
      rw [aheadTails] at h
      cases h
  | succ fuel ih =>
    exact ⟨answers_of_ahead_succ hstarts ih.1 ih.2, tailsAnswer_of_aheadTails_succ hstarts ih.1 ih.2⟩

theorem read_eq (hstarts : StartsOf grammar starts) :
    read grammar starts depth f i out = run grammar depth f i out := by
  unfold read
  split
  next hahead =>
    split
    next hdepth => exact ((answers_of_ahead hstarts depth).1 hahead depth hdepth).symm
    next => rfl
  next => rfl

end Form

end CallMigration.Grammar
