import CallMigration.Grammar.Form
import CallMigration.Proofs.Basic

/-!
# Runs of a grammar

A reader is given a bound for its depth, and takes the first alternative that fits. Where only what has
been read counts, neither matters: a run of a form is made of runs of its parts. What holds of all runs
is shown by induction on them, with one case for each way to read a form.

* `Task` : a form, or the tails of a chain.
* `Runs` : what is read and recorded for a form or for tails.
* `Form.runs_of_run` : what a reader gives is a run.
-/

namespace CallMigration.Grammar

/-- The tails of a chain: the rule of the node that a tail makes, the rules that it may follow, and its
form. -/
abbrev Tails (ρ : Type) : Type :=
  List (String × List String × Form ρ)

/-- Something to read. -/
inductive Task (ρ : Type) where
  | form (f : Form ρ)
  /-- One of `tails`, then again any of `all`. -/
  | tails (all tails : Tails ρ)

/-- What is read and recorded; the outputs have the last element first. -/
inductive Runs {ρ : Type} (grammar : ρ → Form ρ) :
    Task ρ → Input → List SpanTree → Input → List SpanTree → Prop
  | token {leaf : Option String} {lexeme : Lexeme} {glued : Bool} {i : Input} {out : List SpanTree}
      {text rest : List Char} : lexeme.scan i.rest = some (text, rest) →
      Runs grammar (.form (.token leaf lexeme glued)) i out (i.take leaf glued text rest out).1
        (i.take leaf glued text rest out).2
  | number {i : Input} {out : List SpanTree} {name : String} {length : Nat} :
      numberAt? i.rest = some (name, length) →
      Runs grammar (.form .number) i out
        (i.take (some name) false (i.rest.take length) (i.rest.drop length) out).1
        (i.take (some name) false (i.rest.take length) (i.rest.drop length) out).2
  | rule {r : ρ} {i i' : Input} {out out' : List SpanTree} :
      Runs grammar (.form (grammar r)) i out i' out' → Runs grammar (.form (.rule r)) i out i' out'
  | seq_nil {i : Input} {out : List SpanTree} : Runs grammar (.form (.seq [])) i out i out
  | seq_cons {f : Form ρ} {fs : List (Form ρ)} {i middle i' : Input} {out between out' : List SpanTree} :
      Runs grammar (.form f) i out middle between →
      Runs grammar (.form (.seq fs)) middle between i' out' →
      Runs grammar (.form (.seq (f :: fs))) i out i' out'
  | alt_first {f : Form ρ} {fs : List (Form ρ)} {i i' : Input} {out out' : List SpanTree} :
      Runs grammar (.form f) i out i' out' → Runs grammar (.form (.alt (f :: fs))) i out i' out'
  | alt_rest {f : Form ρ} {fs : List (Form ρ)} {i i' : Input} {out out' : List SpanTree} :
      Runs grammar (.form (.alt fs)) i out i' out' →
      Runs grammar (.form (.alt (f :: fs))) i out i' out'
  | opt_some {f : Form ρ} {i i' : Input} {out out' : List SpanTree} :
      Runs grammar (.form f) i out i' out' → Runs grammar (.form (.opt f)) i out i' out'
  | opt_none {f : Form ρ} {i : Input} {out : List SpanTree} : Runs grammar (.form (.opt f)) i out i out
  | many_again {f : Form ρ} {i middle i' : Input} {out between out' : List SpanTree} :
      Runs grammar (.form f) i out middle between →
      Runs grammar (.form (.many f)) middle between i' out' →
      Runs grammar (.form (.many f)) i out i' out'
  | many_done {f : Form ρ} {i : Input} {out : List SpanTree} :
      Runs grammar (.form (.many f)) i out i out
  | node {name : String} {f : Form ρ} {i i' : Input} {out inner : List SpanTree} :
      Runs grammar (.form f) i [] i' inner →
      Runs grammar (.form (.node name f)) i out i' (wrap name inner out)
  | chain {first : Form ρ} {tails : Tails ρ} {i middle i' : Input} {out left left' : List SpanTree} :
      Runs grammar (.form first) i [] middle left → Runs grammar (.tails tails tails) middle left i' left' →
      Runs grammar (.form (.chain first tails)) i out i' (left' ++ out)
  | only {rules : List String} {f : Form ρ} {i i' : Input} {out out' : List SpanTree} :
      Runs grammar (.form f) i out i' out' → fits rules out' = true →
      Runs grammar (.form (.only rules f)) i out i' out'
  | absent {lexemes : List Lexeme} {i : Input} {out : List SpanTree} :
      i.startsWith lexemes = false → Runs grammar (.form (.absent lexemes)) i out i out
  | present {lexemes : List Lexeme} {i : Input} {out : List SpanTree} :
      i.startsWith lexemes = true → Runs grammar (.form (.present lexemes)) i out i out
  /-- No tail is left, or nothing that one could follow. -/
  | tails_done {all tails : Tails ρ} {i : Input} {left : List SpanTree} :
      Runs grammar (.tails all tails) i left i left
  | tails_first {all tails : Tails ρ} {name : String} {rules : List String} {f : Form ρ}
      {i middle i' : Input} {last : SpanTree} {before inner left' : List SpanTree} :
      fits rules (last :: before) = true → Runs grammar (.form f) i [last] middle inner →
      Runs grammar (.tails all all) middle (wrap name inner before) i' left' →
      Runs grammar (.tails all ((name, rules, f) :: tails)) i (last :: before) i' left'
  | tails_rest {all tails : Tails ρ} {tail : String × List String × Form ρ} {i i' : Input}
      {left left' : List SpanTree} : Runs grammar (.tails all tails) i left i' left' →
      Runs grammar (.tails all (tail :: tails)) i left i' left'

namespace Form

variable {ρ : Type} {grammar : ρ → Form ρ} {depth : Nat}

/-- What a reader gives for forms, at most `depth` forms inside each other, are runs. -/
def GivesRuns (grammar : ρ → Form ρ) (depth : Nat) : Prop :=
  ∀ {f : Form ρ} {i i' : Input} {out out' : List SpanTree},
    run grammar depth f i out = some (i', out') → Runs grammar (.form f) i out i' out'

def TailsGiveRuns (grammar : ρ → Form ρ) (depth : Nat) : Prop :=
  ∀ {all tails : Tails ρ} {i i' : Input} {left left' : List SpanTree},
    runTails grammar depth all tails i left = some (i', left') →
      Runs grammar (.tails all tails) i left i' left'

theorem runs_of_run_succ (ih : GivesRuns grammar depth) (ihtails : TailsGiveRuns grammar depth)
    {f : Form ρ} {i i' : Input} {out out' : List SpanTree}
    (h : run grammar (depth + 1) f i out = some (i', out')) : Runs grammar (.form f) i out i' out' := by
  cases f with
  | token leaf lexeme glued =>
    rw [run] at h
    obtain ⟨⟨text, rest⟩, hscan, htake⟩ := Option.map_eq_some_iff.mp h
    cases htake
    exact .token hscan
  | number =>
    rw [run] at h
    obtain ⟨⟨name, length⟩, hnumber, htake⟩ := Option.map_eq_some_iff.mp h
    cases htake
    exact .number hnumber
  | rule r =>
    rw [run] at h
    exact .rule (ih h)
  | seq fs =>
    cases fs with
    | nil =>
      rw [run] at h
      cases h
      exact .seq_nil
    | cons f fs =>
      rw [run] at h
      split at h
      next hfirst => exact .seq_cons (ih hfirst) (ih h)
      next => cases h
  | alt fs =>
    cases fs with
    | nil =>
      rw [run] at h
      cases h
    | cons f fs =>
      rw [run] at h
      split at h
      next hfirst =>
        cases h
        exact .alt_first (ih hfirst)
      next => exact .alt_rest (ih h)
  | opt f =>
    rw [run] at h
    split at h
    next hfirst =>
      cases h
      exact .opt_some (ih hfirst)
    next =>
      cases h
      exact .opt_none
  | many f =>
    rw [run] at h
    split at h
    next hfirst => exact .many_again (ih hfirst) (ih h)
    next =>
      cases h
      exact .many_done
  | node name f =>
    rw [run] at h
    split at h
    next hinner =>
      cases h
      exact .node (ih hinner)
    next => cases h
  | chain first tails =>
    rw [run] at h
    split at h
    next hfirst =>
      split at h
      next htails =>
        cases h
        exact .chain (ih hfirst) (ihtails htails)
      next => cases h
    next => cases h
  | only rules f =>
    rw [run] at h
    split at h
    next hfirst =>
      rw [Option.ite_none_right_eq_some] at h
      cases h.2
      exact .only (ih hfirst) h.1
    next => cases h
  | absent lexemes =>
    rw [run, Option.ite_none_left_eq_some] at h
    cases h.2
    exact .absent (Bool.not_eq_true _ ▸ h.1)
  | present lexemes =>
    rw [run, Option.ite_none_right_eq_some] at h
    cases h.2
    exact .present h.1

theorem runs_of_runTails_succ (ih : GivesRuns grammar depth) (ihtails : TailsGiveRuns grammar depth)
    {all tails : Tails ρ} {i i' : Input} {left left' : List SpanTree}
    (h : runTails grammar (depth + 1) all tails i left = some (i', left')) :
    Runs grammar (.tails all tails) i left i' left' := by
  cases tails with
  | nil =>
    rw [runTails] at h
    cases h
    exact .tails_done
  | cons tail tails =>
    obtain ⟨name, rules, f⟩ := tail
    cases left with
    | nil =>
      rw [runTails] at h
      cases h
      exact .tails_done
    | cons last before =>
      rw [runTails] at h
      split at h
      next hfits =>
        split at h
        next hinner => exact .tails_first hfits (ih hinner) (ihtails h)
        next => exact .tails_rest (ihtails h)
      next => exact .tails_rest (ihtails h)

/-- **What a reader gives is a run**, whatever the bound for its depth. -/
theorem runs_of_run (grammar : ρ → Form ρ) (depth : Nat) :
    GivesRuns grammar depth ∧ TailsGiveRuns grammar depth := by
  induction depth with
  | zero =>
    constructor
    · intro f i i' out out' h
      rw [run] at h
      cases h
    · intro all tails i i' left left' h
      rw [runTails] at h
      cases h
  | succ depth ih => exact ⟨runs_of_run_succ ih.1 ih.2, runs_of_runTails_succ ih.1 ih.2⟩

end Form

end CallMigration.Grammar
