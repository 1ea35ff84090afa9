import CallMigration.Batch.Report
import CallMigration.Proofs.Additive
import CallMigration.Proofs.Lossless

/-!
# What a report on a batch says

A report has one entry for each source, in order. Unless the status of an entry is that of a change,
its text is the source: a unit spells the source that it was read from, a skipped unit is handed back,
and a walk that ends in an equal tree is no change.

* `JavaUnit.text_of_parse` : a unit spells the source that it was read from.
* `Outcome.Keeps`, `Recipe.keeps_of_runSource` : what a run does to a source that it does not change.
* `Stats.total_eq` : totals are sums.
* `Batch.run_faithful` : the entries and the totals of a report.
-/

namespace CallMigration

theorem JavaUnit.text_of_parse {source : String} {u : JavaUnit} (h : parse source = .ok u) :
    u.text = source :=
  Tree.text_of_ofSpans (ofSpans_of_parseWith h).1

/-! ## Outcomes -/

/-- The text stays unless there is a change, and a unit that was skipped has no counts. -/
structure Outcome.Keeps (source : String) (o : Outcome) : Prop where
  text : o.changed = false → o.unit.text = source
  skipped : o.skipped.isSome = true → o.changed = false ∧ o.stats = .zero

theorem Outcome.keeps_skip (u : JavaUnit) (reason : SkipReason) : (skip u reason).Keeps u.text :=
  ⟨fun _ => rfl, fun _ => ⟨rfl, rfl⟩⟩

theorem Outcome.keeps_ofWalk (u : JavaUnit) (new : Option Tree) (w : Walk) :
    (ofWalk u new w).Keeps u.text := by
  refine ⟨?_, fun h => ?_⟩
  · unfold ofWalk
    split
    next k cs =>
      -- The flag compares the trees, not the texts.
      intro hsame
      have htree := of_decide_eq_false hsame
      rw [not_not] at htree
      exact congrArg Tree.text htree
    next => exact fun _ => rfl
  · rw [skipped_ofWalk] at h
    cases h

theorem Rule.keeps_run (rule : Rule) (table : TypeTable) (u : JavaUnit) :
    (rule.run table u).Keeps u.text := by
  rcases rule.run_cases table u with ⟨-, reason, hskip⟩ | ⟨-, hwalk⟩
  · rw [hskip]
    exact Outcome.keeps_skip u reason
  · rw [hwalk]
    exact Outcome.keeps_ofWalk u _ _

namespace Recipe

theorem keeps_of_runSource {recipe : Recipe} {source : String} {o : Outcome}
    (h : recipe.runSource source = .ok o) : o.Keeps source := by
  unfold runSource at h
  split at h
  next u hparse =>
    cases h
    rw [← JavaUnit.text_of_parse hparse]
    exact recipe.rule.keeps_run recipe.table u
  next => cases h

def runUnless (recipe : Recipe) (refuse : String → Option RuleError) (source : String) :
    Except RuleError Outcome :=
  match refuse source with
  | some e => .error e
  | none => recipe.runSource source

theorem keeps_of_runUnless {recipe : Recipe} {refuse : String → Option RuleError} {source : String}
    {o : Outcome} (h : recipe.runUnless refuse source = .ok o) : o.Keeps source := by
  unfold runUnless at h
  split at h
  next => cases h
  next => exact keeps_of_runSource h

end Recipe

/-! ## Totals -/

namespace Stats

theorem foldl_add (ss : List Stats) (s : Stats) :
    ss.foldl add s = ⟨s.callsVisited + (ss.map (·.callsVisited)).sum,
      s.callsMigrated + (ss.map (·.callsMigrated)).sum,
      s.importsAdded + (ss.map (·.importsAdded)).sum⟩ := by
  induction ss generalizing s with
  | nil => simp
  | cons first ss ih => simp [ih, add, Nat.add_assoc]

theorem total_eq (ss : List Stats) :
    total ss = ⟨(ss.map (·.callsVisited)).sum, (ss.map (·.callsMigrated)).sum,
      (ss.map (·.importsAdded)).sum⟩ := by
  simp [total, foldl_add, zero]

end Stats

/-! ## Entries -/

namespace Batch

/-- The status says what became of the source. -/
inductive Reports : Except RuleError Outcome → UnitStatus → Prop
  | failed (e : RuleError) : Reports (.error e) (.failed e.message)
  | skipped {o : Outcome} {reason : SkipReason} : o.skipped = some reason →
      Reports (.ok o) (.skipped reason)
  | changed {o : Outcome} (diff : String) : o.skipped = none → o.changed = true →
      Reports (.ok o) (.changed diff)
  | unchanged {o : Outcome} : o.skipped = none → o.changed = false → Reports (.ok o) .unchanged

/-- What an entry says about a source of which `result` was made. -/
structure Faithful (result : Except RuleError Outcome) (u : SourceUnit) (e : UnitReport) : Prop where
  id : e.id = u.id
  status : Reports result e.status
  /-- Without a change, the text is the source. -/
  kept : (∀ diff, e.status ≠ .changed diff) → e.output = u.source
  /-- The text and the counts of a source that could be processed. -/
  processed : ∀ o, result = .ok o → e.output = o.unit.text ∧ e.stats = o.stats
  /-- What was not walked has no counts. -/
  idle : (∃ reason, e.status = .skipped reason) ∨ (∃ message, e.status = .failed message) →
    e.stats = .zero

theorem reports_statusOf (context : Nat) (u : SourceUnit) (o : Outcome) :
    Reports (.ok o) (statusOf context u o) := by
  unfold statusOf
  split
  next reason hreason => exact .skipped hreason
  next hnone =>
    split
    next hchanged => exact .changed _ hnone hchanged
    next hchanged => exact .unchanged hnone (by simpa using hchanged)

/-- A status that is not that of a change is given to an outcome without one. -/
theorem Reports.not_changed {o : Outcome} {status : UnitStatus} {source : String}
    (h : Reports (.ok o) status) (hkeeps : o.Keeps source)
    (hstatus : ∀ diff, status ≠ .changed diff) : o.changed = false := by
  cases h with
  | skipped hreason => exact (hkeeps.skipped (by rw [hreason]; rfl)).1
  | changed diff _ _ => exact absurd rfl (hstatus diff)
  | unchanged _ hchanged => exact hchanged

/-- Among the outcomes, only those that were skipped have a status without counts. -/
theorem Reports.stats_eq_zero {o : Outcome} {status : UnitStatus} {source : String}
    (h : Reports (.ok o) status) (hkeeps : o.Keeps source)
    (hstatus : (∃ reason, status = .skipped reason) ∨ (∃ message, status = .failed message)) :
    o.stats = .zero := by
  cases h with
  | skipped hreason => exact (hkeeps.skipped (by rw [hreason]; rfl)).2
  | changed diff _ _ =>
    rcases hstatus with ⟨_, hstatus⟩ | ⟨_, hstatus⟩
    · cases hstatus
    · cases hstatus
  | unchanged _ _ =>
    rcases hstatus with ⟨_, hstatus⟩ | ⟨_, hstatus⟩
    · cases hstatus
    · cases hstatus

theorem faithful_runUnit {process : String → Except RuleError Outcome} (context : Nat)
    (u : SourceUnit) (hprocess : ∀ o, process u.source = .ok o → o.Keeps u.source) :
    Faithful (process u.source) u (runUnit process context u) := by
  unfold runUnit
  cases hresult : process u.source with
  | error e =>
    exact ⟨rfl, .failed e, fun _ => rfl, fun o h => (nomatch h), fun _ => rfl⟩
  | ok o =>
    have hkeeps := hprocess o hresult
    have hreports := reports_statusOf context u o
    refine ⟨rfl, hreports, ?_, ?_, hreports.stats_eq_zero hkeeps⟩
    · intro hstatus
      exact hkeeps.text (hreports.not_changed hkeeps hstatus)
    · rintro _ ⟨⟩
      exact ⟨rfl, rfl⟩

/-- The report on several sources: one faithful entry for each of them, in order, and sums of what the
entries count. The recipe may fail on any of the sources. -/
theorem run_faithful (recipe : Recipe) (refuse : String → Option RuleError) (context : Nat)
    (units : List SourceUnit) :
    let report := run (recipe.runUnless refuse) context units
    List.Forall₂ (fun u e => Faithful (recipe.runUnless refuse u.source) u e) units report.units ∧
      report.stats.callsVisited = (report.units.map (·.stats.callsVisited)).sum ∧
      report.stats.callsMigrated = (report.units.map (·.stats.callsMigrated)).sum ∧
      report.stats.importsAdded = (report.units.map (·.stats.importsAdded)).sum := by
  intro report
  refine ⟨?_, ?_⟩
  · refine List.forall₂_map_right_iff.mpr (List.forall₂_same.mpr fun u _ => ?_)
    exact faithful_runUnit context u fun _ => Recipe.keeps_of_runUnless
  · have hstats : report.stats = Stats.total (report.units.map (·.stats)) := rfl
    rw [hstats, Stats.total_eq]
    simp only [List.map_map]
    exact ⟨rfl, rfl, rfl⟩

end Batch

end CallMigration
